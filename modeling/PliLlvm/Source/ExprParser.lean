import Mathlib.Algebra.Order.Group.Nat
import PliLlvm.Source.Lexer

/- The expression parser (src/parser.cpp: infixOp, precOf, parseExpr, parseUnary,
   parsePower, parsePrimary). The tokens before the cursor are dropped, the last token
   stays. An expression keeps what the parser puts into it but no source location, and a
   numeric constant is kept as it is spelled: what strtoll and strtod make of the digits
   is left out. exprDepth_ counts down from kMaxExprDepth and is what the recursion is on;
   the loops take a token a turn and have as much fuel as there are tokens. -/
namespace PliParser
open Scan (Byte Loc)
open PliLexer (Tok Token Diag ch word showText)

abbrev Bytes := List Byte

def tokName : Tok → String
  | .eof => "end of file"
  | .word => "identifier"
  | .number => "numeric constant"
  | .isub => "iSUB"
  | .charLit => "character constant"
  | .bitLit => "bit constant"
  | .hexLit => "hex constant"
  | .semi => "';'"
  | .colon => "':'"
  | .comma => "','"
  | .lParen => "'('"
  | .rParen => "')'"
  | .dot => "'.'"
  | .eq => "'='"
  | .plus => "'+'"
  | .minus => "'-'"
  | .star => "'*'"
  | .slash => "'/'"
  | .power => "'**'"
  | .concat => "'||'"
  | .amp => "'&'"
  | .bar => "'|'"
  | .not => "'not'"
  | .lt => "'<'"
  | .le => "'<='"
  | .gt => "'>'"
  | .ge => "'>='"
  | .ne => "'not='"
  | .ngt => "'not>'"
  | .nlt => "'not<'"
  | .arrow => "'->'"
  | .percent => "'%'"

structure Constant where
  text : Bytes
  binaryRadix : Bool
  imaginary : Bool
  sterling : Bool
  isFloat : Bool
  hasExp : Bool

def Constant.of (t : Token) : Constant :=
  ⟨t.text, t.binaryRadix, t.imaginary, t.sterling, t.isFloat, t.hasExp⟩

/-- A reference is a name with its member qualifiers, its arguments, if it has a list of
    them, and its locator; `missing` is a null pointer, `fresh` an expression that nothing
    has been put into. -/
inductive Expr where
  | missing
  | fresh
  | number (c : Constant)
  | charLit (sval : Bytes)
  | bitLit (sval : Bytes)
  | star
  | typeTag (raw : Bytes)
  | ref (name : Bytes) (path : List Bytes) (args : Option (List Expr)) (locPtr : Option Expr)
  | unary (op : Tok) (a : Expr)
  | binary (op : Tok) (a b : Expr)

structure PState where
  toks : List Token
  errs : List Diag

namespace PState

def cur (s : PState) : Token := s.toks.headD (Token.fresh .eof ⟨1, 1⟩)

def peek (s : PState) (n : Nat) : Token := s.toks.getD n (s.toks.getLastD s.cur)

def at_ (s : PState) (k : Tok) : Bool := s.cur.kind == k

def advance (s : PState) : PState :=
  match s.toks with
  | _ :: t :: rest => { s with toks := t :: rest }
  | _ => s

def error (s : PState) (loc : Loc) (msg rule : String) : PState :=
  { s with errs := s.errs ++ [⟨loc, msg, rule⟩] }

end PState

def expect (k : Tok) (rule : String) (s : PState) : PState :=
  if s.at_ k then s.advance
  else s.error s.cur.loc
    ("expected " ++ tokName k ++ ", found " ++
      (if s.cur.kind = .word then "'" ++ showText s.cur.text ++ "'" else tokName s.cur.kind)) rule

def operatorWords : List (Bytes × Tok) :=
  [(word "AND", .amp), (word "OR", .bar), (word "CAT", .concat), (word "GT", .gt),
    (word "LT", .lt), (word "GE", .ge), (word "LE", .le), (word "NE", .ne), (word "NG", .ngt),
    (word "NL", .nlt)]

def infixOp (t : Token) : Tok :=
  match t.kind with
  | .bar | .amp | .concat | .eq | .ne | .lt | .le | .gt | .ge | .ngt | .nlt | .plus | .minus
  | .star | .slash | .power => t.kind
  | .word => (operatorWords.lookup t.text).getD .eof
  | _ => .eof

def precOf : Tok → Nat
  | .bar => 1
  | .amp => 2
  | .eq | .ne | .lt | .le | .gt | .ge | .ngt | .nlt => 3
  | .concat => 4
  | .plus | .minus => 5
  | .star | .slash => 6
  | _ => 0

def isEnquiryName (w : Bytes) : Bool :=
  w == word "NULL" || w == word "DECLARESIZE" || w == word "EPSILON" || w == word "MAXVAL" ||
    w == word "MINVAL"

def kMaxExprDepth : Nat := 512

def kMaxReplicatedChars : Nat := 2 ^ 20

def nibble (c : Byte) : Option Nat :=
  if ch '0' ≤ c && c ≤ ch '9' then some (c.toNat - (ch '0').toNat)
  else if ch 'A' ≤ c && c ≤ ch 'F' then some (c.toNat - (ch 'A').toNat + 10)
  else if ch 'a' ≤ c && c ≤ ch 'f' then some (c.toNat - (ch 'a').toNat + 10)
  else none

def hexPairs : Bytes → Except String Bytes
  | [] => .ok []
  | [_] => .error "a hex X literal needs an even digit count"
  | c :: d :: rest =>
    match nibble c, nibble d with
    | some hi, some lo => (hexPairs rest).map fun bytes => UInt8.ofNat (hi * 16 + lo) :: bytes
    | _, _ => .error "a hex X literal needs hex digits"

def decodeHexLiteral (hex : Bytes) : Except String Bytes :=
  if hex.length % 2 = 0 then hexPairs hex
  else .error "a hex X literal needs an even digit count"

def strtoll (text : Bytes) : Nat :=
  min ((text.takeWhile PliLexer.isDigit).foldl (fun n c => n * 10 + (c.toNat - 48)) 0) (2 ^ 63 - 1)

def digits (s : Bytes) : Bool := !s.isEmpty && s.all PliLexer.isDigit

def natOf (s : Bytes) : Nat := s.foldl (fun n c => n * 10 + (c.toNat - 48)) 0

def sterlingOk (text : Bytes) : Bool :=
  match text.splitOn (ch '.') with
  | [pounds, shill, pence] => parts pounds shill pence []
  | [pounds, shill, pence, fraction] => digits fraction && parts pounds shill pence fraction
  | _ => false
where
  parts (pounds shill pence fraction : Bytes) : Bool :=
    let sig := pounds.dropWhile (· == ch '0')
    let poundsDigits := if sig.isEmpty then 1 else sig.length
    let value := (natOf pounds * 240 + natOf shill * 12 + natOf pence) * 10 ^ fraction.length +
      natOf fraction
    digits pounds && digits shill && digits pence &&
      decide (shill.length ≤ 2 ∧ pence.length ≤ 2 ∧ fraction.length ≤ 38) &&
      decide (natOf shill < 20 ∧ natOf pence < 12 ∧ poundsDigits + fraction.length + 3 ≤ 38 ∧
        (Nat.toDigits 10 value).length ≤ 38)

structure Calls where
  expr : Nat → PState → Option Expr × PState
  unary : PState → Option Expr × PState

def replicated (s : PState) : Bool :=
  s.at_ .lParen && (s.peek 1).kind == .number && !(s.peek 1).isFloat &&
    (s.peek 2).kind == .rParen &&
    ((s.peek 3).kind == .charLit || (s.peek 3).kind == .bitLit || (s.peek 3).kind == .hexLit)

def parseReplicated (s : PState) : Expr × PState :=
  let number := s.peek 1
  let lit := s.peek 3
  let count := strtoll number.text
  let s := s.advance.advance.advance.advance
  let times (bytes : Bytes) : Bytes := (List.replicate count bytes).flatten
  if count > kMaxReplicatedChars / max 1 lit.sval.length then
    (.charLit [], s.error number.loc "a replicated string constant is too large" "(129)")
  else if lit.kind = .hexLit then
    match decodeHexLiteral lit.sval with
    | .ok bytes => (.charLit (times bytes), s)
    | .error msg => (.fresh, s.error lit.loc msg "(143)")
  else (if lit.kind = .charLit then .charLit (times lit.sval) else .bitLit (times lit.sval), s)

def parseNumber (s : PState) : Expr × PState :=
  let t := s.cur
  let invalid := t.sterling && !sterlingOk t.text
  let radix := !t.sterling && !t.imaginary && t.isFloat && t.binaryRadix
  let s := if invalid then s.error t.loc "invalid sterling constant" "(145)" else s
  let s :=
    if radix then
      s.error t.loc "a binary radix suffix is not valid on a fractional constant" "(136)"
    else s
  (.number (.of t), s.advance)

def parsePath : Nat → PState → List Bytes × PState
  | 0, s => ([], s)
  | fuel + 1, s =>
    if s.at_ .dot then
      let s := s.advance
      if s.at_ .word then
        let r := parsePath fuel s.advance
        (s.cur.text :: r.1, r.2)
      else ([], s.error s.cur.loc "expected a member name after '.'" "(124)")
    else ([], s)

def designator : Nat → Bytes → PState → Bytes × PState
  | 0, raw, s => (raw, s)
  | fuel + 1, raw, s =>
    if s.at_ .eof || s.at_ .semi then
      (raw, s.error s.cur.loc "expected ':' to close the type designator" "(126)")
    else if s.at_ .colon then (raw, s.advance)
    else
      let raw :=
        if s.cur.text.isEmpty then raw
        else if raw.isEmpty then s.cur.text
        else raw ++ ch ' ' :: s.cur.text
      designator fuel raw s.advance

section Primary

variable (calls : Calls)

def parseArg (name : Bytes) (s : PState) : Expr × PState :=
  if s.at_ .star then (.star, s.advance)
  else if s.at_ .colon && isEnquiryName name then
    let r := designator s.toks.length [] s.advance
    (.typeTag r.1, r.2)
  else ((calls.expr 1 s).1.getD .missing, (calls.expr 1 s).2)

def parseArgs (name : Bytes) : Nat → PState → List Expr × PState
  | 0, s => ([], s)
  | fuel + 1, s =>
    let a := parseArg calls name s
    if a.2.at_ .comma then
      let r := parseArgs name fuel a.2.advance
      (a.1 :: r.1, r.2)
    else ([a.1], a.2)

def parseArgList (name : Bytes) (s : PState) : Option (List Expr) × PState :=
  if s.at_ .lParen then
    let s := s.advance
    let r := if s.at_ .rParen then ([], s) else parseArgs calls name s.toks.length s
    (some r.1, expect .rParen "(126)" r.2)
  else (none, s)

def parseBasic (locPtr : Option Expr) (s : PState) : Expr × PState :=
  let name := s.cur.text
  let before := parsePath s.toks.length s.advance
  let args := parseArgList calls name before.2
  let after := parsePath args.2.toks.length args.2
  (.ref name (before.1 ++ after.1) args.1 locPtr, after.2)

def parseLocated : Nat → Expr → PState → Expr × PState
  | 0, lhs, s => (lhs, s)
  | fuel + 1, lhs, s =>
    if s.at_ .arrow then
      let s := s.advance
      if s.at_ .word then
        let r := parseBasic calls (some lhs) s
        parseLocated fuel r.1 r.2
      else (lhs, s.error s.cur.loc "expected a based variable after '->'" "(124)")
    else (lhs, s)

def parsePrimary (s : PState) : Option Expr × PState :=
  if replicated s then (some (parseReplicated s).1, (parseReplicated s).2)
  else if s.at_ .lParen then
    let inner := calls.expr 1 s.advance
    (inner.1, expect .rParen "(123)" inner.2)
  else if s.at_ .number then (some (parseNumber s).1, (parseNumber s).2)
  else if s.at_ .charLit then (some (.charLit s.cur.sval), s.advance)
  else if s.at_ .hexLit then
    match decodeHexLiteral s.cur.sval with
    | .ok bytes => (some (.charLit bytes), s.advance)
    | .error msg => (some .fresh, s.advance.error s.cur.loc msg "(143)")
  else if s.at_ .bitLit then (some (.bitLit s.cur.sval), s.advance)
  else if s.at_ .word then
    let first := parseBasic calls none s
    let r := parseLocated calls first.2.toks.length first.1 first.2
    (some r.1, r.2)
  else
    (none, s.error s.cur.loc ("expected an expression, found " ++ tokName s.cur.kind) "(123)")

def parsePower (s : PState) : Option Expr × PState :=
  let base := parsePrimary calls s
  match base.1 with
  | none => (none, base.2)
  | some a =>
    if base.2.at_ .power then
      let exp := calls.unary base.2.advance
      (exp.1.map (.binary .power a), exp.2)
    else (some a, base.2)

def operandStart (k : Tok) : Bool :=
  k == .word || k == .number || k == .lParen || k == .charLit || k == .bitLit

def prefixOp (s : PState) : Option Tok :=
  if s.at_ .plus || s.at_ .minus || s.at_ .not then some s.cur.kind
  else if s.at_ .word && s.cur.text == word "NOT" && operandStart (s.peek 1).kind then some .not
  else none

def parseUnary (s : PState) : Option Expr × PState :=
  match prefixOp s with
  | some op =>
    let operand := calls.unary s.advance
    (if op = .plus then operand.1 else operand.1.map (.unary op), operand.2)
  | none => parsePower calls s

def exprLoop (minPrec : Nat) : Nat → Expr → PState → Option Expr × PState
  | 0, lhs, s => (some lhs, s)
  | fuel + 1, lhs, s =>
    let op := infixOp s.cur
    let p := precOf op
    if op = .eof ∨ p = 0 ∨ p < minPrec then (some lhs, s)
    else
      let rhs := calls.expr (p + 1) s.advance
      match rhs.1 with
      | none => (none, rhs.2)
      | some b => exprLoop minPrec fuel (.binary op lhs b) rhs.2

def parseExpr (minPrec : Nat) (s : PState) : Option Expr × PState :=
  let lhs := calls.unary s
  match lhs.1 with
  | none => (none, lhs.2)
  | some a => exprLoop calls minPrec lhs.2.toks.length a lhs.2

end Primary

def callsAt : Nat → Calls
  | 0 =>
    { expr := fun _ s => (none, s.error s.cur.loc "expression nesting is too deep" "(123)")
      unary := fun s => (none, s.error s.cur.loc "expression nesting is too deep" "(122)") }
  | left + 1 =>
    { expr := parseExpr (callsAt left)
      unary := parseUnary (callsAt left) }

def parse (s : PState) : Option Expr × PState := (callsAt kMaxExprDepth).expr 1 s

end PliParser
