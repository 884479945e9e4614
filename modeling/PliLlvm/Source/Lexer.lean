import PliLlvm.Lib.Scan

/- The lexer (src/lexer.cpp, token.h). A source is a list of bytes; texts and
   string values are lists of bytes. Line and column numbers are Nat: a source
   with 2^31 lines or a line of 2^31 bytes is not considered. Diagnostics keep
   their location, text and rule; the recorder beyond them is left out. -/
namespace PliLexer
open Scan Scan.Cursor

inductive Tok where
  | eof | word | number | isub | charLit | bitLit | hexLit
  | semi | colon | comma | lParen | rParen | dot
  | eq | plus | minus | star | slash | power | concat | amp | bar | not
  | lt | le | gt | ge | ne | ngt | nlt | arrow | percent
  deriving DecidableEq

structure Token where
  kind : Tok
  text : List Byte
  sval : List Byte
  loc : Loc
  binaryRadix : Bool
  imaginary : Bool
  sterling : Bool
  isFloat : Bool
  hasExp : Bool
  deriving DecidableEq

def Token.fresh (kind : Tok) (loc : Loc) : Token :=
  ⟨kind, [], [], loc, false, false, false, false, false⟩

structure Diag where
  loc : Loc
  msg : String
  rule : String

def ch (c : Char) : Byte := c.toUInt8

def word (s : String) : List Byte := s.toList.map ch

def showText (s : List Byte) : String := String.ofList (s.map fun c => Char.ofNat c.toNat)

def isDigit (c : Byte) : Bool := ch '0' ≤ c && c ≤ ch '9'

def pliIsLetter (c : Byte) : Bool :=
  (ch 'A' ≤ c && c ≤ ch 'Z') || (ch 'a' ≤ c && c ≤ ch 'z') ||
    c == ch '$' || c == ch '#' || c == ch '@'

def pliIsAlphameric (c : Byte) : Bool :=
  pliIsLetter c || (ch '0' ≤ c && c ≤ ch '9') || c == ch '_'

def toUpper (c : Byte) : Byte := if ch 'a' ≤ c && c ≤ ch 'z' then c - 32 else c

/-- `cur() && (unsigned char)cur() <= ' '` -/
def isBlank (c : Byte) : Bool := c != 0 && c ≤ ch ' '

def eatComment : List Byte → Loc → Bool × Cursor
  | [], loc => (false, ⟨[], loc⟩)
  | c :: cs, loc =>
    if c = 0 then (false, ⟨c :: cs, loc⟩)
    else if c = ch '*' ∧ cs.headD 0 = ch '/' then (true, (⟨cs, loc.after c⟩ : Cursor).bump)
    else eatComment cs (loc.after c)

theorem eatComment_reads (bs : List Byte) (loc : Loc) :
    ∃ eaten, Reads ⟨bs, loc⟩ eaten (eatComment bs loc).2 := by
  induction bs generalizing loc with
  | nil => exact ⟨[], reads_refl _⟩
  | cons c cs ih =>
    unfold eatComment
    split
    · exact ⟨[], reads_refl _⟩
    · split
      · rename_i closes
        have slash : (⟨cs, loc.after c⟩ : Cursor).cur = ch '/' := closes.2
        exact ⟨[c] ++ [ch '/'], reads_trans ⟨rfl, rfl⟩ (reads_bump slash (by decide))⟩
      · obtain ⟨eaten, reads⟩ := ih (loc.after c)
        exact ⟨[c] ++ eaten, reads_trans ⟨rfl, rfl⟩ reads⟩

def inLine (c : Byte) : Bool := c != 0 && c != newline

def skipSpaceAndComments (s : Cursor) : Cursor × List Diag :=
  let s1 := (s.eatWhile isBlank).2
  if _opens : s1.cur = ch '/' ∧ s1.peek 1 = ch '*' then
    let r := eatComment s1.bump.bump.rest s1.bump.bump.loc
    if r.1 then skipSpaceAndComments r.2
    else (r.2, [⟨s1.loc, "unterminated comment", "(150)"⟩])
  else if _opens : s1.cur = ch '/' ∧ s1.peek 1 = ch '/' then
    skipSpaceAndComments (s1.eatWhile inLine).2
  else (s1, [])
termination_by s.rest.length
decreasing_by
  · obtain ⟨eaten, reads⟩ := eatComment_reads ((s.eatWhile isBlank).2.bump.bump).rest
      ((s.eatWhile isBlank).2.bump.bump).loc
    have opening := reads_two _opens.1 _opens.2 (by decide) (by decide)
    have blanks := reads_shorter (reads_eatWhile isBlank s)
    have body := reads_shorter reads
    have less := reads_strict opening (by simp)
    exact Nat.lt_of_le_of_lt body (Nat.lt_of_lt_of_le less blanks)
  · have blanks := reads_shorter (reads_eatWhile isBlank s)
    have line := reads_strict (reads_eatWhile inLine (s.eatWhile isBlank).2)
      (eatWhile_some (by rw [_opens.1]; decide) rfl)
    exact Nat.lt_of_lt_of_le line blanks

/-- The value of a string constant after its opening quote; false when a line or
    the source ends first. -/
def eatString : List Byte → Loc → Bool × List Byte × Cursor
  | [], loc => (false, [], ⟨[], loc⟩)
  | c :: cs, loc =>
    if c = 0 ∨ c = newline then (false, [], ⟨c :: cs, loc⟩)
    else if c = ch '\'' then
      match cs with
      | [] => (true, [], ⟨[], loc.after c⟩)
      | q :: qs =>
        if q = ch '\'' then
          let r := eatString qs ((loc.after c).after q)
          (r.1, ch '\'' :: r.2.1, r.2.2)
        else (true, [], ⟨q :: qs, loc.after c⟩)
    else
      let r := eatString cs (loc.after c)
      (r.1, c :: r.2.1, r.2.2)

def lexWord (s : Cursor) : Token × Cursor :=
  let r := s.eatWhile pliIsAlphameric
  ({ Token.fresh .word s.loc with text := r.1.map toUpper }, r.2)

def subAhead (s : Cursor) : Bool :=
  (s.cur == ch 'S' || s.cur == ch 's') && (s.peek 1 == ch 'U' || s.peek 1 == ch 'u') &&
    (s.peek 2 == ch 'B' || s.peek 2 == ch 'b')

def pointAhead (s : Cursor) : Bool := s.cur == ch '.' && isDigit (s.peek 1)

def eatPoint (s : Cursor) : List Byte × Cursor :=
  let r := s.bump.eatWhile isDigit
  (ch '.' :: r.1, r.2)

def lexExponent (s : Cursor) : List Byte × Cursor :=
  if s.cur = ch 'E' ∨ s.cur = ch 'e' then
    let s1 := s.bump
    let r := if s1.cur = ch '+' ∨ s1.cur = ch '-' then ([s1.cur], s1.bump) else ([], s1)
    if isDigit r.2.cur then
      let ds := r.2.eatWhile isDigit
      (ch 'E' :: r.1 ++ ds.1, ds.2)
    else ([], s)
  else ([], s)

/-- The exponent and the suffix of a constant whose digits are `text`. -/
def lexScale (t : Token) (s : Cursor) : Token × Cursor :=
  let e := lexExponent s
  let t := { t with
    text := t.text ++ e.1
    isFloat := t.isFloat || !e.1.isEmpty
    hasExp := !e.1.isEmpty }
  if e.2.cur = ch 'B' ∨ e.2.cur = ch 'b' then ({ t with binaryRadix := true }, e.2.bump)
  else if e.2.cur = ch 'I' ∨ e.2.cur = ch 'i' then ({ t with imaginary := true }, e.2.bump)
  else (t, e.2)

def poundAhead (s : Cursor) : Bool := s.cur == 0xC2 && s.peek 1 == 0xA3

def lexSterling (t : Token) (s : Cursor) : Token × Cursor × List Diag :=
  let pence := eatPoint s
  let part := if pointAhead pence.2 then eatPoint pence.2 else ([], pence.2)
  let t := { t with text := t.text ++ pence.1 ++ part.1 }
  if poundAhead part.2 then
    ({ t with sterling := true, isFloat := false }, part.2.bump.bump, [])
  else (t, part.2, [⟨t.loc, "a sterling constant must end with '£'", "(145)"⟩])

def lexNumber (s : Cursor) : Token × Cursor × List Diag :=
  let int := s.eatWhile isDigit
  let t := { Token.fresh .number s.loc with text := int.1 }
  if subAhead int.2 then ({ t with kind := .isub }, int.2.bump.bump.bump, [])
  else if pointAhead int.2 then
    let frac := eatPoint int.2
    let t := { t with text := t.text ++ frac.1, isFloat := true }
    if pointAhead frac.2 then lexSterling t frac.2
    else ((lexScale t frac.2).1, (lexScale t frac.2).2, [])
  else ((lexScale t int.2).1, (lexScale t int.2).2, [])

def lexString (s : Cursor) : Token × Cursor × List Diag :=
  let r := eatString s.bump.rest s.bump.loc
  let errs := if r.1 then [] else [⟨s.loc, "unterminated string constant", "(143)"⟩]
  let s' := r.2.2
  if s'.cur = ch 'B' ∨ s'.cur = ch 'b' then
    ({ Token.fresh .bitLit s.loc with sval := r.2.1 }, s'.bump, errs)
  else if s'.cur = ch 'X' ∨ s'.cur = ch 'x' then
    ({ Token.fresh .hexLit s.loc with sval := r.2.1 }, s'.bump, errs)
  else ({ Token.fresh .charLit s.loc with sval := r.2.1 }, s', errs)

/-- One byte, or two when `second` follows. -/
def oneOrTwo (second : Byte) (single both : Tok) (s : Cursor) : Tok × Cursor :=
  if s.bump.cur = second then (both, s.bump.bump) else (single, s.bump)

def eatNot (s : Cursor) : Option Cursor :=
  if s.cur = ch '^' ∨ s.cur = ch '~' then some s.bump
  else if s.cur = 0xC2 ∧ s.peek 1 = 0xAC then some s.bump.bump
  else none

def lexNot (s : Cursor) : Tok × Cursor :=
  if s.cur = ch '=' then (.ne, s.bump)
  else if s.cur = ch '>' then (.ngt, s.bump)
  else if s.cur = ch '<' then (.nlt, s.bump)
  else (.not, s)

def hexDigit (n : Nat) : Char := "0123456789abcdef".toList.getD n '0'

/-- `%02x` of a byte -/
def hexByte (c : Byte) : String :=
  String.ofList [hexDigit (c.toNat / 16), hexDigit (c.toNat % 16)]

def doublyEncoded (s : Cursor) : Bool :=
  s.cur == 0xC3 && s.peek 1 == 0x82 && s.peek 2 == 0xC2 && s.peek 3 == 0xAC

def lexOther (s : Cursor) : Option Tok × Cursor × List Diag :=
  match eatNot s with
  | some s' => (some (lexNot s').1, (lexNot s').2, [])
  | none =>
    if doublyEncoded s then
      (none, s.bump.bump.bump.bump,
        [⟨s.loc, "not sign is doubly encoded (0xc3 0x82 0xc2 0xac); write it as '^'", ""⟩])
    else if s.cur ≥ 0x80 then
      (none, s.bump, [⟨s.loc, "invalid character (0x" ++ hexByte s.cur ++ ") in source", ""⟩])
    else
      (none, s.bump,
        [⟨s.loc, "invalid character '" ++ String.ofList [Char.ofNat s.cur.toNat] ++ "' in source",
          ""⟩])

def single (c : Byte) : Option Tok :=
  if c = ch ';' then some .semi
  else if c = ch ':' then some .colon
  else if c = ch '(' then some .lParen
  else if c = ch ')' then some .rParen
  else if c = ch '+' then some .plus
  else if c = ch '&' then some .amp
  else if c = ch '=' then some .eq
  else if c = ch '/' then some .slash
  else if c = ch '%' then some .percent
  else none

/-- The bytes that make another token with a second one: the second byte, the
    token alone and the token of both. -/
def double (c : Byte) : Option (Byte × Tok × Tok) :=
  if c = ch ',' then some (ch '.', .comma, .semi)
  else if c = ch '.' then some (ch '.', .dot, .colon)
  else if c = ch '*' then some (ch '*', .star, .power)
  else if c = ch '|' then some (ch '|', .bar, .concat)
  else if c = ch '-' then some (ch '>', .minus, .arrow)
  else if c = ch '<' then some (ch '=', .lt, .le)
  else if c = ch '>' then some (ch '=', .gt, .ge)
  else none

def lexSymbol (s : Cursor) : Option Tok × Cursor × List Diag :=
  match single s.cur with
  | some k => (some k, s.bump, [])
  | none =>
    match double s.cur with
    | some (second, alone, both) =>
      (some (oneOrTwo second alone both s).1, (oneOrTwo second alone both s).2, [])
    | none =>
      if s.cur = ch '!' then
        if s.bump.cur = ch '!' then (some .concat, s.bump.bump, [])
        else (none, s.bump, [⟨s.loc, "invalid character '!' in source", ""⟩])
      else lexOther s

/-- One turn of the loop of lexAll at a byte that is no zero byte; an invalid
    character leaves no token. -/
def lexOne (s : Cursor) : Option Token × Cursor × List Diag :=
  if pliIsLetter s.cur then (some (lexWord s).1, (lexWord s).2, [])
  else if isDigit s.cur || pointAhead s then (some (lexNumber s).1, (lexNumber s).2)
  else if s.cur = ch '\'' then (some (lexString s).1, (lexString s).2)
  else ((lexSymbol s).1.map fun k => Token.fresh k s.loc, (lexSymbol s).2)

end PliLexer
