import PliLlvm.Source.PPText
import Mathlib.Algebra.Order.Ring.Int

/- The integer expressions of %IF, %DO, %RETURN and the assignments
   (PPCondParser of src/preprocessor.cpp). The parser's position is the text it has
   left. A value is a long long; an overflow, which C++ leaves undefined, wraps. -/
namespace PliPreprocessor
open Scan (Byte newline)
open PliLexer (ch isDigit word showText)

def longLong (v : Int) : Int := Int.bmod v (2 ^ 64)

structure CondParser where
  rest : Bytes
  error : Option String

abbrev CondRead := CondParser → Int × CondParser

namespace CondParser

def skipWs (p : CondParser) : CondParser := { p with rest := p.rest.dropWhile isWhite }

def fails (p : CondParser) (msg : String) : Int × CondParser := (0, { p with error := some msg })

def eats (p : CondParser) (c : Byte) : Option CondParser :=
  if p.rest.head? = some c then some { p with rest := p.rest.tail } else none

def matchNot (p : CondParser) : Option CondParser :=
  if p.rest.head? = some (ch '^') ∨ p.rest.head? = some (ch '~') then
    some { p with rest := p.rest.tail }
  else if p.rest.take 2 = [0xC2, 0xAC] then some { p with rest := p.rest.drop 2 }
  else if p.rest.head? = some 0xAC then some { p with rest := p.rest.tail }
  else none

end CondParser

open CondParser

abbrev Operator := CondParser → Option ((Int → Int → Except String Int) × CondParser)

/-- The loop of the binary levels: operators and operands from the left. Each turn
    reads a byte at least, so the bytes left bound the turns. -/
def chain (operand : CondRead) (operator : Operator) : Nat → Int × CondParser → Int × CondParser
  | 0, r => r
  | n + 1, (v, p) =>
    match operator p.skipWs with
    | none => (v, p.skipWs)
    | some (apply, q) =>
      let rhs := operand q
      match apply v rhs.1 with
      | .ok w => chain operand operator n (w, rhs.2)
      | .error msg => rhs.2.fails msg

def binary (operand : CondRead) (operator : Operator) : CondRead := fun p =>
  let first := operand p
  chain operand operator first.2.rest.length first

def truth (b : Bool) : Int := if b then 1 else 0

def orOperator : Operator := fun p =>
  (p.eats (ch '|')).map fun q => (fun v rhs => .ok (truth (v != 0 || rhs != 0)), q)

def andOperator : Operator := fun p =>
  (p.eats (ch '&')).map fun q => (fun v rhs => .ok (truth (v != 0 && rhs != 0)), q)

def cmpOperator : Operator := fun p =>
  match p.eats (ch '=') with
  | some q => some (fun v rhs => .ok (truth (v == rhs)), q)
  | none =>
    match p.eats (ch '<') with
    | some q =>
      match q.eats (ch '=') with
      | some q => some (fun v rhs => .ok (truth (v ≤ rhs)), q)
      | none => some (fun v rhs => .ok (truth (v < rhs)), q)
    | none =>
      match p.eats (ch '>') with
      | some q =>
        match q.eats (ch '=') with
        | some q => some (fun v rhs => .ok (truth (v ≥ rhs)), q)
        | none => some (fun v rhs => .ok (truth (v > rhs)), q)
      | none =>
        match p.matchNot with
        | none => none
        | some q => (q.skipWs.eats (ch '=')).map fun q => (fun v rhs => .ok (truth (v != rhs)), q)

def addOperator : Operator := fun p =>
  match p.eats (ch '+') with
  | some q => some (fun v rhs => .ok (longLong (v + rhs)), q)
  | none => (p.eats (ch '-')).map fun q => (fun v rhs => .ok (longLong (v - rhs)), q)

def divide (v rhs : Int) : Except String Int :=
  if rhs = 0 then .error "division by zero in preprocessor expression"
  else .ok (longLong (v.tdiv rhs))

def mulOperator : Operator := fun p =>
  match p.eats (ch '*') with
  | some q => some (fun v rhs => .ok (longLong (v * rhs)), q)
  | none => (p.eats (ch '/')).map fun q => (divide, q)

def number (digits : Bytes) : Int :=
  digits.foldl (fun v c => longLong (v * 10 + ((c - ch '0').toNat : Int))) 0

/-- `inner` reads what stands in parentheses; there is none at the depth limit. -/
def parsePrimary (vars : Name → Option Int) (inner : Option CondRead) : CondRead := fun p =>
  let p := p.skipWs
  let c := p.rest.headD 0
  if c = ch '(' then
    match inner with
    | none => p.fails "preprocessor expression nesting is too deep"
    | some parseOr =>
      let r := parseOr { p with rest := p.rest.tail }
      match r.2.skipWs.eats (ch ')') with
      | none => r.2.skipWs.fails "expected ')' in preprocessor expression"
      | some q => (r.1, q)
  else if isDigit c then
    (number (p.rest.takeWhile isDigit), { p with rest := p.rest.dropWhile isDigit })
  else if isAlpha c || c == ch '_' || c == ch '$' || c == ch '#' || c == ch '@' then
    let name := upper (p.rest.takeWhile isWordChar)
    let q := { p with rest := p.rest.dropWhile isWordChar }
    match vars name with
    | none => q.fails ("unknown preprocessor variable '%" ++ showText name ++ "'")
    | some v => (v, q)
  else p.fails "expected a number, variable, or '(' in preprocessor expression"

def parseUnary (primary : CondRead) : Nat → CondRead
  | 0 => primary
  | n + 1 => fun p =>
    match p.skipWs.eats (ch '-') with
    | some q => let r := parseUnary primary n q; (longLong (-r.1), r.2)
    | none => primary p.skipWs

def parseNot (cmp : CondRead) : Nat → CondRead
  | 0 => cmp
  | n + 1 => fun p =>
    match p.skipWs.matchNot with
    | some q =>
      if q.skipWs.rest.head? = some (ch '=') then cmp p.skipWs
      else let r := parseNot cmp n q.skipWs; (truth (r.1 == 0), r.2)
    | none => cmp p.skipWs

def levels (primary : CondRead) : CondRead :=
  let unary : CondRead := fun p => parseUnary primary p.rest.length p
  let cmp := binary (binary (binary unary mulOperator) addOperator) cmpOperator
  let not : CondRead := fun p => parseNot cmp p.rest.length p
  binary (binary not andOperator) orOperator

def kMaxDepth : Nat := 128

/-- An expression that may nest `depth` more parentheses. -/
def parseOr (vars : Name → Option Int) : Nat → CondRead
  | 0 => levels (parsePrimary vars none)
  | depth + 1 => levels (parsePrimary vars (some (parseOr vars depth)))

def evalCondExpr (vars : Name → Option Int) (text : Bytes) : Except String Int :=
  let r := parseOr vars kMaxDepth ⟨trim text, none⟩
  match r.2.error with
  | some msg => .error msg
  | none =>
    if r.2.skipWs.rest = [] then .ok r.1
    else .error "unexpected text in preprocessor expression"

example : evalCondExpr (fun _ => some 7) (word "(1 + x)*2 >= 16 & ^(3 = 4)") = .ok 1 := by
  decide +kernel

end PliPreprocessor
