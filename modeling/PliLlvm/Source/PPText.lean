import PliLlvm.Source.Lexer
import Mathlib.Data.List.DropRight

/- The texts of the preprocessor (src/preprocessor.cpp): its classes of characters
   and the loops that look ahead for the end of a directive, a group, a statement
   or an argument list. A text is a list of bytes, a position an index into it. The
   character classes of the C library are those of its default locale. -/
namespace PliPreprocessor
open Scan (Byte newline)
open PliLexer (ch toUpper isDigit word)

abbrev Bytes := List Byte

abbrev Name := List Byte

def upper (s : Bytes) : Name := s.map toUpper

def isAlpha (c : Byte) : Bool := (ch 'A' ≤ c && c ≤ ch 'Z') || (ch 'a' ≤ c && c ≤ ch 'z')

def isWordStart (c : Byte) : Bool := isAlpha c || c == ch '$' || c == ch '#' || c == ch '@'

def isWordChar (c : Byte) : Bool :=
  isAlpha c || isDigit c || c == ch '_' || c == ch '$' || c == ch '#' || c == ch '@'

def isBlank (c : Byte) : Bool := c == ch ' ' || c == 9 || c == 12

def isWhite (c : Byte) : Bool := isBlank c || c == 13 || c == newline

def isSpace (c : Byte) : Bool := isWhite c || c == 11

def trim (s : Bytes) : Bytes := (s.dropWhile isWhite).rdropWhile isWhite

def byteAt (source : Bytes) (i : Nat) : Byte := source.getD i 0

/-- `source.substr(i, j - i)` -/
def slice (source : Bytes) (i j : Nat) : Bytes := (source.drop i).take (j - i)

/-- `while (i < end && p(source[i])) ++i` -/
def skip (p : Byte → Bool) (source : Bytes) (i stop : Nat) : Nat :=
  i + (((source.take stop).drop i).takeWhile p).length

/-- What the byte at a position before `stop` is. -/
def sees (source : Bytes) (stop i : Nat) (c : Byte) : Bool :=
  decide (i < stop) && byteAt source i == c

/-- The word after a percent sign at `i`: where it starts and ends. -/
def directiveWord (source : Bytes) (i stop : Nat) : Nat × Nat :=
  let wordStart := skip isBlank source (i + 1) stop
  (wordStart, skip isWordChar source wordStart stop)

inductive Mode where
  | text | string | comment | lineComment
  deriving DecidableEq

/-- One turn over characters that are no directive: the mode and the position after
    it. A doubled quote and the two characters of a comment mark are one turn. -/
def turn (source : Bytes) (stop : Nat) (mode : Mode) (i : Nat) : Mode × Nat :=
  let c := byteAt source i
  match mode with
  | .lineComment => (if c = newline then .text else .lineComment, i + 1)
  | .comment =>
    if c = ch '*' ∧ sees source stop (i + 1) (ch '/') then (.text, i + 2) else (.comment, i + 1)
  | .string =>
    if c = ch '\'' then
      if sees source stop (i + 1) (ch '\'') then (.string, i + 2) else (.text, i + 1)
    else (.string, i + 1)
  | .text =>
    if c = ch '/' ∧ sees source stop (i + 1) (ch '*') then (.comment, i + 2)
    else if c = ch '/' ∧ sees source stop (i + 1) (ch '/') then (.lineComment, i + 2)
    else if c = ch '\'' then (.string, i + 1)
    else (.text, i + 1)

/-- The turn of findMatchingEnd and collectLabels, which skip a line comment in one
    go and leave its newline. -/
def skim (source : Bytes) (stop : Nat) (mode : Mode) (i : Nat) : Mode × Nat :=
  if mode = .text ∧ byteAt source i = ch '/' ∧ sees source stop (i + 1) (ch '/') then
    (.text, skip (· != newline) source i stop)
  else turn source stop mode i

theorem skip_ge (p : Byte → Bool) (source : Bytes) (i stop : Nat) : i ≤ skip p source i stop :=
  Nat.le_add_right _ _

variable {source : Bytes}

theorem skip_gt {p : Byte → Bool} {i stop : Nat} (inside : i < stop)
    (there : i < source.length) (holds : p (byteAt source i) = true) :
    i < skip p source i stop := by
  have bound : i < (source.take stop).length := by
    rw [List.length_take]
    omega
  have here : (source.take stop).drop i = byteAt source i :: (source.take stop).drop (i + 1) := by
    rw [List.drop_eq_getElem_cons bound, List.getElem_take, byteAt,
      List.getD_eq_getElem?_getD, List.getElem?_eq_getElem there, Option.getD_some]
  unfold skip
  rw [here, List.takeWhile_cons, if_pos holds, List.length_cons]
  omega

theorem directiveWord_gt (source : Bytes) (i stop : Nat) : i < (directiveWord source i stop).2 :=
  Nat.lt_of_lt_of_le (Nat.lt_of_lt_of_le (Nat.lt_succ_self i) (skip_ge _ _ _ _)) (skip_ge _ _ _ _)

theorem turn_gt (source : Bytes) (stop : Nat) (mode : Mode) (i : Nat) :
    i < (turn source stop mode i).2 := by
  unfold turn
  cases mode <;> dsimp only <;> (repeat' split) <;> simp

theorem skim_gt {stop i : Nat} (mode : Mode) (inside : i < stop)
    (there : i < source.length) : i < (skim source stop mode i).2 := by
  unfold skim
  split
  · rename_i line
    refine skip_gt inside there ?_
    rw [line.2.1]
    decide
  · exact turn_gt source stop mode i

def findDirectiveEnd (source : Bytes) (start : Nat) : Option Nat :=
  go (source.drop start) start false
where
  go : Bytes → Nat → Bool → Option Nat
    | [], _, _ => none
    | c :: cs, i, quoted =>
      if c = ch '\'' then
        match cs with
        | [] => none
        | d :: ds =>
          if quoted ∧ d = ch '\'' then go ds (i + 2) quoted else go (d :: ds) (i + 1) (!quoted)
      else if c = ch ';' ∧ quoted = false then some i
      else go cs (i + 1) quoted

theorem findDirectiveEnd_ge {start semi : Nat}
    (found : findDirectiveEnd source start = some semi) : start ≤ semi := by
  suffices all : ∀ cs i quoted, findDirectiveEnd.go cs i quoted = some semi → i ≤ semi from
    all _ _ _ found
  intro cs i quoted
  fun_induction findDirectiveEnd.go cs i quoted with
  | case1 | case2 => exact fun found => by cases found
  | case3 _ _ _ _ _ ih => exact fun found => Nat.le_trans (Nat.le_add_right _ 2) (ih found)
  | case4 _ _ _ _ _ ih => exact fun found => Nat.le_trans (Nat.le_add_right _ 1) (ih found)
  | case5 => exact fun found => Nat.le_of_eq (Option.some.inj found)
  | case6 _ _ _ _ _ _ ih => exact fun found => Nat.le_trans (Nat.le_add_right _ 1) (ih found)

/-- The matching %END of a group whose text starts at `i`: its position and that of
    its ';', or what is wrong. -/
def matchingEnd (source : Bytes) (mode : Mode) (i depth : Nat) : Except String (Nat × Nat) :=
  if _inside : i < source.length then
    if mode = .text ∧ byteAt source i = ch '%' then
      let w := directiveWord source i source.length
      let name := upper (slice source w.1 w.2)
      match found : findDirectiveEnd source w.2 with
      | none =>
        .error (if name = word "DO" then "unterminated %DO (C28-6571-3 Ch.9)"
          else if name = word "END" then "unterminated %END (C28-6571-3 Ch.9)"
          else "unterminated preprocessor directive")
      | some semi =>
        if name = word "DO" then matchingEnd source .text (semi + 1) (depth + 1)
        else if name = word "END" then
          if depth = 1 then .ok (i, semi) else matchingEnd source .text (semi + 1) (depth - 1)
        else matchingEnd source .text (semi + 1) depth
    else
      let next := skim source source.length mode i
      matchingEnd source next.1 next.2 depth
  else .error "unterminated %DO (C28-6571-3 Ch.9)"
termination_by source.length - i
decreasing_by
  all_goals
    first
    | have beyond : (directiveWord source i source.length).2 ≤ semi := findDirectiveEnd_ge found
      have after := directiveWord_gt source i source.length
      omega
    | have after := skim_gt mode _inside _inside
      omega

def findMatchingEnd (source : Bytes) (start : Nat) : Except String (Nat × Nat) :=
  matchingEnd source .text start 1

def labelsFrom (source : Bytes) (stop : Nat) (mode : Mode) (i : Nat) (labels : Name → Option Nat) :
    Name → Option Nat :=
  if inside : i < stop ∧ i < source.length then
    if mode = .text ∧ byteAt source i = ch '%' then
      let w := directiveWord source i stop
      let colon := skip isBlank source w.2 stop
      if sees source stop colon (ch ':') then
        let target := skip isWhite source (colon + 1) stop
        labelsFrom source stop .text target
          (Function.update labels (upper (slice source w.1 w.2)) (some target))
      else labelsFrom source stop .text (min w.2 stop) labels
    else
      let next := skim source stop mode i
      labelsFrom source stop next.1 next.2 labels
  else labels
termination_by stop - i
decreasing_by
  · have colon := skip_ge isBlank source (directiveWord source i stop).2 stop
    have target := skip_ge isWhite source
      (skip isBlank source (directiveWord source i stop).2 stop + 1) stop
    have after := directiveWord_gt source i stop
    omega
  · have after := directiveWord_gt source i stop
    omega
  · have after := skim_gt mode inside.1 inside.2
    omega

def collectLabels (source : Bytes) (labels : Name → Option Nat) : Name → Option Nat :=
  labelsFrom source source.length .text 0 labels

def statementEnd (source : Bytes) (mode : Mode) (i : Nat) : Nat :=
  if inside : i < source.length then
    if mode = .text ∧ byteAt source i = ch ';' then i + 1
    else
      let next := turn source source.length mode i
      statementEnd source next.1 next.2
  else i
termination_by source.length - i
decreasing_by
  have after := turn_gt source source.length mode i
  omega

def argsEnd (source : Bytes) (mode : Mode) (i depth : Nat) : Option Nat :=
  if depth = 0 then some i
  else if inside : i < source.length then
    if mode = .text ∧ byteAt source i = ch '(' then argsEnd source .text (i + 1) (depth + 1)
    else if mode = .text ∧ byteAt source i = ch ')' then argsEnd source .text (i + 1) (depth - 1)
    else
      let next := turn source source.length mode i
      argsEnd source next.1 next.2 depth
  else none
termination_by source.length - i
decreasing_by
  · omega
  · omega
  · have after := turn_gt source source.length mode i
    omega

end PliPreprocessor
