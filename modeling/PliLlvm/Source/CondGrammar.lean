import PliLlvm.Source.PPExpr

/- What the expressions of the preprocessor mean over the integers: a grammar that gives
   every text of a level its value, or none. -/
namespace PliPreprocessor
open Scan (Byte)
open PliLexer (ch isDigit)

inductive Level where
  | or | and | not | cmp | add | mul | unary | primary

def Level.next : Level → Level
  | .or => .and
  | .and => .not
  | .not => .cmp
  | .cmp => .add
  | .add => .mul
  | .mul => .unary
  | .unary => .primary
  | .primary => .primary

def notSigns : List Bytes := [[ch '^'], [ch '~'], [0xC2, 0xAC], [0xAC]]

def White (s : Bytes) : Prop := ∀ c ∈ s, isWhite c = true

inductive Operation : Level → Bytes → (Int → Int → Option Int) → Prop
  | or : Operation .or [ch '|'] fun v w => some (truth (v != 0 || w != 0))
  | and : Operation .and [ch '&'] fun v w => some (truth (v != 0 && w != 0))
  | eq : Operation .cmp [ch '='] fun v w => some (truth (v == w))
  | less : Operation .cmp [ch '<'] fun v w => some (truth (v < w))
  | lessEq : Operation .cmp [ch '<', ch '='] fun v w => some (truth (v ≤ w))
  | greater : Operation .cmp [ch '>'] fun v w => some (truth (v > w))
  | greaterEq : Operation .cmp [ch '>', ch '='] fun v w => some (truth (v ≥ w))
  | notEq {sign blanks : Bytes} (spelled : sign ∈ notSigns) (white : White blanks) :
      Operation .cmp (sign ++ blanks ++ [ch '=']) fun v w => some (truth (v != w))
  | plus : Operation .add [ch '+'] fun v w => some (v + w)
  | minus : Operation .add [ch '-'] fun v w => some (v - w)
  | times : Operation .mul [ch '*'] fun v w => some (v * w)
  | slash : Operation .mul [ch '/'] fun v w => if w = 0 then none else some (v.tdiv w)

def decimalValue (digits : Bytes) : Int :=
  digits.foldl (fun v c => v * 10 + ((c - ch '0').toNat : Int)) 0

def isNameStart (c : Byte) : Bool :=
  isAlpha c || c == ch '_' || c == ch '$' || c == ch '#' || c == ch '@'

inductive Value (vars : Name → Option Int) : Level → Bytes → Int → Prop
  | binary {l : Level} {op s t : Bytes} {f : Int → Int → Option Int} {v w x : Int}
      (operation : Operation l op f) (left : Value vars l s v) (right : Value vars l.next t w)
      (computes : f v w = some x) : Value vars l (s ++ op ++ t) x
  | climb {l : Level} {s : Bytes} {v : Int} (tighter : Value vars l.next s v) : Value vars l s v
  | not {sign s : Bytes} {v : Int} (spelled : sign ∈ notSigns) (operand : Value vars .not s v) :
      Value vars .not (sign ++ s) (truth (v == 0))
  | neg {s : Bytes} {v : Int} (operand : Value vars .unary s v) :
      Value vars .unary (ch '-' :: s) (-v)
  | number {s : Bytes} (some_digit : s ≠ []) (digits : ∀ c ∈ s, isDigit c = true) :
      Value vars .primary s (decimalValue s)
  | variable {c : Byte} {s : Bytes} {v : Int} (start : isNameStart c = true)
      (chars : ∀ c ∈ s, isWordChar c = true) (known : vars (upper (c :: s)) = some v) :
      Value vars .primary (c :: s) v
  | paren {s : Bytes} {v : Int} (inner : Value vars .or s v) :
      Value vars .primary (ch '(' :: (s ++ [ch ')'])) v
  | blanks {l : Level} {before s behind : Bytes} {v : Int} (leading : White before)
      (trailing : White behind) (inner : Value vars l s v) : Value vars l (before ++ s ++ behind) v

theorem white_nil : White [] := fun _ member => by cases member

theorem Value.lead {vars : Name → Option Int} {l : Level} {before s : Bytes} {v : Int}
    (leading : White before) (inner : Value vars l s v) : Value vars l (before ++ s) v := by
  have spaced := Value.blanks leading white_nil inner
  rwa [List.append_nil] at spaced

theorem Value.trail {vars : Name → Option Int} {l : Level} {s behind : Bytes} {v : Int}
    (trailing : White behind) (inner : Value vars l s v) : Value vars l (s ++ behind) v :=
  Value.blanks white_nil trailing inner

theorem white_takeWhile (s : Bytes) : White (s.takeWhile isWhite) := fun _ member =>
  List.mem_takeWhile_imp member

theorem skipWs_rest (p : CondParser) :
    p.rest = p.rest.takeWhile isWhite ++ p.skipWs.rest := (List.takeWhile_append_dropWhile).symm

theorem trim_within (text : Bytes) :
    ∃ before behind, White before ∧ White behind ∧ text = before ++ trim text ++ behind := by
  refine ⟨text.takeWhile isWhite, ((text.dropWhile isWhite).reverse.takeWhile isWhite).reverse,
    white_takeWhile _, fun c member => ?_, ?_⟩
  · exact white_takeWhile _ c (List.mem_reverse.mp member)
  · rw [trim, List.rdropWhile, List.append_assoc, ← List.reverse_append,
      List.takeWhile_append_dropWhile, List.reverse_reverse, List.takeWhile_append_dropWhile]

theorem eats_rest {p q : CondParser} {c : Byte} (eaten : p.eats c = some q) :
    p.rest = c :: q.rest ∧ q.error = p.error := by
  unfold CondParser.eats at eaten
  obtain ⟨first, ⟨⟩⟩ := Option.ite_none_right_eq_some.mp eaten
  exact ⟨(List.cons_head?_tail (by simpa using first)).symm, rfl⟩

theorem matchNot_rest {p q : CondParser} (matched : p.matchNot = some q) :
    ∃ sign ∈ notSigns, p.rest = sign ++ q.rest ∧ q.error = p.error := by
  unfold CondParser.matchNot at matched
  have single : ∀ c, p.rest.head? = some c → p.rest = [c] ++ p.rest.tail := fun c first =>
    (List.cons_head?_tail (by simpa using first)).symm
  split at matched
  · rename_i first
    cases matched
    rcases first with caret | tilde
    · exact ⟨[ch '^'], by decide, single _ caret, rfl⟩
    · exact ⟨[ch '~'], by decide, single _ tilde, rfl⟩
  · split at matched
    · rename_i pair
      cases matched
      refine ⟨[0xC2, 0xAC], by decide, ?_, rfl⟩
      rw [← pair]
      exact (List.take_append_drop 2 p.rest).symm
    · obtain ⟨first, ⟨⟩⟩ := Option.ite_none_right_eq_some.mp matched
      exact ⟨[0xAC], by decide, single _ first, rfl⟩

end PliPreprocessor
