import PliLlvm.Source.CondGrammar

/- The evaluator of the preprocessor's expressions as an observer sees it: the result
   every signed operation should have over the integers, the calls open at once, and the
   prefix operators open at once. `wrap` is what the machine makes of a result. -/
namespace PliPreprocessor
open Scan (Byte)
open PliLexer (ch isDigit showText)

structure Watch where
  p : CondParser
  calls : Nat
  deepest : Nat
  signs : Nat
  mostSigns : Nat
  results : List Int

abbrev WatchedRead := Watch → Int × Watch

namespace Watch

def moved (w : Watch) (p : CondParser) : Watch := { w with p := p }
def noted (w : Watch) (x : Int) : Watch := { w with results := x :: w.results }
def fails (w : Watch) (msg : String) : Int × Watch := (0, w.moved (w.p.fails msg).2)

end Watch

def entered (body : WatchedRead) : WatchedRead := fun w =>
  let out := body { w with calls := w.calls + 1, deepest := max w.deepest (w.calls + 1) }
  (out.1, { out.2 with calls := w.calls })

def signed (operand : WatchedRead) : WatchedRead := fun w =>
  let out := operand { w with signs := w.signs + 1, mostSigns := max w.mostSigns (w.signs + 1) }
  (out.1, { out.2 with signs := w.signs })

section Machine
variable (wrap : Int → Int)

def watchChain (operand : WatchedRead) (operator : Operator) : Nat → Int × Watch → Int × Watch
  | 0, r => r
  | n + 1, (v, w) =>
    match operator w.p.skipWs with
    | none => (v, w.moved w.p.skipWs)
    | some (apply, q) =>
      let rhs := operand (w.moved q)
      match apply v rhs.1 with
      | .ok x => watchChain operand operator n (wrap x, rhs.2.noted x)
      | .error msg => rhs.2.fails msg

def watchBinary (operand : WatchedRead) (operator : Operator) : WatchedRead := entered fun w =>
  let first := operand w
  watchChain wrap operand operator first.2.p.rest.length first

def addExact : Operator := fun p =>
  match p.eats (ch '+') with
  | some q => some (fun v rhs => .ok (v + rhs), q)
  | none => (p.eats (ch '-')).map fun q => (fun v rhs => .ok (v - rhs), q)

def divideExact (v rhs : Int) : Except String Int :=
  if rhs = 0 then .error "division by zero in preprocessor expression" else .ok (v.tdiv rhs)

def mulExact : Operator := fun p =>
  match p.eats (ch '*') with
  | some q => some (fun v rhs => .ok (v * rhs), q)
  | none => (p.eats (ch '/')).map fun q => (divideExact, q)

def watchNumber : Bytes → Int × Watch → Int × Watch
  | [], r => r
  | c :: digits, (v, w) =>
    let ten := v * 10
    let sum := wrap ten + ((c - ch '0').toNat : Int)
    watchNumber digits (wrap sum, (w.noted ten).noted sum)

def watchPrimary (vars : Name → Option Int) (inner : Option WatchedRead) : WatchedRead :=
  entered fun w =>
    let w := w.moved w.p.skipWs
    let c := w.p.rest.headD 0
    if c = ch '(' then
      match inner with
      | none => w.fails "preprocessor expression nesting is too deep"
      | some parseOr =>
        let r := parseOr (w.moved { w.p with rest := w.p.rest.tail })
        match r.2.p.skipWs.eats (ch ')') with
        | none => (r.2.moved r.2.p.skipWs).fails "expected ')' in preprocessor expression"
        | some q => (r.1, r.2.moved q)
    else if isDigit c then
      watchNumber wrap (w.p.rest.takeWhile isDigit)
        (0, w.moved { w.p with rest := w.p.rest.dropWhile isDigit })
    else if isNameStart c then
      let name := upper (w.p.rest.takeWhile isWordChar)
      let w := w.moved { w.p with rest := w.p.rest.dropWhile isWordChar }
      match vars name with
      | none => w.fails ("unknown preprocessor variable '%" ++ showText name ++ "'")
      | some v => (v, w)
    else w.fails "expected a number, variable, or '(' in preprocessor expression"

def watchUnary (primary : WatchedRead) : Nat → WatchedRead
  | 0 => entered primary
  | n + 1 => entered fun w =>
    match w.p.skipWs.eats (ch '-') with
    | some q =>
      let r := signed (watchUnary primary n) (w.moved q)
      (wrap (-r.1), r.2.noted (-r.1))
    | none => primary (w.moved w.p.skipWs)

def watchNot (cmp : WatchedRead) : Nat → WatchedRead
  | 0 => entered cmp
  | n + 1 => entered fun w =>
    match w.p.skipWs.matchNot with
    | some q =>
      if q.skipWs.rest.head? = some (ch '=') then cmp (w.moved w.p.skipWs)
      else let r := signed (watchNot cmp n) (w.moved q.skipWs); (truth (r.1 == 0), r.2)
    | none => cmp (w.moved w.p.skipWs)

def watchLevels (primary : WatchedRead) : WatchedRead :=
  let unary : WatchedRead := fun w => watchUnary wrap primary w.p.rest.length w
  let add := watchBinary wrap (watchBinary wrap unary mulExact) addExact
  let cmp := watchBinary wrap add cmpOperator
  let not : WatchedRead := fun w => watchNot cmp w.p.rest.length w
  watchBinary wrap (watchBinary wrap not andOperator) orOperator

def watchOr (vars : Name → Option Int) : Nat → WatchedRead
  | 0 => watchLevels wrap (watchPrimary wrap vars none)
  | depth + 1 => watchLevels wrap (watchPrimary wrap vars (some (watchOr vars depth)))

def watchText (vars : Name → Option Int) (text : Bytes) : Int × Watch :=
  watchOr wrap vars kMaxDepth ⟨⟨trim text, none⟩, 0, 0, 0, 0, []⟩

end Machine

def Erases (watched : WatchedRead) (read : CondRead) : Prop :=
  ∀ w, ((watched w).1, (watched w).2.p) = read w.p

theorem longLong_truth (b : Bool) : longLong (truth b) = truth b := by cases b <;> decide

def Wraps (operator exact : Operator) : Prop :=
  ∀ p, operator p = (exact p).map fun r => (fun v rhs => (r.1 v rhs).map longLong, r.2)

variable {watched : WatchedRead} {read : CondRead}

theorem erases_entered (erases : Erases watched read) : Erases (entered watched) read := fun w =>
  erases { w with calls := w.calls + 1, deepest := max w.deepest (w.calls + 1) }

theorem erases_signed (erases : Erases watched read) : Erases (signed watched) read := fun w =>
  erases { w with signs := w.signs + 1, mostSigns := max w.mostSigns (w.signs + 1) }

theorem erases_chain {operator exact : Operator}
    (erases : Erases watched read) (wraps : Wraps operator exact) (n : Nat) (v : Int) (w : Watch) :
    ((watchChain longLong watched exact n (v, w)).1,
      (watchChain longLong watched exact n (v, w)).2.p) =
      chain read operator n (v, w.p) := by
  induction n generalizing v w with
  | zero => rfl
  | succ n ih =>
    have given := wraps w.p.skipWs
    cases found : exact w.p.skipWs with
    | none =>
      rw [found] at given
      simp only [watchChain, chain, found, given, Option.map_none]
      rfl
    | some r =>
      rw [found] at given
      obtain ⟨apply, q⟩ := r
      have operand := erases (w.moved q)
      have value : (watched (w.moved q)).1 = (read q).1 := congrArg Prod.fst operand
      have place : (watched (w.moved q)).2.p = (read q).2 := congrArg Prod.snd operand
      simp only [watchChain, chain, found, given, Option.map_some, value]
      cases apply v (read q).1 with
      | ok x =>
        simp only [Except.map]
        rw [ih, ← place]
        rfl
      | error msg =>
        simp only [Except.map, Watch.fails, ← place]
        rfl

theorem erases_binary {operator exact : Operator}
    (erases : Erases watched read) (wraps : Wraps operator exact) :
    Erases (watchBinary longLong watched exact) (binary read operator) := by
  apply erases_entered
  intro w
  have operand := erases w
  have value : (watched w).1 = (read w.p).1 := congrArg Prod.fst operand
  have place : (watched w).2.p = (read w.p).2 := congrArg Prod.snd operand
  have run := erases_chain erases wraps (watched w).2.p.rest.length (watched w).1 (watched w).2
  rw [value, place] at run
  rw [binary, ← run]
  simp only [← value, place]

theorem wraps_or : Wraps orOperator orOperator := by
  intro p
  unfold orOperator
  cases p.eats (ch '|') with
  | none => rfl
  | some q => simp only [Option.map_some, Except.map, longLong_truth]

theorem wraps_and : Wraps andOperator andOperator := by
  intro p
  unfold andOperator
  cases p.eats (ch '&') with
  | none => rfl
  | some q => simp only [Option.map_some, Except.map, longLong_truth]

theorem wraps_cmp : Wraps cmpOperator cmpOperator := by
  intro p
  unfold cmpOperator
  cases p.eats (ch '=') with
  | some q => simp only [Option.map_some, Except.map, longLong_truth]
  | none =>
    cases p.eats (ch '<') with
    | some q =>
      cases h : q.eats (ch '=') <;> simp only [h, Option.map_some, Except.map, longLong_truth]
    | none =>
      cases p.eats (ch '>') with
      | some q =>
        cases h : q.eats (ch '=') <;> simp only [h, Option.map_some, Except.map, longLong_truth]
      | none =>
        cases p.matchNot with
        | none => rfl
        | some q =>
          cases h : q.skipWs.eats (ch '=') <;>
            simp only [h, Option.map_none, Option.map_some, Except.map, longLong_truth]

theorem wraps_add : Wraps addOperator addExact := by
  intro p
  unfold addOperator addExact
  cases p.eats (ch '+') with
  | some q => rfl
  | none =>
    cases p.eats (ch '-') <;> simp only [Option.map_none, Option.map_some, Except.map]

theorem wraps_mul : Wraps mulOperator mulExact := by
  intro p
  unfold mulOperator mulExact
  cases p.eats (ch '*') with
  | some q => rfl
  | none =>
    cases p.eats (ch '/') with
    | none => simp only [Option.map_none]
    | some q =>
      simp only [Option.map_some]
      congr 2
      funext v rhs
      unfold divide divideExact
      split <;> rfl

theorem longLong_ten (v d : Int) : longLong (longLong (v * 10) + d) = longLong (v * 10 + d) := by
  unfold longLong
  rw [Int.bmod_add_bmod]

theorem erases_number (digits : Bytes) (v : Int) (w : Watch) :
    (watchNumber longLong digits (v, w)).1 =
        digits.foldl (fun v c => longLong (v * 10 + ((c - ch '0').toNat : Int))) v ∧
      (watchNumber longLong digits (v, w)).2.p = w.p := by
  induction digits generalizing v w with
  | nil => exact ⟨rfl, rfl⟩
  | cons c digits ih =>
    obtain ⟨value, place⟩ := ih (longLong (longLong (v * 10) + ((c - ch '0').toNat : Int)))
      ((w.noted (v * 10)).noted (longLong (v * 10) + ((c - ch '0').toNat : Int)))
    refine ⟨?_, place⟩
    rw [watchNumber, value, longLong_ten, List.foldl_cons]

theorem erases_primary (vars : Name → Option Int) {watched : Option WatchedRead}
    {inner : Option CondRead}
    (erases : (watched = none ∧ inner = none) ∨
      ∃ r s, watched = some r ∧ inner = some s ∧ Erases r s) :
    Erases (watchPrimary longLong vars watched) (parsePrimary vars inner) := by
  apply erases_entered
  intro w
  unfold parsePrimary
  dsimp only [Watch.moved]
  split
  · rename_i opens
    rcases erases with ⟨rfl, rfl⟩ | ⟨r, s, rfl, rfl, erases⟩
    · rfl
    · have run := erases (w.moved { w.p.skipWs with rest := w.p.skipWs.rest.tail })
      dsimp only [Watch.moved] at run ⊢
      rw [← run]
      dsimp only
      cases closes : CondParser.eats (CondParser.skipWs (r _).2.p) (ch ')') <;> rfl
  · split
    · obtain ⟨value, place⟩ := erases_number (w.p.skipWs.rest.takeWhile isDigit) 0
        (w.moved { w.p.skipWs with rest := w.p.skipWs.rest.dropWhile isDigit })
      exact Prod.ext value place
    · unfold isNameStart
      split
      · cases vars (upper (w.p.skipWs.rest.takeWhile isWordChar)) <;> rfl
      · rfl

theorem erases_unary (erases : Erases watched read)
    (n : Nat) : Erases (watchUnary longLong watched n) (parseUnary read n) := by
  induction n with
  | zero => exact erases_entered erases
  | succ n ih =>
    apply erases_entered
    intro w
    rw [parseUnary]
    dsimp only
    cases w.p.skipWs.eats (ch '-') with
    | none => exact erases (w.moved w.p.skipWs)
    | some q =>
      have run := erases_signed ih (w.moved q)
      exact congrArg (fun r : Int × CondParser => (longLong (-r.1), r.2)) run

theorem erases_not (erases : Erases watched read)
    (n : Nat) : Erases (watchNot watched n) (parseNot read n) := by
  induction n with
  | zero => exact erases_entered erases
  | succ n ih =>
    apply erases_entered
    intro w
    rw [parseNot]
    dsimp only
    cases w.p.skipWs.matchNot with
    | none => exact erases (w.moved w.p.skipWs)
    | some q =>
      dsimp only
      split
      · exact erases (w.moved w.p.skipWs)
      · have run := erases_signed ih (w.moved q.skipWs)
        exact congrArg (fun r : Int × CondParser => (truth (r.1 == 0), r.2)) run

theorem erases_levels (erases : Erases watched read) :
    Erases (watchLevels longLong watched) (levels read) := by
  have unary : Erases (fun w => watchUnary longLong watched w.p.rest.length w)
      (fun p => parseUnary read p.rest.length p) := fun w => erases_unary erases _ w
  have cmp := erases_binary (erases_binary (erases_binary unary wraps_mul) wraps_add) wraps_cmp
  have not : Erases (fun w => watchNot _ w.p.rest.length w)
      (fun p => parseNot _ p.rest.length p) := fun w => erases_not cmp _ w
  exact erases_binary (erases_binary not wraps_and) wraps_or

theorem erases_or (vars : Name → Option Int) (depth : Nat) :
    Erases (watchOr longLong vars depth) (parseOr vars depth) := by
  induction depth with
  | zero => exact erases_levels (erases_primary vars (Or.inl ⟨rfl, rfl⟩))
  | succ depth ih => exact erases_levels (erases_primary vars (Or.inr ⟨_, _, rfl, rfl, ih⟩))

def outcome (r : Int × CondParser) : Except String Int :=
  match r.2.error with
  | some msg => .error msg
  | none =>
    if r.2.skipWs.rest = [] then .ok r.1
    else .error "unexpected text in preprocessor expression"

theorem evalCondExpr_watched (vars : Name → Option Int) (text : Bytes) :
    evalCondExpr vars text =
      outcome ((watchText longLong vars text).1, (watchText longLong vars text).2.p) := by
  rw [watchText, erases_or vars kMaxDepth]
  rfl

end PliPreprocessor
