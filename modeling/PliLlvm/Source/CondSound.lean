import PliLlvm.Source.CondRun

/- The evaluator of the preprocessor's expressions against its grammar. While every
   result stays in 64 bits the machine and the integers run alike; the calls open at once
   are bounded by the parentheses allowed and the prefix operators met. -/
namespace PliPreprocessor
open Scan (Byte)
open PliLexer (ch isDigit word)

def InWord (x : Int) : Prop := -2 ^ 63 ≤ x ∧ x < 2 ^ 63

def InRange (w : Watch) : Prop := ∀ x ∈ w.results, InWord x

def Fixes (wrap : Int → Int) : Prop := ∀ x, InWord x → wrap x = x

def Follows (a b : WatchedRead) : Prop := ∀ w, InRange (a w).2 → InRange w ∧ b w = a w

variable {w : Watch}

theorem inRange_noted {x : Int} (inside : InRange (w.noted x)) : InRange w ∧ InWord x :=
  ⟨fun y member => inside y (List.mem_cons_of_mem _ member), inside x List.mem_cons_self⟩

theorem follows_entered {a b : WatchedRead} (follows : Follows a b) :
    Follows (entered a) (entered b) := by
  intro w inside
  obtain ⟨before, same⟩ :=
    follows { w with calls := w.calls + 1, deepest := max w.deepest (w.calls + 1) } inside
  exact ⟨before, by simp only [entered, same]⟩

theorem follows_signed {a b : WatchedRead} (follows : Follows a b) :
    Follows (signed a) (signed b) := by
  intro w inside
  obtain ⟨before, same⟩ :=
    follows { w with signs := w.signs + 1, mostSigns := max w.mostSigns (w.signs + 1) } inside
  exact ⟨before, by simp only [signed, same]⟩

section Agreement
variable {wrap wrap' : Int → Int} (fixes : Fixes wrap) (fixes' : Fixes wrap')
include fixes fixes'

variable {a b : WatchedRead}

theorem follows_chain (follows : Follows a b) (operator : Operator) (n : Nat)
    (v : Int) (w : Watch) (inside : InRange (watchChain wrap a operator n (v, w)).2) :
    InRange w ∧ watchChain wrap' b operator n (v, w) = watchChain wrap a operator n (v, w) := by
  induction n generalizing v w with
  | zero => exact ⟨inside, rfl⟩
  | succ n ih =>
    simp only [watchChain] at inside ⊢
    cases found : operator w.p.skipWs with
    | none =>
      rw [found] at inside
      exact ⟨inside, rfl⟩
    | some r =>
      obtain ⟨apply, q⟩ := r
      simp only [found] at inside
      simp only
      cases computed : apply v (a (w.moved q)).1 with
      | error msg =>
        simp only [computed] at inside
        obtain ⟨before, same⟩ := follows (w.moved q) inside
        exact ⟨before, by rw [same, computed]⟩
      | ok x =>
        simp only [computed] at inside
        obtain ⟨noted, run⟩ := ih _ _ inside
        obtain ⟨operand, fits⟩ := inRange_noted noted
        obtain ⟨before, same⟩ := follows (w.moved q) operand
        refine ⟨before, ?_⟩
        rw [same, computed]
        simp only
        rw [fixes' x fits, ← run, fixes x fits]

theorem follows_binary (follows : Follows a b) (operator : Operator) :
    Follows (watchBinary wrap a operator) (watchBinary wrap' b operator) := by
  apply follows_entered
  intro w inside
  obtain ⟨first, run⟩ := follows_chain fixes fixes' follows operator _ _ _ inside
  obtain ⟨before, same⟩ := follows w first
  exact ⟨before, by simp only [same]; exact run⟩

theorem follows_number (digits : Bytes) (v : Int) (w : Watch)
    (inside : InRange (watchNumber wrap digits (v, w)).2) :
    InRange w ∧ watchNumber wrap' digits (v, w) = watchNumber wrap digits (v, w) := by
  induction digits generalizing v w with
  | nil => exact ⟨inside, rfl⟩
  | cons c digits ih =>
    simp only [watchNumber] at inside ⊢
    obtain ⟨noted, run⟩ := ih _ _ inside
    obtain ⟨ten, sum⟩ := inRange_noted noted
    obtain ⟨before, product⟩ := inRange_noted ten
    rw [fixes _ product] at sum run ⊢
    refine ⟨before, ?_⟩
    rw [fixes' _ product, fixes' _ sum, ← run, fixes _ sum]

theorem follows_primary (vars : Name → Option Int) {a b : Option WatchedRead}
    (follows : (a = none ∧ b = none) ∨ ∃ r s, a = some r ∧ b = some s ∧ Follows r s) :
    Follows (watchPrimary wrap vars a) (watchPrimary wrap' vars b) := by
  apply follows_entered
  intro w
  dsimp only [Watch.moved]
  split
  · rename_i opens
    rcases follows with ⟨rfl, rfl⟩ | ⟨r, s, rfl, rfl, follows⟩
    · exact fun inside => ⟨inside, rfl⟩
    · have inner := follows (w.moved { w.p.skipWs with rest := w.p.skipWs.rest.tail })
      dsimp only [Watch.moved] at inner ⊢
      cases closes : CondParser.eats (CondParser.skipWs (r _).2.p) (ch ')') with
      | none | some q =>
        intro inside
        obtain ⟨before, same⟩ := inner inside
        refine ⟨before, ?_⟩
        rw [same, closes]
  · split
    · intro inside
      exact follows_number fixes fixes' _ _ _ inside
    · split
      · cases vars (upper (w.p.skipWs.rest.takeWhile isWordChar)) <;>
          exact fun inside => ⟨inside, rfl⟩
      · exact fun inside => ⟨inside, rfl⟩

theorem follows_unary (follows : Follows a b) (n : Nat) :
    Follows (watchUnary wrap a n) (watchUnary wrap' b n) := by
  induction n with
  | zero => exact follows_entered follows
  | succ n ih =>
    apply follows_entered
    intro w inside
    cases found : w.p.skipWs.eats (ch '-') with
    | none =>
      simp only [found] at inside ⊢
      exact follows (w.moved w.p.skipWs) inside
    | some q =>
      simp only [found] at inside ⊢
      obtain ⟨operand, fits⟩ := inRange_noted inside
      obtain ⟨before, same⟩ := follows_signed ih (w.moved q) operand
      refine ⟨before, ?_⟩
      rw [same, fixes _ fits, fixes' _ fits]

omit fixes fixes' in
theorem follows_not (follows : Follows a b) (n : Nat) : Follows (watchNot a n) (watchNot b n) := by
  induction n with
  | zero => exact follows_entered follows
  | succ n ih =>
    apply follows_entered
    intro w
    dsimp only
    cases w.p.skipWs.matchNot with
    | none => exact follows (w.moved w.p.skipWs)
    | some q =>
      dsimp only
      split
      · exact follows (w.moved w.p.skipWs)
      · intro inside
        obtain ⟨before, same⟩ := follows_signed ih (w.moved q.skipWs) inside
        exact ⟨before, by rw [same]⟩

theorem follows_levels (follows : Follows a b) :
    Follows (watchLevels wrap a) (watchLevels wrap' b) := by
  have unary : Follows (fun w => watchUnary wrap a w.p.rest.length w)
      (fun w => watchUnary wrap' b w.p.rest.length w) := fun w =>
    follows_unary fixes fixes' follows _ w
  have cmp := follows_binary fixes fixes' (follows_binary fixes fixes'
    (follows_binary fixes fixes' unary mulExact) addExact) cmpOperator
  have not : Follows (fun w => watchNot _ w.p.rest.length w)
      (fun w => watchNot _ w.p.rest.length w) := fun w => follows_not cmp _ w
  exact follows_binary fixes fixes' (follows_binary fixes fixes' not andOperator) orOperator

theorem follows_or (vars : Name → Option Int) (depth : Nat) :
    Follows (watchOr wrap vars depth) (watchOr wrap' vars depth) := by
  induction depth with
  | zero =>
    exact follows_levels fixes fixes' (follows_primary fixes fixes' vars (Or.inl ⟨rfl, rfl⟩))
  | succ depth ih =>
    exact follows_levels fixes fixes'
      (follows_primary fixes fixes' vars (Or.inr ⟨_, _, rfl, rfl, ih⟩))

theorem watchText_agree {vars : Name → Option Int} {text : Bytes}
    (inside : InRange (watchText wrap vars text).2) :
    watchText wrap' vars text = watchText wrap vars text :=
  (follows_or fixes fixes' vars kMaxDepth _ inside).2

end Agreement

theorem fixes_longLong : Fixes longLong := by
  intro x inside
  unfold InWord at inside
  unfold longLong
  rw [Int.bmod_eq_of_le (by omega) (by omega)]

theorem fixes_id : Fixes id := fun _ _ => rfl

def frames : Nat := 8 * (kMaxDepth + 1)

structure Tidy (w : Watch) : Prop where
  opened : w.signs ≤ w.calls
  counted : w.calls ≤ w.deepest
  most : w.signs ≤ w.mostSigns
  reached : w.mostSigns ≤ w.deepest
  bounded : w.deepest ≤ frames + w.mostSigns

def Restores (w out : Watch) : Prop := Tidy out ∧ out.calls = w.calls ∧ out.signs = w.signs

/-- Started at most `k` calls above the open signs, a read keeps the bound. -/
def Nests (k : Nat) (r : WatchedRead) : Prop :=
  ∀ w, Tidy w → w.calls ≤ k + w.signs → Restores w (r w).2

theorem restores_moved (tidy : Tidy w) (p : CondParser) : Restores w (w.moved p) :=
  ⟨⟨tidy.opened, tidy.counted, tidy.most, tidy.reached, tidy.bounded⟩, rfl, rfl⟩

theorem restores_noted (tidy : Tidy w) (x : Int) : Restores w (w.noted x) :=
  ⟨⟨tidy.opened, tidy.counted, tidy.most, tidy.reached, tidy.bounded⟩, rfl, rfl⟩

theorem Restores.trans {a b c : Watch} (first : Restores a b) (second : Restores b c) :
    Restores a c :=
  ⟨second.1, second.2.1.trans first.2.1, second.2.2.trans first.2.2⟩

variable {k : Nat}

theorem nests_moved {r : WatchedRead} (nests : Nests k r) {w : Watch} (tidy : Tidy w)
    (p : CondParser) (room : w.calls ≤ k + w.signs) : Restores w (r (w.moved p)).2 :=
  (restores_moved tidy p).trans (nests _ (restores_moved tidy p).1 room)

theorem nests_entered {body : WatchedRead} (inside : k + 1 ≤ frames)
    (nests : ∀ w, Tidy w → w.calls ≤ k + 1 + w.signs → w.signs < w.calls →
      Restores w (body w).2) : Nests k (entered body) := by
  intro w tidy room
  obtain ⟨opened, counted, most, reached, bounded⟩ := tidy
  obtain ⟨after, calls, signs⟩ :=
    nests { w with calls := w.calls + 1, deepest := max w.deepest (w.calls + 1) }
      ⟨Nat.le_succ_of_le opened, Nat.le_max_right _ _, most,
        Nat.le_trans reached (Nat.le_max_left _ _),
        by dsimp only; omega⟩
      (by dsimp only; omega) (by dsimp only; omega)
  obtain ⟨opened', counted', most', reached', bounded'⟩ := after
  refine ⟨⟨?_, ?_, most', reached', bounded'⟩, rfl, signs⟩
  · show (body _).2.signs ≤ w.calls
    rw [signs]
    exact opened
  · show w.calls ≤ (body _).2.deepest
    have := calls
    dsimp only at this
    omega

theorem nests_signed {r : WatchedRead} (nests : Nests k r) {w : Watch} (tidy : Tidy w)
    (room : w.calls ≤ k + 1 + w.signs) (open_ : w.signs < w.calls) :
    Restores w (signed r w).2 := by
  obtain ⟨opened, counted, most, reached, bounded⟩ := tidy
  obtain ⟨after, calls, signs⟩ :=
    nests { w with signs := w.signs + 1, mostSigns := max w.mostSigns (w.signs + 1) }
      ⟨open_, counted, Nat.le_max_right _ _, by dsimp only; omega, by dsimp only; omega⟩
      (by dsimp only; omega)
  obtain ⟨opened', counted', most', reached', bounded'⟩ := after
  refine ⟨⟨?_, counted', ?_, reached', bounded'⟩, calls, rfl⟩
  · show w.signs ≤ (r _).2.calls
    rw [calls]
    exact opened
  · show w.signs ≤ (r _).2.mostSigns
    dsimp only at signs
    omega

section Nesting
variable {wrap : Int → Int}

variable {k : Nat}

theorem nests_chain {operand : WatchedRead} (nests : Nests k operand)
    (operator : Operator) (n : Nat) (v : Int) {w : Watch} (tidy : Tidy w)
    (room : w.calls ≤ k + w.signs) :
    Restores w (watchChain wrap operand operator n (v, w)).2 := by
  induction n generalizing v w with
  | zero => exact ⟨tidy, rfl, rfl⟩
  | succ n ih =>
    simp only [watchChain]
    cases operator w.p.skipWs with
    | none => exact restores_moved tidy _
    | some r =>
      obtain ⟨apply, q⟩ := r
      have after := nests_moved nests tidy q room
      dsimp only
      cases apply v (operand (w.moved q)).1 with
      | error msg => exact after.trans (restores_moved after.1 _)
      | ok x =>
        have noted := after.trans (restores_noted after.1 x)
        exact noted.trans (ih _ noted.1 (by rw [noted.2.1, noted.2.2]; exact room))

theorem nests_binary {k : Nat} {operand : WatchedRead} (inside : k + 1 ≤ frames)
    (nests : Nests (k + 1) operand) (operator : Operator) :
    Nests k (watchBinary wrap operand operator) := by
  refine nests_entered inside fun w tidy room _ => ?_
  have first := nests w tidy room
  exact first.trans
    (nests_chain nests operator _ _ first.1 (by rw [first.2.1, first.2.2]; exact room))

theorem nests_number (digits : Bytes) (v : Int) {w : Watch} (tidy : Tidy w) :
    Restores w (watchNumber wrap digits (v, w)).2 := by
  induction digits generalizing v w with
  | nil => exact ⟨tidy, rfl, rfl⟩
  | cons c digits ih =>
    have ten := restores_noted tidy (v * 10)
    have sum := ten.trans (restores_noted ten.1 (wrap (v * 10) + ((c - ch '0').toNat : Int)))
    exact sum.trans (ih _ sum.1)

theorem nests_primary (vars : Name → Option Int) {k : Nat} {inner : Option WatchedRead}
    (inside : k + 1 ≤ frames) (nests : ∀ r, inner = some r → Nests (k + 1) r) :
    Nests k (watchPrimary wrap vars inner) := by
  refine nests_entered inside fun w tidy room _ => ?_
  dsimp only
  split
  · cases inner with
    | none => exact restores_moved tidy _
    | some r =>
      dsimp only
      have after := nests_moved (nests r rfl) tidy
        { (w.moved w.p.skipWs).p with rest := (w.moved w.p.skipWs).p.rest.tail } room
      dsimp only [Watch.moved] at after ⊢
      cases CondParser.eats (CondParser.skipWs (r _).2.p) (ch ')') <;>
        exact after.trans (restores_moved after.1 _)
  · split
    · have read := restores_moved tidy
        { (w.moved w.p.skipWs).p with rest := (w.moved w.p.skipWs).p.rest.dropWhile isDigit }
      exact read.trans (nests_number _ _ read.1)
    · split
      · cases vars _ <;> exact restores_moved tidy _
      · exact restores_moved tidy _

theorem nests_unary {primary : WatchedRead} (inside : k + 1 ≤ frames)
    (nests : Nests (k + 1) primary) (n : Nat) : Nests k (watchUnary wrap primary n) := by
  induction n with
  | zero => exact nests_entered inside fun w tidy room _ => nests w tidy room
  | succ n ih =>
    refine nests_entered inside fun w tidy room open_ => ?_
    dsimp only
    cases w.p.skipWs.eats (ch '-') with
    | none => exact nests_moved nests tidy _ room
    | some q =>
      have start := restores_moved tidy q
      have operand := start.trans (nests_signed ih start.1 room open_)
      exact operand.trans (restores_noted operand.1 _)

theorem nests_not {cmp : WatchedRead} (inside : k + 1 ≤ frames)
    (nests : Nests (k + 1) cmp) (n : Nat) : Nests k (watchNot cmp n) := by
  induction n with
  | zero => exact nests_entered inside fun w tidy room _ => nests w tidy room
  | succ n ih =>
    refine nests_entered inside fun w tidy room open_ => ?_
    dsimp only
    cases w.p.skipWs.matchNot with
    | none => exact nests_moved nests tidy _ room
    | some q =>
      dsimp only
      split
      · exact nests_moved nests tidy _ room
      · have start := restores_moved tidy q.skipWs
        exact start.trans (nests_signed ih start.1 room open_)

theorem nests_levels {primary : WatchedRead} (inside : k + 8 ≤ frames)
    (nests : Nests (k + 7) primary) : Nests k (watchLevels wrap primary) := by
  have unary : Nests (k + 6) (fun w => watchUnary wrap primary w.p.rest.length w) := fun w =>
    nests_unary (by omega) nests _ w
  have mul := @nests_binary wrap (k + 5) _ (by omega) unary mulExact
  have add := @nests_binary wrap (k + 4) _ (by omega) mul addExact
  have cmp := @nests_binary wrap (k + 3) _ (by omega) add cmpOperator
  have not : Nests (k + 2) (fun w => watchNot _ w.p.rest.length w) := fun w =>
    nests_not (by omega) cmp _ w
  have and := @nests_binary wrap (k + 1) _ (by omega) not andOperator
  exact nests_binary (by omega) and orOperator

theorem nests_or (vars : Name → Option Int) {depth : Nat} (inside : depth ≤ kMaxDepth) :
    Nests (8 * (kMaxDepth - depth)) (watchOr wrap vars depth) := by
  induction depth with
  | zero =>
    refine nests_levels (by unfold frames; omega) (nests_primary vars (by unfold frames; omega) ?_)
    intro r none
    cases none
  | succ depth ih =>
    refine nests_levels (by unfold frames; omega) (nests_primary vars (by unfold frames; omega) ?_)
    intro r inner
    cases inner
    have deeper := ih (by omega)
    rwa [show 8 * (kMaxDepth - depth) = 8 * (kMaxDepth - (depth + 1)) + 7 + 1 by omega] at deeper

theorem watchText_deepest (vars : Name → Option Int) (text : Bytes) :
    (watchText wrap vars text).2.mostSigns ≤ (watchText wrap vars text).2.deepest ∧
      (watchText wrap vars text).2.deepest ≤ frames + (watchText wrap vars text).2.mostSigns := by
  have tidy : Tidy ⟨⟨trim text, none⟩, 0, 0, 0, 0, []⟩ :=
    ⟨Nat.le_refl 0, Nat.le_refl 0, Nat.le_refl 0, Nat.le_refl 0, Nat.zero_le _⟩
  obtain ⟨after, -, -⟩ := nests_or vars (Nat.le_refl kMaxDepth) _ tidy (Nat.zero_le _)
  exact ⟨after.reached, after.bounded⟩

end Nesting

def Sound (vars : Name → Option Int) (l : Level) (r : WatchedRead) : Prop :=
  ∀ w, (r w).2.p.error = none → w.p.error = none ∧
    ∃ s, w.p.rest = s ++ (r w).2.p.rest ∧ Value vars l s (r w).1

def Operators (l : Level) (operator : Operator) : Prop :=
  ∀ p apply q, operator p = some (apply, q) → q.error = p.error ∧
    ∃ op f, Operation l op f ∧ p.rest = op ++ q.rest ∧
      ∀ v w x, apply v w = .ok x → f v w = some x

theorem operators_eaten {l : Level} {c : Byte} {f : Int → Int → Option Int} {p q : CondParser}
    {apply : Int → Int → Except String Int} (operation : Operation l [c] f)
    (eaten : p.eats c = some q) (agrees : ∀ v w x, apply v w = .ok x → f v w = some x) :
    q.error = p.error ∧ ∃ op f, Operation l op f ∧ p.rest = op ++ q.rest ∧
      ∀ v w x, apply v w = .ok x → f v w = some x := by
  obtain ⟨rest, error⟩ := eats_rest eaten
  exact ⟨error, _, _, operation, rest, agrees⟩

theorem operators_or : Operators .or orOperator := by
  intro p apply q found
  obtain ⟨q', eaten, same⟩ := Option.map_eq_some_iff.mp found
  cases same
  exact operators_eaten .or eaten fun v w x computed => by cases computed; rfl

theorem operators_and : Operators .and andOperator := by
  intro p apply q found
  obtain ⟨q', eaten, same⟩ := Option.map_eq_some_iff.mp found
  cases same
  exact operators_eaten .and eaten fun v w x computed => by cases computed; rfl

theorem operators_add : Operators .add addExact := by
  intro p apply q found
  unfold addExact at found
  cases plus : p.eats (ch '+') with
  | some r =>
    rw [plus] at found
    cases found
    exact operators_eaten .plus plus fun v w x computed => by cases computed; rfl
  | none =>
    rw [plus] at found
    obtain ⟨r, minus, same⟩ := Option.map_eq_some_iff.mp found
    cases same
    exact operators_eaten .minus minus fun v w x computed => by cases computed; rfl

theorem operators_mul : Operators .mul mulExact := by
  intro p apply q found
  unfold mulExact at found
  cases times : p.eats (ch '*') with
  | some r =>
    rw [times] at found
    cases found
    exact operators_eaten .times times fun v w x computed => by cases computed; rfl
  | none =>
    rw [times] at found
    obtain ⟨r, slash, same⟩ := Option.map_eq_some_iff.mp found
    cases same
    refine operators_eaten .slash slash fun v w x computed => ?_
    unfold divideExact at computed
    split at computed
    · cases computed
    · rename_i divisor
      cases computed
      exact if_neg divisor

theorem operators_relation {c : Byte} {p q r : CondParser} {strict wide : Int → Int → Bool}
    {apply : Int → Int → Except String Int}
    (short : Operation .cmp [c] fun v w => some (truth (strict v w)))
    (long : Operation .cmp [c, ch '='] fun v w => some (truth (wide v w)))
    (eaten : p.eats c = some r)
    (found : (match r.eats (ch '=') with
      | some s => some ((fun v rhs => Except.ok (truth (wide v rhs))), s)
      | none => some ((fun v rhs => Except.ok (truth (strict v rhs))), r)) = some (apply, q)) :
    q.error = p.error ∧ ∃ op f, Operation .cmp op f ∧ p.rest = op ++ q.rest ∧
      ∀ v w x, apply v w = .ok x → f v w = some x := by
  obtain ⟨rest, error⟩ := eats_rest eaten
  cases equal : r.eats (ch '=') with
  | none =>
    rw [equal] at found
    cases found
    exact operators_eaten short eaten fun v w x computed => by cases computed; rfl
  | some s =>
    rw [equal] at found
    cases found
    obtain ⟨rest', error'⟩ := eats_rest equal
    refine ⟨error'.trans error, _, _, long, ?_, fun v w x computed => ?_⟩
    · rw [rest, rest']
      rfl
    · cases computed
      rfl

theorem operators_cmp : Operators .cmp cmpOperator := by
  intro p apply q found
  unfold cmpOperator at found
  cases eq : p.eats (ch '=') with
  | some r =>
    rw [eq] at found
    cases found
    exact operators_eaten .eq eq fun v w x computed => by cases computed; rfl
  | none =>
    rw [eq] at found
    cases less : p.eats (ch '<') with
    | some r =>
      rw [less] at found
      exact operators_relation .less .lessEq less found
    | none =>
      rw [less] at found
      cases greater : p.eats (ch '>') with
      | some r =>
        rw [greater] at found
        exact operators_relation .greater .greaterEq greater found
      | none =>
        rw [greater] at found
        cases matched : p.matchNot with
        | none =>
          rw [matched] at found
          cases found
        | some r =>
          rw [matched] at found
          obtain ⟨s, equal, same⟩ := Option.map_eq_some_iff.mp found
          cases same
          obtain ⟨sign, spelled, rest, error⟩ := matchNot_rest matched
          obtain ⟨rest', error'⟩ := eats_rest equal
          refine ⟨error'.trans error, _, _, .notEq spelled (white_takeWhile r.rest), ?_,
            fun v w x computed => ?_⟩
          · calc p.rest = sign ++ (r.rest.takeWhile isWhite ++ r.skipWs.rest) := by
                  rw [← skipWs_rest r, rest]
              _ = _ := by rw [rest', ← List.append_assoc, List.append_assoc _ [ch '=']]; rfl
          · cases computed
            rfl

section Soundness
variable {vars : Name → Option Int}

variable {l : Level}

theorem sound_entered {body : WatchedRead} (sound : Sound vars l body) :
    Sound vars l (entered body) := fun w finished =>
  sound { w with calls := w.calls + 1, deepest := max w.deepest (w.calls + 1) } finished

variable {operand : WatchedRead}

theorem sound_signed (sound : Sound vars l operand) :
    Sound vars l (signed operand) := fun w finished =>
  sound { w with signs := w.signs + 1, mostSigns := max w.mostSigns (w.signs + 1) } finished

variable {r : WatchedRead}

theorem sound_climb (sound : Sound vars l.next r) : Sound vars l r := by
  intro w finished
  obtain ⟨fine, s, rest, value⟩ := sound w finished
  exact ⟨fine, s, rest, .climb value⟩

theorem sound_skip (sound : Sound vars l r) (w : Watch)
    (finished : (r (w.moved w.p.skipWs)).2.p.error = none) : w.p.error = none ∧
      ∃ s, w.p.rest = s ++ (r (w.moved w.p.skipWs)).2.p.rest ∧
        Value vars l s (r (w.moved w.p.skipWs)).1 := by
  obtain ⟨fine, s, rest, value⟩ := sound _ finished
  refine ⟨fine, w.p.rest.takeWhile isWhite ++ s, ?_, value.lead (white_takeWhile _)⟩
  rw [List.append_assoc, ← rest]
  exact skipWs_rest w.p

variable {operator : Operator}

theorem chain_keeps
    (sound : Sound vars l.next operand) (operators : Operators l operator) (n : Nat) (v : Int)
    (w : Watch) (finished : (watchChain id operand operator n (v, w)).2.p.error = none) :
    w.p.error = none := by
  induction n generalizing v w with
  | zero => exact finished
  | succ n ih =>
    simp only [watchChain] at finished
    cases found : operator w.p.skipWs with
    | none =>
      rw [found] at finished
      exact finished
    | some r =>
      obtain ⟨apply, q⟩ := r
      simp only [found] at finished
      cases computed : apply v (operand (w.moved q)).1 with
      | error msg =>
        simp only [computed] at finished
        cases finished
      | ok x =>
        simp only [computed] at finished
        have operand := (sound (w.moved q) (ih _ ((operand (w.moved q)).2.noted x) finished)).1
        exact (operators _ apply q found).1.symm.trans operand

theorem sound_chain (sound : Sound vars l.next operand) (operators : Operators l operator) (n : Nat)
    {s₀ : Bytes} {v : Int} (w : Watch) (so_far : Value vars l s₀ v)
    (finished : (watchChain id operand operator n (v, w)).2.p.error = none) :
    ∃ s, w.p.rest = s ++ (watchChain id operand operator n (v, w)).2.p.rest ∧
      Value vars l (s₀ ++ s) (watchChain id operand operator n (v, w)).1 := by
  induction n generalizing s₀ v w with
  | zero => exact ⟨[], rfl, by rw [List.append_nil]; exact so_far⟩
  | succ n ih =>
    have blanks := skipWs_rest w.p
    simp only [watchChain] at finished ⊢
    cases found : operator w.p.skipWs with
    | none => exact ⟨_, blanks, so_far.trail (white_takeWhile _)⟩
    | some r =>
      obtain ⟨apply, q⟩ := r
      simp only [found] at finished ⊢
      obtain ⟨-, op, f, operation, rest, computes⟩ := operators _ apply q found
      cases computed : apply v (operand (w.moved q)).1 with
      | error msg =>
        simp only [computed] at finished
        cases finished
      | ok x =>
        simp only [computed] at finished ⊢
        obtain ⟨-, t, split, right⟩ :=
          sound (w.moved q)
            (chain_keeps sound operators n _ ((operand (w.moved q)).2.noted x) finished)
        have longer := Value.binary operation (so_far.trail (white_takeWhile w.p.rest)) right
          (computes _ _ _ computed)
        obtain ⟨s, last, value⟩ := ih _ longer finished
        refine ⟨w.p.rest.takeWhile isWhite ++ op ++ t ++ s, ?_, ?_⟩
        · calc
            w.p.rest = w.p.rest.takeWhile isWhite ++ (op ++ q.rest) := by
              rw [← rest]
              exact blanks
            _ = _ := by
              rw [show q.rest = t ++ (operand (w.moved q)).2.p.rest from split]
              simp only [List.append_assoc]
              congr 3
        · simpa only [List.append_assoc, id] using value

theorem sound_binary (sound : Sound vars l.next operand) (operators : Operators l operator) :
    Sound vars l (watchBinary id operand operator) := by
  apply sound_entered
  intro w finished
  obtain ⟨fine, s, split, value⟩ := sound w (chain_keeps sound operators _ _ _ finished)
  obtain ⟨t, last, whole⟩ := sound_chain sound operators _ _ value.climb finished
  exact ⟨fine, s ++ t, by rw [split, List.append_assoc, ← last], whole⟩

theorem watchNumber_id (digits : Bytes) (v : Int) (w : Watch) :
    (watchNumber id digits (v, w)).1 =
        digits.foldl (fun v c => v * 10 + ((c - ch '0').toNat : Int)) v ∧
      (watchNumber id digits (v, w)).2.p = w.p := by
  induction digits generalizing v w with
  | nil => exact ⟨rfl, rfl⟩
  | cons c digits ih => exact ih _ _

def closed (r : WatchedRead) (w : Watch) : Int × Watch :=
  match (r w).2.p.skipWs.eats (ch ')') with
  | none => ((r w).2.moved (r w).2.p.skipWs).fails "expected ')' in preprocessor expression"
  | some q => ((r w).1, (r w).2.moved q)

theorem sound_closed (sound : Sound vars .or r) (w : Watch)
    (finished : (closed r w).2.p.error = none) : w.p.error = none ∧
      ∃ s, w.p.rest = s ++ [ch ')'] ++ (closed r w).2.p.rest ∧ Value vars .or s (closed r w).1 := by
  unfold closed at finished ⊢
  cases closes : (r w).2.p.skipWs.eats (ch ')') with
  | none =>
    rw [closes] at finished
    cases finished
  | some q =>
    rw [closes] at finished
    obtain ⟨last, error⟩ := eats_rest closes
    obtain ⟨fine, s, split, value⟩ := sound w (error.symm.trans finished)
    refine ⟨fine, s ++ (r w).2.p.rest.takeWhile isWhite, ?_, value.trail (white_takeWhile _)⟩
    calc w.p.rest = s ++ ((r w).2.p.rest.takeWhile isWhite ++ (r w).2.p.skipWs.rest) := by
          rw [← skipWs_rest, split]
      _ = _ := by
          rw [last]
          simp only [List.append_assoc]
          rfl

theorem headD_next {s : Bytes} {test : Byte → Bool} (none : test 0 = false)
    (first : test (s.headD 0) = true) : ∃ c rest, s = c :: rest ∧ test c = true := by
  cases s with
  | nil => rw [List.headD_nil, none] at first; cases first
  | cons c rest => exact ⟨c, rest, rfl, first⟩

theorem isWordChar_start {c : Byte} (start : isNameStart c = true) : isWordChar c = true := by
  unfold isNameStart at start
  unfold isWordChar
  simp only [Bool.or_eq_true] at start ⊢
  tauto

theorem value_led {w : Watch} {s R : Bytes} {v : Int} (spelled : w.p.skipWs.rest = s ++ R)
    (value : Value vars .primary s v) :
    ∃ s, w.p.rest = s ++ R ∧ Value vars .primary s v := by
  refine ⟨w.p.rest.takeWhile isWhite ++ s, ?_, value.lead (white_takeWhile _)⟩
  rw [List.append_assoc, ← spelled]
  exact skipWs_rest w.p

theorem sound_primary {inner : Option WatchedRead}
    (sound : ∀ r, inner = some r → Sound vars .or r) :
    Sound vars .primary (watchPrimary id vars inner) := by
  apply sound_entered
  intro w
  dsimp only [Watch.moved]
  split
  · rename_i opens
    obtain ⟨c, rest, whole, bracket⟩ :=
      @headD_next w.p.skipWs.rest (fun c => decide (c = ch '(')) rfl (by rw [opens]; rfl)
    rw [of_decide_eq_true bracket] at whole
    cases inner with
    | none =>
      intro finished
      cases finished
    | some r =>
      intro finished
      obtain ⟨fine, s, split, value⟩ := sound_closed (sound r rfl)
        (w.moved { w.p.skipWs with rest := w.p.skipWs.rest.tail }) finished
      have tail : rest = _ := (congrArg List.tail whole).symm.trans split
      exact ⟨fine, value_led (whole.trans (congrArg (List.cons (ch '(')) tail)) (.paren value)⟩
  · split
    · rename_i digit
      obtain ⟨c, rest, whole, first⟩ := headD_next (by decide) digit
      intro finished
      obtain ⟨value, place⟩ := @watchNumber_id (w.p.skipWs.rest.takeWhile isDigit) 0
        (w.moved { w.p.skipWs with rest := w.p.skipWs.rest.dropWhile isDigit })
      have fine : w.p.error = none := (congrArg CondParser.error place).symm.trans finished
      refine ⟨fine, @value_led _ _ (w.p.skipWs.rest.takeWhile isDigit) _ _ ?_ ?_⟩
      · have after := congrArg CondParser.rest place
        exact (List.takeWhile_append_dropWhile).symm.trans (congrArg _ after.symm)
      · have number := @Value.number vars (w.p.skipWs.rest.takeWhile isDigit)
          (by rw [whole, List.takeWhile_cons_of_pos first]; exact List.cons_ne_nil _ _)
          (fun c member => List.mem_takeWhile_imp member)
        rwa [decimalValue, ← value] at number
    · split
      · rename_i start
        obtain ⟨c, rest, whole, first⟩ := headD_next (by decide) start
        cases known : vars (upper (w.p.skipWs.rest.takeWhile isWordChar)) with
        | none =>
          intro finished
          cases finished
        | some v =>
          intro finished
          refine ⟨finished, value_led (List.takeWhile_append_dropWhile).symm ?_⟩
          rw [whole, List.takeWhile_cons_of_pos (isWordChar_start first)] at known ⊢
          exact .variable first (fun c member => List.mem_takeWhile_imp member) known
      · intro finished
        cases finished

theorem sound_unary {primary : WatchedRead} (sound : Sound vars .primary primary) (n : Nat) :
    Sound vars .unary (watchUnary id primary n) := by
  have plain : Sound vars .unary primary := sound_climb sound
  induction n with
  | zero => exact sound_entered plain
  | succ n ih =>
    apply sound_entered
    intro w
    dsimp only
    cases minus : w.p.skipWs.eats (ch '-') with
    | none => exact sound_skip plain w
    | some q =>
      intro finished
      obtain ⟨rest, error⟩ := eats_rest minus
      obtain ⟨fine, s, split, value⟩ := sound_signed ih (w.moved q) finished
      refine ⟨error.symm.trans fine, w.p.rest.takeWhile isWhite ++ (ch '-' :: s), ?_,
        value.neg.lead (white_takeWhile _)⟩
      rw [List.append_assoc]
      exact (skipWs_rest w.p).trans (congrArg _ (rest.trans (congrArg (List.cons (ch '-')) split)))

theorem sound_not {cmp : WatchedRead} (sound : Sound vars .cmp cmp) (n : Nat) :
    Sound vars .not (watchNot cmp n) := by
  have plain : Sound vars .not cmp := sound_climb sound
  induction n with
  | zero => exact sound_entered plain
  | succ n ih =>
    apply sound_entered
    intro w
    dsimp only
    cases matched : w.p.skipWs.matchNot with
    | none => exact sound_skip plain w
    | some q =>
      dsimp only
      split
      · exact sound_skip plain w
      · intro finished
        obtain ⟨sign, spelled, rest, error⟩ := matchNot_rest matched
        obtain ⟨fine, s, split, value⟩ := sound_signed ih (w.moved q.skipWs) finished
        refine ⟨error.symm.trans fine,
          w.p.rest.takeWhile isWhite ++ (sign ++ (q.rest.takeWhile isWhite ++ s)), ?_,
          (Value.not spelled (value.lead (white_takeWhile _))).lead (white_takeWhile _)⟩
        have operand := (skipWs_rest q).trans (congrArg (q.rest.takeWhile isWhite ++ ·) split)
        rw [List.append_assoc, List.append_assoc, List.append_assoc]
        exact (skipWs_rest w.p).trans (congrArg _ (rest.trans (congrArg (sign ++ ·) operand)))

theorem sound_levels {primary : WatchedRead} (sound : Sound vars .primary primary) :
    Sound vars .or (watchLevels id primary) := by
  have unary : Sound vars .unary (fun w => watchUnary id primary w.p.rest.length w) := fun w =>
    sound_unary sound _ w
  have mul : Sound vars .mul _ := sound_binary unary operators_mul
  have add : Sound vars .add _ := sound_binary mul operators_add
  have cmp : Sound vars .cmp _ := sound_binary add operators_cmp
  have not : Sound vars .not (fun w => watchNot _ w.p.rest.length w) := fun w => sound_not cmp _ w
  have and : Sound vars .and _ := sound_binary not operators_and
  exact sound_binary and operators_or

theorem sound_or (depth : Nat) : Sound vars .or (watchOr id vars depth) := by
  induction depth with
  | zero =>
    refine sound_levels (sound_primary fun r none => ?_)
    cases none
  | succ depth ih =>
    refine sound_levels (sound_primary fun r inner => ?_)
    cases inner
    exact ih

theorem watchText_value {text : Bytes} {v : Int}
    (accepted : outcome ((watchText id vars text).1, (watchText id vars text).2.p) = .ok v) :
    Value vars .or text v := by
  unfold outcome at accepted
  dsimp only at accepted
  cases finished : (watchText id vars text).2.p.error with
  | some msg =>
    rw [finished] at accepted
    cases accepted
  | none =>
    rw [finished] at accepted
    dsimp only at accepted
    split at accepted
    · rename_i at_end
      cases accepted
      obtain ⟨-, s, split, value⟩ := sound_or kMaxDepth _ finished
      have whole : trim text = s ++ (watchText id vars text).2.p.rest.takeWhile isWhite := by
        have left := skipWs_rest (watchText id vars text).2.p
        rw [at_end, List.append_nil] at left
        exact split.trans (congrArg (s ++ ·) left)
      obtain ⟨before, behind, leading, trailing, spaced⟩ := trim_within text
      have trimmed := value.trail (white_takeWhile (watchText id vars text).2.p.rest)
      rw [← whole] at trimmed
      have wide := Value.blanks leading trailing trimmed
      rwa [← spaced] at wide
    · cases accepted

end Soundness

/-- What every signed operation of the text should yield, over the integers, in the order
    of reading; a text with an error is read on as the evaluator reads it. -/
def exactResults (vars : Name → Option Int) (text : Bytes) : List Int :=
  (watchText id vars text).2.results

def prefixNesting (vars : Name → Option Int) (text : Bytes) : Nat :=
  (watchText id vars text).2.mostSigns

/-- The evaluator on one text: what it returns is the value of the text, no operation of
    the 64-bit machine has a result outside 64 bits, and at most `bound` calls are open. -/
structure EvaluatesRight (bound : Nat) (vars : Name → Option Int) (text : Bytes) : Prop where
  value : ∀ v, evalCondExpr vars text = .ok v → Value vars .or text v
  inWord : ∀ x ∈ (watchText longLong vars text).2.results, InWord x
  calls : (watchText longLong vars text).2.deepest ≤ bound

theorem watchText_same {vars : Name → Option Int} {text : Bytes}
    (inside : (∀ x ∈ exactResults vars text, InWord x) ∨
      ∀ x ∈ (watchText longLong vars text).2.results, InWord x) :
    watchText longLong vars text = watchText id vars text := by
  rcases inside with exact_ | machine
  · exact watchText_agree fixes_id fixes_longLong exact_
  · exact (watchText_agree fixes_longLong fixes_id machine).symm

theorem evaluatesRight_of_inWord {vars : Name → Option Int} {text : Bytes} {k : Nat}
    (inside : ∀ x ∈ exactResults vars text, InWord x) (nesting : prefixNesting vars text ≤ k) :
    EvaluatesRight (frames + k) vars text := by
  have same := watchText_same (Or.inl inside)
  refine ⟨fun v returned => ?_, ?_, ?_⟩
  · rw [evalCondExpr_watched, same] at returned
    exact watchText_value returned
  · rw [same]
    exact inside
  · have deep := (@watchText_deepest longLong vars text).2
    rw [prefixNesting, ← same] at nesting
    omega

/-- On any set of texts, evaluation is right, stays in 64 bits and within a common depth
    just when every operation asked for has a 64-bit result and the prefix operators nest
    to a common depth; and then 8 * 129 calls and that depth are enough. -/
theorem cond_expr_iff (texts : (Name → Option Int) → Bytes → Prop) :
    ((∃ bound, ∀ vars text, texts vars text → EvaluatesRight bound vars text) ↔
      (∀ vars text, texts vars text → ∀ x ∈ exactResults vars text, InWord x) ∧
        ∃ k, ∀ vars text, texts vars text → prefixNesting vars text ≤ k) ∧
    ∀ k, (∀ vars text, texts vars text →
        (∀ x ∈ exactResults vars text, InWord x) ∧ prefixNesting vars text ≤ k) →
      ∀ vars text, texts vars text → EvaluatesRight (8 * 129 + k) vars text := by
  have enough : ∀ k, (∀ vars text, texts vars text →
      (∀ x ∈ exactResults vars text, InWord x) ∧ prefixNesting vars text ≤ k) →
      ∀ vars text, texts vars text → EvaluatesRight (8 * 129 + k) vars text :=
    fun k meets vars text member =>
      evaluatesRight_of_inWord (meets vars text member).1 (meets vars text member).2
  refine ⟨⟨?_, ?_⟩, enough⟩
  · rintro ⟨bound, all⟩
    refine ⟨fun vars text member => ?_, bound, fun vars text member => ?_⟩
    · obtain ⟨-, machine, -⟩ := all vars text member
      rw [exactResults, ← watchText_same (Or.inr machine)]
      exact machine
    · obtain ⟨-, machine, calls⟩ := all vars text member
      rw [prefixNesting, ← watchText_same (Or.inr machine)]
      exact Nat.le_trans (watchText_deepest vars text).1 calls
  · rintro ⟨inside, k, nesting⟩
    exact ⟨8 * 129 + k, enough k fun vars text member =>
      ⟨inside vars text member, nesting vars text member⟩⟩

theorem cond_expr_two_signs :
    EvaluatesRight (8 * 129 + 2) (fun _ => none) (word "- - 2 * (3 + 4) = 14") :=
  (cond_expr_iff fun vars text =>
      vars = (fun _ => none) ∧ text = word "- - 2 * (3 + 4) = 14").2 2
    (by rintro _ _ ⟨rfl, rfl⟩; exact ⟨by unfold InWord; decide +kernel, by decide +kernel⟩)
    _ _ ⟨rfl, rfl⟩

/-- One more than the largest value: the sum leaves 64 bits, and wraps. -/
theorem sum_overflows :
    evalCondExpr (fun _ => none) (word "9223372036854775807 + 1") = .ok (-9223372036854775808) ∧
      ¬∃ bound, ∀ vars text, EvaluatesRight bound vars text := by
  have summed : 9223372036854775808 ∈
      (watchText longLong (fun _ => none) (word "9223372036854775807 + 1")).2.results := by
    decide +kernel
  refine ⟨by decide +kernel, ?_⟩
  rintro ⟨bound, all⟩
  have outside := (all _ _).inWord _ summed
  exact absurd outside.2 (by decide)

end PliPreprocessor
