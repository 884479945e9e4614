import Mathlib.Logic.Function.Iterate

/- Facts that spread over numbered nodes by sweeps. A sweep visits the nodes in order; a node
   takes over what the facts the nodes have at that moment give it, and behind the last node
   every one closes its own facts. -/
namespace Sweep
variable {Fact : Type}

/-- Which facts every node has. -/
abbrev Known (Fact : Type) := Nat → Fact → Prop

/-- `gives i c g f`: the fact `g` of node `c` gives node `i` the fact `f`. `late i g f`: at the
    end of a sweep its own fact `g` gives node `i` the fact `f`. -/
structure Rules (Fact : Type) where
  nodes : Nat
  gives : Nat → Nat → Fact → Fact → Prop
  late : Nat → Fact → Fact → Prop

variable (rules : Rules Fact)

def visit (i : Nat) (st : Known Fact) : Known Fact := fun j f =>
  st j f ∨ (j = i ∧ ∃ c g, rules.gives i c g f ∧ st c g)

/-- The first turns of a sweep. -/
def turns : Nat → Known Fact → Known Fact
  | 0, st => st
  | s + 1, st => visit rules s (turns s st)

def closing (st : Known Fact) : Known Fact := fun j f => st j f ∨ ∃ g, rules.late j g f ∧ st j g

def sweep (st : Known Fact) : Known Fact := closing rules (turns rules rules.nodes st)

/-- The sweep in which turn `s` sees what was new at turn `k` of sweep `r`. -/
def seen (r k s : Nat) : Nat := if k < s then r else r + 1

/-- A way of a fact to a node: the sweep and the turn at which it is there. What a node has
    from the start counts as new at the end of sweep 0, the close of a sweep as its last
    turn. -/
inductive Arrives (own : Known Fact) : Nat → Nat → Nat → Fact → Prop where
  | own {i : Nat} {f : Fact} (has : own i f) : Arrives own 0 rules.nodes i f
  | gives {r k c i : Nat} {g f : Fact} (there : Arrives own r k c g)
      (rule : rules.gives i c g f) (node : i < rules.nodes) : Arrives own (seen r k i) i i f
  | late {r k i : Nat} {g f : Fact} (there : Arrives own r k i g) (rule : rules.late i g f) :
      Arrives own (seen r k rules.nodes) rules.nodes i f

variable {rules} {own : Known Fact}

variable {r k i : Nat} {f : Fact}

theorem arrives_turn (there : Arrives rules own r k i f) : k ≤ rules.nodes := by
  cases there with
  | own => exact Nat.le_refl _
  | gives _ _ node => exact Nat.le_of_lt node
  | late => exact Nat.le_refl _

/-- What is there before turn `s` of sweep `r + 1`. -/
def Before (rules : Rules Fact) (own : Known Fact) (r s : Nat) : Known Fact := fun i f =>
  ∃ r' k, Arrives rules own r' k i f ∧ (r' ≤ r ∨ (r' = r + 1 ∧ k < s))

variable {s : Nat}

theorem seen_before {r' : Nat} (before : r' ≤ r ∨ (r' = r + 1 ∧ k < s)) :
    seen r' k s ≤ r ∨ seen r' k s = r + 1 := by
  unfold seen
  split <;> omega

/-- One turn: what the node takes over is what arrives at it at this turn. -/
theorem visit_before (node : s < rules.nodes) :
    visit rules s (Before rules own r s) = Before rules own r (s + 1) := by
  funext i f
  refine propext ⟨?_, ?_⟩
  · rintro (⟨r', k, there, before⟩ | ⟨rfl, c, g, rule, r', k, there, before⟩)
    · exact ⟨r', k, there, by omega⟩
    · refine ⟨_, _, there.gives rule node, ?_⟩
      rcases seen_before before with early | now
      · exact Or.inl early
      · exact Or.inr ⟨now, by omega⟩
  · rintro ⟨r', k, there, before⟩
    by_cases now : r' = r + 1 ∧ k = s
    · obtain ⟨sweep_eq, turn_eq⟩ := now
      cases there with
      | own => omega
      | @gives r0 k0 c _ g _ earlier rule _ =>
        subst turn_eq
        refine Or.inr ⟨rfl, c, g, rule, r0, k0, earlier, ?_⟩
        unfold seen at sweep_eq
        split at sweep_eq <;> omega
      | late => omega
    · exact Or.inl ⟨r', k, there, by omega⟩

theorem turns_before (nodes : s ≤ rules.nodes) :
    turns rules s (Before rules own r 0) = Before rules own r s := by
  induction s with
  | zero => rfl
  | succ s ih => rw [turns, ih (by omega), visit_before (by omega)]

theorem closing_before (r : Nat) :
    closing rules (Before rules own r rules.nodes) = Before rules own (r + 1) 0 := by
  funext i f
  refine propext ⟨?_, ?_⟩
  · rintro (⟨r', k, there, before⟩ | ⟨g, rule, r', k, there, before⟩)
    · exact ⟨r', k, there, by omega⟩
    · refine ⟨_, _, there.late rule, ?_⟩
      rcases seen_before before with early | now <;> omega
  · rintro ⟨r', k, there, before⟩
    have turn := arrives_turn there
    by_cases now : r' = r + 1 ∧ k = rules.nodes
    · obtain ⟨sweep_eq, turn_eq⟩ := now
      cases there with
      | own | gives => omega
      | @late r0 k0 _ g _ earlier rule =>
        refine Or.inr ⟨g, rule, r0, k0, earlier, ?_⟩
        unfold seen at sweep_eq
        split at sweep_eq <;> omega
    · exact Or.inl ⟨r', k, there, by omega⟩

theorem arrives_first (there : Arrives rules own r k i f)
    (first : r = 0) : k = rules.nodes ∧ own i f := by
  induction there with
  | own has => exact ⟨rfl, has⟩
  | @gives r0 k0 c i g f _ _ node ih | @late r0 k0 i g f _ _ ih =>
    unfold seen at first
    split at first
    · have := (ih first).1
      omega
    · omega

theorem own_before : own = Before rules own 0 0 := by
  funext i f
  refine propext ⟨fun has => ⟨0, _, .own has, Or.inl (Nat.le_refl 0)⟩, ?_⟩
  rintro ⟨r', k, there, before⟩
  exact (arrives_first there (by omega)).2

theorem sweeps_before (r : Nat) : (sweep rules)^[r] own = Before rules own r 0 := by
  induction r with
  | zero => exact own_before
  | succ r ih =>
    rw [Function.iterate_succ_apply', ih, sweep, turns_before (Nat.le_refl _), closing_before]

/-- After `r` sweeps a node has the facts that arrive by then. -/
theorem sweeps_iff : (sweep rules)^[r] own i f ↔ ∃ r' k, Arrives rules own r' k i f ∧ r' ≤ r := by
  rw [sweeps_before]
  constructor
  · rintro ⟨r', k, there, before⟩
    exact ⟨r', k, there, by omega⟩
  · rintro ⟨r', k, there, early⟩
    exact ⟨r', k, there, Or.inl early⟩

/-- Every fact that arrives at a node at all arrives within `r` sweeps. -/
def Timely (rules : Rules Fact) (own : Known Fact) (r : Nat) : Prop :=
  ∀ r' k i f, Arrives rules own r' k i f → ∃ r'' k', Arrives rules own r'' k' i f ∧ r'' ≤ r

theorem sweep_keeps {st : Known Fact} {i : Nat} {f : Fact} (has : st i f) : sweep rules st i f := by
  refine Or.inl ?_
  generalize rules.nodes = s
  induction s with
  | zero => exact has
  | succ s ih => exact Or.inl ih

/-- The sweeps are finished after `r` of them just when all ways are that short. -/
theorem finished_iff_timely (r : Nat) :
    sweep rules ((sweep rules)^[r] own) = (sweep rules)^[r] own ↔ Timely rules own r := by
  constructor
  · intro fixed r' k i f there
    have later (m : Nat) : (sweep rules)^[r + m] own = (sweep rules)^[r] own := by
      induction m with
      | zero => rfl
      | succ m ih => rw [← Nat.add_assoc, Function.iterate_succ_apply', ih, fixed]
    have reached : (sweep rules)^[r + r'] own i f := sweeps_iff.mpr ⟨r', k, there, by omega⟩
    rw [later] at reached
    exact sweeps_iff.mp reached
  · intro timely
    funext i f
    refine propext ⟨fun has => ?_, fun has => sweep_keeps has⟩
    rw [← Function.iterate_succ_apply' (sweep rules) r own] at has
    obtain ⟨r', k, there, -⟩ := sweeps_iff.mp has
    exact sweeps_iff.mpr (timely r' k i f there)

/-- A finished state is closed under the rules, and holds whatever they lead to. -/
theorem finished_closed {st : Known Fact} (fixed : sweep rules st = st) :
    (∀ i c g f, i < rules.nodes → rules.gives i c g f → st c g → st i f) ∧
      ∀ i g f, rules.late i g f → st i g → st i f := by
  have turn_keeps {j : Nat} {f : Fact} (s : Nat) (has : st j f) : turns rules s st j f := by
    induction s with
    | zero => exact has
    | succ s ih => exact Or.inl ih
  have grown (s more : Nat) {j : Nat} {f : Fact} (has : turns rules s st j f) :
      turns rules (s + more) st j f := by
    induction more with
    | zero => exact has
    | succ more ih => exact Or.inl ih
  constructor
  · intro i c g f node rule has
    rw [← fixed]
    have turn : turns rules (i + 1) st i f :=
      Or.inr ⟨rfl, c, g, rule, turn_keeps i has⟩
    have whole := grown (i + 1) (rules.nodes - (i + 1)) turn
    rw [Nat.add_sub_cancel' node] at whole
    exact Or.inl whole
  · intro i g f rule has
    rw [← fixed]
    exact Or.inr ⟨g, rule, turn_keeps rules.nodes has⟩

end Sweep
