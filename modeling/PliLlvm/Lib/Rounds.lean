import Mathlib.Data.Finset.Card

/- In-place sweeps over numbered nodes, repeated until one changes nothing or a limit is
   met. What a node knows is a value of which facts hold; an edge carries a fact from the
   node it leads to. A fact is derived within k when a chain of at most k edges brings it
   from a node that starts with it. -/
namespace Rounds
variable {β φ ε : Type}

section
variable [DecidableEq β]

/-- One node's value replaced, and whether anything has changed so far. -/
def update (f : (Nat → β) → Nat → β) (s : (Nat → β) × Bool) (p : Nat) : (Nat → β) × Bool :=
  if f s.1 p = s.1 p then s else (fun q => if q = p then f s.1 p else s.1 q, true)

def sweep (f : (Nat → β) → Nat → β) (nodes : List Nat) (s : (Nat → β) × Bool) : (Nat → β) × Bool :=
  nodes.foldl (update f) s

end

def repeatRounds (round : (Nat → β) → (Nat → β) × Bool) : Nat → (Nat → β) → Nat → β
  | 0, s => s
  | left + 1, s => if (round s).2 then repeatRounds round left (round s).1 else (round s).1

/-- What every node of the first state knows, it knows in the second. -/
def Below (holds : β → φ → Prop) (s t : Nat → β) : Prop := ∀ p x, holds (s p) x → holds (t p) x

theorem below_refl (holds : β → φ → Prop) (s : Nat → β) : Below holds s s := by
  intro p x h
  exact h

theorem Below.trans {holds : β → φ → Prop} {s t u : Nat → β} (first : Below holds s t)
    (second : Below holds t u) : Below holds s u := by
  intro p x h
  exact second p x (first p x h)

section Sweeps
variable [DecidableEq β] {holds : β → φ → Prop} {f : (Nat → β) → Nat → β}

theorem update_at (s : (Nat → β) × Bool) (p : Nat) : (update f s p).1 p = f s.1 p := by
  unfold update
  split
  · rename_i same
    exact same.symm
  · simp

theorem update_other (s : (Nat → β) × Bool) {p q : Nat} (ne : q ≠ p) :
    (update f s p).1 q = s.1 q := by
  unfold update
  split
  · rfl
  · simp [ne]

theorem update_unchanged {s : (Nat → β) × Bool} {p : Nat} (still : (update f s p).2 = false) :
    update f s p = s := by
  unfold update at still ⊢
  split
  · rfl
  · rename_i other
    rw [if_neg other] at still
    cases still

theorem sweep_unchanged {nodes : List Nat} {s : (Nat → β) × Bool}
    (still : (sweep f nodes s).2 = false) : sweep f nodes s = s := by
  induction nodes generalizing s with
  | nil => rfl
  | cons p rest ih =>
    have later : sweep f rest (update f s p) = update f s p := ih still
    have here : (update f s p).2 = false := by
      rw [← later]
      exact still
    calc sweep f rest (update f s p) = update f s p := later
      _ = s := update_unchanged here

theorem update_grows (grows : ∀ s p x, holds (s p) x → holds (f s p) x) (s : (Nat → β) × Bool)
    (p : Nat) : Below holds s.1 (update f s p).1 := by
  intro q x h
  by_cases same : q = p
  · subst same
    rw [update_at]
    exact grows s.1 q x h
  · rw [update_other s same]
    exact h

theorem sweep_grows (grows : ∀ s p x, holds (s p) x → holds (f s p) x) (nodes : List Nat)
    (s : (Nat → β) × Bool) : Below holds s.1 (sweep f nodes s).1 := by
  induction nodes generalizing s with
  | nil => exact below_refl holds s.1
  | cons p rest ih => exact (update_grows grows s p).trans (ih (update f s p))

/-- A node's turn sees at least what the sweep started with. -/
theorem sweep_takes (grows : ∀ s p x, holds (s p) x → holds (f s p) x)
    (monotone : ∀ s t p x, Below holds s t → holds (f s p) x → holds (f t p) x)
    {nodes : List Nat} {s : (Nat → β) × Bool} {p : Nat} {x : φ} (member : p ∈ nodes)
    (h : holds (f s.1 p) x) : holds ((sweep f nodes s).1 p) x := by
  induction nodes generalizing s with
  | nil => cases member
  | cons q rest ih =>
    rcases List.mem_cons.mp member with rfl | later
    · apply sweep_grows grows rest (update f s p)
      rw [update_at]
      exact h
    · exact ih later (monotone _ _ p x (update_grows grows s q) h)

theorem sweep_keeps {good : Nat → β → Prop}
    (keeps : ∀ s p, (∀ q, good q (s q)) → good p (f s p)) {nodes : List Nat}
    {s : (Nat → β) × Bool} (h : ∀ q, good q (s.1 q)) : ∀ q, good q ((sweep f nodes s).1 q) := by
  induction nodes generalizing s with
  | nil => exact h
  | cons p rest ih =>
    apply ih
    intro q
    by_cases same : q = p
    · subst same
      rw [update_at]
      exact keeps s.1 q h
    · rw [update_other s same]
      exact h q

end Sweeps

inductive Derived (edges : Nat → List (Nat × ε)) (carry : ε → φ → φ) (start : Nat → φ → Prop) :
    Nat → Nat → φ → Prop where
  | here {k p x} : start p x → Derived edges carry start k p x
  | along {k p q e x} : (q, e) ∈ edges p → Derived edges carry start k q x →
      Derived edges carry start (k + 1) p (carry e x)

theorem Derived.weaken {edges : Nat → List (Nat × ε)} {carry : ε → φ → φ} {start : Nat → φ → Prop}
    {k j p : Nat} {x : φ} (h : Derived edges carry start k p x) (le : k ≤ j) :
    Derived edges carry start j p x := by
  induction h generalizing j with
  | here held => exact .here held
  | along edge _ ih =>
    obtain ⟨i, rfl⟩ : ∃ i, j = i + 1 := ⟨j - 1, by omega⟩
    exact .along edge (ih (by omega))

section Short
variable {edges : Nat → List (Nat × ε)} {carry : ε → φ → φ} {start : Nat → φ →
  Prop} {x : φ} {n : Nat}

open Classical in
/-- The nodes to which chains of at most k edges bring a fact. -/
noncomputable def reached (edges : Nat → List (Nat × ε)) (carry : ε → φ → φ)
    (start : Nat → φ → Prop) (x : φ) (n k : Nat) : Finset Nat :=
  (Finset.range n).filter fun p => Derived edges carry start k p x

theorem mem_reached {k p : Nat} :
    p ∈ reached edges carry start x n k ↔ p < n ∧ Derived edges carry start k p x := by
  simp [reached]

theorem reached_grows {k j : Nat} (le : k ≤ j) :
    reached edges carry start x n k ⊆ reached edges carry start x n j := by
  intro p member
  rw [mem_reached] at member ⊢
  exact ⟨member.1, member.2.weaken le⟩

/-- Some number of edges, no greater than there are nodes, reaches no fewer nodes than the
    next. -/
theorem reached_settles (edges : Nat → List (Nat × ε)) (carry : ε → φ → φ) (start : Nat → φ → Prop)
    (x : φ) (n : Nat) : ∃ k, k ≤ n ∧
    reached edges carry start x n (k + 1) = reached edges carry start x n k := by
  by_contra never
  push Not at never
  have large : ∀ k, k ≤ n + 1 → k ≤ (reached edges carry start x n k).card := by
    intro k
    induction k with
    | zero => exact fun _ => Nat.zero_le _
    | succ k ih =>
      intro bound
      have proper : reached edges carry start x n k ⊂ reached edges carry start x n (k + 1) :=
        (reached_grows (Nat.le_succ k)).ssubset_of_ne (never k (by omega)).symm
      have := Finset.card_lt_card proper
      have := ih (by omega)
      omega
  have few : (reached edges carry start x n (n + 1)).card ≤ n := by
    have := Finset.card_le_card
      (fun p member => Finset.mem_range.mpr (mem_reached.mp member).1 :
        reached edges carry start x n (n + 1) ⊆ Finset.range n)
    rwa [Finset.card_range] at this
  have := large (n + 1) (Nat.le_refl _)
  omega

/-- A fact that no edge changes or makes out of another needs no chain longer than there
    are nodes. -/
theorem Derived.short (kept : ∀ e y, carry e y = x → y = x)
    (inside : ∀ p edge, edge ∈ edges p → p < n) {k p : Nat}
    (h : Derived edges carry start k p x) : Derived edges carry start n p x := by
  obtain ⟨k₀, bound, settled⟩ := reached_settles edges carry start x n
  suffices Derived edges carry start k₀ p x from this.weaken bound
  induction k generalizing p with
  | zero =>
    cases h with
    | here held => exact .here held
  | succ k ih =>
    generalize same : x = y at h
    cases h with
    | here held =>
      subst same
      exact .here held
    | @along _ _ q e y edge below =>
      have there := kept e y same.symm
      subst there
      have next : p ∈ reached edges carry start y n (k₀ + 1) :=
        mem_reached.mpr ⟨inside p (q, e) edge, same ▸ .along edge (ih below)⟩
      rw [settled] at next
      rw [← same]
      exact (mem_reached.mp next).2

end Short

section Repeat
variable {holds : β → φ → Prop} {edges : Nat → List (Nat × ε)} {carry : ε → φ → φ}
  {round : (Nat → β) → (Nat → β) × Bool}

/-- A round has brought every fact one edge nearer. -/
theorem derived_after_round (grows : ∀ s, Below holds s (round s).1)
    (takes : ∀ s p q e x, (q, e) ∈ edges p → holds (s q) x → holds ((round s).1 p) (carry e x))
    {s : Nat → β} {k p : Nat} {x : φ} (h : Derived edges carry (fun p x => holds (s p) x) k p x) :
    Derived edges carry (fun p x => holds ((round s).1 p) x) (k - 1) p x := by
  induction h with
  | here start => exact .here (grows s _ _ start)
  | @along k p q e x edge below ih =>
    cases below with
    | here start => exact .here (takes s p q e x edge start)
    | along inner rest => exact .along edge ih

/-- The rounds bring along every fact whose chain is no longer than there are rounds. -/
theorem repeatRounds_derives (grows : ∀ s, Below holds s (round s).1)
    (takes : ∀ s p q e x, (q, e) ∈ edges p → holds (s q) x → holds ((round s).1 p) (carry e x))
    (still : ∀ s, (round s).2 = false → (round s).1 = s) {left k : Nat} (within : k ≤ left)
    {s : Nat → β} {p : Nat} {x : φ}
    (h : Derived edges carry (fun p x => holds (s p) x) k p x) :
    holds (repeatRounds round left s p) x := by
  induction left generalizing k s with
  | zero =>
    cases h with
    | here start => exact start
    | along edge below => omega
  | succ left ih =>
    unfold repeatRounds
    split
    · exact ih (by omega) (derived_after_round grows takes h)
    · rename_i unchanged
      have same : (round s).1 = s := still s (by simpa using unchanged)
      rw [same]
      clear within ih
      induction h with
      | here start => exact start
      | @along k p q e x edge below ih =>
        have := takes s p q e x edge ih
        rw [same] at this
        exact this

end Repeat

end Rounds
