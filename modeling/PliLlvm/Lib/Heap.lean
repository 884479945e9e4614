import Mathlib.Data.Multiset.Range

/- Binary heaps laid out in an array: the children of the place i are 2i + 1 and 2i + 2.
   While an entry is sifted its place is a hole, which the order does not speak of. -/
namespace Heap
open Function (update update_of_ne update_self)
variable {α κ : Type} [LinearOrder κ] {key : α → κ} {a : Nat → α} {n hole : Nat}

/-- No entry is before its parent. -/
def Ordered (key : α → κ) (a : Nat → α) (n : Nat) : Prop :=
  ∀ i, 0 < i → i < n → key (a ((i - 1) / 2)) ≤ key (a i)

/-- In order but for the hole; the entries below the hole are not before the one above it. -/
structure Hole (key : α → κ) (a : Nat → α) (n hole : Nat) : Prop where
  off : ∀ i, 0 < i → i < n → i ≠ hole → (i - 1) / 2 ≠ hole → key (a ((i - 1) / 2)) ≤ key (a i)
  across : ∀ i, 0 < i → i < n → (i - 1) / 2 = hole → 0 < hole → key (a ((hole - 1) / 2)) ≤ key (a i)

theorem root_least (ordered : Ordered key a n) {i : Nat} (inside : i < n) :
    key (a 0) ≤ key (a i) := by
  induction i using Nat.strongRecOn with
  | ind i ih =>
    rcases Nat.eq_zero_or_pos i with rfl | positive
    · exact le_refl _
    · exact le_trans (ih ((i - 1) / 2) (by omega) (by omega)) (ordered i positive inside)

theorem Ordered.fewer {m : Nat} (ordered : Ordered key a n) (less : m ≤ n) : Ordered key a m :=
  fun i positive inside => ordered i positive (by omega)

/-- Any place of a heap may become the hole. -/
theorem Ordered.opened (ordered : Ordered key a n) (within : hole < n) : Hole key a n hole := by
  refine ⟨fun i positive inside _ _ => ordered i positive inside,
    fun i positive inside child above => ?_⟩
  have lower := ordered i positive inside
  rw [child] at lower
  exact le_trans (ordered hole above within) lower

/-- A heap with one more place, at its end. -/
theorem Ordered.grow (ordered : Ordered key a n) : Hole key a (n + 1) n := by
  refine ⟨fun i positive inside other _ => ordered i positive (by omega),
    fun i positive inside child _ => ?_⟩
  omega

/-- What stands in the hole does not matter. -/
theorem Hole.refill (order : Hole key a n hole) (e : α) :
    Hole key (update a hole e) n hole := by
  refine ⟨fun i positive inside other child => ?_, fun i positive inside child above => ?_⟩
  · rw [update_of_ne child, update_of_ne other]
    exact order.off i positive inside other child
  · rw [update_of_ne (by omega), update_of_ne (by omega)]
    exact order.across i positive inside child above

/-- An entry fits the hole if it is neither before what is above nor after what is below. -/
theorem Hole.filled {e : α} (order : Hole key a n hole)
    (above : 0 < hole → key (a ((hole - 1) / 2)) ≤ key e)
    (below : ∀ i, 0 < i → i < n → (i - 1) / 2 = hole → key e ≤ key (a i)) :
    Ordered key (update a hole e) n := by
  intro i positive inside
  have apart : (i - 1) / 2 ≠ i := by omega
  by_cases here : i = hole
  · subst here
    rw [update_self, update_of_ne apart]
    exact above positive
  · rw [update_of_ne here]
    by_cases child : (i - 1) / 2 = hole
    · rw [child, update_self]
      exact below i positive inside child
    · rw [update_of_ne child]
      exact order.off i positive inside here child

/-- The hole moves up: the entry above it comes down. -/
theorem Hole.up (order : Hole key a n hole) (positive : 0 < hole) (within : hole < n) :
    Hole key (update a hole (a ((hole - 1) / 2))) n ((hole - 1) / 2) := by
  refine ⟨fun i first inside other child => ?_, fun i first inside child above => ?_⟩
  · have notHole : i ≠ hole := by
      rintro rfl
      exact child rfl
    rw [update_of_ne notHole]
    by_cases below : (i - 1) / 2 = hole
    · rw [below, update_self]
      exact order.across i first inside below positive
    · rw [update_of_ne below]
      exact order.off i first inside notHole below
  · have lift := order.off ((hole - 1) / 2) above (by omega) (by omega) (by omega)
    rw [update_of_ne (by omega)]
    by_cases here : i = hole
    · rw [here, update_self]
      exact lift
    · rw [update_of_ne here]
      have sibling := order.off i first inside here (by omega)
      rw [child] at sibling
      exact le_trans lift sibling

/-- The hole moves down: the first of the entries below it comes up. -/
theorem Hole.down {c : Nat} (order : Hole key a n hole) (positive : 0 < c) (within : c < n)
    (child : (c - 1) / 2 = hole)
    (first : ∀ i, 0 < i → i < n → (i - 1) / 2 = hole → key (a c) ≤ key (a i)) :
    Hole key (update a hole (a c)) n c := by
  refine ⟨fun i pos inside other apart => ?_, fun i pos inside below _ => ?_⟩
  · by_cases here : i = hole
    · subst here
      rw [update_self, update_of_ne (by omega)]
      exact order.across c positive within child pos
    · rw [update_of_ne here]
      by_cases sibling : (i - 1) / 2 = hole
      · rw [sibling, update_self]
        exact first i pos inside sibling
      · rw [update_of_ne sibling]
        exact order.off i pos inside here sibling
  · rw [child, update_self, update_of_ne (by omega)]
    have lower := order.off i pos inside (by omega) (by omega)
    rw [below] at lower
    exact lower

/-- The entries of the first n places. -/
def contents (a : Nat → α) (n : Nat) : Multiset α := (Multiset.range n).map a

theorem contents_zero (a : Nat → α) : contents a 0 = 0 := rfl

theorem contents_succ (a : Nat → α) (n : Nat) : contents a (n + 1) = a n ::ₘ contents a n := by
  rw [contents, Multiset.range_succ, Multiset.map_cons]
  rfl

theorem mem_contents {e : α} : e ∈ contents a n ↔ ∃ i < n, a i = e := by
  simp [contents]

theorem contents_congr {b : Nat → α} (same : ∀ i < n, a i = b i) :
    contents a n = contents b n :=
  Multiset.map_congr rfl fun i inside => same i (Multiset.mem_range.mp inside)

/-- The entry that stood where another is put leaves, and the other one comes. -/
theorem contents_update (inside : hole < n) (e : α) :
    a hole ::ₘ contents (update a hole e) n = e ::ₘ contents a n := by
  induction n with
  | zero => omega
  | succ n ih =>
    rw [contents_succ, contents_succ]
    by_cases last : hole = n
    · subst last
      rw [update_self, Multiset.cons_swap]
      refine congrArg (Multiset.cons e ∘ Multiset.cons (a hole)) (contents_congr fun i below => ?_)
      exact update_of_ne (by omega) _ _
    · rw [update_of_ne (by omega), Multiset.cons_swap, ih (by omega), Multiset.cons_swap]

/-- The hole moves to the place of the entry that fills it. -/
theorem contents_move {c : Nat} (inside : hole < n) (within : c < n) (apart : c ≠ hole) (e : α) :
    contents (update (update a hole (a c)) c e) n =
      contents (update a hole e) n := by
  have filled := contents_update (a := update a hole (a c)) within e
  rw [update_of_ne apart] at filled
  have moved := contents_update (a := a) inside (a c)
  have placed := contents_update (a := a) inside e
  refine (Multiset.cons_inj_right (a hole)).mp ((Multiset.cons_inj_right (a c)).mp ?_)
  rw [Multiset.cons_swap, filled, Multiset.cons_swap, moved, placed, Multiset.cons_swap]

end Heap
