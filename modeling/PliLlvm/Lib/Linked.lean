import Mathlib.Data.List.Nodup

/- Lists linked through a field of their elements: a head, and each element's link to the
   one after it. What a list is after a link is written follows from what it was. -/
namespace Links
variable {α : Type}

/-- From the head on the links name the elements of the list, and no more. -/
def Linked (next : α → Option α) : Option α → List α → Prop
  | head, [] => head = none
  | head, a :: l => head = some a ∧ Linked next (next a) l

variable {next next' : α → Option α} {head : Option α} {a : α} {l m : List α}

theorem linked_none : Linked next none l ↔ l = [] := by
  cases l <;> simp [Linked]

theorem linked_some : Linked next (some a) l ↔ ∃ m, l = a :: m ∧ Linked next (next a) m := by
  cases l with
  | nil => simp [Linked]
  | cons b m =>
    simp only [Linked, Option.some.injEq, List.cons.injEq]
    constructor
    · rintro ⟨rfl, rest⟩
      exact ⟨m, ⟨rfl, rfl⟩, rest⟩
    · rintro ⟨m', ⟨rfl, rfl⟩, rest⟩
      exact ⟨rfl, rest⟩

theorem Linked.head_eq (linked : Linked next head l) : head = l.head? := by
  cases l with
  | nil => exact linked
  | cons a l => exact linked.1

theorem Linked.unique (linked : Linked next head l) (other : Linked next head m) : l = m := by
  induction l generalizing head m with
  | nil =>
    cases linked
    exact (linked_none.mp other).symm
  | cons a l ih =>
    obtain ⟨rfl, rest⟩ := linked
    obtain ⟨m, rfl, rest'⟩ := linked_some.mp other
    rw [ih rest rest']

theorem Linked.frame (linked : Linked next head l) (same : ∀ a ∈ l, next' a = next a) :
    Linked next' head l := by
  induction l generalizing head with
  | nil => exact linked
  | cons a l ih =>
    obtain ⟨start, rest⟩ := linked
    refine ⟨start, ?_⟩
    rw [same a List.mem_cons_self]
    exact ih rest fun b inside => same b (List.mem_cons_of_mem _ inside)

theorem Linked.rest (linked : Linked next head (l ++ a :: m)) : Linked next (next a) m := by
  induction l generalizing head with
  | nil => exact linked.2
  | cons b l ih => exact ih linked.2

/-- A list that ends has each of its elements once. -/
theorem Linked.nodup (linked : Linked next head l) : l.Nodup := by
  induction l generalizing head with
  | nil => exact List.nodup_nil
  | cons a l ih =>
    refine List.nodup_cons.mpr ⟨fun again => ?_, ih linked.2⟩
    obtain ⟨x, y, rfl⟩ := List.append_of_mem again
    have shorter := linked.2.unique (linked.2.rest)
    have lengths := congrArg List.length shorter
    simp at lengths
    omega

section Update
variable [DecidableEq α]

/-- What the links of other elements name is not changed. -/
theorem Linked.update {h : Option α} (linked : Linked next head l) (apart : a ∉ l) :
    Linked (Function.update next a h) head l := by
  refine linked.frame fun b inside => Function.update_of_ne ?_ _ _
  rintro rfl
  exact apart inside

/-- From an element whose link is written on, the list is the one that the link names. -/
theorem Linked.relink {old : List α} {h : Option α} (linked : Linked next head (l ++ a :: old))
    (before : a ∉ l) (after : Linked next h m) (apart : a ∉ m) :
    Linked (Function.update next a h) head (l ++ a :: m) := by
  induction l generalizing head with
  | nil =>
    refine ⟨linked.1, ?_⟩
    rw [Function.update_self]
    exact after.update apart
  | cons b l ih =>
    have other : b ≠ a := by
      rintro rfl
      exact before List.mem_cons_self
    refine ⟨linked.1, ?_⟩
    rw [Function.update_of_ne other]
    exact ih linked.2 fun inside => before (List.mem_cons_of_mem _ inside)

theorem Linked.push (linked : Linked next head l) (fresh : a ∉ l) :
    Linked (Function.update next a head) (some a) (a :: l) := by
  refine ⟨rfl, ?_⟩
  rw [Function.update_self]
  exact linked.update fresh

end Update

end Links
