import Mathlib.Data.List.Basic

/- Searching one list for another. A search moves a position forward past places where
   the needle cannot be; it is finished at the first place where it is, or when what
   is left is too short. -/
namespace Searches
variable {α : Type} [DecidableEq α]

def occursAt (hay needle : List α) (i : Nat) : Bool := (hay.drop i).take needle.length = needle

/-- The 1-based place of the first occurrence, 0 when there is none. -/
def firstPosition (hay needle : List α) : Nat :=
  match (List.range (hay.length + 1)).find? (occursAt hay needle) with
  | some i => i + 1
  | none => 0

def NoneBefore (hay needle : List α) (pos : Nat) : Prop :=
    ∀ i, i < pos → occursAt hay needle i = false

theorem noneBefore_zero (hay needle : List α) : NoneBefore hay needle 0 := by
  intro i lt
  omega

variable {hay needle : List α} {i : Nat}

theorem occursAt_iff :
    occursAt hay needle i = true ↔ ∀ j, j < needle.length → hay[i + j]? = needle[j]? := by
  have lane : ∀ j, j < needle.length → ((hay.drop i).take needle.length)[j]? = hay[i + j]? := by
    intro j lt
    rw [List.getElem?_take_of_lt lt, List.getElem?_drop]
  constructor
  · intro h j lt
    have same : (hay.drop i).take needle.length = needle := by simpa [occursAt] using h
    rw [← lane j lt, same]
  · intro all
    have same : (hay.drop i).take needle.length = needle := by
      apply List.ext_getElem?
      intro j
      by_cases lt : j < needle.length
      · rw [lane j lt, all j lt]
      · rw [List.getElem?_eq_none (by rw [List.length_take]; omega),
          List.getElem?_eq_none (by omega)]
    simpa [occursAt] using same

theorem occursAt_fits (some_needle : needle ≠ [])
    (h : occursAt hay needle i = true) : i + needle.length ≤ hay.length := by
  have same : (hay.drop i).take needle.length = needle := by simpa [occursAt] using h
  have length := congrArg List.length same
  have pos : 0 < needle.length := List.length_pos_iff.mpr some_needle
  simp only [List.length_take, List.length_drop] at length
  omega

variable {rest : List α} {c : α}

theorem occursAt_head (h : occursAt hay (c :: rest) i = true) : hay[i]? = some c := by
  have same : (hay.drop i).take (rest.length + 1) = c :: rest := by simpa [occursAt] using h
  rw [← List.head?_drop]
  cases left : hay.drop i with
  | nil => simp [left] at same
  | cons d tail =>
    rw [left, List.take_succ_cons] at same
    rw [List.head?_cons, (List.cons.inj same).1]

theorem occursAt_taken (k : Nat)
    (h : occursAt hay needle i = true) : occursAt hay (needle.take k) i = true := by
  have same : (hay.drop i).take needle.length = needle := by simpa [occursAt] using h
  have cut : (hay.drop i).take (min k needle.length) = needle.take k := by
    conv => rhs; rw [← same]
    rw [List.take_take]
  simpa [occursAt, List.length_take] using cut

variable {pos : Nat}

theorem noneBefore_next (before : NoneBefore hay needle pos)
    (miss : occursAt hay needle pos = false) : NoneBefore hay needle (pos + 1) := by
  intro i lt
  rcases Nat.lt_succ_iff_lt_or_eq.mp lt with earlier | rfl
  · exact before i earlier
  · exact miss

/-- A stretch without the needle's first element is skipped at once. -/
theorem noneBefore_skip {next : Nat} (before : NoneBefore hay (c :: rest) pos)
    (other : ∀ i, pos ≤ i → i < next → hay[i]? ≠ some c) : NoneBefore hay (c :: rest) next := by
  intro i lt
  by_cases earlier : i < pos
  · exact before i earlier
  · cases found : occursAt hay (c :: rest) i with
    | false => rfl
    | true => exact absurd (occursAt_head found) (other i (by omega) lt)

theorem firstPosition_found (before : NoneBefore hay needle i)
    (here : occursAt hay needle i = true) : firstPosition hay needle = i + 1 := by
  have inside : i < hay.length + 1 := by
    cases needle with
    | nil =>
      rcases Nat.eq_zero_or_pos i with rfl | later
      · omega
      · have := before 0 later
        simp [occursAt] at this
    | cons c rest =>
      have := occursAt_fits (by simp) here
      omega
  have found : (List.range (hay.length + 1)).find? (occursAt hay needle) = some i := by
    rw [List.find?_range_eq_some]
    exact ⟨here, List.mem_range.mpr inside, fun j lt => by simp [before j lt]⟩
  rw [firstPosition, found]

/-- Nothing is left that could hold a needle. -/
theorem firstPosition_exhausted (some_needle : needle ≠ [])
    (before : NoneBefore hay needle pos) (short : hay.length < pos + needle.length) :
    firstPosition hay needle = 0 := by
  have absent : (List.range (hay.length + 1)).find? (occursAt hay needle) = none := by
    rw [List.find?_eq_none]
    intro i _ here
    have fits := occursAt_fits some_needle here
    by_cases earlier : i < pos
    · rw [before i earlier] at here
      cases here
    · omega
  rw [firstPosition, absent]

theorem firstPosition_nil (hay : List α) : firstPosition hay [] = 1 :=
  firstPosition_found (noneBefore_zero hay []) (by simp [occursAt])

/-- No first element from here on: nothing is left to find. -/
theorem firstPosition_no_head
    (before : NoneBefore hay (c :: rest) pos) (other : ∀ i, pos ≤ i → hay[i]? ≠ some c) :
    firstPosition hay (c :: rest) = 0 := by
  have all : NoneBefore hay (c :: rest) hay.length :=
    noneBefore_skip before fun i le _ => other i le
  exact firstPosition_exhausted (by simp) all (by simp)

theorem firstPosition_cases (hay needle : List α) :
    (∃ i, NoneBefore hay needle i ∧ occursAt hay needle i = true ∧
      firstPosition hay needle = i + 1) ∨
      ((∀ i, occursAt hay needle i = false) ∧ firstPosition hay needle = 0) := by
  cases search : (List.range (hay.length + 1)).find? (occursAt hay needle) with
  | some i =>
    obtain ⟨here, -, before⟩ := List.find?_range_eq_some.mp search
    refine Or.inl ⟨i, fun j lt => by simpa using before j lt, here, by rw [firstPosition, search]⟩
  | none =>
    refine Or.inr ⟨fun i => ?_, by rw [firstPosition, search]⟩
    have absent : ∀ j, j < hay.length + 1 → occursAt hay needle j = false := by
      intro j lt
      simpa using List.find?_eq_none.mp search j (List.mem_range.mpr lt)
    by_cases inside : i < hay.length + 1
    · exact absent i inside
    · cases needle with
      | nil =>
        have := absent 0 (by omega)
        simp [occursAt] at this
      | cons c rest =>
        cases found : occursAt hay (c :: rest) i with
        | false => rfl
        | true =>
          have := occursAt_fits (by simp) found
          omega

section FirstWhere
variable {β : Type} (p : β → Bool)

/-- The 1-based place of the first element from the k-th on with a property, or 0. -/
def firstWhere (s : List β) (k : Nat) : Nat :=
  match (s.drop k).findIdx? p with
  | some j => k + j + 1
  | none => 0

variable {p}

variable {s : List β} {k : Nat}

theorem firstWhere_end (past : s.length ≤ k) : firstWhere p s k = 0 := by
  rw [firstWhere, List.drop_eq_nil_of_le past]
  rfl

theorem firstWhere_here (inside : k < s.length) (here : p s[k] = true) :
    firstWhere p s k = k + 1 := by
  rw [firstWhere, List.drop_eq_getElem_cons inside, List.findIdx?_cons, if_pos here]

theorem firstWhere_next (inside : k < s.length) (other : p s[k] = false) :
    firstWhere p s k = firstWhere p s (k + 1) := by
  rw [firstWhere, List.drop_eq_getElem_cons inside, List.findIdx?_cons, if_neg (by simp [other]),
    firstWhere]
  cases (s.drop (k + 1)).findIdx? p with
  | none => rfl
  | some j =>
    show k + (j + 1) + 1 = k + 1 + j + 1
    omega

theorem firstWhere_zero_iff : firstWhere p s k = 0 ↔ ∀ b ∈ s.drop k, p b = false := by
  rw [← List.findIdx?_eq_none_iff, firstWhere]
  cases (s.drop k).findIdx? p <;> simp

end FirstWhere

/-- Places from `start` on, each at least `n` past the one before. -/
def Apart (n : Nat) : Nat → List Nat → Prop
  | _, [] => True
  | start, p :: rest => start ≤ p ∧ Apart n (p + n) rest

theorem apart_from {n start first : Nat} {places : List Nat} (apart : Apart n start places)
    (earlier : first ≤ start) : Apart n first places := by
  cases places with
  | nil => exact True.intro
  | cons p rest => exact ⟨Nat.le_trans earlier apart.1, apart.2⟩

/-- The occurrences met by a walk that goes behind each one it meets. -/
def countApart (hay needle : List α) (i : Nat) : Nat :=
  if needle = [] ∨ hay.length < i + needle.length then 0
  else if occursAt hay needle i then countApart hay needle (i + needle.length) + 1
  else countApart hay needle (i + 1)
termination_by hay.length + 1 - i
decreasing_by
  · rename_i some_needle _
    have := List.length_pos_iff.mpr fun empty => some_needle (Or.inl empty)
    omega
  · omega

theorem countApart_end (short : hay.length < i + needle.length) : countApart hay needle i = 0 := by
  rw [countApart, if_pos (Or.inr short)]

theorem countApart_here (some_needle : needle ≠ []) (here : occursAt hay needle i = true) :
    countApart hay needle i = countApart hay needle (i + needle.length) + 1 := by
  have fits := occursAt_fits some_needle here
  rw [countApart, if_neg fun h => h.elim some_needle (by omega), if_pos here]

theorem countApart_next (some_needle : needle ≠ []) (miss : occursAt hay needle i = false) :
    countApart hay needle i = countApart hay needle (i + 1) := by
  by_cases short : hay.length < i + needle.length
  · rw [countApart_end short, countApart_end (by omega)]
  · rw [countApart, if_neg fun h => h.elim some_needle short, if_neg (by rw [miss]; decide)]

/-- No choice of occurrences that do not overlap has more of them. -/
theorem countApart_most (some_needle : needle ≠ []) {i : Nat}
    {places : List Nat} (apart : Apart needle.length i places)
    (occur : ∀ p ∈ places, occursAt hay needle p = true) :
    places.length ≤ countApart hay needle i := by
  have positive := List.length_pos_iff.mpr some_needle
  induction left : hay.length + 1 - i using Nat.strongRecOn generalizing i places with
  | ind m ih =>
    cases places with
    | nil => exact Nat.zero_le _
    | cons p rest =>
      have fits := occursAt_fits some_needle (occur p List.mem_cons_self)
      have behind : ∀ q ∈ rest, occursAt hay needle q = true := fun q member =>
        occur q (List.mem_cons_of_mem p member)
      cases here : occursAt hay needle i with
      | true =>
        have fewer := ih _ (by have := apart.1; omega) (apart_from apart.2
          (show i + needle.length ≤ p + needle.length by have := apart.1; omega)) behind rfl
        rw [countApart_here some_needle here, List.length_cons]
        omega
      | false =>
        have later : i ≠ p := by
          rintro rfl
          rw [occur i List.mem_cons_self] at here
          cases here
        rw [countApart_next some_needle here]
        exact ih _ (by have := apart.1; omega)
          ⟨show i + 1 ≤ p by have := apart.1; omega, apart.2⟩ occur rfl

theorem countApart_places (some_needle : needle ≠ []) (i : Nat) :
    ∃ places, Apart needle.length i places ∧ (∀ p ∈ places, occursAt hay needle p = true) ∧
      places.length = countApart hay needle i := by
  have positive := List.length_pos_iff.mpr some_needle
  induction left : hay.length + 1 - i using Nat.strongRecOn generalizing i with
  | ind m ih =>
    by_cases short : hay.length < i + needle.length
    · exact ⟨[], True.intro, by simp, by rw [countApart_end short]; rfl⟩
    · cases here : occursAt hay needle i with
      | true =>
        obtain ⟨places, apart, occur, count⟩ := ih _ (by omega) (i + needle.length) rfl
        refine ⟨i :: places, ⟨Nat.le_refl i, apart⟩, fun p member => ?_, ?_⟩
        · rcases List.mem_cons.mp member with rfl | later
          · exact here
          · exact occur p later
        · rw [countApart_here some_needle here, List.length_cons, count]
      | false =>
        obtain ⟨places, apart, occur, count⟩ := ih _ (by omega) (i + 1) rfl
        exact ⟨places, apart_from apart (Nat.le_succ i), occur, by
          rw [countApart_next some_needle here, count]⟩

end Searches
