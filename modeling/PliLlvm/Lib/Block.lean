import Mathlib.Data.List.Basic

/- A heap block used as an array: a list of cells of which only an initial part
   is live. The loops below are those of C code that scans a block from its top,
   closes a gap by moving cells down, reallocates, and turns a block round. -/
namespace Blocks
variable {α : Type}

/-- The loop `for (i = n - 1; i >= base; --i) if (p(block[i])) return i`. -/
def scanDown (p : α → Bool) (block : List α) (base : Nat) : Nat → Option Nat
  | 0 => none
  | n + 1 =>
    if n < base then none
    else if (block[n]?).any p then some n
    else scanDown p block base n

/-- The loop `for (; count > 0; --count, ++j) block[j] = block[j + 1]`. -/
def shiftDown (block : List α) (j : Nat) : Nat → List α
  | 0 => block
  | n + 1 =>
    match block[j + 1]? with
    | some x => shiftDown (block.set j x) (j + 1) n
    | none => block

/-- Reallocation keeps the cells both sizes have; new cells hold `junk`. -/
def realloc (junk : α) (block : List α) (cap : Nat) : List α :=
  block.take cap ++ List.replicate (cap - block.length) junk

theorem realloc_length (junk : α) (block : List α) (cap : Nat) :
    (realloc junk block cap).length = cap := by
  simp [realloc]
  omega

theorem realloc_take (junk : α) (block : List α) {cap n : Nat}
    (fits : n ≤ cap) (live : n ≤ block.length) :
    (realloc junk block cap).take n = block.take n := by
  rw [realloc, List.take_append_of_le_length (by simp; omega), List.take_take, Nat.min_eq_left fits]

variable {block : List α} {i : Nat}

theorem cut_at {x : α} (here : block[i]? = some x) :
    ∃ pre post, block = pre ++ x :: post ∧ pre.length = i := by
  obtain ⟨bound, eq⟩ := List.getElem?_eq_some_iff.mp here
  refine ⟨block.take i, block.drop (i + 1), ?_, by simp; omega⟩
  rw [← eq, ← List.drop_eq_getElem_cons bound, List.take_append_drop]

variable {n : Nat}

/-- Storing into the cell just above a live part extends the part by that value. -/
theorem set_take_succ (x : α) (room : n < block.length) :
    (block.set n x).take (n + 1) = block.take n ++ [x] := by
  rw [List.take_add_one, List.take_set_of_le (Nat.le_refl _), List.getElem?_set_self room]
  rfl

theorem shiftDown_length (block : List α) (j n : Nat) :
    (shiftDown block j n).length = block.length := by
  induction n generalizing block j with
  | zero => rfl
  | succ n ih =>
    simp only [shiftDown]
    split
    · rw [ih, List.length_set]
    · rfl

theorem shiftDown_below (block : List α) (j n i : Nat) (below : i < j) :
    (shiftDown block j n)[i]? = block[i]? := by
  induction n generalizing block j with
  | zero => rfl
  | succ n ih =>
    simp only [shiftDown]
    split
    · rw [ih _ _ (by omega), List.getElem?_set_ne (by omega)]
    · rfl

theorem shiftDown_moved (block : List α) (j n i : Nat) (lo : j ≤ i) (hi : i < j + n)
    (live : j + n < block.length) : (shiftDown block j n)[i]? = block[i + 1]? := by
  induction n generalizing block j with
  | zero => omega
  | succ n ih =>
    have bound : j + 1 < block.length := by omega
    simp only [shiftDown, List.getElem?_eq_getElem bound]
    by_cases same : i = j
    · subst same
      rw [shiftDown_below _ _ _ _ (by omega), List.getElem?_set_self (by omega),
        List.getElem?_eq_getElem bound]
    · rw [ih _ _ (by omega) (by omega) (by simp; omega), List.getElem?_set_ne (by omega)]

/-- Closing the gap at `i` deletes exactly the cell `i` of the live part. -/
theorem shiftDown_take (block : List α) {i n : Nat} (inside : i < n) (live : n ≤ block.length) :
    (shiftDown block i (n - 1 - i)).take (n - 1) = (block.take n).eraseIdx i := by
  apply List.ext_getElem?
  intro k
  rw [List.getElem?_take, List.getElem?_eraseIdx]
  by_cases inRange : k < n - 1
  · simp only [inRange, ↓reduceIte]
    by_cases low : k < i
    · rw [shiftDown_below _ _ _ _ low, if_pos low, List.getElem?_take, if_pos (by omega)]
    · rw [shiftDown_moved _ _ _ _ (by omega) (by omega) (by omega), if_neg low,
        List.getElem?_take, if_pos (by omega)]
  · simp only [inRange, ↓reduceIte]
    rw [if_neg (by omega), List.getElem?_take, if_neg (by omega)]

variable {p : α → Bool} {base : Nat}

theorem scanDown_none (live : n ≤ block.length) (h : scanDown p block base n = none) :
    ∀ x ∈ (block.take n).drop base, p x = false := by
  induction n with
  | zero => simp
  | succ n ih =>
    have bound : n < block.length := by omega
    simp only [scanDown] at h
    split at h
    · intro x mem
      rw [List.drop_eq_nil_of_le (by simp; omega)] at mem
      simp at mem
    · rename_i low
      split at h
      · simp at h
      · rename_i miss
        intro x mem
        rw [List.take_add_one, List.drop_append_of_le_length (by simp; omega)] at mem
        rcases List.mem_append.mp mem with early | last
        · exact ih (by omega) h x early
        · rw [List.getElem?_eq_getElem bound] at last miss
          simp only [Option.toList_some, List.mem_singleton] at last
          subst last
          simpa using miss

/-- The scan stops at the topmost matching cell: the live part splits there. -/
theorem scanDown_some (live : n ≤ block.length) (h : scanDown p block base n = some i) :
    base ≤ i ∧ i < n ∧ ∃ x above, block.take n = block.take i ++ x :: above ∧
      block[i]? = some x ∧ p x = true ∧ ∀ y ∈ above, p y = false := by
  induction n with
  | zero => simp [scanDown] at h
  | succ n ih =>
    have bound : n < block.length := by omega
    simp only [scanDown] at h
    split at h
    · simp at h
    · rename_i low
      rw [List.getElem?_eq_getElem bound] at h
      split at h
      · rename_i hit
        cases h
        refine ⟨by omega, by omega, block[i], [], ?_, List.getElem?_eq_getElem bound, ?_, by simp⟩
        · rw [List.take_add_one, List.getElem?_eq_getElem bound]
          rfl
        · simpa using hit
      · rename_i miss
        obtain ⟨lo, hi, x, above, split, here, match', rest⟩ := ih (by omega) h
        refine ⟨lo, by omega, x, above ++ [block[n]], ?_, here, match', ?_⟩
        · rw [List.take_add_one, split, List.getElem?_eq_getElem bound]
          simp
        · intro y mem
          rcases List.mem_append.mp mem with early | last
          · exact rest y early
          · simp only [List.mem_singleton] at last
            subst last
            simpa using miss

/-- The topmost cell of a live part that satisfies `p`. -/
def topmost (p : α → Bool) (xs : List α) : Option α := xs.reverse.find? p

/-- The live part without its topmost cell that satisfies `p`. -/
def dropTopmost (p : α → Bool) (xs : List α) : List α := (xs.reverse.eraseP p).reverse

theorem topmost_append (p : α → Bool) (below seg : List α) :
    topmost p (below ++ seg) = (topmost p seg).or (topmost p below) := by
  simp [topmost, List.find?_append]

theorem dropTopmost_split {below above : List α} {x : α}
    (hit : p x = true) (rest : ∀ y ∈ above, p y = false) :
    dropTopmost p (below ++ x :: above) = below ++ above := by
  have miss : ∀ y ∈ above.reverse, ¬ p y = true := by
    intro y mem
    simp [rest y (List.mem_reverse.mp mem)]
  simp [dropTopmost, List.eraseP_append_right _ miss, List.eraseP_cons_of_pos hit]

variable {xs : List α}

theorem dropTopmost_absent (miss : ∀ x ∈ xs, p x = false) : dropTopmost p xs = xs := by
  have none_left : ∀ y ∈ xs.reverse, ¬ p y = true := by
    intro y mem
    simp [miss y (List.mem_reverse.mp mem)]
  simp [dropTopmost, List.eraseP_of_forall_not none_left]

theorem eraseP_eq_filter (single : xs.Pairwise fun a b => p a = true → p b = false) :
    xs.eraseP p = xs.filter fun x => !p x := by
  induction single with
  | nil => rfl
  | @cons a xs first _ ih =>
    by_cases hit : p a = true
    · have others : xs.filter (fun x => !p x) = xs := by
        rw [List.filter_eq_self]
        intro x mem
        simp [first x mem hit]
      simp [hit, others]
    · simp [hit, ih]

/-- Where at most one cell matches, dropping it keeps exactly the others. -/
theorem dropTopmost_eq_filter (single : xs.Pairwise fun a b => p b = true → p a = false) :
    dropTopmost p xs = xs.filter fun x => !p x := by
  rw [dropTopmost, eraseP_eq_filter (List.pairwise_reverse.mpr single), ← List.filter_reverse,
    List.reverse_reverse]

theorem scanDown_topmost (live : n ≤ block.length) :
    ((scanDown p block 0 n).bind fun i => block[i]?) = topmost p (block.take n) := by
  cases h : scanDown p block 0 n with
  | none =>
    have miss := scanDown_none live h
    simp only [List.drop_zero] at miss
    have absent : (block.take n).reverse.find? p = none := by
      rw [List.find?_eq_none]
      intro x mem
      simp [miss x (List.mem_reverse.mp mem)]
    simp [topmost, absent]
  | some i =>
    obtain ⟨_, _, x, above, split, here, hit, rest⟩ := scanDown_some live h
    have absent : above.reverse.find? p = none := by
      rw [List.find?_eq_none]
      intro y mem
      simp [rest y (List.mem_reverse.mp mem)]
    simp [topmost, split, here, List.find?_append, absent, hit]

/-- Scanning down to `base` and closing the gap found there removes the topmost
    matching cell above `base` and leaves everything below `base` alone. -/
theorem scanDown_shiftDown (live : n ≤ block.length) (h : scanDown p block base n = some i) :
    (shiftDown block i (n - 1 - i)).take (n - 1) =
      (block.take n).take base ++ dropTopmost p ((block.take n).drop base) := by
  obtain ⟨lo, hi, x, above, split, here, hit, rest⟩ := scanDown_some live h
  have prefixLength : (block.take i).length = i := by simp; omega
  rw [shiftDown_take block hi live, split]
  have cut : (block.take i ++ x :: above).eraseIdx i = block.take i ++ above := by
    rw [List.eraseIdx_append_of_length_le (by omega)]
    simp [prefixLength]
  rw [cut, List.take_append_of_le_length (by omega), List.drop_append_of_le_length (by omega),
    dropTopmost_split hit rest, ← List.append_assoc, List.take_append_drop]

def swap (block : List α) (i j : Nat) : List α :=
  match block[i]?, block[j]? with
  | some x, some y => (block.set i y).set j x
  | _, _ => block

/-- The loop `for (i = 0; i < n; i++)` that swaps `block[i]` and `block[size - 1 - i]`. -/
def swapEnds (block : List α) : Nat → List α
  | 0 => block
  | n + 1 => swap (swapEnds block n) n (block.length - 1 - n)

theorem swapEnds_spec (block : List α) {n : Nat} (half : n ≤ block.length / 2) :
    (swapEnds block n).length = block.length ∧
      ∀ k, (swapEnds block n)[k]? =
        if k < n ∨ block.length - n ≤ k then block.reverse[k]? else block[k]? := by
  induction n with
  | zero =>
    refine ⟨rfl, ?_⟩
    intro k
    by_cases beyond : block.length ≤ k <;> simp [swapEnds, beyond]
  | succ n ih =>
    obtain ⟨length, cells⟩ := ih (by omega)
    have low : (swapEnds block n)[n]? = block[n]? := by
      rw [cells, if_neg (by omega)]
    have high : (swapEnds block n)[block.length - 1 - n]? = block[block.length - 1 - n]? := by
      rw [cells, if_neg (by omega)]
    obtain ⟨x, first⟩ : ∃ x, block[n]? = some x := ⟨_, List.getElem?_eq_getElem (by omega)⟩
    obtain ⟨y, last⟩ : ∃ y, block[block.length - 1 - n]? = some y :=
      ⟨_, List.getElem?_eq_getElem (by omega)⟩
    have swapped : swapEnds block (n + 1) =
        ((swapEnds block n).set n y).set (block.length - 1 - n) x := by
      rw [swapEnds, swap, low, high, first, last]
    refine ⟨by rw [swapped, List.length_set, List.length_set, length], ?_⟩
    intro k
    by_cases atEnd : k = block.length - 1 - n
    · rw [swapped, if_pos (by omega), List.getElem?_reverse (by omega), atEnd,
        List.getElem?_set_self (by rw [List.length_set]; omega),
        show block.length - 1 - (block.length - 1 - n) = n by omega, first]
    · rw [swapped, List.getElem?_set_ne (Ne.symm atEnd)]
      by_cases atStart : k = n
      · rw [atStart, if_pos (by omega), List.getElem?_reverse (by omega), last,
          List.getElem?_set_self (by omega)]
      · rw [List.getElem?_set_ne (Ne.symm atStart), cells]
        by_cases done : k < n ∨ block.length - n ≤ k
        · rw [if_pos done, if_pos (by omega)]
        · rw [if_neg done, if_neg (by omega)]

/-- Swapping up to the middle turns the block round. -/
theorem swapEnds_reverse (block : List α) : swapEnds block (block.length / 2) = block.reverse := by
  obtain ⟨-, cells⟩ := swapEnds_spec block (Nat.le_refl _)
  apply List.ext_getElem?
  intro k
  rw [cells]
  split
  · rfl
  · rename_i middle
    rw [List.getElem?_reverse (by omega), show block.length - 1 - k = k by omega]

/-- The loop `for (; turns > 0; --turns, ++i) if (p(block[i])) ++n`. -/
def countWhere (p : α → Bool) (block : List α) (i : Nat) : Nat → Nat
  | 0 => 0
  | turns + 1 => (if (block[i]?).any p then 1 else 0) + countWhere p block (i + 1) turns

/-- The loop `for (; turns > 0; --turns, ++i) if (p(block[i])) dst[k++] = block[i]`. -/
def copyWhere (p : α → Bool) (block : List α) (i : Nat) (dst : List α) (k : Nat) : Nat → List α
  | 0 => dst
  | turns + 1 =>
    match (block[i]?).filter p with
    | some x => copyWhere p block (i + 1) (dst.set k x) (k + 1) turns
    | none => copyWhere p block (i + 1) dst k turns

section Copy
variable {p : α → Bool} {block dst : List α} {i k turns : Nat}

theorem countWhere_eq (live : i + turns ≤ block.length) :
    countWhere p block i turns = (((block.drop i).take turns).filter p).length := by
  induction turns generalizing i with
  | zero => simp [countWhere]
  | succ turns ih =>
    have bound : i < block.length := by omega
    rw [countWhere, ih (by omega), List.drop_eq_getElem_cons bound, List.take_succ_cons,
      List.getElem?_eq_getElem bound, List.filter_cons]
    by_cases hit : p block[i] = true
    · simp [hit]
      omega
    · simp [hit]

/-- The cells that meet the condition, in order, from the place `k` on. -/
theorem copyWhere_eq (live : i + turns ≤ block.length)
    (room : k + (((block.drop i).take turns).filter p).length = dst.length) :
    copyWhere p block i dst k turns =
      dst.take k ++ ((block.drop i).take turns).filter p := by
  induction turns generalizing i k dst with
  | zero =>
    simp only [List.take_zero, List.filter_nil, List.length_nil, Nat.add_zero] at room
    simp [copyWhere, room]
  | succ turns ih =>
    have bound : i < block.length := by omega
    rw [List.drop_eq_getElem_cons bound, List.take_succ_cons, List.filter_cons] at room ⊢
    rw [copyWhere, List.getElem?_eq_getElem bound]
    by_cases hit : p block[i] = true
    · rw [if_pos hit] at room ⊢
      rw [List.length_cons] at room
      rw [Option.filter_some_pos hit]
      have inside : k < dst.length := by omega
      refine (ih (by omega) (by rw [List.length_set]; omega)).trans ?_
      rw [set_take_succ _ inside, List.append_assoc]
      rfl
    · rw [if_neg hit] at room ⊢
      rw [Option.filter_some_neg (by simpa using hit)]
      exact ih (by omega) room

/-- Counted, and copied to a block of that size. -/
theorem copied_eq (junk : α) {n : Nat} (live : n ≤ block.length) :
    copyWhere p block 0 (List.replicate (countWhere p block 0 n) junk) 0 n =
      (block.take n).filter p := by
  have counted := @countWhere_eq _ p block 0 n (by omega)
  rw [copyWhere_eq (by omega) (by rw [counted]; simp)]
  simp

end Copy

end Blocks
