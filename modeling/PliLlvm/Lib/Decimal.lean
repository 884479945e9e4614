import PliLlvm.Lib.FixedPoint

/- Numbers as decimal digits, the most significant first: the image without leading zeros,
   the image of a given width, Horner's rule, and the expansion of a fraction of a power of two. -/
namespace Decimal

/-- The loop that divides by ten until nothing is left; n steps are more than enough. -/
def digitsUpTo : Nat → Nat → List Nat
  | 0, _ => []
  | steps + 1, n => if n < 10 then [n] else digitsUpTo steps (n / 10) ++ [n % 10]

/-- The digits of a number; 0 has one. -/
def image (n : Nat) : List Nat := digitsUpTo (n + 1) n

/-- The low digits of a number, so many. -/
def padded : Nat → Nat → List Nat
  | 0, _ => []
  | k + 1, n => padded k (n / 10) ++ [n % 10]

/-- Horner's rule from an accumulator. -/
def horner (acc : Nat) (ds : List Nat) : Nat := ds.foldl (fun acc d => acc * 10 + d) acc

theorem horner_cons (acc d : Nat) (ds : List Nat) : horner acc (d :: ds) = horner
    (acc * 10 + d) ds := rfl

theorem horner_append (acc : Nat) (ds es : List Nat) :
    horner acc (ds ++ es) = horner (horner acc ds) es := List.foldl_append

theorem horner_shift (acc : Nat) (ds : List Nat) :
    horner acc ds = acc * 10 ^ ds.length + horner 0 ds := by
  induction ds generalizing acc with
  | nil => simp [horner]
  | cons d ds ih =>
    rw [horner_cons, horner_cons, ih, ih (0 * 10 + d), List.length_cons, pow_succ]
    ring

theorem horner_le (acc : Nat) (ds : List Nat) : acc ≤ horner acc ds := by
  rw [horner_shift]
  have one : 1 ≤ 10 ^ ds.length := Nat.one_le_pow _ _ (by omega)
  nlinarith

/-- The digits from the first that is not 0 on. -/
def significant (ds : List Nat) : Nat := (ds.dropWhile (· = 0)).length

theorem significant_snoc (ds : List Nat) (d : Nat) :
    significant (ds ++ [d]) = if significant ds = 0 ∧ d = 0 then 0 else significant ds + 1 := by
  unfold significant
  rw [List.dropWhile_append]
  by_cases none : ds.dropWhile (· = 0) = []
  · by_cases zero : d = 0 <;> simp [none, zero]
  · have some_digit : (ds.dropWhile (· = 0)).length ≠ 0 := by simpa using none
    simp [none]

theorem significant_le (ds es : List Nat) : significant ds ≤ significant (ds ++ es) := by
  induction es using List.reverseRecOn with
  | nil => simp
  | append_singleton es e ih =>
    rw [← List.append_assoc, significant_snoc]
    split <;> omega

theorem horner_significant {ds : List Nat} (digits : ∀ d ∈ ds, d < 10) :
    horner 0 ds < 10 ^ significant ds := by
  induction ds using List.reverseRecOn with
  | nil => simp [horner, significant]
  | append_singleton ds d ih =>
    have small := ih (fun e there => digits e (List.mem_append_left _ there))
    have digit := digits d (by simp)
    rw [horner_append, significant_snoc]
    change horner 0 ds * 10 + d < _
    split
    · rename_i zeros
      rw [zeros.1] at small
      omega
    · rw [pow_succ]
      omega

variable {steps n : Nat}

theorem digitsUpTo_value (enough : n < steps) (acc : Nat) :
    horner acc (digitsUpTo steps n) = acc * 10 ^ (digitsUpTo steps n).length + n := by
  induction steps generalizing n with
  | zero => omega
  | succ steps ih =>
    unfold digitsUpTo
    split
    · simp [horner]
    · rw [horner_append, ih (by omega), List.length_append, pow_add]
      simp only [horner, List.foldl_cons, List.foldl_nil, List.length_singleton, pow_one]
      have parts := Nat.mod_add_div n 10
      nlinarith

theorem image_value (n acc : Nat) : horner acc (image n) = acc * 10 ^ (image n).length + n :=
  digitsUpTo_value (Nat.lt_succ_self n) acc

variable {d : Nat}

theorem digitsUpTo_digits (there : d ∈ digitsUpTo steps n) : d < 10 := by
  induction steps generalizing n with
  | zero => cases there
  | succ steps ih =>
    unfold digitsUpTo at there
    split at there
    · simp only [List.mem_singleton] at there
      omega
    · rcases List.mem_append.mp there with front | last
      · exact ih front
      · simp only [List.mem_singleton] at last
        omega

theorem image_digits (there : d ∈ image n) : d < 10 := digitsUpTo_digits there

theorem digitsUpTo_ne_nil (some_step : 0 < steps) (n : Nat) : digitsUpTo steps n ≠ [] := by
  obtain ⟨rest, rfl⟩ : ∃ rest, steps = rest + 1 := ⟨steps - 1, by omega⟩
  unfold digitsUpTo
  split <;> simp

theorem image_ne_nil (n : Nat) : image n ≠ [] := digitsUpTo_ne_nil (Nat.succ_pos n) n

/-- The image is as short as the number is small. -/
theorem digitsUpTo_length_iff (enough : n < steps) (k : Nat) :
    (digitsUpTo steps n).length ≤ k + 1 ↔ n < 10 ^ (k + 1) := by
  induction k generalizing steps n with
  | zero =>
    obtain ⟨rest, rfl⟩ : ∃ rest, steps = rest + 1 := ⟨steps - 1, by omega⟩
    unfold digitsUpTo
    split
    · simp only [List.length_singleton]
      omega
    · rename_i large
      have front : 0 < (digitsUpTo rest (n / 10)).length :=
        List.length_pos_iff.mpr (digitsUpTo_ne_nil (by omega) _)
      rw [List.length_append, List.length_singleton]
      omega
  | succ k ih =>
    obtain ⟨rest, rfl⟩ : ∃ rest, steps = rest + 1 := ⟨steps - 1, by omega⟩
    unfold digitsUpTo
    split
    · have one : 1 ≤ 10 ^ (k + 1) := Nat.one_le_pow _ _ (by omega)
      rw [pow_succ]
      simp only [List.length_singleton]
      omega
    · rw [List.length_append, List.length_singleton, Nat.add_le_add_iff_right, ih (by omega),
        pow_succ _ (k + 1)]
      omega

theorem image_length_iff (n k : Nat) : (image n).length ≤ k + 1 ↔ n < 10 ^ (k + 1) :=
  digitsUpTo_length_iff (Nat.lt_succ_self n) k

theorem digitsUpTo_enough {more : Nat} (enough : n < steps) (enough' : n < more) :
    digitsUpTo steps n = digitsUpTo more n := by
  induction steps generalizing more n with
  | zero => omega
  | succ steps ih =>
    obtain ⟨rest, rfl⟩ : ∃ rest, more = rest + 1 := ⟨more - 1, by omega⟩
    unfold digitsUpTo
    split
    · rfl
    · rw [ih (by omega) (by omega : n / 10 < rest)]

/-- The digits of a number are those of its tenth and the last one. -/
theorem image_step (large : 10 ≤ n) : image n = image (n / 10) ++ [n % 10] := by
  rw [image, digitsUpTo, if_neg (by omega), image,
    digitsUpTo_enough (by omega) (Nat.lt_succ_self _)]

theorem image_small (small : n < 10) : image n = [n] := by
  rw [image, digitsUpTo, if_pos small]

theorem padded_length (k n : Nat) : (padded k n).length = k := by
  induction k generalizing n with
  | zero => rfl
  | succ k ih => rw [padded, List.length_append, ih, List.length_singleton]

theorem padded_value (k n acc : Nat) : horner acc (padded k n) = acc * 10 ^ k + n % 10 ^ k := by
  induction k generalizing n acc with
  | zero => simp [padded, horner, Nat.mod_one]
  | succ k ih =>
    rw [padded, horner_append, ih]
    simp only [horner, List.foldl_cons, List.foldl_nil]
    have split_mod : n % 10 ^ (k + 1) = n % 10 + 10 * (n / 10 % 10 ^ k) := by
      rw [pow_succ', Nat.mod_mul]
    rw [split_mod, pow_succ]
    ring

variable {k : Nat}

theorem padded_digits (there : d ∈ padded k n) : d < 10 := by
  induction k generalizing n with
  | zero => cases there
  | succ k ih =>
    rcases List.mem_append.mp there with front | last
    · exact ih front
    · simp only [List.mem_singleton] at last
      omega

/-- The decimal expansion of rem / 2^scale, cut off after so many digits. -/
def expansion (scale : Nat) : Nat → Nat → List Nat
  | 0, _ => []
  | steps + 1, rem =>
    if rem = 0 then [] else rem * 10 / 2 ^ scale :: expansion scale steps (rem * 10 % 2 ^ scale)

variable {scale rem : Nat}

theorem expansion_digits (small : rem < 2 ^ scale)
    (there : d ∈ expansion scale steps rem) : d < 10 := by
  induction steps generalizing rem with
  | zero => cases there
  | succ steps ih =>
    unfold expansion at there
    split at there
    · cases there
    · rcases List.mem_cons.mp there with rfl | later
      · rw [Nat.div_lt_iff_lt_mul (by positivity)]
        omega
      · exact ih (Nat.mod_lt _ (by positivity)) later

theorem next_remainder (scale rem k : Nat) :
    rem * 10 % 2 ^ scale * 10 ^ k % 2 ^ scale = rem * 10 ^ (k + 1) % 2 ^ scale := by
  rw [Nat.mod_mul_mod, pow_succ]
  congr 1
  ring

/-- The digits so far and the remainder left make up the fraction. -/
theorem expansion_taken (small : rem < 2 ^ scale)
    (within : k ≤ (expansion scale steps rem).length) :
    horner 0 ((expansion scale steps rem).take k) * 2 ^ scale + rem * 10 ^ k % 2 ^ scale =
      rem * 10 ^ k := by
  induction steps generalizing rem k with
  | zero =>
    have none_taken : k = 0 := by simpa [expansion] using within
    subst none_taken
    simp [horner, Nat.mod_eq_of_lt small]
  | succ steps ih =>
    cases k with
    | zero => simp [horner, Nat.mod_eq_of_lt small]
    | succ k =>
      unfold expansion at within ⊢
      split
      · rename_i exhausted
        rw [if_pos exhausted] at within
        simp at within
      · rename_i more
        rw [if_neg more, List.length_cons, Nat.add_le_add_iff_right] at within
        have rest := ih (Nat.mod_lt _ (by positivity)) within
        have parts := Nat.mod_add_div (rem * 10) (2 ^ scale)
        have taken : ((expansion scale steps (rem * 10 % 2 ^ scale)).take k).length = k :=
          List.length_take_of_le within
        rw [List.take_succ_cons, horner_cons, horner_shift, taken, ← next_remainder]
        generalize horner 0 ((expansion scale steps (rem * 10 % 2 ^ scale)).take k) = h at rest ⊢
        calc ((0 * 10 + rem * 10 / 2 ^ scale) * 10 ^ k + h) * 2 ^ scale +
              rem * 10 % 2 ^ scale * 10 ^ k % 2 ^ scale
            = 2 ^ scale * (rem * 10 / 2 ^ scale) * 10 ^ k +
              (h * 2 ^ scale + rem * 10 % 2 ^ scale * 10 ^ k % 2 ^ scale) := by ring
          _ = (rem * 10 % 2 ^ scale + 2 ^ scale * (rem * 10 / 2 ^ scale)) * 10 ^ k := by
              rw [rest]
              ring
          _ = rem * 10 ^ (k + 1) := by
              rw [parts, pow_succ]
              ring

theorem expansion_unfinished (small : rem < 2 ^ scale)
    (within : k < (expansion scale steps rem).length) : rem * 10 ^ k % 2 ^ scale ≠ 0 := by
  induction steps generalizing rem k with
  | zero => simp [expansion] at within
  | succ steps ih =>
    unfold expansion at within
    split at within
    · simp at within
    · rename_i more
      cases k with
      | zero => simpa [Nat.mod_eq_of_lt small] using more
      | succ k =>
        rw [List.length_cons, Nat.add_lt_add_iff_right] at within
        rw [← next_remainder]
        exact ih (Nat.mod_lt _ (by positivity)) within

/-- An expansion that did not use all its steps is exact. -/
theorem expansion_finished (small : rem < 2 ^ scale)
    (ended : (expansion scale steps rem).length < steps) :
    rem * 10 ^ (expansion scale steps rem).length % 2 ^ scale = 0 := by
  induction steps generalizing rem with
  | zero => omega
  | succ steps ih =>
    unfold expansion at ended ⊢
    split
    · rename_i exhausted
      simp [exhausted]
    · rename_i more
      rw [if_neg more, List.length_cons, Nat.add_lt_add_iff_right] at ended
      rw [List.length_cons, ← next_remainder]
      exact ih (Nat.mod_lt _ (by positivity)) ended

/-- So much of the fraction as its first digits hold: all of it, or less. -/
theorem expansion_floor_eq {scale steps rem : Nat} (small : rem < 2 ^ scale)
    (ended : (expansion scale steps rem).length < steps) :
    horner 0 (expansion scale steps rem) * 2 ^ scale =
      rem * 10 ^ (expansion scale steps rem).length := by
  have taken := expansion_taken small (Nat.le_refl (expansion scale steps rem).length)
  rw [List.take_length, expansion_finished small ended, Nat.add_zero] at taken
  exact taken

theorem expansion_floor_lt {scale steps rem k : Nat} (small : rem < 2 ^ scale)
    (within : k < (expansion scale steps rem).length) :
    horner 0 ((expansion scale steps rem).take k) * 2 ^ scale < rem * 10 ^ k := by
  have taken := expansion_taken small within.le
  have left := expansion_unfinished small within
  omega

end Decimal
