import Mathlib.Data.Int.ModEq
import Mathlib.Data.Rat.Floor
import Mathlib.Data.BitVec

/- Integers in machine words and fixed-point rounding. A word holds an integer modulo
   2^w and is read back signed; `roundAway` rounds a rational to the nearest integer,
   halves away from zero. -/
namespace FixedPoint

/-- The integer is what a signed word of `w` bits can hold. -/
def Fits (w : Nat) (n : Int) : Prop := -2 ^ (w - 1) ≤ n ∧ n < 2 ^ (w - 1)

instance (w : Nat) (n : Int) : Decidable (Fits w n) := inferInstanceAs (Decidable (_ ∧ _))

variable {w : Nat}

theorem fits_toInt (word : 0 < w) (x : BitVec w) : Fits w x.toInt := by
  obtain ⟨m, rfl⟩ : ∃ m, w = m + 1 := ⟨w - 1, by omega⟩
  have low := BitVec.le_toInt x
  have high := BitVec.toInt_lt (x := x)
  exact ⟨by simpa using low, by simpa using high⟩

/-- An integer survives the word exactly when it fits. -/
theorem toInt_ofInt_iff (word : 0 < w) (n : Int) : (BitVec.ofInt w n).toInt = n ↔ Fits w n := by
  constructor
  · intro same
    rw [← same]
    exact fits_toInt word _
  · intro fits
    exact BitVec.toInt_ofInt_eq_self word fits.1 fits.2

/-- What does not fit comes back off by a multiple of the word's range. -/
theorem toInt_ofInt_off (w : Nat) (n : Int) : ∃ m :
    Int, (BitVec.ofInt w n).toInt = n + m * 2 ^ w := by
  refine ⟨-Int.bdiv n (2 ^ w), ?_⟩
  rw [BitVec.toInt_ofInt, Int.bmod_eq_self_sub_bdiv_mul]
  push_cast
  rw [neg_mul, sub_eq_add_neg]

def roundAway (x : ℚ) : Int := if x < 0 then -⌊-x + 1 / 2⌋ else ⌊x + 1 / 2⌋

theorem roundAway_intCast (n : Int) : roundAway n = n := by
  have half : ∀ m : Int, ⌊(m : ℚ) + 1 / 2⌋ = m := by
    intro m
    rw [Int.floor_eq_iff]
    constructor <;> linarith
  unfold roundAway
  split
  · have := half (-n)
    push_cast at this
    omega
  · exact half n

/-- The step towards the sign that makes truncating division round. -/
def towardSign (n half : Int) : Int := if n < 0 then n - half else n + half

variable {n : Int} {d : Nat}

theorem floor_half {half : Int} (pos : 0 < d) (twice : 2 * half = d) :
    ⌊(n : ℚ) / d + 1 / 2⌋ = (n + half) / d := by
  have rational : (d : ℚ) ≠ 0 := by exact_mod_cast pos.ne'
  have whole : (2 : ℚ) * half = d := by exact_mod_cast twice
  have sum : (n : ℚ) / d + 1 / 2 = ((n + half : Int) : ℚ) / d := by
    rw [← whole] at rational ⊢
    push_cast
    have nonzero : (half : ℚ) ≠ 0 := right_ne_zero_of_mul rational
    field_simp
  rw [sum, Rat.floor_intCast_div_natCast]

/-- Rounding a quotient is truncating division of the numerator moved half a divisor
    away from zero. -/
theorem roundAway_div {half : Int} (pos : 0 < d) (twice : 2 * half = d) :
    roundAway ((n : ℚ) / d) = (towardSign n half).tdiv d := by
  have rational : (0 : ℚ) < d := by exact_mod_cast pos
  have some_half : 0 ≤ half := by omega
  have sign : (n : ℚ) / d < 0 ↔ n < 0 := by
    rw [div_neg_iff]
    constructor
    · rintro (⟨-, negative⟩ | ⟨negative, -⟩)
      · linarith
      · exact_mod_cast negative
    · intro negative
      exact Or.inr ⟨by exact_mod_cast negative, rational⟩
  by_cases negative : n < 0
  · rw [roundAway, if_pos (sign.mpr negative), towardSign, if_pos negative]
    have flip : -((n : ℚ) / d) = ((-n : Int) : ℚ) / d := by
      push_cast
      ring
    have reversed : n - half = -(-n + half) := by omega
    rw [flip, floor_half pos twice, reversed, Int.neg_tdiv, Int.tdiv_eq_ediv_of_nonneg (by omega)]
  · rw [roundAway, if_neg (fun h => negative (sign.mp h)), towardSign, if_neg negative,
      floor_half pos twice, Int.tdiv_eq_ediv_of_nonneg (by omega)]

variable {x : Int}

theorem tdiv_apart {y d : Int} (pos : 0 < d) (far : x + 2 * d ≤ y ∨ y + 2 * d ≤ x) :
    x.tdiv d ≠ y.tdiv d := by
  intro same
  have hx := Int.mul_tdiv_add_tmod x d
  have hy := Int.mul_tdiv_add_tmod y d
  have bx := Int.tmod_lt_of_pos x pos
  have bx' := Int.lt_tmod_of_pos x pos
  have bys := Int.tmod_lt_of_pos y pos
  have bys' := Int.lt_tmod_of_pos y pos
  rw [same] at hx
  omega

theorem tdiv_next {x d : Int} (pos : 0 < d) (le : d ≤ x) : (x - d).tdiv d ≠ x.tdiv d := by
  rw [Int.tdiv_eq_ediv_of_nonneg (by omega), Int.tdiv_eq_ediv_of_nonneg (by omega)]
  have step := Int.add_mul_ediv_right x (-1) pos.ne'
  rw [neg_one_mul, ← sub_eq_add_neg] at step
  omega

theorem tdiv_next_neg {d : Int} (pos : 0 < d) (le : x ≤ -d) : (x + d).tdiv d ≠ x.tdiv d := by
  have flip := @tdiv_next (-x) d pos (by omega)
  have first : (x + d).tdiv d = -((-x - d).tdiv d) := by
    rw [← Int.neg_tdiv]
    congr 1
    omega
  have second : x.tdiv d = -((-x).tdiv d) := by
    rw [Int.neg_tdiv, Int.neg_neg]
  omega

/-- Division in a word, the dividend first moved half a divisor away from zero. -/
def roundDiv {w : Nat} (v half d : BitVec w) : BitVec w :=
  (v + half * if v.toInt < 0 then -1 else 1).sdiv d

theorem towardSign_word (v : BitVec w) (half : Int) :
    v + BitVec.ofInt w half * (if v.toInt < 0 then -1 else 1) =
      BitVec.ofInt w (towardSign v.toInt half) := by
  unfold towardSign
  split
  · rw [sub_eq_add_neg, BitVec.ofInt_add, BitVec.ofInt_toInt, BitVec.ofInt_neg]
    ring
  · rw [BitVec.ofInt_add, BitVec.ofInt_toInt]
    ring

/-- Moving the wrapped dividend instead of the dividend itself: off by a multiple of
    the word's range, and by a divisor when the sign was lost. -/
theorem towardSign_wrapped {n v a half range : Int} (off : v = n + a * range) :
    ∃ m c, towardSign v half = towardSign n half + c + m * range ∧
      (c = 0 ∨ c = 2 * half ∧ n < 0 ∨ c = -(2 * half) ∧ 0 ≤ n) := by
  refine ⟨a, towardSign v half - towardSign n half - a * range, by omega, ?_⟩
  unfold towardSign
  split <;> split <;> omega

theorem off_range {t c m d range : Int} (shape : x = t + c + m * range) (small : -d ≤ c ∧ c ≤ d)
    (room : 3 * d ≤ range) (wrapped : m ≠ 0) (_pos : 0 < d) : x + 2 * d ≤ t ∨ t + 2 * d ≤ x := by
  rcases Int.lt_or_gt_of_ne wrapped with below | above
  · have : m * range ≤ -range := by nlinarith
    omega
  · have : range ≤ m * range := by nlinarith
    omega

/-- Rounding division in a word is exact exactly when the moved dividend fits. -/
theorem roundDiv_exact_iff {w : Nat} (word : 0 < w) {n half : Int} {d : Nat} (pos : 0 < d)
    (twice : 2 * half = d) (room : 3 * (d : Int) ≤ 2 ^ w) :
    (roundDiv (BitVec.ofInt w n) (BitVec.ofInt w half) (BitVec.ofInt w d)).toInt =
        (towardSign n half).tdiv d ↔ Fits w (towardSign n half) := by
  have range : (2 : Int) ^ w = 2 * 2 ^ (w - 1) := by
    rw [← pow_succ']
    congr 1
    omega
  have divisor : (BitVec.ofInt w (d : Int)).toInt = d :=
    (toInt_ofInt_iff word _).mpr ⟨by omega, by omega⟩
  obtain ⟨v, seen⟩ : ∃ v, v = (BitVec.ofInt w n).toInt := ⟨_, rfl⟩
  obtain ⟨x, moved⟩ : ∃ x, x = (BitVec.ofInt w (towardSign v half)).toInt := ⟨_, rfl⟩
  have quotient : (roundDiv (BitVec.ofInt w n) (BitVec.ofInt w half) (BitVec.ofInt w d)).toInt =
      x.tdiv d := by
    have other : BitVec.ofInt w (d : Int) ≠ -1#w := by
      intro same
      have minus : (-1#w).toInt = -1 := by
        have one : -1#w = BitVec.ofInt w (-1) := by
          rw [BitVec.ofInt_neg]
          rfl
        rw [one, toInt_ofInt_iff word]
        exact ⟨by omega, by omega⟩
      have := congrArg BitVec.toInt same
      omega
    rw [roundDiv, towardSign_word, ← seen, BitVec.toInt_sdiv_of_ne_or_ne _ _ (Or.inr other),
      divisor,
      ← moved]
  have fits : Fits w x := by
    rw [moved]
    exact fits_toInt word _
  rw [quotient]
  constructor
  · intro same
    obtain ⟨a, off⟩ := toInt_ofInt_off w n
    obtain ⟨b, off'⟩ := toInt_ofInt_off w (towardSign v half)
    rw [← seen] at off
    rw [← moved] at off'
    obtain ⟨m, c, shape, kind⟩ := @towardSign_wrapped n v a half (2 ^ w) off
    have whole : x = towardSign n half + c + (m + b) * 2 ^ w := by
      rw [off', shape]
      ring
    by_cases wrapped : m + b = 0
    · rw [wrapped, zero_mul, add_zero] at whole
      rcases kind with none_lost | ⟨lost, negative⟩ | ⟨lost, nonneg⟩
      · rw [none_lost, add_zero] at whole
        rw [← whole]
        exact fits
      · by_contra large
        have beyond : towardSign n half ≤ -d := by
          unfold Fits at large fits
          simp only [towardSign, if_pos negative] at whole large ⊢
          omega
        have next := tdiv_next_neg (by omega) beyond
        rw [whole, lost, twice] at same
        exact next same
      · by_contra large
        have beyond : (d : Int) ≤ towardSign n half := by
          unfold Fits at large fits
          simp only [towardSign, if_neg (not_lt.mpr nonneg)] at whole large ⊢
          omega
        have next := tdiv_next (by omega) beyond
        rw [whole, lost, twice, ← sub_eq_add_neg] at same
        exact next same
    · have far := off_range whole (by omega) room wrapped (by omega)
      exact absurd same (tdiv_apart (by omega) far)
  · intro whole
    have small : Fits w n := by
      unfold Fits towardSign at *
      split at whole <;> omega
    have kept : v = n := by
      rw [seen]
      exact (toInt_ofInt_iff word n).mpr small
    rw [moved, kept, (toInt_ofInt_iff word _).mpr whole]

/-- An integer read back from a word of `w` bits. -/
def word (w : Nat) (n : Int) : Int := (BitVec.ofInt w n).toInt

theorem word_of_fits (pos : 0 < w) (fits : Fits w n) : word w n = n :=
  (toInt_ofInt_iff pos n).mpr fits

theorem word_fits (pos : 0 < w) (n : Int) : Fits w (word w n) := fits_toInt pos _

variable {v : Nat}

theorem fits_mono (wider : v ≤ w) (fits : Fits v n) : Fits w n := by
  have power : (2 : Int) ^ (v - 1) ≤ 2 ^ (w - 1) := by
    exact_mod_cast Nat.pow_le_pow_right (by omega) (by omega : v - 1 ≤ w - 1)
  unfold Fits at *
  omega

theorem word_mod_eq (w : Nat) (n : Int) : word w n ≡ n [ZMOD 2 ^ w] := by
  obtain ⟨m, moved⟩ := toInt_ofInt_off w n
  rw [word, moved]
  exact Int.modEq_iff_dvd.mpr ⟨-m, by ring⟩

theorem word_eq_iff {m : Int} : word w m = word w n ↔ m ≡ n [ZMOD 2 ^ w] := by
  constructor
  · intro same
    exact ((word_mod_eq w m).symm.trans (same ▸ Int.ModEq.refl _)).trans (word_mod_eq w n)
  · intro congruent
    unfold word
    rw [BitVec.toInt_ofInt, BitVec.toInt_ofInt]
    have power : ((2 ^ w : Nat) : Int) = 2 ^ w := by push_cast; rfl
    rw [← Int.emod_bmod, ← Int.emod_bmod n, power, congruent]

/-- A narrower word does not see what a wider one has cut off. -/
theorem word_word (narrower : v ≤ w) (n : Int) : word v (word w n) = word v n := by
  apply word_eq_iff.mpr
  apply (word_mod_eq w n).of_dvd
  exact pow_dvd_pow 2 narrower

theorem ofInt_word (w : Nat) (n : Int) : BitVec.ofInt w (word w n) = BitVec.ofInt w n :=
    BitVec.ofInt_toInt

theorem word_mul_word (narrower : v ≤ w) (a b : Int) : word v (a * word w b) = word v (a * b) := by
  apply word_eq_iff.mpr
  exact ((word_mod_eq w b).of_dvd (pow_dvd_pow 2 narrower)).mul_left a

/-- A word that a narrower slot holds, and where two of them agree. -/
theorem word_eq_word_iff (some_bits : 0 < v) (narrower : v ≤ w) {m n : Int} :
    word w m = word v n ↔ m ≡ n [ZMOD 2 ^ v] ∧ Fits v (word w m) := by
  rw [← word_eq_iff, ← word_word narrower m]
  constructor
  · intro same
    rw [same]
    exact ⟨word_word (Nat.le_refl v) n, word_fits some_bits n⟩
  · rintro ⟨same, fits⟩
    rw [← same]
    exact (word_of_fits some_bits fits).symm

def truncate (x : ℚ) : Int := if x < 0 then -⌊-x⌋ else ⌊x⌋

theorem truncate_intCast (n : Int) : truncate n = n := by
  unfold truncate
  split
  · have whole : -((n : Int) : ℚ) = ((-n : Int) : ℚ) := by push_cast; rfl
    rw [whole, Int.floor_intCast, Int.neg_neg]
  · exact Int.floor_intCast n

/-- Truncating a quotient is the machine's division. -/
theorem truncate_div (n : Int) {d : Nat} (pos : 0 < d) : truncate ((n : ℚ) / d) = n.tdiv d := by
  have rational : (0 : ℚ) < d := by exact_mod_cast pos
  have sign : (n : ℚ) / d < 0 ↔ n < 0 := by
    rw [div_lt_iff₀ rational, zero_mul]
    exact_mod_cast Iff.rfl
  by_cases negative : n < 0
  · have flip : -((n : ℚ) / d) = ((-n : Int) : ℚ) / d := by
      push_cast
      ring
    have reversed : n = -(-n) := by omega
    rw [truncate, if_pos (sign.mpr negative), flip, Rat.floor_intCast_div_natCast]
    conv_rhs => rw [reversed, Int.neg_tdiv]
    rw [Int.tdiv_eq_ediv_of_nonneg (by omega)]
  · rw [truncate, if_neg (fun h => negative (sign.mp h)), Rat.floor_intCast_div_natCast,
      Int.tdiv_eq_ediv_of_nonneg (by omega)]

variable {a : Nat}

/-- Dividing before multiplying loses nothing exactly when the remainder's share is less
    than a divisor. -/
theorem div_mul_exact_iff {m : Nat} (pos : 0 < d) : a / d * m = a * m / d ↔ a % d * m < d := by
  have parts : a * m = a % d * m + a / d * m * d := by
    conv_lhs => rw [← Nat.mod_add_div a d]
    ring
  rw [parts, Nat.add_mul_div_right _ _ pos, ← Nat.div_eq_zero_iff_lt pos]
  omega

theorem div_mul_le (a d m : Nat) : a / d * m ≤ a * m / d := by
  rcases Nat.eq_zero_or_pos d with rfl | pos
  · simp
  · rw [Nat.le_div_iff_mul_le pos]
    calc a / d * m * d = a / d * d * m := by ring
      _ ≤ a * m := Nat.mul_le_mul_right m (Nat.div_mul_le_self a d)

/-- Rounding a half up is truncating exactly below the half. -/
theorem add_half_div_iff {h : Nat} (pos : 0 < d) (twice : 2 * h = d) :
    (a + h) / d = a / d ↔ a % d < h := by
  have parts : a + h = a % d + h + a / d * d := by
    conv_lhs => rw [← Nat.mod_add_div a d]
    ring
  rw [parts, Nat.add_mul_div_right _ _ pos]
  constructor
  · intro same
    have small : (a % d + h) / d = 0 := by omega
    rw [Nat.div_eq_zero_iff_lt pos] at small
    omega
  · intro low
    rw [Nat.div_eq_of_lt (by omega)]
    omega

/-- Adding half the divisor before the division counts a remainder from the half on. -/
theorem add_half_div {h : Nat} (pos : 0 < d) (twice : 2 * h = d) :
    (a + h) / d = a / d + if d ≤ a % d * 2 then 1 else 0 := by
  have parts : a + h = a % d + h + a / d * d := by
    conv_lhs => rw [← Nat.mod_add_div a d]
    ring
  have small := Nat.mod_lt a pos
  rw [parts, Nat.add_mul_div_right _ _ pos, Nat.add_comm]
  congr 1
  split
  · have once : (a % d + h) / d = 1 := Nat.div_eq_of_lt_le (by omega) (by omega)
    exact once
  · exact Nat.div_eq_of_lt (by omega)

theorem tdiv_of_neg_natAbs (negative : n < 0) (d : Nat) :
    n.tdiv d = -((n.natAbs / d : Nat) : Int) := by
  have flip : n = -(n.natAbs : Int) := by omega
  rw [flip, Int.neg_tdiv, Int.ofNat_tdiv, Int.natAbs_neg, Int.natAbs_natCast]

theorem tdiv_of_nonneg_natAbs (nonneg : 0 ≤ n) (d : Nat) :
    n.tdiv d = ((n.natAbs / d : Nat) : Int) := by
  have same : n = (n.natAbs : Int) := by omega
  conv_lhs => rw [same]
  rw [Int.ofNat_tdiv]

theorem tdiv_tdiv (n : Int) (a b : Nat) : (n.tdiv a).tdiv b = n.tdiv (a * b : Nat) := by
  rcases Int.lt_or_le n 0 with negative | nonneg
  · rw [tdiv_of_neg_natAbs negative, tdiv_of_neg_natAbs negative, Int.neg_tdiv, ← Int.ofNat_tdiv,
      Nat.div_div_eq_div_mul]
  · rw [tdiv_of_nonneg_natAbs nonneg, tdiv_of_nonneg_natAbs nonneg, ← Int.ofNat_tdiv,
      Nat.div_div_eq_div_mul]

/-- The divisor's sign goes to the quotient. -/
theorem tdiv_mul_natCast (n y : Int) (m : Nat) : n.tdiv (y * m) = (n.tdiv y).tdiv m := by
  rcases Int.natAbs_eq y with same | flip
  · rw [same, tdiv_tdiv, Nat.cast_mul]
  · rw [flip, Int.neg_mul, Int.tdiv_neg, Int.tdiv_neg, Int.neg_tdiv, tdiv_tdiv, Nat.cast_mul]

theorem truncate_neg (x : ℚ) : truncate (-x) = -truncate x := by
  unfold truncate
  rcases lt_trichotomy x 0 with negative | rfl | positive
  · rw [if_neg (by linarith), if_pos negative, Int.neg_neg]
  · simp
  · rw [if_pos (by linarith), if_neg (by linarith), neg_neg]

/-- The machine's division by any number but 0. -/
theorem truncate_quotient (n : Int) {y : Int} (some_divisor : y ≠ 0) :
    truncate ((n : ℚ) / y) = n.tdiv y := by
  have positive : 0 < y.natAbs := Int.natAbs_pos.mpr some_divisor
  rcases Int.natAbs_eq y with same | flip
  · rw [same, Int.cast_natCast, truncate_div n positive]
  · rw [flip, Int.cast_neg, Int.cast_natCast, div_neg, truncate_neg, truncate_div n positive,
      Int.tdiv_neg]

/-- Only the smallest number over -1 leaves the word. -/
theorem tdiv_fits_word {y : Int} (fits : Fits w n) (some_divisor : y ≠ 0)
    (small : ¬(n = -2 ^ (w - 1) ∧ y = -1)) : Fits w (n.tdiv y) := by
  have quotient : (n.tdiv y).natAbs = n.natAbs / y.natAbs := Int.natAbs_tdiv n y
  have less := Nat.div_le_self n.natAbs y.natAbs
  unfold Fits at *
  by_cases minus : y = -1
  · subst minus
    have sign : n.tdiv (-1) = -n := by rw [Int.tdiv_neg, Int.tdiv_one]
    omega
  · by_cases one : y = 1
    · subst one
      rw [Int.tdiv_one]
      exact fits
    · have half : n.natAbs / y.natAbs ≤ n.natAbs / 2 := Nat.div_le_div_left (by omega) (by omega)
      omega

/-- The first number is between 0 and the second. -/
def Toward (r v : Int) : Prop := 0 ≤ r ∧ r ≤ v ∨ v ≤ r ∧ r ≤ 0

theorem tdiv_toward (n : Int) (d : Nat) : Toward (n.tdiv d) n := by
  have small := Nat.div_le_self n.natAbs d
  unfold Toward
  rcases Int.lt_or_le n 0 with negative | nonneg
  · rw [tdiv_of_neg_natAbs negative]
    generalize n.natAbs / d = q at *
    omega
  · rw [tdiv_of_nonneg_natAbs nonneg]
    generalize n.natAbs / d = q at *
    omega

theorem tdiv_eq_self_iff {n : Int} {d : Nat} (divides : 2 ≤ d) : n = n.tdiv d ↔ n = 0 := by
  constructor
  · intro same
    have small : n.natAbs / d ≠ n.natAbs ∨ n.natAbs = 0 := by
      rcases Nat.eq_zero_or_pos n.natAbs with zero | pos
      · exact Or.inr zero
      · exact Or.inl (Nat.div_lt_self pos divides).ne
    rcases Int.lt_or_le n 0 with negative | nonneg
    · rw [tdiv_of_neg_natAbs negative] at same
      omega
    · rw [tdiv_of_nonneg_natAbs nonneg] at same
      omega
  · rintro rfl
    simp

theorem mul_natAbs (n : Int) (m : Nat) : (n * m).natAbs = n.natAbs * m := by
  rw [Int.natAbs_mul, Int.natAbs_natCast]

theorem tdiv_mul_toward (n : Int) (d m : Nat) : Toward (n.tdiv d * m) ((n * m).tdiv d) := by
  have le := div_mul_le n.natAbs d m
  have cast : ((n.natAbs / d : Nat) : Int) * m ≤ ((n.natAbs * m / d : Nat) : Int) :=
    by exact_mod_cast le
  have nonneg' : (0 : Int) ≤ ((n.natAbs / d : Nat) : Int) * m := by positivity
  rcases Int.lt_or_le n 0 with negative | nonneg
  · have product : n * m ≤ 0 := by nlinarith
    rcases Int.lt_or_eq_of_le product with below | zero
    · rw [tdiv_of_neg_natAbs negative, tdiv_of_neg_natAbs below, mul_natAbs, neg_mul]
      unfold Toward
      omega
    · have none_left : m = 0 := by
        rcases mul_eq_zero.mp zero with impossible | none_left
        · omega
        · exact_mod_cast none_left
      subst none_left
      simp [Toward]
  · have product : 0 ≤ n * m := by positivity
    rw [tdiv_of_nonneg_natAbs nonneg, tdiv_of_nonneg_natAbs product, mul_natAbs]
    unfold Toward
    omega

/-- Dividing first is exact exactly when the remainder's share is less than a divisor. -/
theorem tdiv_mul_exact_iff (n : Int) {d : Nat} (m : Nat) (pos : 0 < d) :
    n.tdiv d * m = (n * m).tdiv d ↔ n.natAbs % d * m < d := by
  rw [← div_mul_exact_iff pos]
  rcases Int.lt_or_le n 0 with negative | nonneg
  · rcases Nat.eq_zero_or_pos m with rfl | some_factor
    · simp
    · have below : n * m < 0 := by
        have : (0 : Int) < m := by exact_mod_cast some_factor
        nlinarith
      rw [tdiv_of_neg_natAbs negative, tdiv_of_neg_natAbs below, mul_natAbs, neg_mul, neg_inj]
      exact_mod_cast Iff.rfl
  · have product : 0 ≤ n * m := by positivity
    rw [tdiv_of_nonneg_natAbs nonneg, tdiv_of_nonneg_natAbs product, mul_natAbs]
    exact_mod_cast Iff.rfl

theorem towardSign_tdiv_of_neg (negative : n < 0) (h d : Nat) :
    (towardSign n h).tdiv d = -(((n.natAbs + h) / d : Nat) : Int) := by
  have below : n - h < 0 := by omega
  have size : (n - h).natAbs = n.natAbs + h := by omega
  rw [towardSign, if_pos negative, tdiv_of_neg_natAbs below, size]

theorem towardSign_tdiv_of_nonneg (nonneg : 0 ≤ n) (h d : Nat) :
    (towardSign n h).tdiv d = (((n.natAbs + h) / d : Nat) : Int) := by
  have size : (n + h).natAbs = n.natAbs + h := by omega
  rw [towardSign, if_neg (by omega), tdiv_of_nonneg_natAbs (by omega), size]

theorem tdiv_toward_rounded (n : Int) (h d : Nat) : Toward (n.tdiv d)
    ((towardSign n h).tdiv d) := by
  have le : n.natAbs / d ≤ (n.natAbs + h) / d := Nat.div_le_div_right (by omega)
  unfold Toward
  rcases Int.lt_or_le n 0 with negative | nonneg
  · rw [tdiv_of_neg_natAbs negative, towardSign_tdiv_of_neg negative]
    generalize n.natAbs / d = q, (n.natAbs + h) / d = r at *
    omega
  · rw [tdiv_of_nonneg_natAbs nonneg, towardSign_tdiv_of_nonneg nonneg]
    generalize n.natAbs / d = q, (n.natAbs + h) / d = r at *
    omega

/-- Rounding away is truncating exactly when less than a half is left. -/
theorem rounded_eq_tdiv_iff (n : Int) {h d : Nat} (pos : 0 < d) (twice : 2 * h = d) :
    (towardSign n h).tdiv d = n.tdiv d ↔ n.natAbs % d < h := by
  rw [← add_half_div_iff pos twice]
  rcases Int.lt_or_le n 0 with negative | nonneg
  · rw [tdiv_of_neg_natAbs negative, towardSign_tdiv_of_neg negative]
    omega
  · rw [tdiv_of_nonneg_natAbs nonneg, towardSign_tdiv_of_nonneg nonneg]
    omega

end FixedPoint
