import PliLlvm.Compiler.FixedConvert
import PliLlvm.Lib.Run

/- MOD of two FIXED values of one type of at most 64 bits (src/irgen.cpp, emitBuiltin). The
   divisor is the register's constant or a computed word; the dividend is a constant, a value
   that isDerivedFromNonNegDoIndex is true of, or one that LLVM may know to be non-negative. -/
namespace PliModLowering
open FixedPoint PliConstFold

def srem64 (a b : Int) : Option Int :=
  if b = 0 ∨ (a = -2 ^ 63 ∧ b = -1) then none else some (a.tmod b)

/-- pli_mod_ll of runtime/rt_math.c -/
def pliModLl (a b : Int) : Option Int :=
  if b = 0 then some 0
  else (srem64 a b).map fun r =>
    if r ≠ 0 ∧ decide (r < 0) ≠ decide (b < 0) then r + b else r

inductive Dividend where
  | constant
  | derived
  | other (known : Bool)
  deriving DecidableEq

def avNonNeg (d : Dividend) (avi : Int) : Bool :=
  match d with
  | .constant => 0 ≤ avi
  | .derived => true
  | .other known => known

def zext (bits : Nat) (n : Int) : Nat := (BitVec.ofInt bits n).toNat

def isPowerOf2 (bits : Nat) (cv : Int) : Bool :=
  zext bits cv != 0 && zext bits cv == 2 ^ (zext bits cv).log2

def emitModConst (bits : Nat) (d : Dividend) (avi cv : Int) : Option Int :=
  if cv = 0 then some 0
  else if isPowerOf2 bits cv then
    some (BitVec.ofInt 64 avi &&& BitVec.ofNat 64 (zext bits cv - 1)).toInt
  else if avNonNeg d avi && decide (0 < cv) then srem64 avi cv
  else (srem64 avi cv).map fun r =>
    let adj := word 64 (r + cv)
    let bNeg := decide (cv < 0)
    let needAdj := if bNeg then decide (0 ≤ zext 64 r) else decide (r < 0)
    if r ≠ 0 then if needAdj then adj else r else r

def emitMod (common : Ty) (constant : Bool) (d : Dividend) (a b : Int) : Option Int :=
  (if constant then emitModConst common.intBits d a b
    else if b = 0 then some 0 else pliModLl a b).map (word common.intBits)

def IsMod (a b r : Int) : Prop :=
  (∃ k, a = k * b + r) ∧ |r| < |b| ∧ (r = 0 ∨ (r < 0 ↔ b < 0))

variable {a b : Int}

theorem isMod_unique {r r' : Int} (first : IsMod a b r) (second : IsMod a b r') : r = r' := by
  obtain ⟨⟨k, split⟩, small, sign⟩ := first
  obtain ⟨⟨k', split'⟩, small', sign'⟩ := second
  have apart : (k - k') * b = r' - r := by rw [Int.sub_mul]; omega
  have near : |r' - r| < |b| := by
    rcases abs_cases r with ⟨h, _⟩ | ⟨h, _⟩ <;> rcases abs_cases r' with ⟨h', _⟩ | ⟨h', _⟩ <;>
      rcases abs_cases b with ⟨hb, _⟩ | ⟨hb, _⟩ <;>
      rcases abs_cases (r' - r) with ⟨hd, _⟩ | ⟨hd, _⟩ <;> omega
  have same : r' - r = 0 := by
    by_contra differ
    have multiple : b ∣ r' - r := ⟨k - k', by rw [← apart, Int.mul_comm]⟩
    have bound := Int.le_of_dvd (abs_pos.mpr differ) ((dvd_abs b _).mpr multiple)
    have := neg_abs_le b
    have : |b| ≤ |r' - r| := Int.le_of_dvd (abs_pos.mpr differ) (by rwa [abs_dvd_abs])
    omega
  omega

theorem tmod_split (a b : Int) (some_divisor : b ≠ 0) :
    (∃ k, a = k * b + a.tmod b) ∧ |a.tmod b| < |b| ∧
      (0 ≤ a → 0 ≤ a.tmod b) ∧ (a ≤ 0 → a.tmod b ≤ 0) := by
  refine ⟨⟨a.tdiv b, ?_⟩, ?_, Int.tmod_nonneg b, fun low => ?_⟩
  · rw [Int.mul_comm]
    exact (Int.mul_tdiv_add_tmod a b).symm
  · rw [Int.abs_eq_natAbs, Int.abs_eq_natAbs, Int.natAbs_tmod]
    exact_mod_cast Nat.mod_lt _ (Int.natAbs_pos.mpr some_divisor)
  · have flipped := Int.tmod_nonneg b (show 0 ≤ -a by omega)
    rw [Int.neg_tmod] at flipped
    omega

theorem tmod_zero_iff (a b : Int) : a.tmod b = 0 ↔ b ∣ a := Int.dvd_iff_tmod_eq_zero.symm

theorem isMod_tmod (some_divisor : b ≠ 0)
    (agrees : b ∣ a ∨ (0 ≤ a ∧ 0 < b) ∨ (a ≤ 0 ∧ b < 0)) : IsMod a b (a.tmod b) := by
  obtain ⟨split, small, low, high⟩ := tmod_split a b some_divisor
  refine ⟨split, small, ?_⟩
  rcases agrees with exact_ | ⟨positive, above⟩ | ⟨negative, below⟩
  · exact Or.inl ((tmod_zero_iff a b).mpr exact_)
  · have := low positive
    exact Or.inr (by omega)
  · have := high negative
    by_cases zero : a.tmod b = 0
    · exact Or.inl zero
    · exact Or.inr (by omega)

theorem isMod_adjusted (some_divisor : b ≠ 0) (rest : a.tmod b ≠ 0)
    (differ : ¬(a.tmod b < 0 ↔ b < 0)) : IsMod a b (a.tmod b + b) := by
  obtain ⟨⟨k, split⟩, small, -, -⟩ := tmod_split a b some_divisor
  refine ⟨⟨k - 1, by rw [Int.sub_mul]; omega⟩, ?_, Or.inr ?_⟩
  · rcases abs_cases (a.tmod b) with ⟨h, _⟩ | ⟨h,
      _⟩ <;> rcases abs_cases b with ⟨hb, _⟩ | ⟨hb, _⟩ <;>
      rcases abs_cases (a.tmod b + b) with ⟨hd, _⟩ | ⟨hd, _⟩ <;> omega
  · rcases abs_cases (a.tmod b) with ⟨h, _⟩ | ⟨h,
      _⟩ <;> rcases abs_cases b with ⟨hb, _⟩ | ⟨hb, _⟩ <;>
      omega

theorem pliModLl_spec (some_divisor : b ≠ 0) :
    (¬(a = -2 ^ 63 ∧ b = -1) → ∃ r, pliModLl a b = some r ∧ IsMod a b r) ∧
      ((a = -2 ^ 63 ∧ b = -1) → pliModLl a b = none) := by
  constructor
  · intro fits
    rw [pliModLl, if_neg some_divisor, srem64, if_neg (by simp [some_divisor]; tauto),
      Option.map_some]
    refine ⟨_, rfl, ?_⟩
    split
    · rename_i adjust
      exact isMod_adjusted some_divisor adjust.1 (by simpa using adjust.2)
    · rename_i keep
      obtain ⟨split, small, -, -⟩ := tmod_split a b some_divisor
      refine ⟨split, small, ?_⟩
      by_cases zero : a.tmod b = 0
      · exact Or.inl zero
      · have same : ¬decide (a.tmod b < 0) ≠ decide (b < 0) := fun differ => keep ⟨zero, differ⟩
        exact Or.inr (by simpa using same)
  · intro overflow
    rw [pliModLl, if_neg some_divisor, srem64, if_pos (Or.inr overflow)]
    rfl

theorem mask_toInt (a : Int) {k : Nat} (small : k ≤ 63) :
    (BitVec.ofInt 64 a &&& BitVec.ofNat 64 (2 ^ k - 1)).toInt = a % 2 ^ k := by
  have power : (2 : Nat) ^ k ≤ 2 ^ 63 := Nat.pow_le_pow_right (by decide) small
  have positive : 0 < (2 : Nat) ^ k := Nat.two_pow_pos k
  have mask : (BitVec.ofNat 64 (2 ^ k - 1)).toNat = 2 ^ k - 1 := by
    rw [BitVec.toNat_ofNat, Nat.mod_eq_of_lt (by omega)]
  have masked : (BitVec.ofInt 64 a &&& BitVec.ofNat 64 (2 ^ k - 1)).toNat =
      (a % 2 ^ 64).toNat % 2 ^ k := by
    rw [BitVec.toNat_and, mask, BitVec.toNat_ofInt, Nat.and_two_pow_sub_one_eq_mod]
    rfl
  have bound := Nat.mod_lt (a % 2 ^ 64).toNat positive
  rw [BitVec.toInt_eq_toNat_cond, if_pos (by rw [masked]; omega), masked]
  have divides : (2 : Int) ^ k ∣ 2 ^ 64 := pow_dvd_pow 2 (by omega)
  rw [Int.natCast_mod, Int.toNat_of_nonneg (Int.emod_nonneg a (by decide)), Nat.cast_pow,
    Nat.cast_ofNat, Int.emod_emod_of_dvd a divides]

variable {bits : Nat}

theorem zext_eq (some_bits : 0 < bits) {n : Int} (fits : Fits bits n) :
    (0 ≤ n ∧ (zext bits n : Int) = n) ∨ (n < 0 ∧ (zext bits n : Int) = n + 2 ^ bits) := by
  have half : (2 : Int) ^ bits = 2 * 2 ^ (bits - 1) := by
    rw [← Int.pow_succ', Nat.sub_add_cancel some_bits]
  have toNat : (zext bits n : Int) = n % 2 ^ bits := by
    rw [zext, BitVec.toNat_ofInt, Nat.cast_pow, Nat.cast_ofNat,
      Int.toNat_of_nonneg (Int.emod_nonneg _ (by positivity))]
  unfold Fits at fits
  rcases Int.lt_or_le n 0 with negative | positive
  · refine Or.inr ⟨negative, ?_⟩
    rw [toNat, ← Int.add_emod_right, Int.emod_eq_of_lt (by omega) (by omega)]
  · exact Or.inl ⟨positive, by rw [toNat, Int.emod_eq_of_lt positive (by omega)]⟩

theorem isPowerOf2_cases (some_bits : 0 < bits) {b : Int} (fits : Fits bits b)
    (power : isPowerOf2 bits b = true) :
    ∃ k, k ≤ bits - 1 ∧ zext bits b = 2 ^ k ∧
      ((b = 2 ^ k) ∨ (k = bits - 1 ∧ b = -2 ^ (bits - 1))) := by
  have half : (2 : Int) ^ bits = 2 * 2 ^ (bits - 1) := by
    rw [← Int.pow_succ', Nat.sub_add_cancel some_bits]
  simp only [isPowerOf2, Bool.and_eq_true, bne_iff_ne, beq_iff_eq] at power
  obtain ⟨k, word⟩ : ∃ k, zext bits b = 2 ^ k := ⟨_, power.2⟩
  have cast : (zext bits b : Int) = 2 ^ k := by rw [word]; push_cast; rfl
  have range := fits
  unfold Fits at range
  rcases zext_eq some_bits fits with ⟨positive, value⟩ | ⟨negative, value⟩
  · have below : (2 : Int) ^ k < 2 ^ (bits - 1) := by omega
    have less : k < bits - 1 := (pow_lt_pow_iff_right₀ (by decide)).mp below
    exact ⟨k, by omega, word, Or.inl (by omega)⟩
  · have above : (2 : Int) ^ (bits - 1) ≤ 2 ^ k := by omega
    have below : (2 : Int) ^ k < 2 ^ bits := by omega
    have low : bits - 1 ≤ k := (pow_le_pow_iff_right₀ (by decide)).mp above
    have high : k < bits := (pow_lt_pow_iff_right₀ (by decide)).mp below
    have place : k = bits - 1 := by omega
    subst place
    exact ⟨bits - 1, Nat.le_refl _, word, Or.inr ⟨rfl, by omega⟩⟩

theorem isPowerOf2_least (some_bits : 0 < bits) : isPowerOf2 bits (-2 ^ (bits - 1)) = true := by
  have half : (2 : Int) ^ bits = 2 * 2 ^ (bits - 1) := by
    rw [← Int.pow_succ', Nat.sub_add_cancel some_bits]
  have positive : (0 : Int) < 2 ^ (bits - 1) := by positivity
  have fits : Fits bits (-2 ^ (bits - 1)) := ⟨Int.le_refl _, by omega⟩
  have word : zext bits (-2 ^ (bits - 1)) = 2 ^ (bits - 1) := by
    rcases zext_eq some_bits fits with ⟨above, -⟩ | ⟨-, value⟩
    · omega
    · have cast : ((2 ^ (bits - 1) : Nat) : Int) = 2 ^ (bits - 1) := by push_cast; rfl
      omega
  have nonzero := Nat.two_pow_pos (bits - 1)
  simp only [isPowerOf2, word, Nat.log2_two_pow, Bool.and_eq_true, bne_iff_ne, beq_iff_eq]
  exact ⟨Nat.pos_iff_ne_zero.mp nonzero, trivial⟩

theorem isMod_word (some_bits : 0 < bits) {a b r : Int} (fits : Fits bits b)
    (isMod : IsMod a b r) : word bits r = r := by
  obtain ⟨-, small, -⟩ := isMod
  refine word_of_fits some_bits ?_
  unfold Fits at fits ⊢
  rcases abs_cases r with ⟨h, _⟩ | ⟨h, _⟩ <;> rcases abs_cases b with ⟨hb, _⟩ | ⟨hb, _⟩ <;> omega

def AsRuntime (common : Ty) (constant : Bool) (d : Dividend) (a b : Int) : Prop :=
  ∃ r, emitMod common constant d a b = some r ∧ pliModLl a b = some r ∧ IsMod a b r

/-- When it is: the quotient is a word; a constant divisor that does not divide a dividend
    is not the most negative word; a negative one has a dividend that is not negative; and
    a dividend taken for non-negative under a positive one, no power of two, is so. -/
def ModFits (bits : Nat) (constant : Bool) (d : Dividend) (a b : Int) : Prop :=
  ¬(a = -2 ^ 63 ∧ b = -1) ∧
    (constant = true → b ∣ a ∨ (b < 0 ∧ b ≠ -2 ^ (bits - 1) ∧ 0 ≤ a) ∨
      (0 < b ∧ (isPowerOf2 bits b = true ∨ d ≠ .derived ∨ 0 ≤ a)))

variable {common : Ty} {d : Dividend}

theorem asRuntime_iff {constant : Bool} {m : Int}
    (some_divisor : b ≠ 0) (small : ¬(a = -2 ^ 63 ∧ b = -1))
    (value : emitMod common constant d a b = some m) :
    AsRuntime common constant d a b ↔ IsMod a b m := by
  obtain ⟨r, called, isMod⟩ := (pliModLl_spec some_divisor).1 small
  constructor
  · rintro ⟨m', value', -, isMod'⟩
    cases value.symm.trans value'
    exact isMod'
  · intro isMod'
    cases isMod_unique isMod isMod'
    exact ⟨m, value, called, isMod'⟩

theorem mask_iff (some_bits : 0 < bits) (narrow : bits ≤ 64) {b : Int}
    (some_divisor : b ≠ 0) (fits : Fits bits b) (power : isPowerOf2 bits b = true) (a : Int) :
    IsMod a b (word bits (BitVec.ofInt 64 a &&& BitVec.ofNat 64 (zext bits b - 1)).toInt) ↔
      b ∣ a ∨ 0 < b := by
  obtain ⟨k, low, whole, plus | ⟨top, minus⟩⟩ := isPowerOf2_cases some_bits fits power
  all_goals
    have positive : (0 : Int) < 2 ^ k := by positivity
    have rest := Int.emod_nonneg a (show (2 : Int) ^ k ≠ 0 by omega)
    have below := Int.emod_lt_of_pos a positive
    have split := Int.mul_ediv_add_emod a (2 ^ k)
    have half : (2 : Int) ^ k ≤ 2 ^ (bits - 1) := pow_le_pow_right₀ (by decide) low
    rw [whole, mask_toInt a (by omega), word_of_fits some_bits ⟨by omega, by omega⟩]
  · refine iff_of_true ⟨⟨a / 2 ^ k, ?_⟩, ?_, Or.inr ?_⟩ (Or.inr (by omega))
    · rw [plus, Int.mul_comm]
      exact split.symm
    · rw [abs_of_nonneg rest, plus, abs_of_pos positive]
      exact below
    · omega
  · subst top
    have same : b ∣ a ↔ a % 2 ^ (bits - 1) = 0 := by
      rw [minus, Int.neg_dvd, Int.dvd_iff_emod_eq_zero]
    rw [same]
    constructor
    · rintro ⟨-, -, zero | sign⟩
      · exact Or.inl zero
      · omega
    · rintro (zero | above)
      · rw [zero] at split ⊢
        refine ⟨⟨-(a / 2 ^ (bits - 1)), ?_⟩, ?_, Or.inl rfl⟩
        · rw [minus, Int.neg_mul_neg, Int.mul_comm]
          exact split.symm
        · rw [abs_zero]
          exact abs_pos.mpr some_divisor
      · omega

theorem plain_iff (some_bits : 0 < bits) {a b : Int} (above : 0 < b)
    (fits : Fits bits b) : IsMod a b (word bits (a.tmod b)) ↔ b ∣ a ∨ 0 ≤ a := by
  obtain ⟨-, small, -, high⟩ := tmod_split a b (by omega)
  have kept : word bits (a.tmod b) = a.tmod b := by
    refine word_of_fits some_bits ?_
    unfold Fits at fits ⊢
    rcases abs_cases (a.tmod b) with ⟨h, _⟩ | ⟨h,
      _⟩ <;> rcases abs_cases b with ⟨hb, _⟩ | ⟨hb, _⟩ <;>
      omega
  rw [kept]
  constructor
  · rintro ⟨-, -, zero | sign⟩
    · exact Or.inl ((tmod_zero_iff a b).mp zero)
    · by_cases zero : a.tmod b = 0
      · exact Or.inl ((tmod_zero_iff a b).mp zero)
      · right
        by_contra negative
        have low := high (by omega)
        omega
  · rintro (divides | positive)
    · exact isMod_tmod (by omega) (Or.inl divides)
    · exact isMod_tmod (by omega) (Or.inr (Or.inl ⟨positive, above⟩))

def adjusted (a b : Int) : Int :=
  let r := a.tmod b
  let adj := word 64 (r + b)
  let needAdj := if decide (b < 0) then decide (0 ≤ zext 64 r) else decide (r < 0)
  if r ≠ 0 then if needAdj then adj else r else r

theorem adjusted_iff (some_bits : 0 < bits) (narrow : bits ≤ 64) {a b : Int}
    (some_divisor : b ≠ 0) (fits : Fits bits b) :
    IsMod a b (word bits (adjusted a b)) ↔ b ∣ a ∨ 0 < b ∨ 0 ≤ a := by
  obtain ⟨split, small, low, high⟩ := tmod_split a b some_divisor
  by_cases exact_ : a.tmod b = 0
  · have value : adjusted a b = a.tmod b := by
      unfold adjusted
      simp [exact_]
    have divides := (tmod_zero_iff a b).mp exact_
    have isMod := isMod_tmod some_divisor (Or.inl divides)
    rw [value, isMod_word some_bits fits isMod]
    exact iff_of_true isMod (Or.inl divides)
  · have rest : ¬b ∣ a := fun divides => exact_ ((tmod_zero_iff a b).mpr divides)
    rcases Int.lt_or_lt_of_ne some_divisor with negative | positive
    · -- every non-zero remainder is moved by the divisor
      have value : adjusted a b = word 64 (a.tmod b + b) := by
        simp [adjusted, exact_, negative]
      rw [value, word_word narrow]
      by_cases above : 0 ≤ a
      · have isMod := isMod_adjusted some_divisor exact_ (by have := low above; omega)
        rw [isMod_word some_bits fits isMod]
        exact iff_of_true isMod (Or.inr (Or.inr above))
      · refine iff_of_false (fun moved => ?_)
          (by rintro (h | h | h); exacts [rest h, by omega, above h])
        have same :=
          isMod_unique moved (isMod_tmod some_divisor (Or.inr (Or.inr ⟨by omega, negative⟩)))
        have congruent := word_mod_eq bits (a.tmod b + b)
        rw [same] at congruent
        have multiple : (2 : Int) ^ bits ∣ b := by
          have apart := congruent.dvd
          rwa [add_sub_cancel_left] at apart
        have bound := Int.le_of_dvd (show 0 < -b by omega) ((dvd_neg).mpr multiple)
        have half : (2 : Int) ^ bits = 2 * 2 ^ (bits - 1) := by
          rw [← Int.pow_succ', Nat.sub_add_cancel some_bits]
        have := fits.1
        have : (0 : Int) < 2 ^ (bits - 1) := by positivity
        omega
    · have isMod : IsMod a b (adjusted a b) := by
        have fits64 : Fits 64 (a.tmod b + b) ∨ 0 ≤ a.tmod b := by
          by_cases below : 0 ≤ a.tmod b
          · exact Or.inr below
          · have wide := fits_mono narrow fits
            unfold Fits at wide ⊢
            rcases abs_cases (a.tmod b) with ⟨h, _⟩ | ⟨h, _⟩ <;>
              rcases abs_cases b with ⟨hb, _⟩ | ⟨hb, _⟩ <;> omega
        by_cases below : a.tmod b < 0
        · have value : adjusted a b = a.tmod b + b := by
            have kept := word_of_fits (by decide) (fits64.resolve_right (by omega))
            simp [adjusted, exact_, below, kept, Int.not_lt.mpr (Int.le_of_lt positive)]
          rw [value]
          exact isMod_adjusted some_divisor exact_ (by omega)
        · have value : adjusted a b = a.tmod b := by
            simp [adjusted, below, Int.not_lt.mpr (Int.le_of_lt positive)]
          rw [value]
          exact ⟨split, small, Or.inr (by omega)⟩
      rw [isMod_word some_bits fits isMod]
      exact iff_of_true isMod (Or.inr (Or.inl positive))

theorem srem64_fits (some_divisor : b ≠ 0) (small : ¬(a = -2 ^ 63 ∧ b = -1)) :
    srem64 a b = some (a.tmod b) :=
  if_neg fun broken => broken.elim some_divisor small

theorem avNonNeg_sound (known : d = .other true → 0 ≤ a)
    (taken : avNonNeg d a = true) : d = .derived ∨ 0 ≤ a := by
  cases d with
  | constant => exact Or.inr (by simpa [avNonNeg] using taken)
  | derived => exact Or.inl rfl
  | other knows =>
    cases knows with
    | true => exact Or.inr (known rfl)
    | false => cases taken

theorem const_iff (narrow : common.intBits ≤ 64)
    (some_bits : 0 < common.intBits) (fits : Fits common.intBits b) (some_divisor : b ≠ 0)
    (known : d = .other true → 0 ≤ a) (small : ¬(a = -2 ^ 63 ∧ b = -1)) :
    AsRuntime common true d a b ↔
      b ∣ a ∨ (b < 0 ∧ b ≠ -2 ^ (common.intBits - 1) ∧ 0 ≤ a) ∨
        (0 < b ∧ (isPowerOf2 common.intBits b = true ∨ d ≠ .derived ∨ 0 ≤ a)) := by
  by_cases power : isPowerOf2 common.intBits b = true
  · have value : emitMod common true d a b = some (word common.intBits
        (BitVec.ofInt 64 a &&& BitVec.ofNat 64 (zext common.intBits b - 1)).toInt) := by
      simp [emitMod, emitModConst, some_divisor, power]
    rw [asRuntime_iff some_divisor small value, mask_iff some_bits narrow some_divisor fits power]
    obtain ⟨k, -, -, plus | ⟨-, minus⟩⟩ := isPowerOf2_cases some_bits fits power
    · have positive : 0 < b := by rw [plus]; positivity
      tauto
    · have negative : ¬0 < b := by
        rw [minus]
        have : (0 : Int) < 2 ^ (common.intBits - 1) := by positivity
        omega
      tauto
  · have least : b ≠ -2 ^ (common.intBits - 1) :=
      fun same => power (same ▸ isPowerOf2_least some_bits)
    have whole := srem64_fits some_divisor small
    by_cases taken : avNonNeg d a = true ∧ 0 < b
    · have value : emitMod common true d a b = some (word common.intBits (a.tmod b)) := by
        simp [emitMod, emitModConst, some_divisor, power, taken, whole]
      rw [asRuntime_iff some_divisor small value, plain_iff some_bits taken.2 fits]
      have sound := avNonNeg_sound known taken.1
      have above := taken.2
      have side : ¬b < 0 := by omega
      tauto
    · have value : emitMod common true d a b = some (word common.intBits (adjusted a b)) := by
        simp only [emitMod, emitModConst, some_divisor, power, whole, adjusted]
        simp [taken]
      rw [asRuntime_iff some_divisor small value, adjusted_iff some_bits narrow some_divisor fits]
      have derived : 0 < b → d ≠ .derived := by
        rintro above rfl
        exact taken ⟨rfl, above⟩
      rcases Int.lt_or_lt_of_ne some_divisor with below | above
      · have side : ¬0 < b := by omega
        simp only [below, least, side, ne_eq, not_false_eq_true, true_and, false_and, or_false,
          false_or]
      · have side : ¬b < 0 := by omega
        simp only [above, side, derived above, ne_eq, not_false_eq_true, true_and, false_and,
          true_or, or_true]

theorem value_iff {constant : Bool}
    (narrow : common.intBits ≤ 64) (fits : Fits common.intBits b) (some_divisor : b ≠ 0)
    (known : d = .other true → 0 ≤ a) :
    AsRuntime common constant d a b ↔ ModFits common.intBits constant d a b := by
  have some_bits := PliFixedConvert.intBits_pos common
  by_cases overflow : a = -2 ^ 63 ∧ b = -1
  · refine iff_of_false ?_ fun fitting => fitting.1 overflow
    rintro ⟨r, -, called, -⟩
    cases ((pliModLl_spec some_divisor).2 overflow).symm.trans called
  · cases constant with
    | true =>
      rw [const_iff narrow some_bits fits some_divisor known overflow]
      exact ⟨fun met => ⟨overflow, fun _ => met⟩, fun fitting => fitting.2 rfl⟩
    | false =>
      obtain ⟨r, called, isMod⟩ := (pliModLl_spec some_divisor).1 overflow
      have value : emitMod common false d a b = some r := by
        simp [emitMod, some_divisor, called, isMod_word some_bits fits isMod]
      refine iff_of_true ⟨r, value, called, isMod⟩ ⟨overflow, fun absurd_ => ?_⟩
      cases absurd_

end PliModLowering
