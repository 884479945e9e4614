import PliLlvm.Compiler.FixedArith
import Mathlib.RingTheory.Coprime.Lemmas

/- When FIXED arithmetic and comparisons are exact. Each operand arrives in the result's word
   as an integer that its type, its value and the result type determine; what the operation
   makes of two such integers is then compared with the values. -/
namespace PliFixedArith
open FixedPoint PliFixedConvert
open PliConstFold hiding value

/-- The integer that an operand of type `o` is, converted to `w`. -/
def arriving (w o : Ty) (raw : Int) : Int :=
  match o.k, w.k with
  | .fixedDec, .fixedDec => raw * 10 ^ (w.scale - o.scale).toNat
  | .fixedBin, .fixedBin => raw * 2 ^ (w.scale - o.scale).toNat
  | .fixedDec, .fixedBin =>
    if o.wideDec then
      (word 256 (raw * 2 ^ w.scale.toNat * 10 ^ (-o.scale).toNat)).tdiv (10 ^ o.scale.toNat : Nat)
    else
      (word 128 (raw.tdiv (2 ^ (-w.scale).toNat : Nat) * 2 ^ w.scale.toNat *
        10 ^ (-o.scale).toNat)).tdiv (10 ^ o.scale.toNat : Nat)
  | .fixedBin, .fixedDec => word 256 (raw * 2 ^ (-o.scale).toNat)
  | _, _ => raw

def Room (w o : Ty) (n : Int) : Prop :=
  if o.k = .fixedBin ∧ w.k = .fixedDec then InRange w n else Fits w.intBits n

instance (w o : Ty) (n : Int) : Decidable (Room w o n) := by
  unfold Room
  infer_instance

def ConstantsHold (w o : Ty) : Prop :=
  match o.k, w.k with
  | .fixedDec, .fixedDec =>
    w.scale - o.scale ≤ if max o.intBits w.intBits = 128 then 38 else 18
  | .fixedBin, .fixedBin => w.scale - o.scale ≤ 62
  | .fixedDec, .fixedBin => o.scale.natAbs ≤ 38 ∧ (o.wideDec = false → w.scale.natAbs ≤ 62)
  | _, _ => True

instance (w o : Ty) : Decidable (ConstantsHold w o) := by
  unfold ConstantsHold
  split <;> infer_instance

def Works (w o : Ty) : Prop :=
  match o.k, w.k with
  | .fixedDec, .fixedDec =>
    o.scale ≤ w.scale ∧ o.intBits ≤ w.intBits ∧ needDec o w = false ∧
      (o.scale < w.scale → w.intBits = 128 ∨ w.intBits = 64 ∧ o.intBits ≠ 128)
  | .fixedBin, .fixedBin => o.scale ≤ w.scale ∧ (w.prec = 31 ∨ w.prec = 63)
  | .fixedDec, .fixedBin => w.prec = 31 ∨ w.prec = 63
  | .fixedBin, .fixedDec =>
    o.scale ≤ 0 ∧ w.scale = o.scale ∧ w.intBits = 128 ∧ (w.prec = 31 ∨ w.prec = 63)
  | _, _ => False

def Arrives (w o : Ty) (raw : Int) : Prop :=
  ∃ c, convert o w raw = some c ∧ c.raw = word w.intBits (arriving w o raw) ∧
    (c.size = true ↔ ¬ Room w o (arriving w o raw))

variable {w : Ty}

theorem sentinel_bits (binary : w.k = .fixedBin) (sentinel : w.prec = 31 ∨ w.prec = 63) :
    w.intBits = w.prec.toNat + 1 := by
  unfold Ty.intBits
  rw [binary]
  rcases sentinel with short | long
  · simp [short]
  · simp [long]

variable {n : Int}

theorem checkBin_sentinel {bits : Nat} (binary : w.k = .fixedBin)
    (sentinel : w.prec = 31 ∨ w.prec = 63) (fits : Fits bits n) :
    (checkBin bits w n).raw = word w.intBits n ∧
      ((checkBin bits w n).size = true ↔ ¬ Fits w.intBits n) := by
  have size := sentinel_bits binary sentinel
  unfold checkBin fixedBinPrecTrap fitFixed
  split
  · rename_i whole
    have kept : Fits w.intBits n := fits_mono (by omega) fits
    simp [kept]
  · dsimp only
    have range : Fits w.intBits n ↔ -2 ^ w.prec.toNat ≤ n ∧ n < 2 ^ w.prec.toNat := by
      unfold Fits
      rw [size, Nat.add_sub_cancel]
    split
    · rename_i outside
      refine ⟨?_, ?_⟩
      · rw [← size, word_word (Nat.le_refl _)]
      · simp only [true_iff]
        rw [range]
        omega
    · rename_i inside
      have kept : Fits w.intBits n := by
        rw [range]
        omega
      simp [kept]

variable {o : Ty} {raw : Int}

theorem arrives_decimal (source : o.k = .fixedDec) (target : w.k = .fixedDec)
    (held : Fits o.intBits raw) (works : Works w o) (constants : ConstantsHold w o) :
    Arrives w o raw := by
  simp only [Works, ConstantsHold, source, target] at works constants
  obtain ⟨up, wider, unneeded, words⟩ := works
  have done : convert o w raw = some (decToDec o w raw) := by
    simp [convert, throughFloat, source, target]
  have arrived : arriving w o raw = raw * 10 ^ (w.scale - o.scale).toNat := by
    simp [arriving, source, target]
  have room : ∀ n, Room w o n ↔ Fits w.intBits n := by
    intro n
    simp [Room, source]
  refine ⟨decToDec o w raw, done, ?_⟩
  rw [arrived, room]
  rcases Int.lt_or_eq_of_le up with above | level
  · have multiplied : decToDec o w raw =
        ⟨word w.intBits (raw * 10 ^ (w.scale - o.scale).toNat),
          !decide (Fits w.intBits (raw * 10 ^ (w.scale - o.scale).toNat))⟩ := by
      unfold decToDec checkDec checkedMul fitFixed
      dsimp only
      rw [if_pos (by omega), unneeded]
      rcases words above with wide | ⟨narrow, other⟩
      · have both : max o.intBits w.intBits = 128 := by omega
        rw [if_pos both] at constants
        rw [if_pos both, if_pos both, pliPow10_128_eq constants, wide, word_word (Nat.le_refl _)]
        simp
      · have both : ¬ max o.intBits w.intBits = 128 := by omega
        rw [if_neg both] at constants
        rw [if_neg both, if_neg both, pliPow10_eq constants, narrow, word_word (Nat.le_refl _)]
        simp
    rw [multiplied]
    simp
  · have kept : Fits w.intBits raw := fits_mono wider held
    have same : decToDec o w raw = ⟨word w.intBits raw, false⟩ := by
      unfold decToDec checkDec fitFixed
      dsimp only
      rw [if_neg (by omega), if_neg (by omega), unneeded]
      rfl
    rw [same, level, sub_self]
    simp [kept]

theorem arrives_binary (source : o.k = .fixedBin) (target : w.k = .fixedBin)
    (held : Fits o.intBits raw) (works : Works w o) (constants : ConstantsHold w o) :
    Arrives w o raw := by
  simp only [Works, ConstantsHold, source, target] at works constants
  obtain ⟨up, sentinel⟩ := works
  have done : convert o w raw = some (binToBin o w raw) := by
    simp [convert, throughFloat, source, target]
  have arrived : arriving w o raw = raw * 2 ^ (w.scale - o.scale).toNat := by
    simp [arriving, source, target]
  have room : ∀ n, Room w o n ↔ Fits w.intBits n := by
    intro n
    simp [Room, target]
  refine ⟨binToBin o w raw, done, ?_⟩
  rw [arrived, room]
  unfold binToBin
  dsimp only
  rcases Int.lt_or_eq_of_le up with above | level
  · have fits : Fits 128 (raw * 2 ^ (w.scale - o.scale).toNat) :=
      @fits_mul_pow 128 63 2 _ 62 raw (fits_mono (binary_word source) held) (by omega) (by omega)
        (by norm_num) (by omega)
    rw [if_neg (by omega), if_pos (by omega), oneShl_eq constants, word_of_fits (by omega) fits]
    exact checkBin_sentinel target sentinel fits
  · rw [if_pos (by omega), level, sub_self, Int.toNat_zero, pow_zero, mul_one]
    exact checkBin_sentinel target sentinel held

theorem decToBinNarrow_word (kept : Fits 64 raw)
    (source_scale : o.scale.natAbs ≤ 38) (target_scale : w.scale.natAbs ≤ 62) :
    decToBinNarrow o w raw = (word 128 (raw.tdiv (2 ^ (-w.scale).toNat : Nat) *
      2 ^ w.scale.toNat * 10 ^ (-o.scale).toNat)).tdiv (10 ^ o.scale.toNat : Nat) := by
  have narrow : Fits 64 (raw.tdiv (2 ^ (-w.scale).toNat : Nat)) := tdiv_fits kept _
  have inner : Fits 128 (raw.tdiv (2 ^ (-w.scale).toNat : Nat) * 2 ^ w.scale.toNat) :=
    @fits_mul_pow 128 63 2 _ 62 _ narrow (by omega) (by omega) (by norm_num) (by omega)
  have first : (if 0 < w.scale then word 128 (raw * oneShl w.scale)
      else if w.scale < 0 then word 128 (raw.tdiv (oneShl (-w.scale))) else raw) =
      raw.tdiv (2 ^ (-w.scale).toNat : Nat) * 2 ^ w.scale.toNat := by
    rcases lt_trichotomy w.scale 0 with below | level | above
    · have up : w.scale.toNat = 0 := by omega
      rw [up, pow_zero, mul_one] at inner ⊢
      rw [if_neg (by omega), if_pos below, oneShl_eq (by omega)]
      push_cast at inner ⊢
      exact word_of_fits (by omega) inner
    · simp [level]
    · have down : (-w.scale).toNat = 0 := by omega
      simp only [down, pow_zero, Nat.cast_one, Int.tdiv_one] at inner ⊢
      rw [if_pos above, oneShl_eq (by omega), word_of_fits (by omega) inner]
  unfold decToBinNarrow
  rw [first]
  generalize raw.tdiv (2 ^ (-w.scale).toNat : Nat) * 2 ^ w.scale.toNat = r at inner
  dsimp only
  rcases lt_trichotomy o.scale 0 with below | level | above
  · have flat : o.scale.toNat = 0 := by omega
    rw [if_neg (by omega), if_pos below, pliPow10_128_eq (by omega), flat]
    simp
  · rw [level]
    simp [word_of_fits (by omega) inner]
  · have flat : (-o.scale).toNat = 0 := by omega
    have quotient := word_of_fits (by omega) (tdiv_fits inner (10 ^ o.scale.toNat))
    rw [if_pos above, pliPow10_128_eq (by omega), flat, pow_zero, mul_one,
      word_of_fits (by omega) inner]
    push_cast at quotient ⊢
    exact quotient

theorem decToBinWide_word (kept : Fits 128 raw) (source_scale : o.scale.natAbs ≤ 38) :
    decToBinWide o w raw =
      (word 256 (raw * 2 ^ w.scale.toNat * 10 ^ (-o.scale).toNat)).tdiv
        (10 ^ o.scale.toNat : Nat) := by
  have first : (if 0 < w.scale then word 256 (raw * intPowConst 256 2 w.scale) else raw) =
      word 256 (raw * 2 ^ w.scale.toNat) := by
    split
    · unfold intPowConst
      rw [word_mul_word (Nat.le_refl _)]
    · have up : w.scale.toNat = 0 := by omega
      rw [up, pow_zero, mul_one, word_of_fits (by omega) (fits_mono (by omega) kept)]
  have inner := word_fits (by omega : 0 < 256) (raw * 2 ^ w.scale.toNat)
  unfold decToBinWide
  rw [first]
  dsimp only
  rcases lt_trichotomy o.scale 0 with below | level | above
  · have flat : o.scale.toNat = 0 := by omega
    rw [if_neg (by omega), if_pos below, flat]
    unfold intPowConst
    rw [word_mul_word (Nat.le_refl _), mul_comm (word 256 _), word_mul_word (Nat.le_refl _),
      mul_comm (10 ^ _)]
    simp
  · rw [level]
    simp
  · have flat : (-o.scale).toNat = 0 := by omega
    have quotient := word_of_fits (by omega) (tdiv_fits inner (10 ^ o.scale.toNat))
    rw [if_pos above, intPowConst_ten (by omega), flat, pow_zero, mul_one]
    push_cast at quotient ⊢
    exact quotient

theorem decimal_narrow {ty : Ty} (decimal : ty.k = .fixedDec) (narrow : ty.wideDec = false) :
    ty.intBits ≤ 64 := by
  unfold Ty.intBits
  rw [decimal, narrow]
  dsimp only
  rw [if_neg (by simp)]
  split <;> omega

theorem intBits_le (ty : Ty) : ty.intBits ≤ 128 := by
  unfold Ty.intBits
  split
  · split <;> omega
  · split
    · omega
    · split <;> omega
  · omega

theorem arrives_in_binary (source : o.k = .fixedDec)
    (target : w.k = .fixedBin) (held : Fits o.intBits raw) (works : Works w o)
    (constants : ConstantsHold w o) : Arrives w o raw := by
  simp only [Works, ConstantsHold, source, target] at works constants
  obtain ⟨short, level⟩ := constants
  have fixed : throughFloat o w = false := by
    simp only [throughFloat, source, target]
    have few : ¬ 38 < o.scale := by omega
    simp [few]
  have done : convert o w raw = some (decToBin o w raw) := by
    simp [convert, fixed, source, target]
  have room : ∀ n, Room w o n ↔ Fits w.intBits n := by
    intro n
    simp [Room, source]
  refine ⟨decToBin o w raw, done, ?_⟩
  rw [room]
  unfold decToBin
  cases wide : o.wideDec with
  | true =>
    have arrived : arriving w o raw = decToBinWide o w raw := by
      rw [decToBinWide_word (fits_mono (intBits_le o) held) short]
      simp [arriving, source, target, wide]
    have fits : Fits 256 (decToBinWide o w raw) := by
      rw [decToBinWide_word (fits_mono (intBits_le o) held) short]
      exact tdiv_fits (word_fits (by omega) _) _
    rw [arrived, if_pos ((decimal_wide source).mpr wide)]
    exact checkBin_sentinel target works fits
  | false =>
    have kept := fits_mono (decimal_narrow source wide) held
    have arrived : arriving w o raw = decToBinNarrow o w raw := by
      rw [decToBinNarrow_word kept short (level wide)]
      simp [arriving, source, target, wide]
    have fits : Fits 128 (decToBinNarrow o w raw) := by
      rw [decToBinNarrow_word kept short (level wide)]
      exact tdiv_fits (word_fits (by omega) _) _
    have slim : ¬ o.intBits = 128 := by
      have := decimal_narrow source wide
      omega
    rw [arrived, if_neg slim]
    exact checkBin_sentinel target works fits

theorem arrives_in_decimal (source : o.k = .fixedBin)
    (target : w.k = .fixedDec) (held : Fits o.intBits raw) (works : Works w o) :
    Arrives w o raw := by
  simp only [Works, source, target] at works
  obtain ⟨down, same, bits, sentinel⟩ := works
  have done : convert o w raw = some (binToDec o w raw) := by
    have few : ¬ 38 < w.scale := by omega
    simp [convert, throughFloat, source, target, few]
  have arrived : arriving w o raw = binToDecWide o w raw := by
    have kept : Fits 256 raw := fits_mono (le_trans (intBits_le o) (by omega)) held
    have no_scale : ¬ 0 < w.scale := by omega
    have no_fraction : ¬ 0 < o.scale := by omega
    unfold binToDecWide
    dsimp only
    rw [if_neg no_scale, if_neg no_fraction]
    simp only [arriving, source, target]
    split
    · unfold intPowConst
      rw [word_mul_word (Nat.le_refl _)]
    · have level : (-o.scale).toNat = 0 := by omega
      rw [level, pow_zero, mul_one, word_of_fits (by omega) kept]
  refine ⟨binToDec o w raw, done, ?_⟩
  rw [arrived]
  unfold binToDec
  rw [if_pos bits]
  refine ⟨rfl, ?_⟩
  rw [Room, if_pos ⟨source, target⟩]
  exact wideMagTrap_iff target (by omega) _

theorem arrives (held : Fits o.intBits raw) (works : Works w o)
    (constants : ConstantsHold w o) : Arrives w o raw := by
  cases source : o.k with
  | other =>
    simp [Works, source] at works
  | fixedDec =>
    cases target : w.k with
    | other => simp [Works, source, target] at works
    | fixedDec => exact arrives_decimal source target held works constants
    | fixedBin => exact arrives_in_binary source target held works constants
  | fixedBin =>
    cases target : w.k with
    | other => simp [Works, source, target] at works
    | fixedDec => exact arrives_in_decimal source target held works
    | fixedBin => exact arrives_binary source target held works constants

def Fixed (ty : Ty) : Prop := (ty.k = .fixedBin ∨ ty.k = .fixedDec) ∧ 0 < ty.prec

theorem arithResultType_comm (a b : Ty) : arithResultType a b = arithResultType b a := by
  simp only [arithResultType, max_comm b.intBits, max_comm b.scale, and_comm (a := b.k = .fixedDec),
    Bool.or_comm b.wideDec]

theorem mulResultType_comm (a b : Ty) : mulResultType a b = mulResultType b a := by
  unfold mulResultType
  rw [arithResultType_comm b a, add_comm b.prec, add_comm b.scale, Bool.or_comm b.wideDec]
  cases first : a.k <;> cases second : b.k <;> simp

theorem resultType_comm (op : Op) (a b : Ty) : resultType op a b = resultType op b a := by
  cases op with
  | plus | minus => simp only [resultType, arithResultType_comm]
  | star => simp only [resultType, mulResultType_comm a b]

variable {a b : Ty}

theorem arith_works (fixed : Fixed a) : Works (arithResultType a b) a := by
  have sentinel : ∀ bits : Nat, (if bits = 64 then (63 : Int) else 31) = 31 ∨
      (if bits = 64 then (63 : Int) else 31) = 63 := by
    intro bits
    split <;> simp
  have long := sentinel (max a.intBits b.intBits)
  unfold arithResultType
  dsimp only
  generalize (if max a.intBits b.intBits = 64 then (63 : Int) else 31) = p at long
  split
  · rename_i both
    have wide : ∀ q wideDec, Ty.intBits ⟨.fixedDec, p, q, wideDec⟩ =
      if wideDec then 128 else 64 := by
      intro q wideDec
      unfold Ty.intBits
      dsimp only
      cases wideDec
      · rcases long with rfl | rfl <;> rfl
      · rfl
    have slot := @decimal_narrow a both.1
    have most := intBits_le a
    have full := @decimal_wide a both.1
    simp only [Works, both.1, wide]
    refine ⟨le_max_left _ _, ?_, ?_, ?_⟩
    · cases narrow : a.wideDec with
      | true => simpa using most
      | false =>
        have := slot narrow
        split <;> omega
    · have many : ¬ p ≤ 18 := by omega
      simp [needDec, many]
    · intro above
      cases narrow : a.wideDec with
      | true => simp
      | false =>
        rw [narrow] at full
        cases b.wideDec with
        | true => simp
        | false => simpa using full
  · rcases fixed.1 with binary | decimal
    · simp only [Works, bin, binary]
      exact ⟨le_max_left _ _, long⟩
    · simp only [Works, bin, decimal]
      exact long

theorem arith_sentinel (a b : Ty) : (arithResultType a b).prec = 31 ∨
    (arithResultType a b).prec = 63 := by
  unfold arithResultType bin
  dsimp only
  split
  · split <;> simp
  · split <;> simp

/- The product's type, by the kinds of the factors. -/
theorem mul_binary (first : a.k = .fixedBin) (second : b.k = .fixedBin) : mulResultType a b =
      some ⟨.fixedBin, (arithResultType a b).prec, a.scale + b.scale, false⟩ := by
  simp [mulResultType, arithResultType, bin, first, second]

theorem mul_decimal (first : a.k = .fixedDec) (second : b.k = .fixedDec) :
    mulResultType a b = some ⟨.fixedDec, min (a.prec + b.prec) 31, a.scale + b.scale,
      a.wideDec || b.wideDec || 18 < min (a.prec + b.prec) 31⟩ := by
  simp [mulResultType, arithResultType, first, second]

theorem mul_float (first : a.k = .fixedBin) (second : b.k = .fixedDec)
    (fraction : 0 < a.scale) : mulResultType a b = none := by
  simp [mulResultType, first, second, fraction]

theorem mul_fraction (first : a.k = .fixedBin) (second : b.k = .fixedDec)
    (whole : a.scale ≤ 0) (fraction : 0 < b.scale) :
    mulResultType a b =
      some ⟨.fixedDec, (arithResultType a b).prec, a.scale + b.scale, true⟩ := by
  have many : 18 < (arithResultType a b).prec := by
    have := arith_sentinel a b
    omega
  simp [mulResultType, first, second, whole, fraction, many]

theorem mul_whole (first : a.k = .fixedBin) (second : b.k = .fixedDec)
    (whole : a.scale ≤ 0) (no_fraction : b.scale ≤ 0) :
    mulResultType a b =
      some ⟨.fixedBin, (arithResultType a b).prec, a.scale + b.scale, false⟩ := by
  have none_left : ¬ 0 < b.scale := by omega
  simp [mulResultType, arithResultType, bin, first, second, whole, none_left]

theorem wide_bits {ty : Ty} (decimal : ty.k = .fixedDec) (wide : ty.wideDec = true) :
    ty.intBits = 128 := (decimal_wide decimal).mpr wide

variable {t : Ty}

theorem mixed_works (first : a.k = .fixedBin) (second : b.k = .fixedDec)
    (result : mulResultType a b = some t) :
    Works { t with scale := a.scale } a ∧ Works { t with scale := b.scale } b := by
  have sentinel := arith_sentinel a b
  by_cases float : 0 < a.scale
  · rw [mul_float first second float] at result
    cases result
  · by_cases fraction : 0 < b.scale
    · rw [mul_fraction first second (by omega) fraction, Option.some.injEq] at result
      subst result
      have many : ¬ (arithResultType a b).prec ≤ 18 := by omega
      have bits : ∀ q, Ty.intBits ⟨.fixedDec, (arithResultType a b).prec, q, true⟩ = 128 :=
        fun q => wide_bits rfl rfl
      simp only [Works, first, second, bits, needDec, many]
      exact ⟨⟨by omega, trivial, trivial, sentinel⟩, le_refl _, intBits_le b, by simp, by simp⟩
    · rw [mul_whole first second (by omega) (by omega), Option.some.injEq] at result
      subst result
      simp only [Works, first, second]
      exact ⟨⟨le_refl _, sentinel⟩, sentinel⟩

theorem mul_works (fixed : Fixed a) (other : Fixed b)
    (result : mulResultType a b = some t) : Works { t with scale := a.scale } a := by
  rcases fixed.1 with first | first
  · rcases other.1 with second | second
    · rw [mul_binary first second, Option.some.injEq] at result
      subst result
      simp only [Works, first]
      exact ⟨le_refl _, arith_sentinel a b⟩
    · exact (mixed_works first second result).1
  · rcases other.1 with second | second
    · rw [mulResultType_comm] at result
      exact (mixed_works second first result).2
    · rw [mul_decimal first second, Option.some.injEq] at result
      subst result
      have some_digits := other.2
      simp only [Works, first, lt_self_iff_false, false_implies, and_true]
      refine ⟨le_refl _, ?_, ?_⟩
      · by_cases wide : (a.wideDec || b.wideDec || decide (18 < min (a.prec + b.prec) 31)) = true
        · exact le_of_le_of_eq (intBits_le a) (wide_bits rfl wide).symm
        · simp only [Bool.not_eq_true, Bool.or_eq_false_iff, decide_eq_false_iff_not] at wide
          obtain ⟨⟨narrow, narrow'⟩, short⟩ := wide
          have sum : min (a.prec + b.prec) 31 = a.prec + b.prec := by omega
          have few : ¬ 18 < a.prec + b.prec := by omega
          simp only [Ty.intBits, first, narrow, narrow', sum, few]
          simp only [Bool.or_self, decide_false, Bool.false_eq_true, if_false]
          by_cases nine : a.prec + b.prec ≤ 9
          · rw [if_pos nine, if_pos (by omega)]
          · rw [if_neg nine]
            split <;> omega
      · unfold needDec
        simp only [first, Bool.and_eq_false_iff, decide_eq_false_iff_not, Bool.not_eq_false',
          decide_eq_true_eq, sub_self, max_self, add_zero, true_and]
        omega

theorem works {op : Op} {a b t : Ty} (fixed : Fixed a) (other : Fixed b)
    (result : resultType op a b = some t) :
    Works (workType op t a) a ∧ Works (workType op t b) b := by
  have swapped := resultType_comm op a b ▸ result
  cases op with
  | plus | minus =>
    cases result
    refine ⟨arith_works fixed, ?_⟩
    rw [workType, arithResultType_comm]
    exact arith_works other
  | star => exact ⟨mul_works fixed other result, mul_works other fixed swapped⟩

def Overflows (t : Ty) (n : Int) : Prop :=
  if t.k = .fixedDec ∧ t.intBits = 128 then n ≤ -10 ^ 31 ∨ 10 ^ 31 ≤ n else ¬ Fits t.intBits n

instance (t : Ty) (n : Int) : Decidable (Overflows t n) := by
  unfold Overflows
  infer_instance

def slot (op : Op) (t : Ty) (o : Operand) : Int :=
  word t.intBits (arriving (workType op t o.ty) o.ty o.raw)

def Raises (op : Op) (t : Ty) (a b : Operand) : Prop :=
  ¬ Room (workType op t a.ty) a.ty (arriving (workType op t a.ty) a.ty a.raw) ∨
    ¬ Room (workType op t b.ty) b.ty (arriving (workType op t b.ty) b.ty b.raw) ∨
    Overflows t (op.onInt (slot op t a) (slot op t b))

instance (op : Op) (t : Ty) (a b : Operand) : Decidable (Raises op t a b) := by
  unfold Raises
  infer_instance

theorem workType_bits (op : Op) (t o : Ty) : (workType op t o).intBits = t.intBits := by
  cases op <;> rfl

theorem workType_kind (op : Op) (t o : Ty) : (workType op t o).k = t.k := by
  cases op <;> rfl

theorem checkedArith_checks (op : Op) (t : Ty) (x y : Int) :
    ((checkedArith op t x y).size = true ↔ Overflows t (op.onInt x y)) ∧
      (¬ Overflows t (op.onInt x y) → (checkedArith op t x y).raw = op.onInt x y) := by
  have some_bits := intBits_pos t
  unfold checkedArith Overflows
  generalize op.onInt x y = n
  dsimp only
  by_cases wide : t.k = .fixedDec ∧ t.intBits = 128
  · have limit : pliPow10_128 31 = 10 ^ 31 := pliPow10_128_eq (by omega)
    have lower : word 128 (-10 ^ 31) = -10 ^ 31 := word_of_fits (by omega) (by decide)
    have power : (10 : Int) ^ 31 < 2 ^ 127 := by norm_num
    rw [if_pos wide, if_pos wide, limit, lower, wide.2]
    by_cases fits : Fits 128 n
    · rw [word_of_fits (by omega) fits]
      simp only [fits, decide_true, Bool.not_true, Bool.or_false, Bool.or_eq_true,
        decide_eq_true_eq]
      exact ⟨by omega, fun _ => trivial⟩
    · have large : n ≤ -10 ^ 31 ∨ 10 ^ 31 ≤ n := by
        unfold Fits at fits
        omega
      simp only [fits, decide_false, Bool.not_false, Bool.or_true, true_iff]
      exact ⟨large, fun inside => absurd large inside⟩
  · rw [if_neg wide, if_neg wide]
    refine ⟨by simp, ?_⟩
    intro fits
    rw [not_not] at fits
    exact word_of_fits some_bits fits

variable {op : Op}

theorem emitArith_checks {a b : Operand} (result : resultType op a.ty b.ty = some t)
    (first : Arrives (workType op t a.ty) a.ty a.raw)
    (second : Arrives (workType op t b.ty) b.ty b.raw) :
    ∃ c, emitArith op a b = some c ∧ (c.size = true ↔ Raises op t a b) ∧
      (¬ Raises op t a b → c.raw = op.onInt (slot op t a) (slot op t b)) := by
  obtain ⟨x, convx, rawx, sizex⟩ := first
  obtain ⟨y, convy, rawy, sizey⟩ := second
  rw [workType_bits] at rawx rawy
  obtain ⟨size, exact_raw⟩ := checkedArith_checks op t (slot op t a) (slot op t b)
  refine ⟨_, by simp only [emitArith, result, Option.bind_some, convx, convy, Option.map_some]; rfl,
    ?_, ?_⟩
  · simp only [rawx, rawy, Bool.or_eq_true, sizex, sizey]
    unfold slot at size
    rw [size, or_assoc]
    rfl
  · intro quiet
    simp only [rawx, rawy]
    exact exact_raw fun overflows => quiet (Or.inr (Or.inr overflows))

/- What the integers are worth. -/
theorem base_kind {s : Ty} (same : s.k = t.k) : base s = base t := by
  unfold base
  rw [same]

theorem value_zero (ty : Ty) : value ty 0 = 0 := by simp [value]

theorem value_eq_zero_iff (ty : Ty) (n : Int) : value ty n = 0 ↔ n = 0 := by
  have positive : (base ty : ℚ) ≠ 0 := by exact_mod_cast (base_pos ty).ne'
  simp [value, zpow_ne_zero _ positive]

theorem value_rescaled {k : Nat} (same : base o = base w)
    (scale : w.scale = o.scale + k) (raw : Int) : value w (raw * base o ^ k) = value o raw := by
  have positive : (base w : ℚ) ≠ 0 := by exact_mod_cast (base_pos w).ne'
  unfold value
  rw [scale, same, neg_add, zpow_add₀ positive, zpow_neg _ (k : Int), zpow_natCast]
  push_cast
  field_simp

theorem value_onInt (result : resultType op a b = some t) (x y : Int) :
    value t (op.onInt x y) = op.onRat (value (workType op t a) x) (value (workType op t b) y) := by
  cases op with
  | plus | minus =>
    simp only [Op.onInt, Op.onRat, workType, value]
    push_cast
    ring
  | star =>
    have scale : t.scale = a.scale + b.scale := by
      simp only [resultType, mulResultType] at result
      split at result
      · cases result
      · cases result
        rfl
    have positive : (base t : ℚ) ≠ 0 := by exact_mod_cast (base_pos t).ne'
    have same : ∀ q, base { t with scale := q } = base t := fun _ => rfl
    simp only [Op.onInt, Op.onRat, workType, value, same, scale, neg_add, zpow_add₀ positive]
    push_cast
    ring

def Keeps (op : Op) (t : Ty) (o : Operand) : Prop :=
  match o.ty.k, t.k with
  | .fixedDec, .fixedBin =>
    value (workType op t o.ty) (arriving (workType op t o.ty) o.ty o.raw) = operandValue t o
  | .fixedBin, .fixedDec => o.ty.scale = 0 ∨ o.raw = 0
  | _, _ => True

theorem word_times_ten {k : Nat} (some_power : 0 < k)
    (same : word 128 n * 10 ^ k = n) : word 128 n = 0 := by
  have congruent := word_mod_eq 128 n
  have fits := word_fits (by omega : 0 < 128) n
  generalize word 128 n = m at same congruent fits
  rw [← same] at congruent
  have multiple : (2 : Int) ^ 128 ∣ m * (10 ^ k - 1) := by
    have parts : m * (10 ^ k - 1) = m * 10 ^ k - m := by ring
    rw [parts]
    exact Int.modEq_iff_dvd.mp congruent
  have odd : IsCoprime ((2 : Int) ^ 128) (10 ^ k - 1) := by
    apply IsCoprime.pow_left
    obtain ⟨j, rfl⟩ : ∃ j, k = j + 1 := ⟨k - 1, by omega⟩
    refine ⟨5 * 10 ^ j, -1, ?_⟩
    ring
  have divides := odd.dvd_of_dvd_mul_right multiple
  obtain ⟨c, times⟩ := divides
  unfold Fits at fits
  omega

theorem workType_scale (works : Works (workType op t o) o)
    (same : o.k = t.k) : o.scale ≤ (workType op t o).scale := by
  unfold Works at works
  rw [workType_kind, ← same] at works
  cases kind : o.k with
  | other => simp [kind] at works
  | fixedBin | fixedDec =>
    simp only [kind] at works
    exact works.1

theorem kept_same {o : Operand} (works : Works (workType op t o.ty) o.ty)
    (fixed : Fixed o.ty) (same : o.ty.k = t.k)
    (room : Room (workType op t o.ty) o.ty (arriving (workType op t o.ty) o.ty o.raw)) :
    value (workType op t o.ty) (slot op t o) = value o.ty o.raw := by
  have kind := workType_kind op t o.ty
  have up := workType_scale works same
  have based : base o.ty = base (workType op t o.ty) := base_kind (same.trans kind.symm)
  have fits : Fits t.intBits (arriving (workType op t o.ty) o.ty o.raw) := by
    have apart : ¬ (o.ty.k = .fixedBin ∧ (workType op t o.ty).k = .fixedDec) := by
      rintro ⟨binary, decimal⟩
      rw [kind, ← same, binary] at decimal
      cases decimal
    rw [Room, if_neg apart, workType_bits] at room
    exact room
  have arrived : arriving (workType op t o.ty) o.ty o.raw =
      o.raw * base o.ty ^ ((workType op t o.ty).scale - o.ty.scale).toNat := by
    unfold arriving base
    rw [kind, ← same]
    rcases fixed.1 with binary | decimal
    · simp [binary]
    · simp [decimal]
  rw [slot, word_of_fits (intBits_pos t) fits, arrived]
  apply value_rescaled based
  omega

theorem kept_in_decimal_iff {o : Operand}
    (works : Works (workType op t o.ty) o.ty) (held : Fits o.ty.intBits o.raw)
    (source : o.ty.k = .fixedBin) (target : t.k = .fixedDec) :
    value (workType op t o.ty) (slot op t o) = value o.ty o.raw ↔ o.ty.scale = 0 ∨ o.raw = 0 := by
  have kind := workType_kind op t o.ty
  simp only [Works, source, kind, target] at works
  obtain ⟨whole, scale, bits, -⟩ := works
  rw [workType_bits] at bits
  have kept : word 128 (o.raw * 2 ^ (-o.ty.scale).toNat) = slot op t o := by
    rw [slot, bits]
    simp only [arriving, source, kind, target]
    rw [word_word (by omega)]
  obtain ⟨k, power⟩ : ∃ k : Nat, o.ty.scale = -k := ⟨(-o.ty.scale).toNat, by omega⟩
  have steps : (-o.ty.scale).toNat = k := by omega
  rw [steps] at kept
  have worth : value o.ty o.raw = ((o.raw * 2 ^ k : Int) : ℚ) := by
    rw [value, base_binary source, power, neg_neg, zpow_natCast]
    push_cast
    rfl
  have worth' : value (workType op t o.ty) (slot op t o) = ((slot op t o * 10 ^ k : Int) : ℚ) := by
    rw [value, base_decimal (kind.trans target), scale, power, neg_neg, zpow_natCast]
    push_cast
    rfl
  rw [worth, worth', Int.cast_inj, ← kept, power]
  constructor
  · intro same
    rcases Nat.eq_zero_or_pos k with none_left | some_power
    · exact Or.inl (by omega)
    · have zero := word_times_ten some_power same
      rw [zero, zero_mul] at same
      rcases mul_eq_zero.mp same.symm with none_left | impossible
      · exact Or.inr none_left
      · have positive : (0 : Int) < 2 ^ k := by positivity
        omega
  · rintro (level | zero)
    · have none_left : k = 0 := by omega
      subst none_left
      simp only [pow_zero, mul_one]
      exact word_of_fits (by omega) (fits_mono (intBits_le o.ty) held)
    · rw [zero]
      simp [word]

theorem kept_iff {o : Operand} (works : Works (workType op t o.ty) o.ty)
    (fixed : Fixed o.ty) (held : Fits o.ty.intBits o.raw)
    (result : t.k = .fixedBin ∨ t.k = .fixedDec)
    (room : Room (workType op t o.ty) o.ty (arriving (workType op t o.ty) o.ty o.raw)) :
    value (workType op t o.ty) (slot op t o) = operandValue t o ↔ Keeps op t o := by
  unfold Keeps
  rcases fixed.1 with source | source
  · have plain : operandValue t o = value o.ty o.raw := by
      simp [operandValue, source]
    rcases result with target | target
    · simp only [source, target, iff_true, plain]
      exact kept_same works fixed (source.trans target.symm) room
    · simp only [source, target, plain]
      exact kept_in_decimal_iff works held source target
  · rcases result with target | target
    · simp only [source, target]
      have fits : Fits t.intBits (arriving (workType op t o.ty) o.ty o.raw) := by
        rw [Room, if_neg (by simp [source]), workType_bits] at room
        exact room
      rw [slot, word_of_fits (intBits_pos t) fits]
    · have plain : operandValue t o = value o.ty o.raw := by
        simp [operandValue, target]
      simp only [source, target, iff_true, plain]
      exact kept_same works fixed (source.trans target.symm) room

theorem result_kind (fixed : Fixed a) (other : Fixed b) (result : resultType op a b = some t) :
    (t.k = .fixedBin ∨ t.k = .fixedDec) ∧ (a.k = t.k ∨ b.k = t.k) := by
  have arith : ∀ t, arithResultType a b = t →
      (t.k = .fixedBin ∨ t.k = .fixedDec) ∧ (a.k = t.k ∨ b.k = t.k) := by
    rintro t rfl
    rcases fixed.1 with first | first
    · simp [arithResultType, bin, first]
    · rcases other.1 with second | second
      · simp [arithResultType, bin, first, second]
      · simp [arithResultType, first, second]
  cases op with
  | plus | minus => exact arith t (Option.some.inj result)
  | star =>
    have mixed : ∀ c d : Ty, c.k = .fixedBin → d.k = .fixedDec → mulResultType c d = some t →
        (t.k = .fixedBin ∨ t.k = .fixedDec) ∧ (c.k = t.k ∨ d.k = t.k) := by
      intro c d first second result
      by_cases float : 0 < c.scale
      · rw [mul_float first second float] at result
        cases result
      · by_cases fraction : 0 < d.scale
        · rw [mul_fraction first second (by omega) fraction] at result
          cases result
          simp [second]
        · rw [mul_whole first second (by omega) (by omega)] at result
          cases result
          simp [first]
    rcases fixed.1 with first | first
    · rcases other.1 with second | second
      · rw [resultType, mul_binary first second] at result
        cases result
        simp [first]
      · exact mixed a b first second result
    · rcases other.1 with second | second
      · rw [resultType, mulResultType_comm] at result
        obtain ⟨kind, one⟩ := mixed b a second first result
        exact ⟨kind, one.symm⟩
      · rw [resultType, mul_decimal first second] at result
        cases result
        simp [first]

theorem binary_result_prec (result : resultType op a b = some t)
    (binary : t.k = .fixedBin) : t.prec = if max a.intBits b.intBits = 64 then 63 else 31 := by
  have arith : ∀ t, arithResultType a b = t →
      t.prec = if max a.intBits b.intBits = 64 then 63 else 31 := by
    rintro t rfl
    unfold arithResultType
    dsimp only
    split <;> rfl
  cases op with
  | plus | minus => exact arith t (Option.some.inj result)
  | star =>
    simp only [resultType, mulResultType] at result
    split at result
    · cases result
    · have kind : (arithResultType a b).k = .fixedBin := by
        have t_kind := congrArg (Option.map (·.k)) result
        simp only [Option.map_some, Option.some.injEq, binary] at t_kind
        split at t_kind
        · cases t_kind
        · exact t_kind
      have mixed : ¬ (a.k = .fixedDec ∧ b.k = .fixedDec) := by
        intro both
        simp [arithResultType, both] at kind
      rw [if_neg mixed, Option.some.injEq] at result
      subst result
      exact arith (arithResultType a b) rfl

theorem narrower_iff (fixed : Fixed a) (other : Fixed b) (result : resultType op a b = some t) :
    (a.intBits ≤ t.intBits ∧ b.intBits ≤ t.intBits) ↔
      (t.k = .fixedBin → a.intBits ≠ 128 ∧ b.intBits ≠ 128) := by
  rcases (result_kind fixed other result).1 with binary | decimal
  · have prec := binary_result_prec result binary
    have word_bits : t.intBits = if t.prec ≤ 31 then 32 else 64 := by
      unfold Ty.intBits
      rw [binary]
    have bits : t.intBits = if max a.intBits b.intBits = 64 then 64 else 32 := by
      rw [word_bits, prec]
      split <;> rfl
    have first := slot_cases a
    have second := slot_cases b
    rw [bits]
    simp only [binary, true_implies]
    split <;> omega
  · have within : ∀ o, Works (workType op t o) o → Fixed o → o.intBits ≤ t.intBits := by
      intro o works kinds
      have kind := workType_kind op t o
      rw [← workType_bits op t o]
      rcases kinds.1 with source | source
      · simp only [Works, source, kind, decimal] at works
        rw [works.2.2.1]
        exact intBits_le o
      · simp only [Works, source, kind, decimal] at works
        exact works.2.1
    obtain ⟨first, second⟩ := works fixed other result
    simp only [decimal, reduceCtorEq, false_implies, iff_true]
    exact ⟨within a first fixed, within b second other⟩

def ArithHolds (op : Op) (a b : Operand) : Prop :=
  ∃ t, resultType op a.ty b.ty = some t ∧
    (t.k = .fixedBin → a.ty.intBits ≠ 128 ∧ b.ty.intBits ≠ 128) ∧
    (Raises op t a b ∨ Keeps op t a ∧ Keeps op t b ∨ op = .star ∧ (a.raw = 0 ∨ b.raw = 0))

def ConstantsFit (op : Op) (a b : Ty) : Prop :=
  ∀ t, resultType op a b = some t →
    ConstantsHold (workType op t a) a ∧ ConstantsHold (workType op t b) b

theorem slot_zero (op : Op) (t : Ty) {o : Operand} (zero : o.raw = 0) : slot op t o = 0 := by
  have word_zero : ∀ w, word w 0 = 0 := by
    intro w
    simp [word]
  unfold slot arriving
  rw [zero]
  split <;> simp [word_zero]

theorem operandValue_zero (t : Ty) {o : Operand} (zero : o.raw = 0) : operandValue t o = 0 := by
  have none_due : ∀ ty : Ty, required ty 0 = 0 := by
    intro ty
    have whole : (0 : ℚ) * (base ty : ℚ) ^ ty.scale = ((0 : Int) : ℚ) := by simp
    exact required_whole whole
  unfold operandValue
  rw [zero]
  split
  · rw [value_zero, none_due, value_zero]
  · exact value_zero _

variable {x y : ℚ}

theorem onRat_eq_iff {y' : ℚ} : op.onRat x y = op.onRat x y' ↔ y = y' ∨ op = .star ∧ x = 0 := by
  cases op with
  | plus | minus | star => simp [Op.onRat]

theorem onRat_eq_iff_left {x' : ℚ} :
    op.onRat x y = op.onRat x' y ↔ x = x' ∨ op = .star ∧ y = 0 := by
  cases op with
  | plus | minus | star => simp [Op.onRat]

theorem operandValue_plain {o : Operand} (same : o.ty.k = t.k) :
    operandValue t o = value o.ty o.raw := by
  rw [operandValue, if_neg]
  rintro ⟨binary, decimal, -⟩
  rw [same, binary] at decimal
  cases decimal

theorem keeps_plain {o : Operand} (same : o.ty.k = t.k) : Keeps op t o := by
  unfold Keeps
  rw [same]
  cases t.k <;> trivial

theorem exact_value_iff {a b : Operand} (first : a.Admitted)
    (second : b.Admitted) (result : resultType op a.ty b.ty = some t)
    (quiet : ¬ Raises op t a b) :
    value t (op.onInt (slot op t a) (slot op t b)) =
        op.onRat (operandValue t a) (operandValue t b) ↔
      Keeps op t a ∧ Keeps op t b ∨ op = .star ∧ (a.raw = 0 ∨ b.raw = 0) := by
  have fixed : Fixed a.ty := ⟨first.fixed, first.prec⟩
  have other : Fixed b.ty := ⟨second.fixed, second.prec⟩
  obtain ⟨works_a, works_b⟩ := works fixed other result
  obtain ⟨kinds, one⟩ := result_kind fixed other result
  have room_a : Room (workType op t a.ty) a.ty (arriving (workType op t a.ty) a.ty a.raw) := by
    by_contra tight
    exact quiet (Or.inl tight)
  have room_b : Room (workType op t b.ty) b.ty (arriving (workType op t b.ty) b.ty b.raw) := by
    by_contra tight
    exact quiet (Or.inr (Or.inl tight))
  have kept_a := kept_iff works_a fixed first.held kinds room_a
  have kept_b := kept_iff works_b other second.held kinds room_b
  rw [value_onInt result]
  rcases one with same | same
  · have plain : Keeps op t a := keeps_plain same
    rw [kept_a.mpr plain, onRat_eq_iff, kept_b, operandValue_plain same, value_eq_zero_iff]
    constructor
    · rintro (kept | ⟨star, zero⟩)
      · exact Or.inl ⟨plain, kept⟩
      · exact Or.inr ⟨star, Or.inl zero⟩
    · rintro (⟨-, kept⟩ | ⟨star, zero | zero⟩)
      · exact Or.inl kept
      · exact Or.inr ⟨star, zero⟩
      · exact Or.inl
          (kept_b.mp (by rw [slot_zero op t zero, value_zero, operandValue_zero t zero]))
  · have plain : Keeps op t b := keeps_plain same
    rw [kept_b.mpr plain, onRat_eq_iff_left, kept_a, operandValue_plain same, value_eq_zero_iff]
    constructor
    · rintro (kept | ⟨star, zero⟩)
      · exact Or.inl ⟨kept, plain⟩
      · exact Or.inr ⟨star, Or.inr zero⟩
    · rintro (⟨kept, -⟩ | ⟨star, zero | zero⟩)
      · exact Or.inl kept
      · exact Or.inl
          (kept_a.mp (by rw [slot_zero op t zero, value_zero, operandValue_zero t zero]))
      · exact Or.inr ⟨star, zero⟩

theorem arith_right_iff {a b : Operand} (first : a.Admitted) (second : b.Admitted)
    (constants : ConstantsFit op a.ty b.ty) : ArithRight op a b ↔ ArithHolds op a b := by
  have fixed : Fixed a.ty := ⟨first.fixed, first.prec⟩
  have other : Fixed b.ty := ⟨second.fixed, second.prec⟩
  unfold ArithRight ArithHolds
  cases result : resultType op a.ty b.ty with
  | none => simp
  | some t =>
    obtain ⟨works_a, works_b⟩ := works fixed other result
    obtain ⟨fit_a, fit_b⟩ := constants t result
    obtain ⟨c, emitted, size, raw⟩ := emitArith_checks result
      (arrives first.held works_a fit_a) (arrives second.held works_b fit_b)
    have cut := narrower_iff fixed other result
    constructor
    · rintro ⟨t', c', found, same, narrow_a, narrow_b, right⟩
      rw [Option.some.injEq] at found
      subst found
      rw [emitted, Option.some.injEq] at same
      subst same
      refine ⟨t, rfl, cut.mp ⟨narrow_a, narrow_b⟩, ?_⟩
      by_cases raises : Raises op t a b
      · exact Or.inl raises
      · rcases right with raised | exactly
        · exact absurd (size.mp raised) raises
        · rw [raw raises] at exactly
          exact Or.inr ((exact_value_iff first second result raises).mp exactly)
    · rintro ⟨t', found, narrow, right⟩
      rw [Option.some.injEq] at found
      subst found
      obtain ⟨narrow_a, narrow_b⟩ := cut.mpr narrow
      refine ⟨t, c, rfl, emitted, narrow_a, narrow_b, ?_⟩
      by_cases raises : Raises op t a b
      · exact Or.inl (size.mpr raises)
      · rcases right with raised | kept
        · exact absurd raised raises
        · rw [raw raises]
          exact Or.inr ((exact_value_iff first second result raises).mpr kept)

def Ordered (m n : Int) (x y : ℚ) : Prop := (m < n ↔ x < y) ∧ (m = n ↔ x = y)

/-- How often an integer goes round a word of so many bits. -/
def laps (bits : Nat) (n : Int) : Int := (n + 2 ^ (bits - 1)) / 2 ^ bits

/-- What a right comparison takes. Where the operands fit the common word, a DECIMAL that is cut
    off in BINARY must stay on its side of the other operand; where one does not, its lead over
    the other must outlast the laps between them. -/
def CompareHolds (a b : Operand) : Prop :=
  let t := arithResultType a.ty b.ty
  let m := arriving t a.ty a.raw
  let n := arriving t b.ty b.raw
  if Fits t.intBits m ∧ Fits t.intBits n then
    a.ty.k = b.ty.k ∨ value t m = value a.ty a.raw ∧ value t n = value b.ty b.raw ∨
      m < n ∧ value a.ty a.raw < value b.ty b.raw ∨ n < m ∧ value b.ty b.raw < value a.ty a.raw
  else
    let between := 2 ^ t.intBits * (laps t.intBits n - laps t.intBits m)
    value a.ty a.raw < value b.ty b.raw ∧ between < n - m ∨
      value a.ty a.raw = value b.ty b.raw ∧ between = n - m ∨
      value b.ty b.raw < value a.ty a.raw ∧ n - m < between

theorem value_lt_iff (ty : Ty) (m n : Int) : value ty m < value ty n ↔ m < n := by
  have positive : (0 : ℚ) < (base ty : ℚ) ^ (-ty.scale) := by
    have based : (0 : ℚ) < base ty := by exact_mod_cast base_pos ty
    positivity
  rw [value, value, mul_lt_mul_iff_left₀ positive]
  exact_mod_cast Iff.rfl

theorem value_injective (ty : Ty) {m n : Int} : value ty m = value ty n ↔ m = n := by
  constructor
  · intro same
    rcases lt_trichotomy m n with below | level | above
    · exact absurd same ((value_lt_iff ty m n).mpr below).ne
    · exact level
    · exact absurd same ((value_lt_iff ty n m).mpr above).ne'
  · rintro rfl
    rfl

theorem icmp_iff_ordered {m : Int} :
    (∀ rel : Rel, (rel.icmp m n = true ↔ rel.Holds x y)) ↔ Ordered m n x y := by
  constructor
  · intro all
    have less := all .lt
    have same := all .eq
    simp only [Rel.icmp, Rel.Holds, decide_eq_true_eq] at less same
    exact ⟨less, same⟩
  · rintro ⟨less, same⟩ rel
    have at_most : m ≤ n ↔ x ≤ y := by
      rw [le_iff_lt_or_eq, le_iff_lt_or_eq, less, same]
    have more : n < m ↔ y < x := by
      rw [← not_le, ← not_le, at_most]
    have at_least : n ≤ m ↔ y ≤ x := by
      rw [← not_lt, ← not_lt, less]
    cases rel with
    | eq => simpa [Rel.icmp, Rel.Holds] using same
    | ne => simp [Rel.icmp, Rel.Holds, same]
    | lt => simpa [Rel.icmp, Rel.Holds] using less
    | le => simpa [Rel.icmp, Rel.Holds] using at_most
    | gt => simpa [Rel.icmp, Rel.Holds] using more
    | ge => simpa [Rel.icmp, Rel.Holds] using at_least
    | ngt => simpa [Rel.icmp, Rel.Holds] using at_most
    | nlt => simpa [Rel.icmp, Rel.Holds] using at_least

theorem compare_right_ordered {a b : Operand} (first : a.Admitted) (second : b.Admitted)
    (constants : ConstantsFit .plus a.ty b.ty) :
    CompareRight a b ↔
      Ordered (slot .plus (arithResultType a.ty b.ty) a) (slot .plus (arithResultType a.ty b.ty) b)
        (value a.ty a.raw) (value b.ty b.raw) := by
  obtain ⟨works_a, works_b⟩ := @works .plus _ _ _ ⟨first.fixed, first.prec⟩
    ⟨second.fixed, second.prec⟩ rfl
  obtain ⟨fit_a, fit_b⟩ := constants _ rfl
  obtain ⟨x, convx, rawx, -⟩ := arrives first.held works_a fit_a
  obtain ⟨y, convy, rawy, -⟩ := arrives second.held works_b fit_b
  have emitted : ∀ rel, emitCompare rel a b =
      some (rel.icmp (slot .plus (arithResultType a.ty b.ty) a)
        (slot .plus (arithResultType a.ty b.ty) b)) := by
    intro rel
    unfold emitCompare
    dsimp only
    rw [workType] at convx convy rawx rawy
    rw [convx, convy, Option.bind_some, Option.map_some, rawx, rawy]
    rfl
  rw [← icmp_iff_ordered]
  unfold CompareRight
  simp only [emitted, Option.some.injEq, exists_eq_left']

theorem ordered_iff {m : Int} (one : value t m = x ∨ value t n = y) :
    Ordered m n x y ↔ value t m = x ∧ value t n = y ∨ m < n ∧ x < y ∨ n < m ∧ y < x := by
  constructor
  · rintro ⟨less, same⟩
    rcases lt_trichotomy m n with below | level | above
    · exact Or.inr (Or.inl ⟨below, less.mp below⟩)
    · have equal := same.mp level
      rcases one with whole | whole
      · exact Or.inl ⟨whole, by rw [← level, whole, equal]⟩
      · exact Or.inl ⟨by rw [level, whole, equal], whole⟩
    · refine Or.inr (Or.inr ⟨above, ?_⟩)
      have not_less : ¬ x < y := fun h => absurd (less.mpr h) (by omega)
      have apart : x ≠ y := fun h => absurd (same.mpr h) (by omega)
      exact lt_of_le_of_ne (not_lt.mp not_less) apart.symm
  · rintro (⟨rfl, rfl⟩ | ⟨below, less⟩ | ⟨above, more⟩)
    · exact ⟨(value_lt_iff t m n).symm, (value_injective t).symm⟩
    · exact ⟨iff_of_true below less, iff_of_false below.ne less.ne⟩
    · exact ⟨iff_of_false (by omega) (not_lt.mpr more.le), iff_of_false above.ne' more.ne'⟩

theorem word_laps {w : Nat} (pos : 0 < w) (n : Int) : word w n = n - 2 ^ w * laps w n := by
  have half : (2 : Int) ^ w = 2 ^ (w - 1) * 2 := by
    rw [← pow_succ]
    congr 1
    omega
  have positive : (0 : Int) < 2 ^ w := by positivity
  have split := Int.emod_add_mul_ediv (n + 2 ^ (w - 1)) (2 ^ w)
  have low := Int.emod_nonneg (n + 2 ^ (w - 1)) positive.ne'
  have high := Int.emod_lt_of_pos (n + 2 ^ (w - 1)) positive
  have fits : Fits w (n - 2 ^ w * laps w n) := by
    unfold Fits laps
    omega
  rw [← word_of_fits pos fits, word_eq_iff, Int.modEq_iff_dvd]
  exact ⟨-laps w n, by ring⟩

theorem ordered_laps {w : Nat} (pos : 0 < w) {m : Int} :
    Ordered (word w m) (word w n) x y ↔
      x < y ∧ 2 ^ w * (laps w n - laps w m) < n - m ∨
        x = y ∧ 2 ^ w * (laps w n - laps w m) = n - m ∨
        y < x ∧ n - m < 2 ^ w * (laps w n - laps w m) := by
  rw [word_laps pos, word_laps pos, Ordered, mul_sub]
  obtain ⟨i, lap_m⟩ : ∃ i, i = 2 ^ w * laps w m := ⟨_, rfl⟩
  obtain ⟨j, lap_n⟩ : ∃ j, j = 2 ^ w * laps w n := ⟨_, rfl⟩
  rw [← lap_m, ← lap_n]
  rcases lt_trichotomy x y with less | same | more
  · simp only [less, less.ne, less.not_gt, iff_true, iff_false, true_and, false_and, or_false]
    omega
  · simp only [same, lt_irrefl, iff_true, iff_false, true_and, false_and, or_false, false_or]
    omega
  · simp only [more, more.ne', more.not_gt, iff_false, true_and, false_and, false_or]
    omega

theorem compare_right_iff {a b : Operand} (first : a.Admitted) (second : b.Admitted)
    (constants : ConstantsFit .plus a.ty b.ty) : CompareRight a b ↔ CompareHolds a b := by
  have fixed : Fixed a.ty := ⟨first.fixed, first.prec⟩
  have other : Fixed b.ty := ⟨second.fixed, second.prec⟩
  have result : resultType .plus a.ty b.ty = some (arithResultType a.ty b.ty) := rfl
  obtain ⟨works_a, works_b⟩ := works fixed other result
  obtain ⟨kinds, one⟩ := result_kind fixed other result
  rw [compare_right_ordered first second constants]
  unfold CompareHolds
  dsimp only
  split
  · rename_i fits
    have kept : ∀ o : Operand, Works (workType .plus (arithResultType a.ty b.ty) o.ty) o.ty →
        Fixed o.ty → Fits (arithResultType a.ty b.ty).intBits
          (arriving (arithResultType a.ty b.ty) o.ty o.raw) →
        o.ty.k = (arithResultType a.ty b.ty).k →
        value (arithResultType a.ty b.ty) (arriving (arithResultType a.ty b.ty) o.ty o.raw) =
          value o.ty o.raw := by
      intro o works_o fixed_o fits_o same
      have apart : ¬ (o.ty.k = .fixedBin ∧ (arithResultType a.ty b.ty).k = .fixedDec) := by
        rw [same]
        rintro ⟨binary, decimal⟩
        rw [binary] at decimal
        cases decimal
      have arrived := kept_same works_o fixed_o same (by
        rw [Room, if_neg (by rwa [workType_kind])]
        exact fits_o)
      rwa [slot, workType, word_of_fits (intBits_pos _) fits_o] at arrived
    have kept_a := kept a works_a fixed fits.1
    have kept_b := kept b works_b other fits.2
    rw [slot, slot, workType, workType, word_of_fits (intBits_pos _) fits.1,
      word_of_fits (intBits_pos _) fits.2, ordered_iff (one.imp kept_a kept_b)]
    constructor
    · exact Or.inr
    · rintro (same | ordered)
      · rcases one with first_kind | second_kind
        · exact Or.inl ⟨kept_a first_kind, kept_b (same ▸ first_kind)⟩
        · exact Or.inl ⟨kept_a (same.trans second_kind), kept_b second_kind⟩
      · exact ordered
  · rw [slot, slot, workType, workType]
    exact ordered_laps (intBits_pos _)

end PliFixedArith
