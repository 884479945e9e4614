import PliLlvm.Compiler.FixedArithExact

/- FIXED division (src/sema.cpp, divResultType; src/irgen.cpp, emitExpr), with SIZE and
   FIXEDOVERFLOW enabled. Two DECIMAL operands divide in i128 with 31 digits, every other pair in
   i64 with 63 bits, a DECIMAL of a mixed pair in its binary view. The conversion of a source of
   more than 38 fraction digits goes through FLOAT; what it leaves is a parameter. -/
namespace PliFixedDivision
open FixedPoint PliFixedConvert PliFixedArith
open PliConstFold hiding value

def decToBinDigits (p : Int) : Int := min 63 (1 + (p * 83 + 24) / 25)

section Types
variable (a b : Ty)

abbrev BothDec : Prop := a.k = .fixedDec ∧ b.k = .fixedDec

def maxP : Int := if BothDec a b then 31 else 63

def operandScale (o other : Ty) : Int :=
  if o.k = .fixedDec ∧ other.k ≠ .fixedDec then min 62 (decToBinScale o.scale) else o.scale

def dividendDigits : Int :=
  if a.k = .fixedDec ∧ b.k ≠ .fixedDec then decToBinDigits a.prec else a.prec

def quotientScale : Int := maxP a b - dividendDigits a b + operandScale a b - operandScale b a

def divResultType : Ty :=
  if BothDec a b then Ty.fixedDec 31 (max (quotientScale a b) 0)
  else bin 63 (max (quotientScale a b) 0)

def operandType (o other : Ty) : Ty :=
  if BothDec o other then Ty.fixedDec 31 o.scale
  else if o.k = .fixedDec then bin (decToBinDigits o.prec) (operandScale o other)
  else bin 63 o.scale

def wordBits : Nat := if BothDec a b then 128 else 64

def power (k : Int) : Int := if BothDec a b then pliPow10_128 k else oneShl k

inductive Division where
  | zerodivide
  | undefined
  | result (c : Converted)
  deriving DecidableEq

def numerator (x : Int) : Int :=
  if 0 < maxP a b - dividendDigits a b then
    word (wordBits a b) (x * power a b (maxP a b - dividendDigits a b))
  else x

def scaledUp (k qv : Int) : Converted :=
  if BothDec a b then checkedArith .star (Ty.fixedDec 31 0) qv (pliPow10_128 k)
  else
    let c := fixedBinPrecTrap 128 (word 128 (qv * oneShl k)) 63
    ⟨word 64 c.raw, c.size⟩

def slash (x y : Int) : Division :=
  if y = 0 then .zerodivide
  else if numerator a b x = -2 ^ (wordBits a b - 1) ∧ y = -1 then .undefined
  else
    let qv := (numerator a b x).tdiv y
    .result (if quotientScale a b < 0 then scaledUp a b (-quotientScale a b) qv else ⟨qv, false⟩)

end Types

section Code
variable (viaFloat : Ty → Ty → Int → Converted)

def convertOperand (src dst : Ty) (raw : Int) : Option Converted :=
  if throughFloat src dst then
    let c := viaFloat src dst raw
    let t := fixedBinPrecTrap dst.intBits (word dst.intBits c.raw) dst.prec
    some ⟨t.raw, c.size || t.size⟩
  else convert src dst raw

def Division.sizes (d : Division) (size : Bool) : Division :=
  match d with
  | .result c => .result ⟨c.raw, size || c.size⟩
  | .zerodivide => .zerodivide
  | .undefined => .undefined

def emitSlash (a b : Operand) : Option Division :=
  (convertOperand viaFloat a.ty (operandType a.ty b.ty) a.raw).bind fun x =>
    (convertOperand viaFloat b.ty (operandType b.ty a.ty) b.raw).map fun y =>
      (slash a.ty b.ty x.raw y.raw).sizes (x.size || y.size)

end Code

/- What a division is for. -/

def quotientBase (a b : Ty) : Nat := if BothDec a b then 10 else 2

/-- The truncated quotient of the operands' values at the scale of the formula, and at scale 0
    where that is negative. -/
def quotientNumber (a b : Ty) (x y : Int) : Int :=
  truncate (value (operandType a b) x / value (operandType b a) y *
    (quotientBase a b : ℚ) ^ quotientScale a b) * quotientBase a b ^ (-quotientScale a b).toNat

def DivisionExact (viaFloat : Ty → Ty → Int → Converted) (a b : Operand) : Prop :=
  ∃ x y c, convertOperand viaFloat a.ty (operandType a.ty b.ty) a.raw = some x ∧
    convertOperand viaFloat b.ty (operandType b.ty a.ty) b.raw = some y ∧
    emitSlash viaFloat a b = some (.result c) ∧
    ExactAt (divResultType a.ty b.ty) (quotientNumber a.ty b.ty x.raw y.raw) c

section Scales
variable {a b : Ty}

theorem operandType_scale (first : a.k = .fixedBin ∨ a.k = .fixedDec)
    (second : b.k = .fixedBin ∨ b.k = .fixedDec) :
    (operandType a b).scale = operandScale a b := by
  rcases first with one | one <;> rcases second with other | other <;>
    simp [operandType, operandScale, BothDec, bin, Ty.fixedDec, one, other]

theorem operandType_base (first : a.k = .fixedBin ∨ a.k = .fixedDec)
    (second : b.k = .fixedBin ∨ b.k = .fixedDec) :
    base (operandType a b) = quotientBase a b ∧ base (operandType b a) = quotientBase a b := by
  rcases first with one | one <;> rcases second with other | other <;>
    simp [operandType, base, quotientBase, BothDec, bin, Ty.fixedDec, one, other]

theorem quotientBase_pos (a b : Ty) : 2 ≤ quotientBase a b := by
  unfold quotientBase
  split <;> omega

theorem quotientNumber_eq (first : a.k = .fixedBin ∨ a.k = .fixedDec)
    (second : b.k = .fixedBin ∨ b.k = .fixedDec) (x : Int) {y : Int} (some_divisor : y ≠ 0) :
    quotientNumber a b x y =
      ((x * quotientBase a b ^ (maxP a b - dividendDigits a b).toNat).tdiv y).tdiv
          (quotientBase a b ^ (dividendDigits a b - maxP a b).toNat : Nat) *
        quotientBase a b ^ (-quotientScale a b).toNat := by
  have two := quotientBase_pos a b
  have nonzero : (quotientBase a b : ℚ) ≠ 0 := by exact_mod_cast (by omega : quotientBase a b ≠ 0)
  have divisor : (y : ℚ) ≠ 0 := by exact_mod_cast some_divisor
  have drop : y * (quotientBase a b ^ (dividendDigits a b - maxP a b).toNat : Nat) ≠ 0 := by
    have := Nat.pow_pos (n := (dividendDigits a b - maxP a b).toNat)
      (show 0 < quotientBase a b by omega)
    exact Int.mul_ne_zero some_divisor (by omega)
  have ratio : value (operandType a b) x / value (operandType b a) y *
      (quotientBase a b : ℚ) ^ quotientScale a b =
      ((x * quotientBase a b ^ (maxP a b - dividendDigits a b).toNat : Int) : ℚ) /
        ((y * (quotientBase a b ^ (dividendDigits a b - maxP a b).toNat : Nat) : Int) : ℚ) := by
    obtain ⟨base_a, base_b⟩ := operandType_base first second
    have digits := zpow_parts nonzero (maxP a b - dividendDigits a b)
    have flipped : -(maxP a b - dividendDigits a b) = dividendDigits a b - maxP a b := by omega
    rw [flipped] at digits
    have scale : (quotientBase a b : ℚ) ^ quotientScale a b =
        (quotientBase a b : ℚ) ^ (maxP a b - dividendDigits a b) *
          (quotientBase a b : ℚ) ^ operandScale a b * (quotientBase a b : ℚ) ^
          (-operandScale b a) := by
      rw [← zpow_add₀ nonzero, ← zpow_add₀ nonzero]
      rfl
    rw [value, value, base_a, base_b, operandType_scale first second,
      operandType_scale second first,
      scale, digits]
    push_cast
    rw [zpow_neg, zpow_neg]
    field_simp
  rw [quotientNumber, ratio, truncate_quotient _ drop, tdiv_mul_natCast]

end Scales

theorem decToBinDigits_range {p : Int} (some_prec : 0 < p) :
    1 ≤ decToBinDigits p ∧ decToBinDigits p ≤ 63 := by
  unfold decToBinDigits
  omega

theorem trap_range {bits : Nat} {v prec : Int} (some_prec : 0 < prec)
    (fits : Fits bits v) : Fits (prec.toNat + 1) (fixedBinPrecTrap bits v prec).raw := by
  unfold fixedBinPrecTrap
  split
  · rename_i full
    exact fits_mono (by omega) fits
  · dsimp only
    split
    · exact word_fits (by omega) v
    · unfold Fits
      rw [Nat.add_sub_cancel]
      dsimp only
      omega

section Operands
variable {viaFloat : Ty → Ty → Int → Converted}

theorem plain_operand {o other : Ty} {raw : Int} (held : Fits o.intBits raw)
    (plain : BothDec o other ∨ o.k = .fixedBin) :
    convertOperand viaFloat o (operandType o other) raw = some ⟨raw, false⟩ := by
  rcases plain with both | binary
  · have target : operandType o other = Ty.fixedDec 31 o.scale := if_pos both
    have direct : throughFloat o (Ty.fixedDec 31 o.scale) = false := by
      simp [throughFloat, both.1, Ty.fixedDec]
    have kept : fitFixed (Ty.fixedDec 31 o.scale) raw = raw :=
      word_of_fits (intBits_pos _) (fits_mono (intBits_le o) held)
    rw [target, convertOperand, direct]
    simp only [Bool.false_eq_true, if_false, convert, direct, both.1]
    change some (decToDec o (Ty.fixedDec 31 o.scale) raw) = _
    have level : (Ty.fixedDec 31 o.scale).scale - o.scale = 0 := Int.sub_self _
    simp only [decToDec, level, Int.lt_irrefl, if_false, checkDec, kept]
    simp [needDec, Ty.fixedDec]
  · have target : operandType o other = bin 63 o.scale := by
      rw [operandType, if_neg (by simp [BothDec, binary]), if_neg (by simp [binary])]
    have direct : throughFloat o (bin 63 o.scale) = false := by
      simp [throughFloat, binary, bin]
    have slot := binary_word binary
    have kept : fitFixed (bin 63 o.scale) raw = raw :=
      word_of_fits (intBits_pos _) (fits_mono slot held)
    rw [target, convertOperand, direct]
    simp only [Bool.false_eq_true, if_false, convert, direct, binary]
    change some (binToBin o (bin 63 o.scale) raw) = _
    have level : (bin 63 o.scale).scale - o.scale = 0 := Int.sub_self _
    have full : (bin 63 o.scale).prec ≤ 0 ∨ (o.intBits : Int) - 1 ≤ (bin 63 o.scale).prec := by
      right
      change (o.intBits : Int) - 1 ≤ 63
      omega
    simp only [binToBin, level, if_true, checkBin, fixedBinPrecTrap, if_pos full, kept]

theorem decToBin_range {src : Ty} {p q raw : Int} (held : Fits src.intBits raw) (some_prec : 0 < p)
    (prec : p ≤ 63) : Fits (p.toNat + 1) (decToBin src (bin p q) raw).raw := by
  have slot : p.toNat + 1 ≤ (bin p q).intBits := by
    unfold Ty.intBits bin
    dsimp only
    split <;> omega
  have checked {bits : Nat} {r : Int} (fits : Fits bits r) :
      Fits (p.toNat + 1) (checkBin bits (bin p q) r).raw := by
    have inside := trap_range some_prec fits
    change Fits (p.toNat + 1) (word (bin p q).intBits (fixedBinPrecTrap bits r p).raw)
    rw [word_of_fits (by omega) (fits_mono slot inside)]
    exact inside
  unfold decToBin
  split
  · rename_i wide
    refine checked ?_
    have own : Fits 256 raw := fits_mono (by omega) held
    unfold decToBinWide
    dsimp only
    split
    · exact word_fits (by decide) _
    · split
      · exact word_fits (by decide) _
      · split
        · exact word_fits (by decide) _
        · exact own
  · refine checked ?_
    have own : Fits 128 raw := fits_mono (intBits_le src) held
    unfold decToBinNarrow
    dsimp only
    split
    · exact word_fits (by decide) _
    · split
      · exact word_fits (by decide) _
      · split
        · exact word_fits (by decide) _
        · split
          · exact word_fits (by decide) _
          · exact own

theorem mixed_operand {o other : Ty} {raw : Int} (held : Fits o.intBits raw)
    (some_prec : 0 < o.prec)
    (decimal : o.k = .fixedDec) (mixed : other.k = .fixedBin) :
    ∃ c, convertOperand viaFloat o (operandType o other) raw = some c ∧
      Fits ((decToBinDigits o.prec).toNat + 1) c.raw := by
  have target : operandType o other = bin (decToBinDigits o.prec) (operandScale o other) := by
    rw [operandType, if_neg (by simp [BothDec, mixed]), if_pos decimal]
  obtain ⟨low, high⟩ := decToBinDigits_range some_prec
  rw [target]
  generalize operandScale o other = q
  cases direct : throughFloat o (bin (decToBinDigits o.prec) q) with
  | true =>
    refine ⟨_, by rw [convertOperand, direct, if_pos rfl], ?_⟩
    exact trap_range (by omega) (word_fits (intBits_pos _) _)
  | false =>
    have done : convertOperand viaFloat o (bin (decToBinDigits o.prec) q) raw =
        some (decToBin o (bin (decToBinDigits o.prec) q) raw) := by
      rw [convertOperand, direct]
      simp only [Bool.false_eq_true, if_false, convert, direct, decimal]
      rfl
    exact ⟨_, done, decToBin_range held (by omega) high⟩

end Operands

section Slash
variable {a b : Ty}

def Ranged (a b : Ty) (x : Int) : Prop :=
  (if BothDec a b then -10 ^ (dividendDigits a b).toNat < x ∧ x < 10 ^ (dividendDigits a b).toNat
    else Fits ((dividendDigits a b).toNat + 1) x) ∧ Fits (wordBits a b) x

def scaledDividend (a b : Ty) (x : Int) : Int :=
  x * quotientBase a b ^ (maxP a b - dividendDigits a b).toNat

/-- When a quotient is exact: the divisor is not 0, the quotient is in its word, and the quotient
    is 0, or the dividend has no more digits than the maximum and the scaling power is in its
    word; past these, where the number is beyond the maximum and so is the product with the
    power's word, or where both are 0. -/
def SlashFits (a b : Ty) (x y : Int) : Prop :=
  y ≠ 0 ∧ ¬(scaledDividend a b x = -2 ^ (wordBits a b - 1) ∧ y = -1) ∧
    ((scaledDividend a b x).tdiv y = 0 ∨
      (dividendDigits a b ≤ maxP a b ∧ -quotientScale a b ≤ if BothDec a b then 38 else 62) ∨
      (quotientScale a b < 0 ∧ ¬InRange (divResultType a b) (quotientNumber a b x y) ∧
        ¬InRange (divResultType a b)
          ((scaledDividend a b x).tdiv y * power a b (-quotientScale a b))) ∨
      (quotientScale a b < 0 ∧ quotientNumber a b x y = 0 ∧ power a b (-quotientScale a b) = 0))

theorem inRange_result (n : Int) :
    InRange (divResultType a b) n ↔
      if BothDec a b then -10 ^ 31 < n ∧ n < 10 ^ 31 else Fits 64 n := by
  by_cases both : BothDec a b
  · simp only [divResultType, if_pos both, InRange, Ty.fixedDec]
    exact Iff.rfl
  · simp only [divResultType, if_neg both, InRange, bin, if_true]
    exact Iff.rfl

theorem inRange_zero : InRange (divResultType a b) 0 := by
  rw [inRange_result]
  split <;> decide

theorem numerator_exact {x : Int} (some_digits : 0 < dividendDigits a b) (ranged : Ranged a b x) :
    numerator a b x = scaledDividend a b x ∧
      (dividendDigits a b ≤ maxP a b → InRange (divResultType a b) (scaledDividend a b x)) := by
  obtain ⟨digits, held⟩ := ranged
  rw [inRange_result]
  unfold numerator scaledDividend
  by_cases both : BothDec a b
  · have top : maxP a b = 31 := if_pos both
    have ten : quotientBase a b = 10 := if_pos both
    have width : wordBits a b = 128 := if_pos both
    rw [if_pos both] at digits
    rw [if_pos both, top, ten, width]
    push_cast
    have range : dividendDigits a b ≤ 31 →
        -10 ^ 31 < x * (10 : Int) ^ (31 - dividendDigits a b).toNat ∧
          x * (10 : Int) ^ (31 - dividendDigits a b).toNat < 10 ^ 31 := by
      intro short
      have whole : (10 : Int) ^ 31 =
          10 ^ (dividendDigits a b).toNat * 10 ^ (31 - dividendDigits a b).toNat := by
        rw [← pow_add]
        congr 1
        omega
      have positive : (0 : Int) < 10 ^ (31 - dividendDigits a b).toNat := by positivity
      rw [whole, ← Int.neg_mul]
      exact ⟨Int.mul_lt_mul_of_pos_right digits.1 positive,
        Int.mul_lt_mul_of_pos_right digits.2 positive⟩
    refine ⟨?_, range⟩
    split
    · obtain ⟨low, high⟩ := range (by omega)
      rw [power, if_pos both, pliPow10_128_eq (by omega)]
      refine word_of_fits (by decide) ⟨?_, ?_⟩
      · exact le_trans (by norm_num) low.le
      · exact lt_trans high (by norm_num)
    · rw [show (31 - dividendDigits a b).toNat = 0 by omega, pow_zero, mul_one]
  · have top : maxP a b = 63 := if_neg both
    have two : quotientBase a b = 2 := if_neg both
    have width : wordBits a b = 64 := if_neg both
    rw [if_neg both] at digits
    rw [if_neg both, top, two, width]
    push_cast
    have range : dividendDigits a b ≤ 63 →
        Fits 64 (x * (2 : Int) ^ (63 - dividendDigits a b).toNat) := by
      intro short
      have whole : (2 : Int) ^ 63 =
          2 ^ (dividendDigits a b).toNat * 2 ^ (63 - dividendDigits a b).toNat := by
        rw [← pow_add]
        congr 1
        omega
      have positive : (0 : Int) < 2 ^ (63 - dividendDigits a b).toNat := by positivity
      obtain ⟨low, high⟩ := digits
      rw [Nat.add_sub_cancel] at low high
      change -2 ^ 63 ≤ _ ∧ _ < 2 ^ 63
      rw [whole, ← Int.neg_mul]
      exact ⟨Int.mul_le_mul_of_nonneg_right low positive.le,
        Int.mul_lt_mul_of_pos_right high positive⟩
    refine ⟨?_, range⟩
    split
    · rw [power, if_neg both, oneShl_eq (by omega)]
      exact word_of_fits (by decide) (range (by omega))
    · rw [show (63 - dividendDigits a b).toNat = 0 by omega, pow_zero, mul_one]

theorem scaledUp_checks {qv : Int} (k : Int) (small : ¬BothDec a b → Fits 64 qv) :
    ((scaledUp a b k qv).size = true ↔ ¬InRange (divResultType a b) (qv * power a b k)) ∧
      (InRange (divResultType a b) (qv * power a b k) →
        (scaledUp a b k qv).raw = qv * power a b k) := by
  rw [inRange_result, scaledUp, power]
  by_cases both : BothDec a b
  · simp only [if_pos both]
    obtain ⟨size, raw⟩ := checkedArith_checks .star (Ty.fixedDec 31 0) qv (pliPow10_128 k)
    have beyond (n : Int) : Overflows (Ty.fixedDec 31 0) n ↔ ¬(-10 ^ 31 < n ∧ n < 10 ^ 31) := by
      rw [Overflows, if_pos ⟨rfl, by decide⟩]
      omega
    rw [beyond] at size raw
    exact ⟨size, fun inside => raw (not_not_intro inside)⟩
  · simp only [if_neg both]
    have narrow := small both
    have constant : Fits 64 (oneShl k) := word_fits (by decide) _
    have product : Fits 128 (qv * oneShl k) := by
      unfold Fits at narrow constant ⊢
      have bound : |qv * oneShl k| ≤ 2 ^ 63 * 2 ^ 63 := by
        rw [abs_mul]
        exact mul_le_mul (abs_le.mpr ⟨narrow.1, by omega⟩) (abs_le.mpr ⟨constant.1, by omega⟩)
          (abs_nonneg _) (by positivity)
      obtain ⟨low, high⟩ := abs_le.mp bound
      omega
    rw [word_of_fits (by decide) product, fixedBinPrecTrap, if_neg (by omega)]
    change (Converted.size (if 2 ^ 63 ≤ qv * oneShl k ∨ qv * oneShl k < -2 ^ 63 then _ else _) =
      true ↔ _) ∧
      (_ → word 64 (Converted.raw (if 2 ^ 63 ≤ qv * oneShl k ∨
        qv * oneShl k < -2 ^ 63 then _ else _)) = _)
    by_cases beyond : 2 ^ 63 ≤ qv * oneShl k ∨ qv * oneShl k < -2 ^ 63
    · rw [if_pos beyond]
      have outside : ¬Fits 64 (qv * oneShl k) := by
        unfold Fits
        omega
      exact ⟨iff_of_true rfl outside, fun inside => absurd inside outside⟩
    · rw [if_neg beyond]
      have inside : Fits 64 (qv * oneShl k) := ⟨by omega, by omega⟩
      exact ⟨iff_of_false (by simp) (not_not_intro inside), word_of_fits (by decide)⟩

theorem quotient_word {x y : Int} (ranged : Ranged a b x)
    (narrow : dividendDigits a b ≤ maxP a b → InRange (divResultType a b) (scaledDividend a b x))
    (some_divisor : y ≠ 0)
    (small : ¬(scaledDividend a b x = -2 ^ (wordBits a b - 1) ∧ y = -1)) :
    (¬BothDec a b → Fits 64 ((scaledDividend a b x).tdiv y)) ∧
      (dividendDigits a b ≤ maxP a b →
        InRange (divResultType a b) ((scaledDividend a b x).tdiv y)) := by
  simp only [inRange_result] at narrow ⊢
  by_cases both : BothDec a b
  · simp only [if_pos both] at narrow ⊢
    refine ⟨fun other => absurd both other, fun short => ?_⟩
    obtain ⟨low, high⟩ := narrow short
    have quotient : ((scaledDividend a b x).tdiv y).natAbs =
        (scaledDividend a b x).natAbs / y.natAbs := Int.natAbs_tdiv _ _
    have less := Nat.div_le_self (scaledDividend a b x).natAbs y.natAbs
    omega
  · simp only [if_neg both] at narrow ⊢
    have width : wordBits a b = 64 := if_neg both
    rw [width] at small
    have held : Fits 64 (scaledDividend a b x) := by
      by_cases short : dividendDigits a b ≤ maxP a b
      · exact narrow short
      · have none_up : (maxP a b - dividendDigits a b).toNat = 0 := by omega
        have own := ranged.2
        rw [width] at own
        rw [scaledDividend, none_up, pow_zero, mul_one]
        exact own
    exact ⟨fun _ => tdiv_fits_word held some_divisor small,
      fun _ => tdiv_fits_word held some_divisor small⟩

theorem cut_eq_iff {t : Int} (d : Nat) (some_digits : 0 < d) :
    t = t.tdiv (quotientBase a b ^ d : Nat) ↔ t = 0 :=
  tdiv_eq_self_iff (le_trans (quotientBase_pos a b) (Nat.le_self_pow (by omega) _))

theorem power_iff {k : Int} :
    power a b k = quotientBase a b ^ k.toNat ↔ k ≤ if BothDec a b then 38 else 62 := by
  unfold power quotientBase
  by_cases both : BothDec a b
  · simp only [if_pos both]
    constructor
    · intro same
      have word_range : Fits 128 (pliPow10_128 k) := word_fits (by decide) _
      rw [same] at word_range
      by_contra long
      have large : (10 : Int) ^ 39 ≤ 10 ^ k.toNat := pow_le_pow_right₀ (by decide) (by omega)
      have beyond : (2 : Int) ^ 127 < 10 ^ 39 := by norm_num
      have high := word_range.2
      push_cast at high
      omega
    · intro short
      exact pliPow10_128_eq short
  · simp only [if_neg both]
    constructor
    · intro same
      have word_range : Fits 64 (oneShl k) := word_fits (by decide) _
      rw [same] at word_range
      by_contra long
      have large : (2 : Int) ^ 63 ≤ 2 ^ k.toNat := pow_le_pow_right₀ (by decide) (by omega)
      have high := word_range.2
      push_cast at high
      omega
    · intro short
      exact oneShl_eq short

theorem product_eq_cases {t number k : Int} {d : Nat} (positive : 0 < k)
    (cut : number = t.tdiv (quotientBase a b ^ d : Nat) * quotientBase a b ^ k.toNat)
    (inside : InRange (divResultType a b) number) (equal : t * power a b k = number) :
    t = 0 ∨ (d = 0 ∧ k ≤ if BothDec a b then 38 else 62) ∨ (number = 0 ∧ power a b k = 0) := by
  have two := quotientBase_pos a b
  have some_power : (quotientBase a b : Int) ^ k.toNat ≠ 0 := by positivity
  by_cases none_left : t = 0
  · exact Or.inl none_left
  by_cases small : k ≤ if BothDec a b then 38 else 62
  · rw [power_iff.mpr small, cut] at equal
    have same := Int.eq_of_mul_eq_mul_right some_power equal
    by_cases whole : d = 0
    · exact Or.inr (Or.inl ⟨whole, small⟩)
    · exact absurd ((cut_eq_iff d (by omega)).mp same) none_left
  · by_cases nothing : t.tdiv (quotientBase a b ^ d : Nat) = 0
    · rw [nothing, Int.zero_mul] at cut
      rw [cut] at equal
      exact Or.inr (Or.inr ⟨cut, (Int.mul_eq_zero.mp equal).resolve_left none_left⟩)
    · -- the number has at least the power's digits, more than the maximum
      have sign := tdiv_toward t (quotientBase a b ^ d)
      generalize t.tdiv (quotientBase a b ^ d : Nat) = cut_t at cut nothing sign
      have size : (quotientBase a b : Int) ^ k.toNat ≤ |number| := by
        rw [cut, abs_mul, abs_of_pos (show (0 : Int) < quotientBase a b ^ k.toNat by positivity)]
        exact le_mul_of_one_le_left (by positivity) (Int.one_le_abs nothing)
      rw [inRange_result] at inside
      by_cases both : BothDec a b
      · rw [if_pos both] at inside small
        have ten : quotientBase a b = 10 := if_pos both
        have large : (10 : Int) ^ 39 ≤ 10 ^ k.toNat := pow_le_pow_right₀ (by decide) (by omega)
        have beyond : (10 : Int) ^ 31 < 10 ^ 39 := by norm_num
        rw [ten] at size
        push_cast at size
        have bound := abs_lt.mpr inside
        omega
      · rw [if_neg both] at inside small
        have base_two : quotientBase a b = 2 := if_neg both
        rw [base_two] at size cut
        push_cast at size cut
        have bound : |number| ≤ 2 ^ 63 := abs_le.mpr ⟨inside.1, by have := inside.2; omega⟩
        by_cases top : k = 63
        · subst top
          have least : power a b 63 = -2 ^ 63 := by
            rw [power, if_neg both]
            rfl
          have exponent : (63 : Int).toNat = 63 := rfl
          rw [exponent] at cut
          rw [least] at equal
          have high := inside.2
          unfold Toward at sign
          omega
        · have large : (2 : Int) ^ 64 ≤ 2 ^ k.toNat := pow_le_pow_right₀ (by decide) (by omega)
          omega

theorem slash_exact_iff (first : a.k = .fixedBin ∨ a.k = .fixedDec)
    (second : b.k = .fixedBin ∨ b.k = .fixedDec) (some_digits : 0 < dividendDigits a b) {x y : Int}
    (ranged : Ranged a b x) :
    (∃ c, slash a b x y = .result c ∧ ExactAt (divResultType a b) (quotientNumber a b x y) c) ↔
      SlashFits a b x y := by
  obtain ⟨whole, narrow⟩ := numerator_exact some_digits ranged
  by_cases zero : y = 0
  · refine iff_of_false ?_ fun fits => fits.1 zero
    rintro ⟨c, result, -⟩
    rw [slash, if_pos zero] at result
    cases result
  by_cases overflows : scaledDividend a b x = -2 ^ (wordBits a b - 1) ∧ y = -1
  · refine iff_of_false ?_ fun fits => fits.2.1 overflows
    rintro ⟨c, result, -⟩
    rw [slash, if_neg zero, whole, if_pos overflows] at result
    cases result
  obtain ⟨in_word, in_range⟩ := quotient_word ranged narrow zero overflows
  have number := quotientNumber_eq first second x zero
  change _ = ((scaledDividend a b x).tdiv y).tdiv _ * _ at number
  have run : slash a b x y = .result
      (if quotientScale a b < 0 then
        scaledUp a b (-quotientScale a b) ((scaledDividend a b x).tdiv y)
      else ⟨(scaledDividend a b x).tdiv y, false⟩) := by
    rw [slash, if_neg zero, whole, if_neg overflows]
  have alone (c : Converted) : (∃ c', Division.result c = .result c' ∧
      ExactAt (divResultType a b) (quotientNumber a b x y) c') ↔
      ExactAt (divResultType a b) (quotientNumber a b x y) c := by
    simp
  rw [run, alone, SlashFits]
  generalize (scaledDividend a b x).tdiv y = t at number in_word in_range ⊢
  simp only [ne_eq, zero, not_false_eq_true, overflows, true_and]
  by_cases scaled : quotientScale a b < 0
  · rw [if_pos scaled]
    obtain ⟨size, raw⟩ := scaledUp_checks (-quotientScale a b) in_word
    have zero_in := @inRange_zero a b
    unfold ExactAt
    rw [size]
    constructor
    · rintro ⟨agree, same⟩
      by_cases inside : InRange (divResultType a b) (quotientNumber a b x y)
      · have product_in := not_not.mp (mt agree.mp (not_not_intro inside))
        have equal : t * power a b (-quotientScale a b) = quotientNumber a b x y :=
          (raw product_in).symm.trans (same inside)
        rcases product_eq_cases (by omega) number inside equal with none_left | short | both_zero
        · exact Or.inl none_left
        · exact Or.inr (Or.inl ⟨by omega, short.2⟩)
        · exact Or.inr (Or.inr (Or.inr ⟨scaled, both_zero⟩))
      · exact Or.inr (Or.inr (Or.inl ⟨scaled, inside, agree.mpr inside⟩))
    · rintro (rfl | ⟨short, small⟩ | ⟨-, outside, beyond⟩ | ⟨-, none_left, none_power⟩)
      · rw [Int.zero_tdiv, Int.zero_mul] at number
        rw [Int.zero_mul] at raw ⊢
        rw [number]
        exact ⟨Iff.rfl, fun inside => raw inside⟩
      · have none_cut : (dividendDigits a b - maxP a b).toNat = 0 := by omega
        rw [none_cut, Nat.pow_zero, Nat.cast_one, Int.tdiv_one, ← power_iff.mpr small] at number
        rw [← number] at raw ⊢
        exact ⟨Iff.rfl, fun inside => raw inside⟩
      · exact ⟨iff_of_true beyond outside, fun inside => absurd inside outside⟩
      · rw [none_power, Int.mul_zero] at raw ⊢
        rw [none_left]
        exact ⟨Iff.rfl, fun inside => raw inside⟩
  · rw [if_neg scaled]
    have level : (-quotientScale a b).toNat = 0 := by omega
    rw [level, pow_zero, mul_one] at number
    have enough : -quotientScale a b ≤ if BothDec a b then 38 else 62 := by split <;> omega
    simp only [scaled, false_and, or_false, enough, and_true, ExactAt,
      Bool.false_eq_true, false_iff,
      not_not]
    by_cases short : dividendDigits a b ≤ maxP a b
    · have none_cut : (dividendDigits a b - maxP a b).toNat = 0 := by omega
      rw [none_cut, Nat.pow_zero, Nat.cast_one, Int.tdiv_one] at number
      rw [number]
      exact iff_of_true ⟨in_range short, fun _ => rfl⟩ (Or.inr short)
    · have some_cut : 0 < (dividendDigits a b - maxP a b).toNat := by omega
      simp only [short, or_false]
      constructor
      · rintro ⟨inside, same⟩
        have cut := same inside
        rw [number] at cut
        exact (cut_eq_iff _ some_cut).mp cut
      · rintro rfl
        rw [Int.zero_tdiv] at number
        rw [number]
        exact ⟨inRange_zero, fun _ => rfl⟩

end Slash

section Whole
variable {viaFloat : Ty → Ty → Int → Converted} {a b : Operand}

theorem dividend_digits {a b : Ty} (some_prec : 0 < a.prec) : 0 < dividendDigits a b := by
  have range := decToBinDigits_range some_prec
  unfold dividendDigits
  split <;> omega

theorem dividend_ranged (first : a.Admitted) (second : b.Admitted) (inside : InRange a.ty a.raw) :
    ∃ x, convertOperand viaFloat a.ty (operandType a.ty b.ty) a.raw = some x ∧
      Ranged a.ty b.ty x.raw := by
  have held := first.held
  rcases first.fixed with binary | decimal
  · refine ⟨_, plain_operand held (Or.inr binary), ?_⟩
    have other : ¬BothDec a.ty b.ty := by simp [BothDec, binary]
    have digits : dividendDigits a.ty b.ty = a.ty.prec := if_neg (by simp [binary])
    have width : wordBits a.ty b.ty = 64 := if_neg other
    rw [InRange, if_pos binary] at inside
    rw [Ranged, if_neg other, digits, width]
    exact ⟨inside, fits_mono (binary_word binary) held⟩
  · rcases second.fixed with mixed | both
    · obtain ⟨x, done, fits⟩ :=
        @mixed_operand viaFloat a.ty b.ty a.raw held first.prec decimal mixed
      refine ⟨x, done, ?_⟩
      have other : ¬BothDec a.ty b.ty := by simp [BothDec, mixed]
      have digits : dividendDigits a.ty b.ty = decToBinDigits a.ty.prec :=
        if_pos ⟨decimal, by simp [mixed]⟩
      have width : wordBits a.ty b.ty = 64 := if_neg other
      have range := decToBinDigits_range first.prec
      rw [Ranged, if_neg other, digits, width]
      exact ⟨fits, fits_mono (by omega) fits⟩
    · refine ⟨_, plain_operand held (Or.inl ⟨decimal, both⟩), ?_⟩
      have pair : BothDec a.ty b.ty := ⟨decimal, both⟩
      have digits : dividendDigits a.ty b.ty = a.ty.prec := if_neg (by simp [both])
      have width : wordBits a.ty b.ty = 128 := if_pos pair
      rw [InRange, if_neg (by simp [decimal])] at inside
      rw [Ranged, if_pos pair, digits, width]
      exact ⟨inside, fits_mono (intBits_le _) held⟩

theorem divisor_converted (first : a.Admitted) (second : b.Admitted) :
    ∃ y, convertOperand viaFloat b.ty (operandType b.ty a.ty) b.raw = some y := by
  rcases second.fixed with binary | decimal
  · exact ⟨_, plain_operand second.held (Or.inr binary)⟩
  · rcases first.fixed with mixed | both
    · obtain ⟨y, done, -⟩ :=
        @mixed_operand viaFloat b.ty a.ty b.raw second.held second.prec decimal mixed
      exact ⟨y, done⟩
    · exact ⟨_, plain_operand second.held (Or.inl ⟨decimal, both⟩)⟩

/-- When a division is exact: one whose operands arrive without a condition is as SlashFits
    states; after a condition the number has to be beyond the maximum. -/
def DivisionFits (viaFloat : Ty → Ty → Int → Converted) (a b : Operand) : Prop :=
  ∃ x y, convertOperand viaFloat a.ty (operandType a.ty b.ty) a.raw = some x ∧
    convertOperand viaFloat b.ty (operandType b.ty a.ty) b.raw = some y ∧
    if x.size || y.size then
      y.raw ≠ 0 ∧
        ¬(scaledDividend a.ty b.ty x.raw = -2 ^ (wordBits a.ty b.ty - 1) ∧ y.raw = -1) ∧
        ¬InRange (divResultType a.ty b.ty) (quotientNumber a.ty b.ty x.raw y.raw)
    else SlashFits a.ty b.ty x.raw y.raw

theorem slash_result_iff {a b : Ty} {x y : Int} (whole : numerator a b x = scaledDividend a b x) :
    (∃ c, slash a b x y = .result c) ↔
      y ≠ 0 ∧ ¬(scaledDividend a b x = -2 ^ (wordBits a b - 1) ∧ y = -1) := by
  rw [slash, whole]
  by_cases zero : y = 0
  · simp [zero]
  · by_cases overflows : scaledDividend a b x = -2 ^ (wordBits a b - 1) ∧ y = -1
    · rw [if_neg zero, if_pos overflows]
      exact iff_of_false (by simp) fun fits => fits.2 overflows
    · rw [if_neg zero, if_neg overflows]
      exact iff_of_true ⟨_, rfl⟩ ⟨zero, overflows⟩

/-- FIXED division is exact where the condition holds, and there alone. -/
theorem fixed_division_iff (viaFloat : Ty → Ty → Int → Converted) (a b : Operand)
    (first : a.Admitted) (second : b.Admitted) (inside : InRange a.ty a.raw)
    (_ : InRange b.ty b.raw) (_ : b.raw ≠ 0) :
    DivisionExact viaFloat a b ↔ DivisionFits viaFloat a b := by
  obtain ⟨x, from_a, ranged⟩ := @dividend_ranged viaFloat a b first second inside
  obtain ⟨y, from_b⟩ := @divisor_converted viaFloat a b first second
  have some_digits := @dividend_digits a.ty b.ty first.prec
  have core := @slash_exact_iff a.ty b.ty first.fixed second.fixed some_digits x.raw y.raw ranged
  have emitted : emitSlash viaFloat a b =
      some ((slash a.ty b.ty x.raw y.raw).sizes (x.size || y.size)) := by
    rw [emitSlash, from_a, from_b]
    rfl
  have exact_ : DivisionExact viaFloat a b ↔ ∃ c,
      (slash a.ty b.ty x.raw y.raw).sizes (x.size || y.size) = .result c ∧
        ExactAt (divResultType a.ty b.ty) (quotientNumber a.ty b.ty x.raw y.raw) c := by
    simp [DivisionExact, from_a, from_b, emitted]
  have fits : DivisionFits viaFloat a b ↔
      if x.size || y.size then
        y.raw ≠ 0 ∧
          ¬(scaledDividend a.ty b.ty x.raw = -2 ^ (wordBits a.ty b.ty - 1) ∧ y.raw = -1) ∧
          ¬InRange (divResultType a.ty b.ty) (quotientNumber a.ty b.ty x.raw y.raw)
      else SlashFits a.ty b.ty x.raw y.raw := by
    simp [DivisionFits, from_a, from_b]
  rw [exact_, fits]
  cases quiet : x.size || y.size with
  | false =>
    rw [if_neg (by simp), ← core]
    refine exists_congr fun c => and_congr_left fun _ => ?_
    cases slash a.ty b.ty x.raw y.raw <;> simp [Division.sizes]
  | true =>
    have result := @slash_result_iff a.ty b.ty x.raw y.raw (numerator_exact some_digits ranged).1
    rw [if_pos rfl, ← and_assoc, ← result]
    constructor
    · rintro ⟨c, sized, exact_at⟩
      cases run : slash a.ty b.ty x.raw y.raw with
      | zerodivide | undefined => rw [run] at sized; cases sized
      | result c' =>
        rw [run] at sized
        cases sized
        exact ⟨⟨c', rfl⟩, exact_at.1.mp rfl⟩
    · rintro ⟨⟨c, run⟩, outside⟩
      rw [run]
      exact ⟨_, rfl, iff_of_true rfl outside, fun within => absurd within outside⟩

end Whole

def ideal (src dst : Ty) (raw : Int) : Converted := ⟨required dst (value src raw), false⟩

theorem seven_by_two : DivisionExact ideal ⟨.fixedDec 10 2, 700⟩ ⟨.fixedDec 10 2, 200⟩ := by
  have left : convertOperand ideal (.fixedDec 10 2)
      (operandType (.fixedDec 10 2) (.fixedDec 10 2)) 700 = some ⟨700, false⟩ := by decide +kernel
  have right : convertOperand ideal (.fixedDec 10 2)
      (operandType (.fixedDec 10 2) (.fixedDec 10 2)) 200 = some ⟨200, false⟩ := by decide +kernel
  have fits : SlashFits (.fixedDec 10 2) (.fixedDec 10 2) 700 200 :=
    ⟨by decide, by decide, Or.inr (Or.inl ⟨by decide, by decide⟩)⟩
  exact (fixed_division_iff ideal ⟨.fixedDec 10 2, 700⟩ ⟨.fixedDec 10 2, 200⟩
    ⟨by decide, by decide, by decide⟩ ⟨by decide, by decide, by decide⟩ (by decide) (by decide)
    (by decide)).mpr ⟨_, _, left, right, fits⟩

/-- The smallest BINARY(31) over -1 has no quotient in its word; and the sum of two DECIMAL(10,2),
    which sema gives 63 digits, over a third is FIXEDOVERFLOW, where the number at the scale of
    the formula is 0. -/
theorem sum_over_overflows :
    (emitSlash ideal ⟨bin 31 0, -2 ^ 31⟩ ⟨bin 31 0, -1⟩ = some .undefined ∧
      ¬DivisionExact ideal ⟨bin 31 0, -2 ^ 31⟩ ⟨bin 31 0, -1⟩) ∧
    arithResultType (.fixedDec 10 2) (.fixedDec 10 2) = ⟨.fixedDec, 63, 2, false⟩ ∧
    emitSlash ideal ⟨⟨.fixedDec, 63, 2, false⟩, 300⟩ ⟨.fixedDec 10 2, 200⟩ =
      some (.result ⟨10 ^ 32, true⟩) ∧
    ¬DivisionExact ideal ⟨⟨.fixedDec, 63, 2, false⟩, 300⟩ ⟨.fixedDec 10 2, 200⟩ := by
  have least : emitSlash ideal ⟨bin 31 0, -2 ^ 31⟩ ⟨bin 31 0, -1⟩ = some .undefined := by
    decide +kernel
  have sum : emitSlash ideal ⟨⟨.fixedDec, 63, 2, false⟩, 300⟩ ⟨.fixedDec 10 2, 200⟩ =
      some (.result ⟨10 ^ 32, true⟩) := by
    decide +kernel
  refine ⟨⟨least, ?_⟩, by decide, sum, ?_⟩
  · rintro ⟨x, y, c, -, -, emitted, -⟩
    cases least.symm.trans emitted
  · rintro ⟨x, y, c, from_a, from_b, emitted, raised, -⟩
    cases sum.symm.trans emitted
    have left : convertOperand ideal ⟨.fixedDec, 63, 2, false⟩
        (operandType ⟨.fixedDec, 63, 2, false⟩ (.fixedDec 10 2)) 300 = some ⟨300, false⟩ := by
      decide +kernel
    have right : convertOperand ideal (.fixedDec 10 2)
        (operandType (.fixedDec 10 2) ⟨.fixedDec, 63, 2, false⟩) 200 = some ⟨200, false⟩ := by
      decide +kernel
    cases left.symm.trans from_a
    cases right.symm.trans from_b
    refine raised.mp rfl ?_
    rw [quotientNumber_eq (by decide) (by decide) 300 (by decide)]
    decide +kernel

end PliFixedDivision
