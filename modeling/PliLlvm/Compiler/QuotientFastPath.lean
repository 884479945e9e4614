import PliLlvm.Compiler.FixedDivision
import PliLlvm.Compiler.StoreFixed

/- The quotient of two FIXED values of scale 0 that goes straight to a FIXED target of scale 0
   (src/irgen.cpp, emitExpr, Convert over Slash), beside the general division followed by the
   conversion. SIZE is enabled. -/
namespace PliQuotientFastPath
open FixedPoint PliFixedConvert PliFixedArith PliFixedDivision PliStoreFixed
open PliConstFold hiding value

def toI64 (o : Operand) : Int := if o.ty.intBits = 128 then word 64 o.raw else o.raw

def fastPath (a b : Operand) (dst : Ty) : Option Division :=
  if toI64 b = 0 then some .zerodivide
  else if toI64 a = -2 ^ 63 ∧ toI64 b = -1 then some .undefined
  else (convert (bin 63 0) dst ((toI64 a).tdiv (toI64 b))).map .result

def generalPath (viaFloat : Ty → Ty → Int → Converted) (a b : Operand) (dst : Ty) :
    Option Division :=
  (emitSlash viaFloat a b).bind fun d =>
    match d with
    | .result c =>
      (convert (divResultType a.ty b.ty) dst c.raw).map fun t => .result ⟨t.raw, c.size || t.size⟩
    | .zerodivide => some .zerodivide
    | .undefined => some .undefined

def FastAgrees (viaFloat : Ty → Ty → Int → Converted) (a b : Operand) (dst : Ty) : Prop :=
  ∃ c, fastPath a b dst = some (.result c) ∧ generalPath viaFloat a b dst = some (.result c)

def FewDigits (dst : Ty) : Prop := dst.k = .fixedDec → dst.prec ≤ 76

/-- The operands are words of 64 bits whose quotient is one, before and after the scaling; and
    the target truncates, or the general quotient has no fraction digits, or less than half the
    divisor is left. A dividend of more digits than the maximum has to have the quotient 0, and
    the power of ten of a DECIMAL target is in the check's 256 bits. -/
def FastFits (a b : Operand) (dst : Ty) : Prop :=
  Fits 64 a.raw ∧ Fits 64 b.raw ∧ FewDigits dst ∧ ¬(a.raw = -2 ^ 63 ∧ b.raw = -1) ∧
    ¬(scaledDividend a.ty b.ty a.raw = -2 ^ (wordBits a.ty b.ty - 1) ∧ b.raw = -1) ∧
    if dividendDigits a.ty b.ty ≤ maxP a.ty b.ty then
      dst.k = .fixedBin ∨ dividendDigits a.ty b.ty = maxP a.ty b.ty ∨
        2 * (a.raw.natAbs % b.raw.natAbs) < b.raw.natAbs
    else a.raw.natAbs < b.raw.natAbs

def settle (dst : Ty) (n : Int) : Converted :=
  if dst.k = .fixedBin then checkBin 64 dst n
  else ⟨fitFixed dst n, decide (dst.prec ≤ 18) && magTrap n (decLimit dst)⟩

theorem trap_wider {bits : Nat} {v prec : Int} (wider : 64 ≤ bits) (fits : Fits 64 v) :
    fixedBinPrecTrap bits v prec = fixedBinPrecTrap 64 v prec := by
  unfold fixedBinPrecTrap
  by_cases none : prec ≤ 0
  · rw [if_pos (Or.inl none), if_pos (Or.inl none)]
  by_cases full : (63 : Int) ≤ prec
  · have whole : prec ≤ 0 ∨ ((64 : Nat) : Int) - 1 ≤ prec := Or.inr (by omega)
    rw [if_pos whole]
    by_cases fuller : (bits : Int) - 1 ≤ prec
    · rw [if_pos (Or.inr fuller)]
    · rw [if_neg (by omega)]
      have power : (2 : Int) ^ 63 ≤ 2 ^ prec.toNat := pow_le_pow_right₀ (by decide) (by omega)
      unfold Fits at fits
      dsimp only
      rw [if_neg (by omega)]
  · have inner : ¬(prec ≤ 0 ∨ ((64 : Nat) : Int) - 1 ≤ prec) := by omega
    rw [if_neg (by omega), if_neg inner]

section Target
variable {dst : Ty}

theorem settle_binary (binary : dst.k = .fixedBin) {bits : Nat} (wider : 64 ≤ bits) {n : Int}
    (fits : Fits 64 n) : checkBin bits dst n = settle dst n := by
  rw [settle, if_pos binary, checkBin, checkBin, trap_wider wider fits]

theorem decimal_wide (declared : Declared dst) (decimal : dst.k = .fixedDec) :
    dst.intBits = 128 ↔ 18 < dst.prec := by
  have wide : dst.wideDec = decide (18 < dst.prec) := by
    rw [declared.2.2, decimal]
    rfl
  unfold Ty.intBits
  rw [decimal, wide]
  by_cases many : 18 < dst.prec
  · simp [many]
  · simp only [many, decide_false, iff_false, Bool.false_eq_true, if_false]
    split <;> decide

theorem wide_quiet (many : 18 < dst.prec) (few : dst.prec ≤ 76) {n : Int}
    (small : -2 ^ 63 ≤ n ∧ n ≤ 2 ^ 63) : wideMagTrap 256 n dst.prec = false := by
  have power : (10 : Int) ^ 19 ≤ 10 ^ dst.prec.toNat := pow_le_pow_right₀ (by decide) (by omega)
  have top : (10 : Int) ^ dst.prec.toNat ≤ 10 ^ 76 := pow_le_pow_right₀ (by decide) (by omega)
  have bound : (10 : Int) ^ 76 < 2 ^ 255 := by norm_num
  have large : (2 : Int) ^ 63 < 10 ^ 19 := by norm_num
  unfold wideMagTrap
  have limit : word 256 (10 ^ dst.prec.toNat) = 10 ^ dst.prec.toNat :=
    word_of_fits (by decide) ⟨by omega, by omega⟩
  have lower : word 256 (-10 ^ dst.prec.toNat) = -10 ^ dst.prec.toNat :=
    word_of_fits (by decide) ⟨by omega, by omega⟩
  simp only [limit, lower, Bool.or_eq_false_iff, decide_eq_false_iff_not]
  omega

theorem settle_decimal (declared : Declared dst) (decimal : dst.k = .fixedDec)
    (few : dst.prec ≤ 76) {n : Int} (small : -2 ^ 63 ≤ n ∧ n ≤ 2 ^ 63) :
    (if dst.intBits = 128 then ⟨fitFixed dst n, wideMagTrap 256 n dst.prec⟩
      else (⟨fitFixed dst n, decide (dst.prec ≤ 18) && magTrap n (decLimit dst)⟩ : Converted)) =
      settle dst n := by
  have wide := decimal_wide declared decimal
  have settled : settle dst n =
      ⟨fitFixed dst n, decide (dst.prec ≤ 18) && magTrap n (decLimit dst)⟩ :=
    if_neg (by simp [decimal])
  rw [settled]
  by_cases many : 18 < dst.prec
  · have long : ¬dst.prec ≤ 18 := by omega
    rw [if_pos (wide.mpr many), wide_quiet many few small]
    simp [long]
  · rw [if_neg fun full => many (wide.mp full)]

theorem needDec_binary {src : Ty} (binary : src.k = .fixedBin) :
    needDec src dst = decide (dst.prec ≤ 18) := by
  simp [needDec, binary]

theorem convert_whole {src : Ty} (whole : dst.scale = 0) (raw : Int) :
    (src.k = .fixedBin → dst.k = .fixedBin → convert src dst raw = some (binToBin src dst raw)) ∧
    (src.k = .fixedBin → dst.k = .fixedDec → convert src dst raw = some (binToDec src dst raw)) ∧
    (src.k = .fixedDec → dst.k = .fixedBin → convert src dst raw = some (decToBin src dst raw)) ∧
    (src.k = .fixedDec → dst.k = .fixedDec →
      convert src dst raw = some (decToDec src dst raw)) := by
  refine ⟨?_, ?_, ?_, ?_⟩ <;> intro source target <;>
    simp [convert, throughFloat, source, target, whole]

theorem settle_word (declared : Declared dst) (whole : dst.scale = 0)
    (few : FewDigits dst) {n : Int}
    (fits : Fits 64 n) : convert (bin 63 0) dst n = some (settle dst n) := by
  obtain ⟨to_binary, to_decimal, -, -⟩ := @convert_whole dst (bin 63 0) whole n
  rcases declared.1 with binary | decimal
  · have level : dst.scale - (bin 63 0).scale = 0 := by
      rw [whole]
      rfl
    rw [to_binary rfl binary, binToBin]
    simp only [level, if_true]
    exact congrArg some (settle_binary binary (Nat.le_refl 64) fits)
  · have wide : binToDecWide (bin 63 0) dst n = n := by simp [binToDecWide, whole, bin]
    have narrow : binToDecNarrow (bin 63 0) dst n = n := by simp [binToDecNarrow, whole, bin]
    have need : needDec (bin 63 0) dst = decide (dst.prec ≤ 18) := needDec_binary rfl
    rw [to_decimal rfl decimal, ← settle_decimal declared decimal (few decimal)
      ⟨fits.1, le_of_lt fits.2⟩,
      binToDec]
    simp only [wide, narrow, checkDec, need]

def settled (dst : Ty) (base digits : Nat) (r : Int) : Int :=
  if dst.k = .fixedBin ∨ digits = 0 then r.tdiv (base ^ digits : Nat)
  else (towardSign r (base ^ digits / 2 : Nat)).tdiv (base ^ digits : Nat)

theorem settled_near (dst : Ty) {base : Nat} (some_base : 0 < base) (digits : Nat) (r : Int) :
    -1 ≤ settled dst base digits r - r.tdiv (base ^ digits : Nat) ∧
      settled dst base digits r - r.tdiv (base ^ digits : Nat) ≤ 1 := by
  unfold settled
  split
  · omega
  · have positive : 0 < base ^ digits := Nat.pow_pos some_base
    have half : (r.natAbs + base ^ digits / 2) / base ^ digits ≤ r.natAbs / base ^ digits + 1 := by
      rw [← Nat.add_div_right _ positive]
      exact Nat.div_le_div_right (by omega)
    have least : r.natAbs / base ^ digits ≤ (r.natAbs + base ^ digits / 2) / base ^ digits :=
      Nat.div_le_div_right (by omega)
    rcases Int.lt_or_le r 0 with negative | nonneg
    · rw [tdiv_of_neg_natAbs negative, towardSign_tdiv_of_neg negative]
      omega
    · rw [tdiv_of_nonneg_natAbs nonneg, towardSign_tdiv_of_nonneg nonneg]
      omega

theorem settled_small {digits : Nat} {r : Int} (fits : Fits 64 r) :
    -2 ^ 63 ≤ settled dst 2 digits r ∧ settled dst 2 digits r ≤ 2 ^ 63 := by
  have near := settled_near dst (show 0 < 2 by decide) digits r
  by_cases none : digits = 0
  · have same : settled dst 2 digits r = r := by simp [settled, none]
    rw [same]
    exact ⟨fits.1, le_of_lt fits.2⟩
  · have quotient : (r.tdiv (2 ^ digits : Nat)).natAbs = r.natAbs / 2 ^ digits :=
      Int.natAbs_tdiv _ _
    have two : 2 ≤ 2 ^ digits := Nat.le_self_pow none 2
    have halved : r.natAbs / 2 ^ digits ≤ r.natAbs / 2 := Nat.div_le_div_left two (by decide)
    unfold Fits at fits
    omega

theorem rounded_binary {bits q : Nat} (wide : 128 ≤ bits) (digits : q ≤ 62) (some_digits : q ≠ 0)
    {r : Int} (decimal : dst.k = .fixedDec) (fits : Fits 64 r) :
    roundedSDiv bits r (2 ^ (q - 1)) (2 ^ q) = settled dst 2 q r := by
  obtain ⟨k, rfl⟩ : ∃ k, q = k + 1 := ⟨q - 1, by omega⟩
  have half : 2 ^ (k + 1) / 2 = 2 ^ k := by rw [Nat.pow_succ, Nat.mul_div_cancel _ (by decide)]
  have rounds : ¬(dst.k = .fixedBin ∨ k + 1 = 0) := by simp [decimal]
  rw [settled, if_neg rounds, half, Nat.add_sub_cancel,
    roundedSDiv_two (by omega) (fits_mono (by omega) fits)]
  push_cast
  rfl

theorem settle_from_binary (declared : Declared dst) (whole : dst.scale = 0) (few : FewDigits dst)
    {q : Nat} (digits : q ≤ 62) {r : Int} (fits : Fits 64 r) :
    convert (bin 63 q) dst r = some (settle dst (settled dst 2 q r)) := by
  obtain ⟨to_binary, to_decimal, -, -⟩ := @convert_whole dst (bin 63 q) whole r
  have scale : (bin 63 q).scale = q := rfl
  rcases declared.1 with binary | decimal
  · rw [to_binary rfl binary, binToBin, whole, scale, settled, if_pos (Or.inl binary)]
    by_cases none : q = 0
    · subst none
      simp only [Nat.cast_zero, Int.sub_zero, if_true, Nat.pow_zero, Nat.cast_one, Int.tdiv_one]
      exact congrArg some (settle_binary binary (Nat.le_refl 64) fits)
    · have quotient : Fits 64 (r.tdiv (2 ^ q : Nat)) := tdiv_fits fits _
      have exponent : -((0 : Int) - q) = q := by omega
      have some_digits : ¬((0 : Int) - q = 0) := by omega
      have down : ¬((0 : Int) < 0 - q) := by omega
      have cast : ((2 ^ q : Nat) : Int) = 2 ^ ((q : Int)).toNat := by push_cast; rfl
      simp only [if_neg some_digits, if_neg down, exponent]
      rw [oneShl_eq (by omega), ← cast, word_of_fits (by decide) (fits_mono (by decide) quotient)]
      exact congrArg some (settle_binary binary (by decide) quotient)
  · have register : ∀ bits, 128 ≤ bits → (if 0 < (q : Int) then
        roundedSDiv bits r (2 ^ ((q : Int) - 1).toNat) (2 ^ (q : Int).toNat) else r) =
        settled dst 2 q r := by
      intro bits wide
      by_cases none : q = 0
      · simp [none, settled]
      · have exponent : ((q : Int) - 1).toNat = q - 1 := by omega
        rw [if_pos (by omega), exponent, Int.toNat_natCast,
          rounded_binary wide digits none decimal fits]
    have wide : binToDecWide (bin 63 q) dst r = settled dst 2 q r := by
      rw [← register 256 (by decide), binToDecWide, whole, scale]
      simp only [Int.lt_irrefl, if_false]
      rw [intPowConst_two (by omega), intPowConst_two (by omega)]
      split
      · rfl
      · rw [if_neg (by omega)]
    have narrow : binToDecNarrow (bin 63 q) dst r = settled dst 2 q r := by
      rw [← register 128 (by decide), binToDecNarrow, whole, scale]
      simp only [Int.lt_irrefl, if_false]
      rw [oneShl_eq (by omega), oneShl_eq (by omega)]
      split
      · rfl
      · rw [if_neg (by omega)]
    have need : needDec (bin 63 q) dst = decide (dst.prec ≤ 18) := needDec_binary rfl
    rw [to_decimal rfl decimal, ← settle_decimal declared decimal (few decimal)
      (settled_small fits), binToDec]
    simp only [wide, narrow, checkDec, need]

theorem settle_from_decimal (declared : Declared dst) (whole : dst.scale = 0) {q : Nat}
    (digits : q ≤ 30) {r : Int} (small : -10 ^ 31 < r ∧ r < 10 ^ 31)
    (quotient : Fits 64 (r.tdiv (10 ^ q : Nat))) :
    convert (Ty.fixedDec 31 q) dst r = some (settle dst (settled dst 10 q r)) := by
  obtain ⟨-, -, to_binary, to_decimal⟩ := @convert_whole dst (Ty.fixedDec 31 q) whole r
  have scale : (Ty.fixedDec 31 q).scale = q := rfl
  have slot : (Ty.fixedDec 31 q).intBits = 128 := rfl
  rcases declared.1 with binary | decimal
  · have wide : decToBinWide (Ty.fixedDec 31 q) dst r = r.tdiv (10 ^ q : Nat) := by
      rw [decToBinWide, whole, scale]
      simp only [Int.lt_irrefl, if_false]
      by_cases none : q = 0
      · simp [none]
      · rw [if_pos (by omega), intPowConst_ten (by omega), Int.toNat_natCast]
        have power := word_of_fits (show 0 < 256 by decide) (fits_mono (by decide) quotient)
        push_cast at power ⊢
        exact power
    rw [to_binary rfl binary, decToBin, if_pos slot, wide, settled, if_pos (Or.inl binary)]
    exact congrArg some (settle_binary binary (by decide) quotient)
  · have level : dst.scale - (Ty.fixedDec 31 q).scale = -(q : Int) := by rw [whole, scale]; omega
    have wide : max (Ty.fixedDec 31 q).intBits dst.intBits = 128 := by
      rw [slot]
      exact Nat.max_eq_left (intBits_le dst)
    have need : needDec (Ty.fixedDec 31 q) dst = decide (dst.prec ≤ 18) := by
      unfold needDec
      dsimp only
      rw [level]
      have none_up : max (-(q : Int)) 0 = 0 := by omega
      rw [none_up]
      by_cases short : dst.prec ≤ 18
      · have long : dst.prec < 31 := by omega
        simp [short, long, Ty.fixedDec]
      · simp [short]
    have settles (n : Int) : checkDec (Ty.fixedDec 31 q) dst n = settle dst n := by
      rw [checkDec, need, settle, if_neg (by simp [decimal])]
    rw [to_decimal rfl decimal, decToDec]
    simp only [level, wide, if_true, settles]
    by_cases none : q = 0
    · subst none
      simp [settled]
    · have down : ¬(0 < -(q : Int)) := by omega
      have some_digits : -(q : Int) < 0 := by omega
      have rounds : ¬(dst.k = .fixedBin ∨ q = 0) := by simp [decimal, none]
      rw [if_neg down, if_pos some_digits, whole, if_neg (by decide), Int.neg_neg, settled,
        if_neg rounds]
      obtain ⟨k, rfl⟩ : ∃ k, q = k + 1 := ⟨q - 1, by omega⟩
      have half : 10 ^ (k + 1) / 2 = 10 ^ k * 5 := by
        rw [Nat.pow_succ, show (10 : Nat) = 2 * 5 from rfl, ← Nat.mul_assoc, Nat.mul_right_comm,
          Nat.mul_div_cancel _ (by decide)]
      have exponent : ((k + 1 : Nat) : Int) - 1 = k := by omega
      have power : (10 : Int) ^ k ≤ 10 ^ 29 := pow_le_pow_right₀ (by decide) (by omega)
      have positive : (0 : Int) < 10 ^ k := by positivity
      have bound : (10 : Int) ^ 29 * 5 + 10 ^ 31 < 2 ^ 127 := by norm_num
      have half_word : word 128 (pliPow10_128 (((k + 1 : Nat) : Int) - 1) * 5) =
          ((10 ^ k * 5 : Nat) : Int) := by
        rw [exponent, pliPow10_128_eq (by omega), Int.toNat_natCast]
        push_cast
        exact word_of_fits (by decide) ⟨by omega, by omega⟩
      have divisor : pliPow10_128 ((k + 1 : Nat) : Int) = ((10 ^ (k + 1) : Nat) : Int) := by
        rw [pliPow10_128_eq (by omega), Int.toNat_natCast]
        push_cast
        rfl
      have kept : Fits 128 ((10 ^ k * 5 : Nat) : Int) := by
        push_cast
        exact ⟨by omega, by omega⟩
      have moved : Fits 128 (towardSign r (10 ^ k * 5 : Nat)) := by
        unfold towardSign
        push_cast
        split <;> exact ⟨by omega, by omega⟩
      rw [half_word, divisor, half, roundedSDiv_eq (by decide) kept moved]

theorem word_apart {w : Nat} (wide : 2 ≤ w) {m n : Int} (near : -1 ≤ m - n ∧ m - n ≤ 1) :
    word w m = word w n ↔ m = n := by
  constructor
  · intro same
    obtain ⟨k, apart⟩ := Int.ModEq.dvd (word_eq_iff.mp same)
    have range : (2 : Int) ^ 2 ≤ 2 ^ w := pow_le_pow_right₀ (by decide) wide
    by_contra different
    rcases Int.lt_trichotomy k 0 with below | rfl | above
    · nlinarith
    · omega
    · nlinarith
  · rintro rfl
    rfl

theorem settle_eq_iff (decimal : dst.k = .fixedDec) {m n : Int} (near : -1 ≤ m - n ∧ m - n ≤ 1) :
    settle dst m = settle dst n ↔ m = n := by
  constructor
  · intro same
    rw [settle, settle, if_neg (by simp [decimal]), if_neg (by simp [decimal])] at same
    have words := congrArg Converted.raw same
    have slot : 2 ≤ dst.intBits := by
      rcases slot_cases dst with short | long | wide <;> omega
    exact (word_apart slot near).mp words
  · rintro rfl
    rfl

end Target

section Operands
variable {viaFloat : Ty → Ty → Int → Converted}

theorem decimal_digits_small : ∀ p : Fin 19, 10 ^ p.val ≤ 2 ^ (1 + (p.val * 83 + 24) / 25) := by
  decide

theorem inside_view {p raw : Int} (some_prec : 0 < p)
    (inside : -10 ^ p.toNat < raw ∧ raw < 10 ^ p.toNat) (fits : Fits 64 raw) :
    -2 ^ (decToBinDigits p).toNat ≤ raw ∧ raw < 2 ^ (decToBinDigits p).toNat := by
  by_cases short : p ≤ 18
  · obtain ⟨n, rfl⟩ : ∃ n : Nat, p = n := ⟨p.toNat, by omega⟩
    have few : n < 19 := by omega
    have digits : (decToBinDigits n).toNat = 1 + (n * 83 + 24) / 25 := by
      unfold decToBinDigits
      omega
    have bound : (10 : Int) ^ n ≤ 2 ^ (1 + (n * 83 + 24) / 25) := by
      exact_mod_cast decimal_digits_small ⟨n, few⟩
    rw [Int.toNat_natCast] at inside
    rw [digits]
    omega
  · have digits : decToBinDigits p = 63 := by
      unfold decToBinDigits
      omega
    rw [digits]
    exact fits

theorem arrives_whole {o other : Ty} {raw : Int} (fixed : o.k = .fixedBin ∨ o.k = .fixedDec)
    (mate : other.k = .fixedBin ∨ other.k = .fixedDec) (some_prec : 0 < o.prec)
    (held : Fits o.intBits raw) (whole : o.scale = 0) (inside : InRange o raw)
    (fits : Fits 64 raw) :
    convertOperand viaFloat o (operandType o other) raw = some ⟨raw, false⟩ := by
  rcases fixed with binary | decimal
  · exact plain_operand held (Or.inr binary)
  rcases mate with mixed | both
  · have target : operandType o other = bin (decToBinDigits o.prec) 0 := by
      rw [operandType, if_neg (by simp [BothDec, mixed]), if_pos decimal, operandScale,
        if_pos ⟨decimal, by simp [mixed]⟩, whole]
      rfl
    have direct : throughFloat o (bin (decToBinDigits o.prec) 0) = false := by
      simp [throughFloat, decimal, bin]
    have done : convertOperand viaFloat o (bin (decToBinDigits o.prec) 0) raw =
        some (decToBin o (bin (decToBinDigits o.prec) 0) raw) := by
      rw [convertOperand, direct]
      simp only [Bool.false_eq_true, if_false, convert, direct, decimal]
      rfl
    have wide : decToBinWide o (bin (decToBinDigits o.prec) 0) raw = raw := by
      simp [decToBinWide, whole, bin]
    have narrow : decToBinNarrow o (bin (decToBinDigits o.prec) 0) raw = raw := by
      simp [decToBinNarrow, whole, bin]
    rw [InRange, if_neg (by simp [decimal])] at inside
    have view := inside_view some_prec inside fits
    obtain ⟨low, high⟩ := decToBinDigits_range some_prec
    have slot : (decToBinDigits o.prec).toNat + 1 ≤ (bin (decToBinDigits o.prec) 0).intBits := by
      unfold Ty.intBits bin
      dsimp only
      split <;> omega
    have kept : fitFixed (bin (decToBinDigits o.prec) 0) raw = raw :=
      word_of_fits (intBits_pos _) (fits_mono slot view)
    have quiet (bits : Nat) : checkBin bits (bin (decToBinDigits o.prec) 0) raw = ⟨raw, false⟩ := by
      have prec : (bin (decToBinDigits o.prec) 0).prec = decToBinDigits o.prec := rfl
      rw [checkBin, prec, trap_inside bits view.1 view.2]
      exact congrArg (Converted.mk · false) kept
    rw [target, done, decToBin, wide, narrow, quiet, quiet, ite_self]
  · exact plain_operand held (Or.inl ⟨decimal, both⟩)

end Operands

section Division
variable {a b : Ty} {x y : Int}

theorem scaled_tdiv {d : Nat} (positive : 0 < d) (x y : Int) :
    ((x * d).tdiv y).tdiv d = x.tdiv y := by
  rw [← tdiv_mul_natCast, Int.mul_tdiv_mul_of_pos_left x y (by exact_mod_cast positive)]

theorem fraction_small_iff {X Y h d : Nat} (twice : 2 * h = d) (some_half : 0 < h)
    (some_divisor : 0 < Y) : X * d / Y % d < h ↔ 2 * (X % Y) < Y := by
  have parts : X * d = X % Y * d + X / Y * d * Y := by
    conv_lhs => rw [← Nat.mod_add_div X Y]
    ring
  have less : X % Y * d / Y < d := by
    rw [Nat.div_lt_iff_lt_mul some_divisor]
    rw [Nat.mul_comm d Y]
    exact Nat.mul_lt_mul_of_pos_right (Nat.mod_lt X some_divisor) (by omega)
  rw [parts, Nat.add_mul_div_right _ _ some_divisor, Nat.add_mul_mod_self_right,
    Nat.mod_eq_of_lt less, Nat.div_lt_iff_lt_mul some_divisor]
  have left : X % Y * d = h * (2 * (X % Y)) := by
    rw [← twice]
    ring
  rw [left]
  exact Nat.mul_lt_mul_left some_half

theorem settled_quotient_iff {dst : Ty} (fixed : dst.k = .fixedBin ∨ dst.k = .fixedDec)
    {base q : Nat} (even : base = 2 ∨ base = 10) (x : Int) {y : Int} (some_divisor : y ≠ 0) :
    settle dst (settled dst base q ((x * (base ^ q : Nat)).tdiv y)) = settle dst (x.tdiv y) ↔
      dst.k = .fixedBin ∨ q = 0 ∨ 2 * (x.natAbs % y.natAbs) < y.natAbs := by
  have some_base : 0 < base := by omega
  have positive : 0 < base ^ q := Nat.pow_pos some_base
  have cut := scaled_tdiv positive x y
  by_cases plain : dst.k = .fixedBin ∨ q = 0
  · rw [settled, if_pos plain, cut]
    exact iff_of_true rfl (by tauto)
  · have decimal : dst.k = .fixedDec := by tauto
    have some_digits : q ≠ 0 := by tauto
    have near := settled_near dst some_base q ((x * (base ^ q : Nat)).tdiv y)
    rw [cut] at near
    rw [settle_eq_iff decimal near, settled, if_neg plain]
    have twice : 2 * (base ^ q / 2) = base ^ q := by
      obtain ⟨k, rfl⟩ : ∃ k, q = k + 1 := ⟨q - 1, by omega⟩
      have two : 2 ∣ base ^ (k + 1) := Dvd.dvd.mul_left (by rcases even with rfl | rfl <;> decide) _
      omega
    have rounds := rounded_eq_tdiv_iff ((x * (base ^ q : Nat)).tdiv y) positive twice
    have size : ((x * (base ^ q : Nat)).tdiv y).natAbs = x.natAbs * base ^ q / y.natAbs := by
      rw [← mul_natAbs]
      exact Int.natAbs_tdiv _ _
    rw [cut, size,
      fraction_small_iff twice (by omega) (Int.natAbs_pos.mpr some_divisor)] at rounds
    rw [rounds]
    tauto

end Division

section Whole
variable {viaFloat : Ty → Ty → Int → Converted} {a b : Operand} {dst : Ty}

theorem toI64_of_fits {o : Operand} (fits : Fits 64 o.raw) : toI64 o = o.raw := by
  unfold toI64
  split
  · exact word_of_fits (by decide) fits
  · rfl

theorem fast_result (declared : Declared dst) (whole : dst.scale = 0) (few : FewDigits dst)
    (dividend : Fits 64 a.raw) (divisor : Fits 64 b.raw) (some_divisor : b.raw ≠ 0) :
    fastPath a b dst =
      if a.raw = -2 ^ 63 ∧ b.raw = -1 then some .undefined
      else some (.result (settle dst (a.raw.tdiv b.raw))) := by
  rw [fastPath, toI64_of_fits dividend, toI64_of_fits divisor, if_neg some_divisor]
  split
  · rfl
  · rename_i small
    have quotient : Fits 64 (a.raw.tdiv b.raw) := tdiv_fits_word dividend some_divisor small
    rw [settle_word declared whole few quotient]
    rfl

theorem level_scale (first : a.ty.scale = 0) (second : b.ty.scale = 0) :
    quotientScale a.ty b.ty = maxP a.ty b.ty - dividendDigits a.ty b.ty := by
  have none (o other : Ty) (whole : o.scale = 0) : operandScale o other = 0 := by
    unfold operandScale
    rw [whole]
    split <;> rfl
  rw [quotientScale, none a.ty b.ty first, none b.ty a.ty second]
  omega

structure WholePair (a b : Operand) : Prop where
  dividend : a.Admitted
  divisor : b.Admitted
  level : a.ty.scale = 0 ∧ b.ty.scale = 0
  inside : InRange a.ty a.raw ∧ InRange b.ty b.raw
  nonzero : b.raw ≠ 0

theorem emitSlash_whole (pair : WholePair a b) (dividend : Fits 64 a.raw)
    (divisor : Fits 64 b.raw) :
    emitSlash viaFloat a b = some (slash a.ty b.ty a.raw b.raw) ∧ Ranged a.ty b.ty a.raw := by
  have from_a := @arrives_whole viaFloat a.ty b.ty a.raw pair.dividend.fixed pair.divisor.fixed
    pair.dividend.prec pair.dividend.held pair.level.1 pair.inside.1 dividend
  have from_b := @arrives_whole viaFloat b.ty a.ty b.raw pair.divisor.fixed pair.dividend.fixed
    pair.divisor.prec pair.divisor.held pair.level.2 pair.inside.2 divisor
  have plain (d : Division) : d.sizes false = d := by
    cases d with
    | result c => simp [Division.sizes]
    | zerodivide | undefined => rfl
  obtain ⟨x, arrived, ranged⟩ :=
    @dividend_ranged viaFloat a b pair.dividend pair.divisor pair.inside.1
  cases arrived.symm.trans from_a
  refine ⟨?_, ranged⟩
  rw [emitSlash, from_a, from_b]
  exact congrArg some (plain _)

theorem slash_whole (pair : WholePair a b) (ranged : Ranged a.ty b.ty a.raw) :
    slash a.ty b.ty a.raw b.raw =
      if scaledDividend a.ty b.ty a.raw = -2 ^ (wordBits a.ty b.ty - 1) ∧ b.raw = -1 then .undefined
      else .result
        (if quotientScale a.ty b.ty < 0 then
          scaledUp a.ty b.ty (-quotientScale a.ty b.ty)
            ((scaledDividend a.ty b.ty a.raw).tdiv b.raw)
        else ⟨(scaledDividend a.ty b.ty a.raw).tdiv b.raw, false⟩) := by
  have some_digits := @dividend_digits a.ty b.ty pair.dividend.prec
  rw [slash, if_neg pair.nonzero, (numerator_exact some_digits ranged).1]

theorem convert_quotient (declared : Declared dst) (whole : dst.scale = 0) (few : FewDigits dst)
    {q : Nat} {r : Int} (digits : (q : Int) < maxP a.ty b.ty)
    (word : ¬BothDec a.ty b.ty → Fits 64 r) (small : BothDec a.ty b.ty → -10 ^ 31 < r ∧ r < 10 ^ 31)
    (quotient : Fits 64 (r.tdiv (quotientBase a.ty b.ty ^ q : Nat)))
    (scale : max (quotientScale a.ty b.ty) 0 = q) :
    convert (divResultType a.ty b.ty) dst r =
      some (settle dst (settled dst (quotientBase a.ty b.ty) q r)) := by
  unfold divResultType
  rw [scale]
  by_cases both : BothDec a.ty b.ty
  · have ten : quotientBase a.ty b.ty = 10 := if_pos both
    have top : maxP a.ty b.ty = 31 := if_pos both
    rw [ten] at quotient ⊢
    rw [if_pos both]
    exact settle_from_decimal declared whole (by omega) (small both) quotient
  · have two : quotientBase a.ty b.ty = 2 := if_neg both
    have top : maxP a.ty b.ty = 63 := if_neg both
    rw [two, if_neg both]
    exact settle_from_binary declared whole few (by omega) (word both)

theorem general_result (pair : WholePair a b) (declared : Declared dst) (whole : dst.scale = 0)
    (few : FewDigits dst) (dividend : Fits 64 a.raw) (divisor : Fits 64 b.raw)
    (short : dividendDigits a.ty b.ty ≤ maxP a.ty b.ty) (small : ¬(a.raw = -2 ^ 63 ∧ b.raw = -1)) :
    generalPath viaFloat a b dst =
      if scaledDividend a.ty b.ty a.raw = -2 ^ (wordBits a.ty b.ty - 1) ∧ b.raw = -1 then
        some .undefined
      else some (.result (settle dst (settled dst (quotientBase a.ty b.ty)
        (quotientScale a.ty b.ty).toNat ((scaledDividend a.ty b.ty a.raw).tdiv b.raw)))) := by
  obtain ⟨emitted, ranged⟩ := @emitSlash_whole viaFloat a b pair dividend divisor
  have some_digits := @dividend_digits a.ty b.ty pair.dividend.prec
  have scale := level_scale pair.level.1 pair.level.2
  obtain ⟨-, narrow⟩ := numerator_exact some_digits ranged
  rw [generalPath, emitted, slash_whole pair ranged]
  split
  · rfl
  · rename_i fits
    obtain ⟨in_word, in_range⟩ := quotient_word ranged narrow pair.nonzero fits
    rw [inRange_result] at in_range
    have positive : 0 < quotientBase a.ty b.ty ^ (quotientScale a.ty b.ty).toNat :=
      Nat.pow_pos (by have := quotientBase_pos a.ty b.ty; omega)
    have numerator : scaledDividend a.ty b.ty a.raw =
        a.raw * (quotientBase a.ty b.ty ^ (quotientScale a.ty b.ty).toNat : Nat) := by
      rw [scale, scaledDividend]
      push_cast
      rfl
    have cut : Fits 64 (((scaledDividend a.ty b.ty a.raw).tdiv b.raw).tdiv
        (quotientBase a.ty b.ty ^ (quotientScale a.ty b.ty).toNat : Nat)) := by
      rw [numerator, scaled_tdiv positive]
      exact tdiv_fits_word dividend pair.nonzero small
    have done := @convert_quotient a b dst declared whole few (quotientScale a.ty b.ty).toNat
      ((scaledDividend a.ty b.ty a.raw).tdiv b.raw) (by omega) in_word
      (fun both => by have := in_range short; rwa [if_pos both] at this) cut (by omega)
    rw [if_neg (by omega)]
    simp only [Option.bind_some, done, Option.map_some, Bool.false_or]

theorem general_zero (pair : WholePair a b) (declared : Declared dst) (whole : dst.scale = 0)
    (few : FewDigits dst) (dividend : Fits 64 a.raw) (divisor : Fits 64 b.raw)
    (long : ¬dividendDigits a.ty b.ty ≤ maxP a.ty b.ty)
    (fits : ¬(scaledDividend a.ty b.ty a.raw = -2 ^ (wordBits a.ty b.ty - 1) ∧ b.raw = -1))
    (less : a.raw.natAbs < b.raw.natAbs) :
    generalPath viaFloat a b dst = some (.result (settle dst 0)) := by
  obtain ⟨emitted, ranged⟩ := @emitSlash_whole viaFloat a b pair dividend divisor
  have scale := level_scale pair.level.1 pair.level.2
  have plain : scaledDividend a.ty b.ty a.raw = a.raw := by
    have none_up : (maxP a.ty b.ty - dividendDigits a.ty b.ty).toNat = 0 := by omega
    rw [scaledDividend, none_up, pow_zero, mul_one]
  have nothing : a.raw.tdiv b.raw = 0 := by
    have size : (a.raw.tdiv b.raw).natAbs = a.raw.natAbs / b.raw.natAbs := Int.natAbs_tdiv _ _
    rw [Nat.div_eq_of_lt less] at size
    omega
  have zero_up : scaledUp a.ty b.ty (-quotientScale a.ty b.ty) 0 = ⟨0, false⟩ := by
    obtain ⟨size, raw⟩ := @scaledUp_checks a.ty b.ty 0 (-quotientScale a.ty b.ty)
      (fun _ => by decide)
    rw [Int.zero_mul] at size raw
    have quiet : (scaledUp a.ty b.ty (-quotientScale a.ty b.ty) 0).size = false := by
      rw [← Bool.not_eq_true]
      exact fun raised => size.mp raised inRange_zero
    have number := raw inRange_zero
    cases up : scaledUp a.ty b.ty (-quotientScale a.ty b.ty) 0 with
    | mk n raised =>
      rw [up] at number quiet
      cases number
      cases quiet
      rfl
  have some_digits : (0 : Int) < maxP a.ty b.ty := by
    unfold maxP
    split <;> decide
  have done := @convert_quotient a b dst declared whole few 0 0 some_digits (fun _ => by decide)
    (fun _ => by decide) (by rw [Int.zero_tdiv]; decide) (by omega)
  have still : settled dst (quotientBase a.ty b.ty) 0 0 = 0 := by simp [settled]
  rw [still] at done
  rw [generalPath, emitted, slash_whole pair ranged, if_neg fits, plain, nothing, if_pos (by omega),
    zero_up]
  simp only [Option.bind_some, done, Option.map_some, Bool.false_or]

/-- Where the condition holds the two paths are one; and of operands in 64 bits whose dividend
    has no more digits than the maximum, there alone. -/
theorem fast_path_agrees (viaFloat : Ty → Ty → Int → Converted) (a b : Operand) (dst : Ty)
    (pair : WholePair a b) (declared : Declared dst) (whole : dst.scale = 0) :
    (FastFits a b dst → FastAgrees viaFloat a b dst) ∧
      (Fits 64 a.raw → Fits 64 b.raw → FewDigits dst →
        dividendDigits a.ty b.ty ≤ maxP a.ty b.ty →
        (FastAgrees viaFloat a b dst ↔ FastFits a b dst)) := by
  have scale := level_scale pair.level.1 pair.level.2
  have even : quotientBase a.ty b.ty = 2 ∨ quotientBase a.ty b.ty = 10 := by
    unfold quotientBase
    split <;> decide
  have core (dividend : Fits 64 a.raw) (divisor : Fits 64 b.raw) (few : FewDigits dst)
      (short : dividendDigits a.ty b.ty ≤ maxP a.ty b.ty) :
      FastAgrees viaFloat a b dst ↔ FastFits a b dst := by
    have fast := fast_result declared whole few dividend divisor pair.nonzero
    by_cases small : a.raw = -2 ^ 63 ∧ b.raw = -1
    · rw [if_pos small] at fast
      refine iff_of_false ?_ fun fits => fits.2.2.2.1 small
      rintro ⟨c, done, -⟩
      cases fast.symm.trans done
    have general :=
      @general_result viaFloat a b dst pair declared whole few dividend divisor short small
    by_cases overflows : scaledDividend a.ty b.ty a.raw = -2 ^ (wordBits a.ty b.ty - 1) ∧ b.raw = -1
    · rw [if_pos overflows] at general
      refine iff_of_false ?_ fun fits => fits.2.2.2.2.1 overflows
      rintro ⟨c, -, done⟩
      cases general.symm.trans done
    rw [if_neg small] at fast
    rw [if_neg overflows] at general
    have numerator : scaledDividend a.ty b.ty a.raw =
        a.raw * (quotientBase a.ty b.ty ^ (quotientScale a.ty b.ty).toNat : Nat) := by
      rw [scale, scaledDividend]
      push_cast
      rfl
    have same := @settled_quotient_iff dst declared.1 (quotientBase a.ty b.ty)
      (quotientScale a.ty b.ty).toNat even a.raw b.raw pair.nonzero
    rw [← numerator] at same
    have level : (quotientScale a.ty b.ty).toNat = 0 ↔
      dividendDigits a.ty b.ty = maxP a.ty b.ty := by
      omega
    have agrees : FastAgrees viaFloat a b dst ↔
        settle dst (settled dst (quotientBase a.ty b.ty) (quotientScale a.ty b.ty).toNat
          ((scaledDividend a.ty b.ty a.raw).tdiv b.raw)) = settle dst (a.raw.tdiv b.raw) := by
      rw [FastAgrees, fast, general]
      simp only [Option.some.injEq, Division.result.injEq]
      constructor
      · rintro ⟨c, one, two⟩
        exact two.trans one.symm
      · exact fun equal => ⟨_, rfl, equal⟩
    rw [agrees, same, level, FastFits, if_pos short]
    exact ⟨fun due => ⟨dividend, divisor, few, small, overflows, due⟩, fun fits => fits.2.2.2.2.2⟩
  refine ⟨fun fits => ?_, fun dividend divisor few short => core dividend divisor few short⟩
  obtain ⟨dividend, divisor, few, small, overflows, due⟩ := id fits
  by_cases short : dividendDigits a.ty b.ty ≤ maxP a.ty b.ty
  · exact (core dividend divisor few short).mpr fits
  · rw [if_neg short] at due
    have nothing : a.raw.tdiv b.raw = 0 := by
      have size : (a.raw.tdiv b.raw).natAbs = a.raw.natAbs / b.raw.natAbs := Int.natAbs_tdiv _ _
      rw [Nat.div_eq_of_lt due] at size
      omega
    have fast := fast_result declared whole few dividend divisor pair.nonzero
    rw [if_neg small, nothing] at fast
    exact ⟨_, fast, general_zero pair declared whole few dividend divisor short overflows due⟩

end Whole

theorem seven_by_three :
    FastAgrees ideal ⟨.fixedDec 5 0, 7⟩ ⟨.fixedDec 5 0, 3⟩ (.fixedDec 5 0) := by
  have agree := fast_path_agrees ideal ⟨.fixedDec 5 0, 7⟩ ⟨.fixedDec 5 0, 3⟩ (.fixedDec 5 0)
    ⟨⟨by decide, by decide, by decide⟩, ⟨by decide, by decide, by decide⟩, by decide, by decide,
      by decide⟩ (by decide) rfl
  exact agree.1 ⟨by decide, by decide, fun _ => by decide, by decide, by decide, by decide⟩

/-- 5 by 3 in a DECIMAL(5) is 1 and not 2, a dividend of more than 63 bits is cut to its word, and
    the smallest BINARY(31) over -1 is defined on the fast path alone. -/
theorem paths_part :
    (fastPath ⟨.fixedDec 5 0, 5⟩ ⟨.fixedDec 5 0, 3⟩ (.fixedDec 5 0) = some (.result ⟨1, false⟩) ∧
      generalPath ideal ⟨.fixedDec 5 0, 5⟩ ⟨.fixedDec 5 0, 3⟩ (.fixedDec 5 0) =
        some (.result ⟨2, false⟩)) ∧
    (fastPath ⟨.fixedDec 20 0, 2 ^ 64 + 6⟩ ⟨.fixedDec 20 0, 2⟩ (.fixedDec 20 0) =
        some (.result ⟨3, false⟩) ∧
      generalPath ideal ⟨.fixedDec 20 0, 2 ^ 64 + 6⟩ ⟨.fixedDec 20 0, 2⟩ (.fixedDec 20 0) =
        some (.result ⟨2 ^ 63 + 3, false⟩)) ∧
    (fastPath ⟨bin 31 0, -2 ^ 31⟩ ⟨bin 31 0, -1⟩ (bin 63 0) = some (.result ⟨2 ^ 31, false⟩) ∧
      generalPath ideal ⟨bin 31 0, -2 ^ 31⟩ ⟨bin 31 0, -1⟩ (bin 63 0) = some .undefined) ∧
    ¬FastAgrees ideal ⟨.fixedDec 5 0, 5⟩ ⟨.fixedDec 5 0, 3⟩ (.fixedDec 5 0) := by
  refine ⟨⟨by decide +kernel, by decide +kernel⟩, ⟨by decide +kernel, by decide +kernel⟩,
    ⟨by decide +kernel, by decide +kernel⟩, ?_⟩
  rintro ⟨c, fast, general⟩
  have one : fastPath ⟨.fixedDec 5 0, 5⟩ ⟨.fixedDec 5 0, 3⟩ (.fixedDec 5 0) =
      some (.result ⟨1, false⟩) := by decide +kernel
  have two : generalPath ideal ⟨.fixedDec 5 0, 5⟩ ⟨.fixedDec 5 0, 3⟩ (.fixedDec 5 0) =
      some (.result ⟨2, false⟩) := by decide +kernel
  cases one.symm.trans fast
  cases two.symm.trans general

end PliQuotientFastPath
