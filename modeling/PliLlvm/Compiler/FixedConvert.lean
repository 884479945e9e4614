import PliLlvm.Compiler.ConstFold

/- Conversion between FIXED types (src/irgen.cpp, convert), with SIZE enabled. A value of
   iN is an integer reduced to N bits after every operation, as LLVM's wrapping instructions
   leave it, and so are the constants, which are computed by repeated multiplication in long
   long, PliI128 or APInt. A shift by 64 or more and a division by a zero constant are
   undefined; here they give a shift and a quotient of 0. The pairs that go through FLOAT are
   not modelled. -/
namespace PliFixedConvert
open FixedPoint PliConstFold

def pliPow10 (k : Int) : Int := word 64 (10 ^ k.toNat)

def pliPow10_128 (k : Int) : Int := word 128 (10 ^ k.toNat)

def intPowConst (w : Nat) (base exp : Int) : Int := word w (base ^ exp.toNat)

def oneShl (k : Int) : Int := word 64 (2 ^ k.toNat)

structure Converted where
  raw : Int
  size : Bool
  deriving DecidableEq

def magTrap (v limit : Int) : Bool := limit ≤ v || v ≤ -limit

def wideMagTrap (bits : Nat) (v prec : Int) : Bool :=
  let lim := word bits (10 ^ prec.toNat)
  lim ≤ v || v ≤ word bits (-lim)

def fixedBinPrecTrap (bits : Nat) (v prec : Int) : Converted :=
  if prec ≤ 0 ∨ bits - 1 ≤ prec then ⟨v, false⟩
  else
    let lim := 2 ^ prec.toNat
    if lim ≤ v ∨ v < -lim then ⟨word (prec.toNat + 1) v, true⟩ else ⟨v, false⟩

theorem trap_inside (bits : Nat) {v prec : Int} (low : -2 ^ prec.toNat ≤ v)
    (high : v < 2 ^ prec.toNat) : fixedBinPrecTrap bits v prec = ⟨v, false⟩ := by
  unfold fixedBinPrecTrap
  split
  · rfl
  · rw [if_neg (by omega)]

def checkedMul (bits : Nat) (a b : Int) : Converted :=
    ⟨word bits (a * b), !decide (Fits bits (a * b))⟩

def fitFixed (dst : Ty) (r : Int) : Int := word dst.intBits r

def roundedSDiv (bits : Nat) (r half div : Int) : Int :=
  let sign := if r < 0 then -1 else 1
  let adj := word bits (half * sign)
  word bits ((word bits (r + adj)).tdiv div)

def needDec (src dst : Ty) : Bool :=
  let dqDec := dst.scale - src.scale
  let decFits := src.k = .fixedDec ∧ src.prec + max dqDec 0 ≤ dst.prec
  dst.prec ≤ 18 && !decFits

def decLimit (dst : Ty) : Int := if dst.prec ≤ 18 then pliPow10 dst.prec else 0

def checkBin (bits : Nat) (dst : Ty) (r : Int) : Converted :=
  let c := fixedBinPrecTrap bits r dst.prec
  ⟨fitFixed dst c.raw, c.size⟩

def checkDec (src dst : Ty) (r : Int) : Converted :=
  ⟨fitFixed dst r, needDec src dst && magTrap r (decLimit dst)⟩

def binToBin (src dst : Ty) (raw : Int) : Converted :=
  let dq := dst.scale - src.scale
  if dq = 0 then checkBin src.intBits dst raw
  else if 0 < dq then checkBin 128 dst (word 128 (raw * oneShl dq))
  else checkBin 128 dst (word 128 (raw.tdiv (oneShl (-dq))))

/-- The i256 path of a wide source: a negative scale of the target plays no part. -/
def decToBinWide (src dst : Ty) (raw : Int) : Int :=
  let r := if 0 < dst.scale then word 256 (raw * intPowConst 256 2 dst.scale) else raw
  if 0 < src.scale then word 256 (r.tdiv (intPowConst 256 10 src.scale))
  else if src.scale < 0 then word 256 (r * intPowConst 256 10 (-src.scale))
  else r

def decToBinNarrow (src dst : Ty) (raw : Int) : Int :=
  let r :=
    if 0 < dst.scale then word 128 (raw * oneShl dst.scale)
    else if dst.scale < 0 then word 128 (raw.tdiv (oneShl (-dst.scale)))
    else raw
  if 0 < src.scale then word 128 (r.tdiv (pliPow10_128 src.scale))
  else if src.scale < 0 then word 128 (r * pliPow10_128 (-src.scale))
  else r

def decToBin (src dst : Ty) (raw : Int) : Converted :=
  if src.intBits = 128 then checkBin 256 dst (decToBinWide src dst raw)
  else checkBin 128 dst (decToBinNarrow src dst raw)

def binToDecWide (src dst : Ty) (raw : Int) : Int :=
  let r := if 0 < dst.scale then word 256 (raw * intPowConst 256 10 dst.scale) else raw
  let q := src.scale
  if 0 < q then roundedSDiv 256 r (intPowConst 256 2 (q - 1)) (intPowConst 256 2 q)
  else if q < 0 then word 256 (r * intPowConst 256 2 (-q))
  else r

def binToDecNarrow (src dst : Ty) (raw : Int) : Int :=
  let r :=
    if 0 < dst.scale then word 128 (raw * pliPow10 dst.scale)
    else if dst.scale < 0 then word 128 (raw.tdiv (pliPow10 (-dst.scale)))
    else raw
  let q := src.scale
  if 0 < q then roundedSDiv 128 r (oneShl (q - 1)) (oneShl q)
  else if q < 0 then word 128 (r * oneShl (-q))
  else r

def binToDec (src dst : Ty) (raw : Int) : Converted :=
  if dst.intBits = 128 then
    let r := binToDecWide src dst raw
    ⟨fitFixed dst r, wideMagTrap 256 r dst.prec⟩
  else checkDec src dst (binToDecNarrow src dst raw)

def decToDec (src dst : Ty) (raw : Int) : Converted :=
  let dqDec := dst.scale - src.scale
  let wide := max src.intBits dst.intBits = 128
  let bits := if wide then 128 else 64
  let pow := if wide then pliPow10_128 else pliPow10
  if 0 < dqDec then
    let c := checkedMul bits raw (pow dqDec)
    let d := checkDec src dst c.raw
    ⟨d.raw, c.size || d.size⟩
  else if dqDec < 0 then
    let k := -dqDec
    if dst.scale < 0 then checkDec src dst (word bits (raw.tdiv (pow k)))
    else checkDec src dst (roundedSDiv bits raw (word bits (pow (k - 1) * 5)) (pow k))
  else checkDec src dst raw

def throughFloat (src dst : Ty) : Bool :=
  (src.k = .fixedBin && dst.k = .fixedDec && (dst.intBits =
    128 || 18 < dst.prec) && 38 < dst.scale) ||
    (src.k = .fixedDec && dst.k = .fixedBin && src.intBits = 128 && 0 < dst.scale && 38 < src.scale)

def convert (src dst : Ty) (raw : Int) : Option Converted :=
  if throughFloat src dst then none
  else match src.k, dst.k with
    | .fixedBin, .fixedBin => some (binToBin src dst raw)
    | .fixedDec, .fixedBin => some (decToBin src dst raw)
    | .fixedBin, .fixedDec => some (binToDec src dst raw)
    | .fixedDec, .fixedDec => some (decToDec src dst raw)
    | _, _ => none

/- What a conversion is for. -/
def base (ty : Ty) : Nat := if ty.k = .fixedBin then 2 else 10

def value (ty : Ty) (raw : Int) : ℚ := raw * (base ty : ℚ) ^ (-ty.scale)

def required (dst : Ty) (x : ℚ) : Int :=
  if dst.k = .fixedDec ∧ 0 ≤ dst.scale then roundAway (x * (base dst : ℚ) ^ dst.scale)
  else truncate (x * (base dst : ℚ) ^ dst.scale)

def InRange (ty : Ty) (n : Int) : Prop :=
  if ty.k = .fixedBin then -2 ^ ty.prec.toNat ≤ n ∧ n < 2 ^ ty.prec.toNat
  else -10 ^ ty.prec.toNat < n ∧ n < 10 ^ ty.prec.toNat

instance (ty : Ty) (n : Int) : Decidable (InRange ty n) := by
  unfold InRange
  infer_instance

def Declared (ty : Ty) : Prop :=
  (ty.k = .fixedBin ∨ ty.k = .fixedDec) ∧ 0 < ty.prec ∧
    ty.wideDec = (decide (ty.k = .fixedDec) && decide (18 < ty.prec))

instance (ty : Ty) : Decidable (Declared ty) := inferInstanceAs (Decidable (_ ∧ _ ∧ _))

def Stored (ty : Ty) (raw : Int) : Prop := InRange ty raw ∧ Fits ty.intBits raw

instance (ty : Ty) (raw : Int) : Decidable (Stored ty raw) := inferInstanceAs (Decidable (_ ∧ _))

/-- The target's word holds the number, or the number is out of the declared range anyway. -/
def SlotHolds (ty : Ty) (n : Int) : Prop := InRange ty n → Fits ty.intBits n

instance (ty : Ty) (n : Int) : Decidable (SlotHolds ty n) := inferInstanceAs (Decidable (_ → _))

def ExactAt (dst : Ty) (v : Int) (c : Converted) : Prop :=
  (c.size = true ↔ ¬ InRange dst v) ∧ (InRange dst v → c.raw = v)

def Exact (src dst : Ty) (raw : Int) : Prop :=
  ∃ c, convert src dst raw = some c ∧ ExactAt dst (required dst (value src raw)) c

theorem zpow_parts {b : ℚ} (nonzero : b ≠ 0) (q : Int) : b ^ q = b ^ q.toNat / b ^ (-q).toNat := by
  rw [← zpow_natCast, ← zpow_natCast, ← zpow_sub₀ nonzero]
  congr 1
  omega

theorem base_pos (ty : Ty) : 0 < base ty := by
  unfold base
  split <;> omega

theorem scaled_fraction (src dst : Ty) (raw : Int) :
    value src raw * (base dst : ℚ) ^ dst.scale =
      ((raw * base src ^ (-src.scale).toNat * base dst ^ dst.scale.toNat : Int) : ℚ) /
        ((base src ^ src.scale.toNat * base dst ^ (-dst.scale).toNat : Nat) : ℚ) := by
  have source : (base src : ℚ) ≠ 0 := by exact_mod_cast (base_pos src).ne'
  have target : (base dst : ℚ) ≠ 0 := by exact_mod_cast (base_pos dst).ne'
  rw [value, zpow_parts source, zpow_parts target, neg_neg]
  push_cast
  field_simp

theorem scaled_same_base {src dst : Ty} (same : base src = base dst) (raw : Int) :
    value src raw * (base dst : ℚ) ^ dst.scale =
      ((raw * base dst ^ (dst.scale - src.scale).toNat : Int) : ℚ) /
        ((base dst ^ (-(dst.scale - src.scale)).toNat : Nat) : ℚ) := by
  have target : (base dst : ℚ) ≠ 0 := by exact_mod_cast (base_pos dst).ne'
  rw [value, same, mul_assoc, ← zpow_add₀ target, zpow_parts target]
  have difference : -src.scale + dst.scale = dst.scale - src.scale := by omega
  rw [difference]
  push_cast
  ring

def truncates (dst : Ty) : Prop := dst.k = .fixedBin ∨ dst.scale < 0

variable {dst : Ty}

theorem required_truncated (truncated : truncates dst) {x : ℚ} {n : Int} {d : Nat}
    (pos : 0 < d) (scaled : x * (base dst : ℚ) ^ dst.scale = (n : ℚ) / d) :
    required dst x = n.tdiv d := by
  have other : ¬ (dst.k = .fixedDec ∧ 0 ≤ dst.scale) := by
    rintro ⟨decimal, nonneg⟩
    rcases truncated with binary | negative
    · rw [decimal] at binary
      cases binary
    · omega
  rw [required, if_neg other, scaled, truncate_div n pos]

theorem required_rounded (decimal : dst.k = .fixedDec) (nonneg : 0 ≤ dst.scale) {x : ℚ}
    {n half : Int} {d : Nat} (pos : 0 < d) (twice : 2 * half = d)
    (scaled : x * (base dst : ℚ) ^ dst.scale = (n : ℚ) / d) :
    required dst x = (towardSign n half).tdiv d := by
  rw [required, if_pos ⟨decimal, nonneg⟩, scaled, roundAway_div pos twice]

variable {n : Int}

theorem required_whole {x : ℚ}
    (scaled : x * (base dst : ℚ) ^ dst.scale = (n : ℚ)) : required dst x = n := by
  unfold required
  split
  · rw [scaled, roundAway_intCast]
  · rw [scaled, truncate_intCast]

theorem slot_cases (ty : Ty) : ty.intBits = 32 ∨ ty.intBits = 64 ∨ ty.intBits = 128 := by
  unfold Ty.intBits
  split
  · split <;> simp
  · split
    · simp
    · split <;> simp
  · simp

theorem intBits_pos (ty : Ty) : 0 < ty.intBits := by
  have := slot_cases ty
  omega

def Checks (c : Converted) (dst : Ty) (r : Int) : Prop :=
  (c.size = true ↔ ¬ InRange dst r) ∧ (InRange dst r → c.raw = fitFixed dst r)

variable {r : Int}

theorem checks_exact_iff {c : Converted} (checks : Checks c dst r) {v : Int}
    (slot : SlotHolds dst v)
    (kept : InRange dst v → SlotHolds dst r) :
    ExactAt dst v c ↔ r = v ∨ ¬ InRange dst v ∧ ¬ InRange dst r := by
  have stored (holds : SlotHolds dst r) (inside : InRange dst r) : c.raw = r :=
    (checks.2 inside).trans (word_of_fits (intBits_pos dst) (holds inside))
  constructor
  · intro exact_at
    by_cases same : r = v
    · exact Or.inl same
    · have large : ¬ InRange dst v := by
        intro due
        have quiet : ¬ c.size = true := fun raised => exact_at.1.mp raised due
        have inside : InRange dst r := by
          by_contra outside
          exact quiet (checks.1.mpr outside)
        exact same ((stored (kept due) inside).symm.trans (exact_at.2 due))
      exact Or.inr ⟨large, checks.1.mp (exact_at.1.mpr large)⟩
  · rintro (rfl | ⟨large, outside⟩)
    · exact ⟨checks.1, stored slot⟩
    · exact ⟨⟨fun _ => large, fun _ => checks.1.mpr outside⟩, fun due => absurd due large⟩

variable {ty : Ty} {v : Int}

theorem inRange_toward (toward : Toward r v) (inside : InRange ty v) : InRange ty r := by
  unfold InRange Toward at *
  have two : (0 : Int) < 2 ^ ty.prec.toNat := by positivity
  have ten : (0 : Int) < 10 ^ ty.prec.toNat := by positivity
  split at inside
  · rw [if_pos ‹_›]
    omega
  · rw [if_neg ‹_›]
    omega

theorem pow_fits {w b k n : Nat} (some_base : 0 < b) (le : k ≤ n)
    (fits : b ^ n < 2 ^ (w - 1)) : Fits w ((b : Int) ^ k) := by
  have smaller : b ^ k ≤ b ^ n := Nat.pow_le_pow_right some_base le
  have bound : ((b ^ k : Nat) : Int) < 2 ^ (w - 1) := by exact_mod_cast lt_of_le_of_lt smaller fits
  push_cast at bound
  have nonneg : (0 : Int) ≤ (b : Int) ^ k := by positivity
  constructor
  · have some_range : (0 : Int) < 2 ^ (w - 1) := by positivity
    omega
  · exact bound

variable {k : Int}

theorem oneShl_eq (le : k ≤ 62) : oneShl k = 2 ^ k.toNat :=
  word_of_fits (by omega) (@pow_fits 64 2 _ 62 (by omega) (by omega) (by norm_num))

theorem pliPow10_eq (le : k ≤ 18) : pliPow10 k = 10 ^ k.toNat :=
  word_of_fits (by omega) (@pow_fits 64 10 _ 18 (by omega) (by omega) (by norm_num))

theorem pliPow10_128_eq (le : k ≤ 38) : pliPow10_128 k = 10 ^ k.toNat :=
  word_of_fits (by omega) (@pow_fits 128 10 _ 38 (by omega) (by omega) (by norm_num))

theorem intPowConst_two (le : k ≤ 254) : intPowConst 256 2 k = 2 ^ k.toNat :=
  word_of_fits (by omega) (@pow_fits 256 2 _ 254 (by omega) (by omega) (by norm_num))

theorem intPowConst_ten (le : k ≤ 76) : intPowConst 256 10 k = 10 ^ k.toNat :=
  word_of_fits (by omega) (@pow_fits 256 10 _ 76 (by omega) (by omega) (by norm_num))

theorem tdiv_fits {w : Nat} (fits : Fits w n) (d : Nat) : Fits w (n.tdiv d) := by
  have small := Int.natAbs_tdiv_le_natAbs n d
  unfold Fits at *
  rcases Nat.eq_zero_or_pos d with rfl | pos
  · simp only [Nat.cast_zero, Int.tdiv_zero]
    omega
  · rcases Int.le_total 0 n with nonneg | nonpos
    · have := Int.tdiv_nonneg nonneg (Int.natCast_nonneg d)
      omega
    · have : 0 ≤ (-n).tdiv d := Int.tdiv_nonneg (by omega) (Int.natCast_nonneg d)
      rw [Int.neg_tdiv] at this
      omega

theorem checkBin_checks {bits : Nat} {dst : Ty} {r : Int} (binary : dst.k = .fixedBin)
    (some_prec : 0 < dst.prec) (fits : Fits bits r) : Checks (checkBin bits dst r) dst r := by
  unfold Checks checkBin fixedBinPrecTrap
  split
  · rename_i whole_slot
    have inside : InRange dst r := by
      have power : (2 : Int) ^ (bits - 1) ≤ 2 ^ dst.prec.toNat := by
        exact_mod_cast Nat.pow_le_pow_right (by omega) (by omega : bits - 1 ≤ dst.prec.toNat)
      rw [InRange, if_pos binary]
      unfold Fits at fits
      omega
    simp [inside]
  · dsimp only
    split
    · rename_i outside
      have large : ¬ InRange dst r := by
        rw [InRange, if_pos binary]
        omega
      simp [large]
    · rename_i inside
      have small : InRange dst r := by
        rw [InRange, if_pos binary]
        omega
      simp [small]

theorem slot_decimal (decimal : dst.k = .fixedDec) (declared : Declared dst)
    (prec : dst.prec ≤ 38) :
    SlotHolds dst r := by
  intro inside
  have power : ∀ n : Nat, dst.prec ≤ n → (10 : Int) ^ dst.prec.toNat ≤ 10 ^ n := by
    intro n le
    exact_mod_cast Nat.pow_le_pow_right (by omega) (by omega : dst.prec.toNat ≤ n)
  obtain ⟨-, -, wide⟩ := declared
  simp only [decimal, decide_true, Bool.true_and] at wide
  rw [InRange, if_neg (by simp [decimal])] at inside
  unfold Ty.intBits
  rw [decimal, wide]
  dsimp only
  by_cases many : 18 < dst.prec
  · have := power 38 (by omega)
    rw [if_pos (by simpa using many)]
    unfold Fits
    omega
  · rw [if_neg (by simpa using many)]
    split
    · have := power 9 (by omega)
      unfold Fits
      omega
    · have := power 18 (by omega)
      unfold Fits
      omega

theorem magTrap_iff (decimal : dst.k = .fixedDec) (prec : dst.prec ≤ 18) (r : Int) :
    magTrap r (decLimit dst) = true ↔ ¬ InRange dst r := by
  rw [decLimit, if_pos prec, pliPow10_eq prec, magTrap, InRange, if_neg (by simp [decimal])]
  simp only [Bool.or_eq_true, decide_eq_true_eq]
  omega

theorem checkDec_checks {src dst : Ty} {r : Int} (decimal : dst.k = .fixedDec)
    (prec : dst.prec ≤ 18)
    (unneeded : needDec src dst = false → InRange dst r) : Checks (checkDec src dst r) dst r := by
  refine ⟨?_, fun _ => rfl⟩
  cases needed : needDec src dst with
  | true => simp [checkDec, needed, magTrap_iff decimal prec]
  | false => simp [checkDec, needed, unneeded needed]

theorem base_binary (binary : ty.k = .fixedBin) : base ty = 2 := by
  rw [base, if_pos binary]

theorem base_decimal (decimal : ty.k = .fixedDec) : base ty = 10 := by
  rw [base, if_neg (by simp [decimal])]

variable {raw : Int}

theorem stored_fits (stored : Stored ty raw) {w : Nat} (wide : ty.intBits ≤ w) :
    Fits w raw := fits_mono wide stored.2

theorem fits_of_mul {w : Nat} {m : Int} (some_factor : 0 < m)
    (fits : Fits w (n * m)) : Fits w n := by
  unfold Fits at *
  have some_range : (0 : Int) < 2 ^ (w - 1) := by positivity
  constructor
  · rcases Int.le_total 0 n with nonneg | nonpos
    · omega
    · have : n * m ≤ n := by nlinarith
      omega
  · rcases Int.le_total 0 n with nonneg | nonpos
    · have : n ≤ n * m := by nlinarith
      omega
    · omega

theorem fits_mul_pow {w a b k n : Nat} {x : Int} (fits : Fits (a + 1) x)
    (some_base : 0 < b) (le : k ≤ n)
    (power : b ^ n ≤ 2 ^ (w - 1 - a)) (room : a ≤ w - 1) : Fits w (x * (b : Int) ^ k) := by
  have smaller : (b : Int) ^ k ≤ 2 ^ (w - 1 - a) := by
    exact_mod_cast le_trans (Nat.pow_le_pow_right some_base le) power
  have positive : (0 : Int) < (b : Int) ^ k := by
    have : 0 < b ^ k := Nat.pow_pos some_base
    exact_mod_cast this
  have total : (2 : Int) ^ (w - 1) = 2 ^ a * 2 ^ (w - 1 - a) := by
    rw [← pow_add]
    congr 1
    omega
  have range : (0 : Int) < 2 ^ a := by positivity
  unfold Fits at *
  rw [Nat.add_sub_cancel] at fits
  rw [total]
  constructor <;> nlinarith

variable {src : Ty}

theorem binToBin_computes (source : src.k = .fixedBin)
    (target : dst.k = .fixedBin) (declared : Declared dst) (stored : Stored src raw)
    (powers : (dst.scale - src.scale).natAbs ≤ 62) :
    Checks (binToBin src dst raw) dst (required dst (value src raw)) := by
  have scaled := @scaled_same_base src dst (by rw [base_binary source, base_binary target]) raw
  have word_size : src.intBits ≤ 64 := by
    unfold Ty.intBits
    rw [source]
    dsimp only
    split <;> omega
  have kept : Fits 64 raw := stored_fits stored word_size
  rw [base_binary target] at scaled
  unfold binToBin
  dsimp only
  split
  · rename_i level
    rw [level] at scaled
    have due : required dst (value src raw) = raw :=
      required_whole (by rw [base_binary target, scaled]; simp)
    rw [due]
    exact checkBin_checks target declared.2.1 stored.2
  · split
    · rename_i up
      have down : (-(dst.scale - src.scale)).toNat = 0 := by omega
      rw [down] at scaled
      have due : required dst (value src raw) = raw * 2 ^ (dst.scale - src.scale).toNat :=
        required_whole (by rw [base_binary target, scaled]; simp)
      have fits : Fits 128 (raw * 2 ^ (dst.scale - src.scale).toNat) :=
        @fits_mul_pow 128 63 2 _ 62 raw kept (by omega) (by omega) (by norm_num) (by omega)
      rw [oneShl_eq (by omega), word_of_fits (by omega) fits, due]
      exact checkBin_checks target declared.2.1 fits
    · rename_i level up
      have down : (dst.scale - src.scale).toNat = 0 := by omega
      rw [down] at scaled
      have due : required dst (value src raw) =
        raw.tdiv (2 ^ (-(dst.scale - src.scale)).toNat : Nat) := by
        refine required_truncated (Or.inl target) (Nat.pow_pos (by omega)) ?_
        rw [base_binary target, scaled, pow_zero, mul_one]
      have fits : Fits 128 (raw.tdiv (2 ^ (-(dst.scale - src.scale)).toNat : Nat)) :=
        fits_mono (by omega) (tdiv_fits kept _)
      rw [oneShl_eq (by omega), due]
      push_cast at fits ⊢
      rw [word_of_fits (by omega) fits]
      exact checkBin_checks target declared.2.1 fits

theorem decToBinNarrow_eq (target_scale : dst.scale.natAbs ≤ 62)
    (source_scale : src.scale.natAbs ≤ 38)
    (fits : Fits 128 (raw.tdiv (2 ^ (-dst.scale).toNat : Nat) * 2 ^ dst.scale.toNat *
      10 ^ (-src.scale).toNat)) :
    decToBinNarrow src dst raw =
      (raw.tdiv (2 ^ (-dst.scale).toNat : Nat) * 2 ^ dst.scale.toNat * 10 ^ (-src.scale).toNat).tdiv
        (10 ^ src.scale.toNat : Nat) := by
  have inner := fits_of_mul (by positivity) fits
  have first : (if 0 < dst.scale then word 128 (raw * oneShl dst.scale)
      else if dst.scale < 0 then word 128 (raw.tdiv (oneShl (-dst.scale))) else raw) =
      raw.tdiv (2 ^ (-dst.scale).toNat : Nat) * 2 ^ dst.scale.toNat := by
    split
    · have down : (-dst.scale).toNat = 0 := by omega
      rw [down] at inner ⊢
      simp only [pow_zero, Nat.cast_one, Int.tdiv_one] at inner ⊢
      rw [oneShl_eq (by omega), word_of_fits (by omega) inner]
    · split
      · have up : dst.scale.toNat = 0 := by omega
        rw [up] at inner ⊢
        rw [pow_zero, mul_one] at inner ⊢
        rw [oneShl_eq (by omega)]
        push_cast at inner ⊢
        rw [word_of_fits (by omega) inner]
      · have level : dst.scale = 0 := by omega
        simp [level]
  unfold decToBinNarrow
  rw [first]
  dsimp only
  split
  · have down : (-src.scale).toNat = 0 := by omega
    rw [down, pow_zero, mul_one, pliPow10_128_eq (by omega)]
    have quotient := tdiv_fits inner (10 ^ src.scale.toNat)
    push_cast at quotient ⊢
    rw [word_of_fits (by omega) quotient]
  · have up : src.scale.toNat = 0 := by omega
    rw [up]
    simp only [pow_zero, Nat.cast_one, Int.tdiv_one]
    split
    · rw [pliPow10_128_eq (by omega), word_of_fits (by omega) fits]
    · have level : src.scale = 0 := by omega
      simp [level]

theorem decToBinWide_eq (target_scale : dst.scale ≤ 254) (source_scale : src.scale.natAbs ≤ 76)
    (fits : Fits 256 (raw * 2 ^ dst.scale.toNat * 10 ^ (-src.scale).toNat)) :
    decToBinWide src dst raw =
      (raw * 2 ^ dst.scale.toNat * 10 ^ (-src.scale).toNat).tdiv (10 ^ src.scale.toNat : Nat) := by
  have inner := fits_of_mul (by positivity) fits
  have first : (if 0 < dst.scale then word 256 (raw * intPowConst 256 2 dst.scale) else raw) =
      raw * 2 ^ dst.scale.toNat := by
    split
    · rw [intPowConst_two target_scale, word_of_fits (by omega) inner]
    · have up : dst.scale.toNat = 0 := by omega
      rw [up, pow_zero, mul_one]
  unfold decToBinWide
  rw [first]
  dsimp only
  split
  · have down : (-src.scale).toNat = 0 := by omega
    rw [down, pow_zero, mul_one, intPowConst_ten (by omega)]
    have quotient := tdiv_fits inner (10 ^ src.scale.toNat)
    push_cast at quotient ⊢
    rw [word_of_fits (by omega) quotient]
  · have up : src.scale.toNat = 0 := by omega
    rw [up]
    simp only [pow_zero, Nat.cast_one, Int.tdiv_one]
    split
    · rw [intPowConst_ten (by omega), word_of_fits (by omega) fits]
    · have level : src.scale = 0 := by omega
      simp [level]

theorem decToBin_due (source : src.k = .fixedDec) (target : dst.k = .fixedBin) (raw : Int) :
    required dst (value src raw) =
      (raw * 2 ^ dst.scale.toNat * 10 ^ (-src.scale).toNat).tdiv
        (10 ^ src.scale.toNat * 2 ^ (-dst.scale).toNat : Nat) := by
  refine required_truncated (Or.inl target) (by positivity) ?_
  rw [scaled_fraction, base_decimal source, base_binary target]
  push_cast
  congr 1
  ring

theorem binToDec_scaled (source : src.k = .fixedBin) (target : dst.k = .fixedDec) (raw : Int) :
    value src raw * (base dst : ℚ) ^ dst.scale =
      ((raw * 10 ^ dst.scale.toNat * 2 ^ (-src.scale).toNat : Int) : ℚ) /
        ((2 ^ src.scale.toNat * 10 ^ (-dst.scale).toNat : Nat) : ℚ) := by
  rw [scaled_fraction, base_decimal target, base_binary source]
  push_cast
  congr 1
  ring

theorem roundedSDiv_eq {bits half : Nat} (wide : 0 < bits) (kept : Fits bits half)
    (fits : Fits bits (towardSign r half)) (d : Nat) :
    roundedSDiv bits r half d = (towardSign r half).tdiv d := by
  have adjusted : word bits (half * if r < 0 then -1 else 1) = half * if r < 0 then -1 else 1 := by
    apply word_of_fits wide
    unfold Fits at *
    split <;> omega
  have moved : r + half * (if r < 0 then -1 else 1) = towardSign r half := by
    unfold towardSign
    split <;> omega
  unfold roundedSDiv
  dsimp only
  rw [adjusted, moved, word_of_fits wide fits]
  exact word_of_fits wide (tdiv_fits fits d)

theorem roundedSDiv_two {bits : Nat} {q : Nat} (wide : q + 2 < bits) (fits : Fits (bits - 1) r) :
    roundedSDiv bits r (2 ^ q) (2 ^ (q + 1)) = (towardSign r (2 ^ q)).tdiv (2 ^ (q + 1) : Nat) := by
  have range : (2 : Int) ^ (bits - 1) = 2 * 2 ^ (bits - 1 - 1) := by
    rw [← pow_succ']
    congr 1
    omega
  have half : (2 : Int) ^ q ≤ 2 ^ (bits - 1 - 1) := by
    exact_mod_cast Nat.pow_le_pow_right (by omega) (by omega : q ≤ bits - 1 - 1)
  have some_half : (0 : Int) < 2 ^ q := by positivity
  have kept : Fits bits ((2 ^ q : Nat) : Int) := by
    push_cast
    unfold Fits
    omega
  have sum : Fits bits (towardSign r (2 ^ q : Nat)) := by
    push_cast
    unfold Fits towardSign at *
    split <;> omega
  have quotient := roundedSDiv_eq (by omega) kept sum (2 ^ (q + 1))
  push_cast at quotient ⊢
  exact quotient

theorem binary_word (binary : ty.k = .fixedBin) : ty.intBits ≤ 64 := by
  unfold Ty.intBits
  rw [binary]
  dsimp only
  split <;> omega

theorem shift_steps {q : Int} (up : 0 < q) : q.toNat = (q - 1).toNat + 1 := by omega

theorem binToDecNarrow_eq (kept : Fits 64 raw)
    (target_scale : dst.scale.natAbs ≤ 18) (source_scale : src.scale.natAbs ≤ 62)
    (fits : Fits 128 (raw.tdiv (10 ^ (-dst.scale).toNat : Nat) * 10 ^ dst.scale.toNat *
      2 ^ (-src.scale).toNat)) :
    binToDecNarrow src dst raw =
      if 0 < src.scale then
        (towardSign (raw.tdiv (10 ^ (-dst.scale).toNat : Nat) * 10 ^ dst.scale.toNat)
          (2 ^ (src.scale - 1).toNat)).tdiv (2 ^ src.scale.toNat : Nat)
      else raw.tdiv (10 ^ (-dst.scale).toNat : Nat) * 10 ^ dst.scale.toNat *
        2 ^ (-src.scale).toNat := by
  have narrow : Fits 64 (raw.tdiv (10 ^ (-dst.scale).toNat : Nat)) := tdiv_fits kept _
  have inner : Fits 127 (raw.tdiv (10 ^ (-dst.scale).toNat : Nat) * 10 ^ dst.scale.toNat) :=
    @fits_mul_pow 127 63 10 _ 18 _ narrow (by omega) (by omega) (by norm_num) (by omega)
  have first : (if 0 < dst.scale then word 128 (raw * pliPow10 dst.scale)
      else if dst.scale < 0 then word 128 (raw.tdiv (pliPow10 (-dst.scale))) else raw) =
      raw.tdiv (10 ^ (-dst.scale).toNat : Nat) * 10 ^ dst.scale.toNat := by
    have inner' := fits_mono (by omega : 127 ≤ 128) inner
    split
    · have down : (-dst.scale).toNat = 0 := by omega
      rw [down] at inner' ⊢
      simp only [pow_zero, Nat.cast_one, Int.tdiv_one] at inner' ⊢
      rw [pliPow10_eq (by omega), word_of_fits (by omega) inner']
    · split
      · have up : dst.scale.toNat = 0 := by omega
        rw [up] at inner' ⊢
        rw [pow_zero, mul_one] at inner' ⊢
        rw [pliPow10_eq (by omega)]
        push_cast at inner' ⊢
        rw [word_of_fits (by omega) inner']
      · have level : dst.scale = 0 := by omega
        simp [level]
  unfold binToDecNarrow
  rw [first]
  dsimp only
  split
  · rename_i up
    rw [oneShl_eq (by omega), oneShl_eq (by omega), shift_steps up]
    exact roundedSDiv_two (by omega) inner
  · split
    · rw [oneShl_eq (by omega), word_of_fits (by omega) fits]
    · have level : src.scale = 0 := by omega
      simp [level]

theorem binToDecWide_eq (kept : Fits 64 raw) (target_scale : dst.scale ≤ 38)
    (source_scale : src.scale.natAbs ≤ 254)
    (fits : Fits 256 (raw * 10 ^ dst.scale.toNat * 2 ^ (-src.scale).toNat)) :
    binToDecWide src dst raw =
      if 0 < src.scale then
        (towardSign (raw * 10 ^ dst.scale.toNat) (2 ^ (src.scale - 1).toNat)).tdiv
          (2 ^ src.scale.toNat : Nat)
      else raw * 10 ^ dst.scale.toNat * 2 ^ (-src.scale).toNat := by
  have inner : Fits 255 (raw * 10 ^ dst.scale.toNat) :=
    @fits_mul_pow 255 63 10 _ 38 raw kept (by omega) (by omega) (by norm_num) (by omega)
  have first : (if 0 < dst.scale then word 256 (raw * intPowConst 256 10 dst.scale) else raw) =
      raw * 10 ^ dst.scale.toNat := by
    split
    · rw [intPowConst_ten (by omega), word_of_fits (by omega) (fits_mono (by omega) inner)]
    · have up : dst.scale.toNat = 0 := by omega
      rw [up, pow_zero, mul_one]
  unfold binToDecWide
  rw [first]
  dsimp only
  split
  · rename_i up
    rw [intPowConst_two (by omega), intPowConst_two (by omega), shift_steps up]
    exact roundedSDiv_two (by omega) inner
  · split
    · rw [intPowConst_two (by omega), word_of_fits (by omega) fits]
    · have level : src.scale = 0 := by omega
      simp [level]

theorem wideMagTrap_iff (decimal : dst.k = .fixedDec) (prec : dst.prec ≤ 76) (r : Int) :
    wideMagTrap 256 r dst.prec = true ↔ ¬ InRange dst r := by
  have limit : Fits 256 ((10 : Int) ^ dst.prec.toNat) :=
    @pow_fits 256 10 _ 76 (by omega) (by omega) (by norm_num)
  have opposite : Fits 256 (-(10 : Int) ^ dst.prec.toNat) := by
    have positive : (0 : Int) < 10 ^ dst.prec.toNat := by positivity
    unfold Fits at *
    omega
  unfold wideMagTrap
  dsimp only
  rw [word_of_fits (by omega) limit, word_of_fits (by omega) opposite, InRange,
    if_neg (by simp [decimal])]
  simp only [Bool.or_eq_true, decide_eq_true_eq]
  omega

theorem binToDec_checks (source : src.k = .fixedBin) (target : dst.k = .fixedDec)
    (declared : Declared dst) (prec : dst.wideDec = true → dst.prec ≤ 76) :
    Checks (binToDec src dst raw) dst
      (if dst.wideDec then binToDecWide src dst raw else binToDecNarrow src dst raw) := by
  have wide : dst.wideDec = decide (18 < dst.prec) := by simpa [target] using declared.2.2
  unfold binToDec
  by_cases many : 18 < dst.prec
  · have all : dst.wideDec = true := by simp [wide, many]
    have bits : dst.intBits = 128 := by simp [Ty.intBits, target, all]
    rw [if_pos bits, if_pos all]
    exact ⟨wideMagTrap_iff target (prec all) _, fun _ => rfl⟩
  · have bits : dst.intBits ≠ 128 := by
      simp only [Ty.intBits, target, wide, many]
      simp only [decide_false, Bool.false_eq_true, if_false]
      split <;> omega
    rw [if_neg bits, if_neg (by simp [wide, many])]
    apply checkDec_checks target (by omega)
    intro unneeded
    simp [needDec, source, show dst.prec ≤ 18 by omega] at unneeded

theorem slot_toward (toward : Toward r v) (slot : SlotHolds dst v) (inside : InRange dst v) :
    SlotHolds dst r := by
  intro _
  have fits := slot inside
  unfold Fits Toward at *
  omega

theorem shorter_iff {exactly : Prop} (toward : Toward r v) (same : r = v ↔ exactly) :
    (r = v ∨ ¬ InRange dst v ∧ ¬ InRange dst r) ↔ exactly ∨ ¬ InRange dst r := by
  rw [same]
  constructor
  · rintro (equal | ⟨-, out⟩)
    · exact Or.inl equal
    · exact Or.inr out
  · rintro (equal | out)
    · exact Or.inl equal
    · exact Or.inr ⟨fun inside => out (inRange_toward toward inside), out⟩

theorem longer_iff {exactly : Prop} (toward : Toward v r) (same : r = v ↔ exactly) :
    (r = v ∨ ¬ InRange dst v ∧ ¬ InRange dst r) ↔ exactly ∨ ¬ InRange dst v := by
  rw [same]
  constructor
  · rintro (equal | ⟨out, -⟩)
    · exact Or.inl equal
    · exact Or.inr out
  · rintro (equal | out)
    · exact Or.inl equal
    · exact Or.inr ⟨out, fun inside => out (inRange_toward toward inside)⟩

/-- The value without its fraction, as the i256 paths have it before a negative scale of the
    target, if that plays a part. -/
def WholeHolds (src dst : Ty) (raw : Int) : Prop :=
  dst.scale < 0 → SlotHolds dst (required { dst with scale := 0 } (value src raw))

def decToBinHolds (src dst : Ty) (raw : Int) : Prop :=
  if src.wideDec then
    dst.scale ≤ 254 ∧ src.scale.natAbs ≤ 76 ∧
      Fits 256 (raw * 2 ^ dst.scale.toNat * 10 ^ (-src.scale).toNat) ∧ WholeHolds src dst raw
  else
    dst.scale.natAbs ≤ 62 ∧ src.scale.natAbs ≤ 38 ∧
      Fits 128 (raw.tdiv (2 ^ (-dst.scale).toNat : Nat) * 2 ^ dst.scale.toNat * 10
        ^ (-src.scale).toNat)

/-- DECIMAL to BINARY of negative scale: the i256 path forgets the target's scale, and the
    other divides by it before it multiplies by the source's. -/
def decToBinRight (src dst : Ty) (raw : Int) : Prop :=
  dst.scale < 0 →
    if src.wideDec then
      raw.natAbs < 10 ^ src.scale.toNat ∨ ¬ InRange dst (required dst (value src raw))
    else
      raw.natAbs % 2 ^ (-dst.scale).toNat * 10 ^ (-src.scale).toNat < 2 ^ (-dst.scale).toNat ∨
        ¬ InRange dst (raw.tdiv (2 ^ (-dst.scale).toNat : Nat) * 10 ^ (-src.scale).toNat)

theorem decimal_wide {ty : Ty} (decimal : ty.k = .fixedDec) :
    ty.intBits = 128 ↔ ty.wideDec = true := by
  unfold Ty.intBits
  rw [decimal]
  dsimp only
  cases ty.wideDec with
  | true => simp
  | false =>
    simp only [Bool.false_eq_true, if_false, iff_false]
    split <;> omega

theorem tdiv_zero_iff (n : Int) {d : Nat} (pos : 0 < d) : n.tdiv d = 0 ↔ n.natAbs < d := by
  rw [← Nat.div_eq_zero_iff_lt pos, ← Int.natAbs_eq_zero, Int.natAbs_tdiv, Int.natAbs_natCast]
  rfl

theorem decToBinNarrow_toward (source : src.k = .fixedDec)
    (target : dst.k = .fixedBin) (raw : Int) :
    Toward ((raw.tdiv (2 ^ (-dst.scale).toNat : Nat) * 2 ^ dst.scale.toNat *
      10 ^ (-src.scale).toNat).tdiv (10 ^ src.scale.toNat : Nat))
        (required dst (value src raw)) := by
  have itself (n : Int) : Toward n n := by
    unfold Toward
    omega
  rw [decToBin_due source target]
  by_cases negative : dst.scale < 0
  · have up : dst.scale.toNat = 0 := by omega
    rw [up, pow_zero, mul_one, mul_one]
    by_cases whole : 0 ≤ src.scale
    · have down : (-src.scale).toNat = 0 := by omega
      rw [down, pow_zero, mul_one, mul_one, tdiv_tdiv, Nat.mul_comm]
      exact itself _
    · have none_up : src.scale.toNat = 0 := by omega
      have toward := tdiv_mul_toward raw (2 ^ (-dst.scale).toNat) (10 ^ (-src.scale).toNat)
      rw [none_up, pow_zero, Nat.cast_one, Int.tdiv_one, Nat.one_mul]
      push_cast at toward ⊢
      exact toward
  · have level : (-dst.scale).toNat = 0 := by omega
    rw [level]
    simpa using itself _

theorem decToBin_exact_iff (source : src.k = .fixedDec)
    (target : dst.k = .fixedBin) (declared : Declared dst)
    (slot : SlotHolds dst (required dst (value src raw))) (holds : decToBinHolds src dst raw) :
    ExactAt dst (required dst (value src raw)) (decToBin src dst raw) ↔
      decToBinRight src dst raw := by
  have due := decToBin_due source target raw
  unfold decToBinHolds at holds
  unfold decToBin decToBinRight
  by_cases wide : src.wideDec = true
  · rw [if_pos wide] at holds
    obtain ⟨target_scale, source_scale, fits, whole⟩ := holds
    rw [if_pos ((decimal_wide source).mpr wide), if_pos wide,
      decToBinWide_eq target_scale source_scale fits]
    obtain ⟨x, computed⟩ : ∃ x, x = (raw * 2 ^ dst.scale.toNat * 10 ^ (-src.scale).toNat).tdiv
        (10 ^ src.scale.toNat : Nat) := ⟨_, rfl⟩
    have divided : required dst (value src raw) = x.tdiv (2 ^ (-dst.scale).toNat : Nat) := by
      rw [due, computed, tdiv_tdiv]
    have checks : Checks (checkBin 256 dst x) dst x :=
      checkBin_checks target declared.2.1 (computed ▸ tdiv_fits fits _)
    have kept : InRange dst (required dst (value src raw)) → SlotHolds dst x := by
      intro _
      by_cases negative : dst.scale < 0
      · have up : dst.scale.toNat = 0 := by omega
        have binary : ({ dst with scale := 0 } : Ty).k = .fixedBin := target
        have stands := decToBin_due source binary raw
        have same : required { dst with scale := 0 } (value src raw) = x := by
          rw [stands, computed, up]
          simp
        exact same ▸ whole negative
      · have level : (-dst.scale).toNat = 0 := by omega
        rw [divided, level, pow_zero, Nat.cast_one, Int.tdiv_one] at slot
        exact slot
    rw [← computed, checks_exact_iff checks slot kept, divided]
    by_cases negative : dst.scale < 0
    · have divides : 2 ≤ 2 ^ (-dst.scale).toNat := by
        have one : 1 ≤ (-dst.scale).toNat := by omega
        exact Nat.le_self_pow (by omega) 2
      have up : dst.scale.toNat = 0 := by omega
      have small : x = x.tdiv (2 ^ (-dst.scale).toNat : Nat) ↔
        raw.natAbs < 10 ^ src.scale.toNat := by
        rw [tdiv_eq_self_iff divides, computed, up, pow_zero, mul_one,
          tdiv_zero_iff _ (by positivity)]
        by_cases whole : 0 ≤ src.scale
        · have down : (-src.scale).toNat = 0 := by omega
          rw [down, pow_zero, mul_one]
        · have none_up : src.scale.toNat = 0 := by omega
          have some_factor : 0 < 10 ^ (-src.scale).toNat := by positivity
          rw [none_up, Int.natAbs_mul]
          simp
      rw [longer_iff (tdiv_toward x _) small]
      exact ⟨fun right _ => right, fun right => right negative⟩
    · have level : (-dst.scale).toNat = 0 := by omega
      simp [level, negative]
  · rw [if_neg wide] at holds
    obtain ⟨target_scale, source_scale, fits⟩ := holds
    have narrow : ¬ src.intBits = 128 := fun bits => wide ((decimal_wide source).mp bits)
    rw [if_neg narrow, if_neg wide, decToBinNarrow_eq target_scale source_scale fits]
    have checks := @checkBin_checks 128 dst _ target declared.2.1
      (tdiv_fits fits (10 ^ src.scale.toNat))
    have toward := decToBinNarrow_toward source target raw
    rw [checks_exact_iff checks slot (slot_toward toward slot), due]
    by_cases negative : dst.scale < 0
    · have up : dst.scale.toNat = 0 := by omega
      rw [up, pow_zero, mul_one, mul_one]
      by_cases whole : 0 ≤ src.scale
      · have down : (-src.scale).toNat = 0 := by omega
        have order : (raw.tdiv (2 ^ (-dst.scale).toNat : Nat)).tdiv (10 ^ src.scale.toNat : Nat) =
            raw.tdiv (10 ^ src.scale.toNat * 2 ^ (-dst.scale).toNat : Nat) := by
          rw [tdiv_tdiv, Nat.mul_comm]
        have some_divisor : 0 < 2 ^ (-dst.scale).toNat := by positivity
        rw [down, pow_zero, mul_one, mul_one, order]
        simp [Nat.mod_lt _ some_divisor]
      · have none_up : src.scale.toNat = 0 := by omega
        have exactly := tdiv_mul_exact_iff raw (10 ^ (-src.scale).toNat)
          (by positivity : 0 < 2 ^ (-dst.scale).toNat)
        have toward := tdiv_mul_toward raw (2 ^ (-dst.scale).toNat) (10 ^ (-src.scale).toNat)
        rw [none_up, pow_zero, Nat.cast_one, Int.tdiv_one, Nat.one_mul]
        push_cast at exactly toward ⊢
        rw [shorter_iff toward exactly]
        exact ⟨fun right _ => right, fun right => right negative⟩
    · have level : (-dst.scale).toNat = 0 := by omega
      rw [level]
      simp [negative]

def binToDecHolds (src dst : Ty) (raw : Int) : Prop :=
  if dst.wideDec then
    dst.prec ≤ 76 ∧ dst.scale ≤ 38 ∧ src.scale.natAbs ≤ 254 ∧
      Fits 256 (raw * 10 ^ dst.scale.toNat * 2 ^ (-src.scale).toNat) ∧ WholeHolds src dst raw
  else
    dst.scale.natAbs ≤ 18 ∧ src.scale.natAbs ≤ 62 ∧
      Fits 128 (raw.tdiv (10 ^ (-dst.scale).toNat : Nat) * 10 ^ dst.scale.toNat * 2
        ^ (-src.scale).toNat)

/-- BINARY to DECIMAL of negative scale: the i256 path forgets the target's scale; the other
    divides by it first, then rounds off the source's fraction or multiplies. -/
def binToDecRight (src dst : Ty) (raw : Int) : Prop :=
  dst.scale < 0 →
    if dst.wideDec then
      2 * raw.natAbs < 2 ^ src.scale.toNat ∨ ¬ InRange dst (required dst (value src raw))
    else if 0 < src.scale then
      raw.natAbs / 10 ^ (-dst.scale).toNat % 2 ^ src.scale.toNat < 2 ^ (src.scale - 1).toNat ∨
        ¬ InRange dst (required dst (value src raw))
    else
      raw.natAbs % 10 ^ (-dst.scale).toNat * 2 ^ (-src.scale).toNat < 10 ^ (-dst.scale).toNat ∨
        ¬ InRange dst (raw.tdiv (10 ^ (-dst.scale).toNat : Nat) * 2 ^ (-src.scale).toNat)

theorem binToDec_due_up (source : src.k = .fixedBin) (target : dst.k = .fixedDec)
    (nonneg : 0 ≤ dst.scale) (raw : Int) :
    required dst (value src raw) =
      if 0 < src.scale then
        (towardSign (raw * 10 ^ dst.scale.toNat) (2 ^ (src.scale - 1).toNat)).tdiv
          (2 ^ src.scale.toNat : Nat)
      else raw * 10 ^ dst.scale.toNat * 2 ^ (-src.scale).toNat := by
  have scaled := binToDec_scaled source target raw
  have level : (-dst.scale).toNat = 0 := by omega
  rw [level, pow_zero, mul_one] at scaled
  split
  · rename_i up
    have down : (-src.scale).toNat = 0 := by omega
    rw [down, pow_zero, mul_one] at scaled
    refine required_rounded target nonneg (by positivity) ?_ scaled
    rw [shift_steps up]
    push_cast
    ring
  · have up : src.scale.toNat = 0 := by omega
    rw [up, pow_zero, Nat.cast_one, div_one] at scaled
    exact required_whole scaled

theorem binToDec_due_down (source : src.k = .fixedBin) (target : dst.k = .fixedDec)
    (negative : dst.scale < 0) (raw : Int) :
    required dst (value src raw) =
      (raw * 2 ^ (-src.scale).toNat).tdiv (2 ^ src.scale.toNat * 10
        ^ (-dst.scale).toNat : Nat) := by
  have scaled := binToDec_scaled source target raw
  have up : dst.scale.toNat = 0 := by omega
  rw [up, pow_zero, mul_one] at scaled
  exact required_truncated (Or.inr negative) (by positivity) scaled

theorem rounded_zero_iff (n : Int) {h d : Nat} (twice : 2 * h = d) (pos : 0 < d) :
    (towardSign n h).tdiv d = 0 ↔ 2 * n.natAbs < d := by
  rw [tdiv_zero_iff _ pos]
  unfold towardSign
  split <;> omega

theorem rounded_eq_scaled_iff (n : Int) {h d t : Nat} (twice : 2 * h = d) (pos : 0 < d)
    (divides : 2 ≤ t) :
    (towardSign n h).tdiv d = n.tdiv (d * t : Nat) ↔ 2 * n.natAbs < d := by
  rw [← rounded_zero_iff n twice pos, ← tdiv_tdiv]
  have toward := tdiv_toward_rounded n h d
  have shrinks := tdiv_toward (n.tdiv d) t
  have self := @tdiv_eq_self_iff (n.tdiv d) t divides
  generalize (towardSign n h).tdiv d = r, n.tdiv (d : Int) = m at *
  generalize m.tdiv (t : Int) = v at *
  unfold Toward at *
  constructor
  · intro same
    by_cases zero : m = 0
    · omega
    · have : m ≠ v := fun equal => zero (self.mp equal)
      omega
  · intro zero
    omega

theorem binToDec_exact_iff (source : src.k = .fixedBin)
    (target : dst.k = .fixedDec) (declared : Declared dst)
    (slot : SlotHolds dst (required dst (value src raw))) (kept : Fits 64 raw)
    (holds : binToDecHolds src dst raw) :
    ExactAt dst (required dst (value src raw)) (binToDec src dst raw) ↔
      binToDecRight src dst raw := by
  unfold binToDecHolds at holds
  have many : dst.wideDec = true → dst.prec ≤ 76 := fun wide => by
    rw [if_pos wide] at holds
    exact holds.1
  have same : 0 ≤ dst.scale →
      (if dst.wideDec then binToDecWide src dst raw else binToDecNarrow src dst raw) =
        required dst (value src raw) := by
    intro nonneg
    have level : (-dst.scale).toNat = 0 := by omega
    rw [binToDec_due_up source target nonneg raw]
    split
    · rename_i wide
      rw [if_pos wide] at holds
      exact binToDecWide_eq kept holds.2.1 holds.2.2.1 holds.2.2.2.1
    · rename_i narrow
      rw [if_neg narrow] at holds
      rw [binToDecNarrow_eq kept holds.1 holds.2.1 holds.2.2, level]
      simp
  have slots : SlotHolds dst
      (if dst.wideDec then binToDecWide src dst raw else binToDecNarrow src dst raw) := by
    by_cases negative : dst.scale < 0
    · by_cases wide : dst.wideDec = true
      · rw [if_pos wide] at holds ⊢
        have decimal : ({ dst with scale := 0 } : Ty).k = .fixedDec := target
        have whole := binToDec_due_up source decimal (le_refl 0) raw
        have up : dst.scale.toNat = 0 := by omega
        rw [binToDecWide_eq kept holds.2.1 holds.2.2.1 holds.2.2.2.1, up]
        exact whole ▸ holds.2.2.2.2 negative
      · have digits : ¬18 < dst.prec := by simpa [target, wide] using declared.2.2
        exact slot_decimal target declared (by omega)
    · rw [same (by omega)]
      exact slot
  rw [checks_exact_iff (binToDec_checks source target declared many) slot fun _ => slots]
  unfold binToDecRight
  by_cases nonneg : 0 ≤ dst.scale
  · exact ⟨fun _ negative => absurd nonneg (not_le.mpr negative), fun _ => Or.inl (same nonneg)⟩
  · have negative : dst.scale < 0 := by omega
    have due := binToDec_due_down source target negative raw
    have up : dst.scale.toNat = 0 := by omega
    have divides : 2 ≤ 10 ^ (-dst.scale).toNat := by
      have one : 1 ≤ (-dst.scale).toNat := by omega
      calc 2 ≤ 10 ^ 1 := by norm_num
        _ ≤ 10 ^ (-dst.scale).toNat := Nat.pow_le_pow_right (by omega) one
    by_cases wide : dst.wideDec = true
    · rw [if_pos wide] at holds
      simp only [if_pos wide]
      rw [binToDecWide_eq kept holds.2.1 holds.2.2.1 holds.2.2.2.1, up, pow_zero, mul_one]
      by_cases fraction : 0 < src.scale
      · have down : (-src.scale).toNat = 0 := by omega
        have twice : 2 * 2 ^ (src.scale - 1).toNat = 2 ^ src.scale.toNat := by
          rw [shift_steps fraction]
          ring
        have exactly := rounded_eq_scaled_iff raw twice (by positivity) divides
        have toward := tdiv_toward_rounded raw (2 ^ (src.scale - 1).toNat) (2 ^ src.scale.toNat)
        have shrinks := tdiv_toward (raw.tdiv (2 ^ src.scale.toNat : Nat)) (10 ^ (-dst.scale).toNat)
        rw [tdiv_tdiv] at shrinks
        rw [down, pow_zero, mul_one] at due
        rw [if_pos fraction, due]
        push_cast at exactly toward shrinks ⊢
        have order : Toward (raw.tdiv (2 ^ src.scale.toNat * 10 ^ (-dst.scale).toNat))
            ((towardSign raw (2 ^ (src.scale - 1).toNat)).tdiv (2 ^ src.scale.toNat)) := by
          unfold Toward at *
          omega
        rw [longer_iff order exactly]
        exact ⟨fun right _ => right, fun right => right negative⟩
      · have whole : src.scale.toNat = 0 := by omega
        rw [whole, pow_zero, Nat.one_mul] at due
        have small : raw * 2 ^ (-src.scale).toNat =
            (raw * 2 ^ (-src.scale).toNat).tdiv (10 ^ (-dst.scale).toNat : Nat) ↔
              2 * raw.natAbs < 2 ^ src.scale.toNat := by
          have some_factor : (2 : Int) ^ (-src.scale).toNat ≠ 0 := by positivity
          rw [tdiv_eq_self_iff divides, mul_eq_zero, or_iff_left some_factor, whole]
          omega
        rw [if_neg fraction, due, longer_iff (tdiv_toward _ _) small]
        exact ⟨fun right _ => right, fun right => right negative⟩
    · rw [if_neg wide] at holds
      simp only [if_neg wide]
      rw [binToDecNarrow_eq kept holds.1 holds.2.1 holds.2.2, up, pow_zero, mul_one]
      by_cases fraction : 0 < src.scale
      · have down : (-src.scale).toNat = 0 := by omega
        have twice : 2 * 2 ^ (src.scale - 1).toNat = 2 ^ src.scale.toNat := by
          rw [shift_steps fraction]
          ring
        have order : (raw.tdiv (10 ^ (-dst.scale).toNat : Nat)).tdiv (2 ^ src.scale.toNat : Nat) =
            required dst (value src raw) := by
          rw [due, down, pow_zero, mul_one, tdiv_tdiv, Nat.mul_comm]
        have exactly := rounded_eq_tdiv_iff (raw.tdiv (10 ^ (-dst.scale).toNat : Nat))
          (by positivity : 0 < 2 ^ src.scale.toNat) twice
        have toward := tdiv_toward_rounded (raw.tdiv (10 ^ (-dst.scale).toNat : Nat))
          (2 ^ (src.scale - 1).toNat) (2 ^ src.scale.toNat)
        have quotient : (raw.tdiv (10 ^ (-dst.scale).toNat : Nat)).natAbs =
            raw.natAbs / 10 ^ (-dst.scale).toNat := by
          rw [Int.natAbs_tdiv, Int.natAbs_natCast]
          rfl
        rw [order] at exactly toward
        rw [quotient] at exactly
        rw [if_pos fraction, if_pos fraction]
        push_cast at exactly toward ⊢
        rw [longer_iff toward exactly]
        exact ⟨fun right _ => right, fun right => right negative⟩
      · have whole : src.scale.toNat = 0 := by omega
        have exactly := tdiv_mul_exact_iff raw (2 ^ (-src.scale).toNat)
          (by positivity : 0 < 10 ^ (-dst.scale).toNat)
        have toward := tdiv_mul_toward raw (10 ^ (-dst.scale).toNat) (2 ^ (-src.scale).toNat)
        rw [whole, pow_zero, Nat.one_mul] at due
        rw [if_neg fraction, if_neg fraction, due]
        push_cast at exactly toward ⊢
        rw [shorter_iff toward exactly]
        exact ⟨fun right _ => right, fun right => right negative⟩

def decToDecHolds (src dst : Ty) (raw : Int) : Prop :=
  (dst.scale - src.scale).natAbs ≤ (if src.wideDec || dst.wideDec then 38 else 18) ∧
    (dst.scale < src.scale → 0 ≤ dst.scale →
      Fits (if max src.intBits dst.intBits = 128 then 128 else 64)
        (towardSign raw (10 ^ (src.scale - dst.scale - 1).toNat * 5 : Nat)))

/-- A DECIMAL target of more than 18 digits gets no check of its own: SIZE comes only from a
    product past 128 bits. -/
def decToDecRight (src dst : Ty) (raw : Int) : Prop :=
  dst.wideDec = true →
    InRange dst (required dst (value src raw)) ∨ ¬ Fits 128 (required dst (value src raw))

theorem checkDec_wide_iff (decimal : dst.k = .fixedDec)
    (declared : Declared dst) (wide : dst.wideDec = true) (fits : Fits 128 v) :
    ExactAt dst v (checkDec src dst v) ↔ InRange dst v := by
  have many : ¬ dst.prec ≤ 18 := by
    have := declared.2.2
    simp only [decimal, wide, decide_true, Bool.true_and] at this
    simpa using this.symm
  have bits : dst.intBits = 128 := (decimal_wide decimal).mpr wide
  have kept : fitFixed dst v = v := by
    rw [fitFixed, bits]
    exact word_of_fits (by omega) fits
  simp [ExactAt, checkDec, needDec, many, kept]

theorem decToDec_due (source : src.k = .fixedDec) (target : dst.k = .fixedDec) (raw : Int) :
    required dst (value src raw) =
      if 0 ≤ dst.scale - src.scale then raw * 10 ^ (dst.scale - src.scale).toNat
      else if dst.scale < 0 then raw.tdiv (10 ^ (-(dst.scale - src.scale)).toNat : Nat)
      else (towardSign raw (10 ^ (-(dst.scale - src.scale) - 1).toNat * 5 : Nat)).tdiv
        (10 ^ (-(dst.scale - src.scale)).toNat : Nat) := by
  have scaled := @scaled_same_base src dst (by rw [base_decimal source, base_decimal target]) raw
  have decimal := base_decimal target
  split
  · have down : (-(dst.scale - src.scale)).toNat = 0 := by omega
    rw [down, pow_zero, Nat.cast_one, div_one, decimal] at scaled
    refine required_whole ?_
    rw [decimal, scaled]
    push_cast
    rfl
  · have up : (dst.scale - src.scale).toNat = 0 := by omega
    rw [up, pow_zero, mul_one] at scaled
    split
    · rename_i negative
      rw [decimal] at scaled
      refine required_truncated (Or.inr negative) (by positivity) ?_
      rw [decimal]
      exact scaled
    · rename_i nonneg
      rw [decimal] at scaled
      refine required_rounded target (by omega) (by positivity) ?_ (by rw [decimal]; exact scaled)
      rw [shift_steps (by omega : 0 < -(dst.scale - src.scale))]
      push_cast
      ring

theorem rounded_toward (n : Int) {h : Nat} (some_half : 0 < h) :
    Toward ((towardSign n h).tdiv (2 * h : Nat)) n := by
  have small : (n.natAbs + h) / (2 * h) ≤ n.natAbs := by
    rcases Nat.lt_or_ge n.natAbs h with below | above
    · rw [Nat.div_eq_of_lt (by omega)]
      omega
    · apply Nat.div_le_of_le_mul
      nlinarith
  unfold Toward
  rcases Int.lt_or_le n 0 with negative | nonneg
  · rw [towardSign_tdiv_of_neg negative]
    generalize (n.natAbs + h) / (2 * h) = q at *
    omega
  · rw [towardSign_tdiv_of_nonneg nonneg]
    generalize (n.natAbs + h) / (2 * h) = q at *
    omega

theorem decToDec_width (source : src.k = .fixedDec) (target : dst.k = .fixedDec) :
    max src.intBits dst.intBits = 128 ↔ (src.wideDec || dst.wideDec) = true := by
  have narrow : ∀ ty : Ty, ty.k = .fixedDec → ty.intBits ≤ 128 := by
    intro ty decimal
    unfold Ty.intBits
    rw [decimal]
    dsimp only
    split
    · omega
    · split <;> omega
  have first := narrow src source
  have second := narrow dst target
  rw [Bool.or_eq_true, ← decimal_wide source, ← decimal_wide target]
  omega

theorem unneeded_fits (narrow : dst.prec ≤ 18) (unneeded : needDec src dst = false) :
    src.k = .fixedDec ∧ src.prec + max (dst.scale - src.scale) 0 ≤ dst.prec := by
  simpa [needDec, narrow] using unneeded

theorem scaled_range {src dst : Ty} {raw : Int} (source : src.k = .fixedDec)
    (target : dst.k = .fixedDec)
    {k : Nat} (some_prec : 0 < src.prec) (room : src.prec + k ≤ dst.prec)
    (inside : InRange src raw) :
    InRange dst (raw * 10 ^ k) := by
  have power : (10 : Int) ^ src.prec.toNat * 10 ^ k ≤ 10 ^ dst.prec.toNat := by
    rw [← pow_add]
    exact_mod_cast Nat.pow_le_pow_right (by omega) (by omega : src.prec.toNat + k ≤ dst.prec.toNat)
  have positive : (0 : Int) < 10 ^ k := by positivity
  rw [InRange, if_neg (by simp [source])] at inside
  rw [InRange, if_neg (by simp [target])]
  constructor <;> nlinarith

theorem scaled_down_eq {raw k : Int} (some_drop : 0 < k) {bits : Nat} {pow : Int → Int}
    (width : bits = 128 ∧ k ≤ 38 ∧ pow = pliPow10_128 ∨ bits = 64 ∧ k ≤ 18 ∧ pow = pliPow10)
    (kept : Fits bits raw)
    (moved : 0 ≤ dst.scale → Fits bits (towardSign raw (10 ^ (k - 1).toNat * 5 : Nat))) :
    (if dst.scale < 0 then word bits (raw.tdiv (pow k))
      else roundedSDiv bits raw (word bits (pow (k - 1) * 5)) (pow k)) =
      if dst.scale < 0 then raw.tdiv (10 ^ k.toNat : Nat)
      else (towardSign raw (10 ^ (k - 1).toNat * 5 : Nat)).tdiv (10 ^ k.toNat : Nat) := by
  have powers : pow k = (10 ^ k.toNat : Nat) ∧ pow (k - 1) = (10 ^ (k - 1).toNat : Nat) ∧
      0 < bits ∧ Fits bits (10 ^ (k - 1).toNat * 5 : Nat) := by
    have smaller : ∀ n m : Nat, n ≤ m → (10 : Int) ^ n ≤ 10 ^ m := by
      intro n m le
      exact_mod_cast Nat.pow_le_pow_right (by omega) le
    have nonneg : (0 : Int) ≤ 10 ^ (k - 1).toNat := by positivity
    push_cast
    rcases width with ⟨rfl, le, rfl⟩ | ⟨rfl, le, rfl⟩
    · have half := smaller (k - 1).toNat 37 (by omega)
      refine ⟨pliPow10_128_eq le, pliPow10_128_eq (by omega), by omega, ?_⟩
      unfold Fits
      omega
    · have half := smaller (k - 1).toNat 17 (by omega)
      refine ⟨pliPow10_eq le, pliPow10_eq (by omega), by omega, ?_⟩
      unfold Fits
      omega
  obtain ⟨divisor, half, some_bits, half_kept⟩ := powers
  rw [divisor, half]
  split
  · exact word_of_fits some_bits (tdiv_fits kept _)
  · have product : ((10 ^ (k - 1).toNat : Nat) : Int) * 5 =
      ((10 ^ (k - 1).toNat * 5 : Nat) : Int) := by
      push_cast
      rfl
    rw [product, word_of_fits some_bits half_kept]
    exact roundedSDiv_eq some_bits half_kept (moved (by omega)) _

theorem scaled_down_toward (dst : Ty) (raw : Int) {k : Int} (some_drop : 0 < k) :
    Toward (if dst.scale < 0 then raw.tdiv (10 ^ k.toNat : Nat)
      else (towardSign raw (10 ^ (k - 1).toNat * 5 : Nat)).tdiv (10 ^ k.toNat : Nat)) raw := by
  split
  · exact tdiv_toward raw _
  · have twice : 10 ^ k.toNat = 2 * (10 ^ (k - 1).toNat * 5) := by
      rw [shift_steps some_drop]
      ring
    rw [twice]
    exact rounded_toward raw (by positivity)

theorem decToDec_exact_iff (source : src.k = .fixedDec)
    (target : dst.k = .fixedDec) (from_declared : Declared src) (declared : Declared dst)
    (slot : SlotHolds dst (required dst (value src raw))) (stored : Stored src raw)
    (holds : decToDecHolds src dst raw) :
    ExactAt dst (required dst (value src raw)) (decToDec src dst raw) ↔
      decToDecRight src dst raw := by
  obtain ⟨powers, moved⟩ := holds
  have source_wide : src.wideDec = decide (18 < src.prec) :=
    by simpa [source] using from_declared.2.2
  have target_wide : dst.wideDec = decide (18 < dst.prec) := by simpa [target] using declared.2.2
  have width := decToDec_width source target
  have due := decToDec_due source target raw
  obtain ⟨v, is_due⟩ : ∃ v, v = required dst (value src raw) := ⟨_, rfl⟩
  unfold decToDecRight
  rw [← is_due] at due slot ⊢
  -- a computed v goes through checkDec
  have checked : Fits 128 v → (needDec src dst = false → dst.prec ≤ 18 → InRange dst v) →
      (ExactAt dst v (checkDec src dst v) ↔
        (dst.wideDec = true → InRange dst v ∨ ¬ Fits 128 v)) := by
    intro fits small
    by_cases wide : dst.wideDec = true
    · rw [checkDec_wide_iff target declared wide fits]
      simp [wide, fits]
    · have narrow : dst.prec ≤ 18 := by simpa [target_wide] using wide
      have checks := @checkDec_checks src dst v target narrow fun unneeded =>
        small unneeded narrow
      simp only [wide, Bool.false_eq_true, false_implies, iff_true]
      exact (checks_exact_iff checks slot fun _ => slot).mpr (Or.inl rfl)
  unfold decToDec
  dsimp only
  by_cases up : 0 < dst.scale - src.scale
  · rw [if_pos (by omega)] at due
    rw [if_pos up]
    obtain ⟨bits, is_bits⟩ : ∃ bits : Nat, bits =
        if max src.intBits dst.intBits = 128 then 128 else 64 := ⟨_, rfl⟩
    have product : checkedMul bits raw ((if max src.intBits dst.intBits = 128 then pliPow10_128
        else pliPow10) (dst.scale - src.scale)) = ⟨word bits v, !decide (Fits bits v)⟩ := by
      rw [due]
      by_cases wide : (src.wideDec || dst.wideDec) = true
      · rw [if_pos wide] at powers
        rw [if_pos (width.mpr wide), pliPow10_128_eq (by omega)]
        rfl
      · rw [if_neg wide] at powers
        rw [if_neg (fun h => wide (width.mp h)), pliPow10_eq (by omega)]
        rfl
    have some_bits : 0 < bits ∧ bits ≤ 128 := by
      rw [is_bits]
      split <;> omega
    rw [← is_bits, product]
    dsimp only
    by_cases fits : Fits bits v
    · have no_overflow : (!decide (Fits bits v)) = false := by simp [fits]
      rw [word_of_fits some_bits.1 fits, no_overflow, Bool.false_or]
      refine checked (fits_mono some_bits.2 fits) ?_
      intro unneeded narrow
      have room := (unneeded_fits narrow unneeded).2
      rw [due]
      exact scaled_range source target from_declared.2.1 (by omega) stored.1
    · have large : ¬ InRange dst v := by
        intro inside
        refine fits (fits_mono ?_ (slot inside))
        rw [is_bits]
        have source_bits := slot_cases src
        have target_bits := slot_cases dst
        split
        · omega
        · rename_i apart
          omega
      have raised : (!decide (Fits bits v)) = true := by simp [fits]
      rw [raised, Bool.true_or]
      constructor
      · intro _ wide
        refine Or.inr ?_
        rwa [is_bits, if_pos (width.mpr (by simp [wide]))] at fits
      · intro _
        exact ⟨⟨fun _ => large, fun _ => rfl⟩, fun inside => absurd inside large⟩
  · rw [if_neg up]
    have kept : Fits 128 raw := stored_fits stored (by have := slot_cases src; omega)
    by_cases level : dst.scale - src.scale = 0
    · rw [if_pos (by omega), level] at due
      simp only [Int.toNat_zero, pow_zero, mul_one] at due
      rw [if_neg (by omega), ← due]
      refine checked (due ▸ kept) ?_
      intro unneeded narrow
      have room := (unneeded_fits narrow unneeded).2
      have scaled := @scaled_range src dst raw source target 0 from_declared.2.1 (by omega) stored.1
      simpa [due] using scaled
    · rw [if_neg (by omega)] at due
      have drop : 0 < -(dst.scale - src.scale) := by omega
      have toward := scaled_down_toward dst raw drop
      rw [← due] at toward
      have fits : Fits 128 v := by
        unfold Toward at toward
        unfold Fits at *
        omega
      have same_drop : src.scale - dst.scale = -(dst.scale - src.scale) := by omega
      rw [same_drop] at moved
      have computed := @scaled_down_eq dst raw _ drop
        (if max src.intBits dst.intBits = 128 then 128 else 64)
        (if max src.intBits dst.intBits = 128 then pliPow10_128 else pliPow10) (by
          by_cases wide : max src.intBits dst.intBits = 128
          · rw [if_pos (width.mp wide)] at powers
            rw [if_pos wide, if_pos wide]
            exact Or.inl ⟨rfl, by omega, rfl⟩
          · rw [if_neg fun all => wide (width.mpr all)] at powers
            rw [if_neg wide, if_neg wide]
            exact Or.inr ⟨rfl, by omega, rfl⟩)
        (by
          refine stored_fits stored ?_
          have bits := slot_cases src
          have other := slot_cases dst
          split <;> omega)
        (moved (by omega))
      rw [← due] at computed
      rw [if_pos (by omega)]
      have same := congrArg (checkDec src dst) computed
      rw [apply_ite (checkDec src dst)] at same
      rw [same]
      refine checked fits ?_
      intro unneeded narrow
      have room := (unneeded_fits narrow unneeded).2
      have scaled := @scaled_range src dst raw source target 0 from_declared.2.1 (by omega) stored.1
      rw [pow_zero, mul_one] at scaled
      exact inRange_toward toward scaled

/-- The words hold the powers, products and sums that the conversion forms, and the pair does
    not go through FLOAT. -/
def WordsHold (src dst : Ty) (raw : Int) : Prop :=
  throughFloat src dst = false ∧
    match src.k, dst.k with
    | .fixedBin, .fixedBin => (dst.scale - src.scale).natAbs ≤ 62
    | .fixedDec, .fixedBin => decToBinHolds src dst raw
    | .fixedBin, .fixedDec => binToDecHolds src dst raw
    | _, _ => decToDecHolds src dst raw

def BranchRight (src dst : Ty) (raw : Int) : Prop :=
  match src.k, dst.k with
  | .fixedBin, .fixedBin => True
  | .fixedDec, .fixedBin => decToBinRight src dst raw
  | .fixedBin, .fixedDec => binToDecRight src dst raw
  | _, _ => decToDecRight src dst raw

theorem exact_of_convert {c : Converted} (done : convert src dst raw = some c) :
    Exact src dst raw ↔ ExactAt dst (required dst (value src raw)) c := by
  unfold Exact
  rw [done]
  constructor
  · rintro ⟨other, same, exact_at⟩
    cases same
    exact exact_at
  · intro exact_at
    exact ⟨c, rfl, exact_at⟩

theorem converted_fits {c : Converted} (done : convert src dst raw = some c) :
    Fits dst.intBits c.raw := by
  have fitted : ∃ n, c.raw = fitFixed dst n := by
    unfold convert binToBin decToBin binToDec decToDec at done
    dsimp only at done
    split at done
    · cases done
    · split at done
      · cases done
        split
        · exact ⟨_, rfl⟩
        · split <;> exact ⟨_, rfl⟩
      · cases done
        split <;> exact ⟨_, rfl⟩
      · cases done
        split <;> exact ⟨_, rfl⟩
      · cases done
        split
        · exact ⟨_, rfl⟩
        · split
          · split <;> exact ⟨_, rfl⟩
          · exact ⟨_, rfl⟩
      · cases done
  obtain ⟨n, same⟩ := fitted
  rw [same]
  exact word_fits (intBits_pos dst) n

theorem convert_computes {src dst : Ty} {raw : Int} (from_declared : Declared src)
    (declared : Declared dst) (stored : Stored src raw) (holds : WordsHold src dst raw) :
    ∃ c, convert src dst raw = some c ∧ (SlotHolds dst (required dst (value src raw)) →
      (ExactAt dst (required dst (value src raw)) c ↔ BranchRight src dst raw)) := by
  obtain ⟨fixed, powers⟩ := holds
  unfold BranchRight
  rcases from_declared.1 with source | source
  · have kept : Fits 64 raw := stored_fits stored (binary_word source)
    rcases declared.1 with target | target
    · simp only [source, target] at powers ⊢
      have checks := binToBin_computes source target declared stored powers
      exact ⟨_, by simp [convert, fixed, source, target], fun slot => ⟨fun _ => trivial, fun _ =>
        (checks_exact_iff checks slot fun _ => slot).mpr (Or.inl rfl)⟩⟩
    · simp only [source, target] at powers ⊢
      exact ⟨_, by simp [convert, fixed, source, target],
        fun slot => binToDec_exact_iff source target declared slot kept powers⟩
  · rcases declared.1 with target | target
    · simp only [source, target] at powers ⊢
      exact ⟨_, by simp [convert, fixed, source, target],
        fun slot => decToBin_exact_iff source target declared slot powers⟩
    · simp only [source, target] at powers ⊢
      exact ⟨_, by simp [convert, fixed, source, target],
        fun slot => decToDec_exact_iff source target from_declared declared slot stored powers⟩

/-- Where the words hold, a conversion is exact just when the target's slot holds the number and
    its branch is right. -/
theorem convert_exact_iff {src dst : Ty} {raw : Int} (from_declared : Declared src)
    (declared : Declared dst) (stored : Stored src raw) (holds : WordsHold src dst raw) :
    Exact src dst raw ↔
      SlotHolds dst (required dst (value src raw)) ∧ BranchRight src dst raw := by
  obtain ⟨c, done, right⟩ := convert_computes from_declared declared stored holds
  rw [exact_of_convert done]
  constructor
  · intro exact_at
    have slot : SlotHolds dst (required dst (value src raw)) := fun inside =>
      exact_at.2 inside ▸ converted_fits done
    exact ⟨slot, (right slot).mp exact_at⟩
  · rintro ⟨slot, branch⟩
    exact (right slot).mpr branch

def bin (p q : Int) : Ty := ⟨.fixedBin, p, q, false⟩

/-- 123.45 rounds to 123.5, and is 123 without a fraction. -/
theorem convert_exact_decimal :
    Exact (.fixedDec 5 2) (.fixedDec 5 1) 12345 ∧
      required (.fixedDec 5 1) (value (.fixedDec 5 2) 12345) = 1235 ∧
      Exact (.fixedDec 5 2) (bin 15 0) 12345 := by
  refine ⟨(convert_exact_iff (by decide) (by decide) (by decide) ?_).mpr ⟨by decide +kernel, ?_⟩,
    ?_,
    (convert_exact_iff (by decide) (by decide) (by decide) ?_).mpr ⟨by decide +kernel, ?_⟩⟩
  · refine ⟨by decide, ?_⟩
    show decToDecHolds _ _ _
    unfold decToDecHolds
    decide
  · show decToDecRight _ _ _
    intro wide
    cases wide
  · decide +kernel
  · refine ⟨by decide, ?_⟩
    show decToBinHolds _ _ _
    unfold decToBinHolds
    rw [if_neg (by decide)]
    decide
  · show decToBinRight _ _ _
    intro negative
    cases negative

/-- 10 held as 1 in DECIMAL(5,-1) becomes 0 in BINARY(15,-1), where it should be 5. -/
theorem convert_divides_first :
    Declared (.fixedDec 5 (-1)) ∧ Declared (bin 15 (-1)) ∧ Stored (.fixedDec 5 (-1)) 1 ∧
      convert (.fixedDec 5 (-1)) (bin 15 (-1)) 1 = some ⟨0, false⟩ ∧
      required (bin 15 (-1)) (value (.fixedDec 5 (-1)) 1) = 5 ∧
      ¬ Exact (.fixedDec 5 (-1)) (bin 15 (-1)) 1 := by
  have done : convert (.fixedDec 5 (-1)) (bin 15 (-1)) 1 = some ⟨0, false⟩ := by decide +kernel
  have due : required (bin 15 (-1)) (value (.fixedDec 5 (-1)) 1) = 5 := by decide +kernel
  refine ⟨by decide, by decide, by decide, done, due, ?_⟩
  rw [exact_of_convert done, due]
  intro exact_at
  have wrong := exact_at.2 (by decide)
  cases wrong

end PliFixedConvert
