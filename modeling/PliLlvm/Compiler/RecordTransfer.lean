import PliLlvm.Compiler.StoreFixed
import PliLlvm.Lib.ByteFile

/- Sequential record transmission: the code for READ and WRITE (src/irgen.cpp) over the
   record functions of the runtime (runtime/rt_file.c). Images are in little-endian order,
   transfers succeed, and locks and NONPRINT files are left out. A FLOAT value is the bits of
   its double. FIXED values that pass through FLOAT are integers all the way, so the
   double arithmetic is that of integers with a rounding after each operation. -/
namespace PliRecordTransfer
open FixedPoint PliConstFold PliFixedConvert PliStoreFixed ByteFiles

structure Rounding where
  fl : Int → Int
  zero : fl 0 = 0
  pos : ∀ n, 0 < n → 0 < fl n
  keeps : ∀ (j : Nat) (n : Int), (2 : Int) ^ j ∣ n → (2 : Int) ^ j ∣ fl n

section Target
variable (double : Rounding) (sizeChecks resumes : Bool)

/-- convert of a FIXED BINARY(63) integer to FLOAT and on to a FIXED DECIMAL of at least
    one fraction digit. A value that i128 does not hold has no conversion. -/
def throughFloatStore (dst : Ty) (raw : Int) : Option Int :=
  let sc := if dst.scale ≤ 18 then pliPow10 dst.scale else pliPow10_128 dst.scale
  let f := double.fl (double.fl raw * double.fl sc)
  let lim := double.fl (if dst.prec ≤ 18 then pliPow10 dst.prec else pliPow10_128 dst.prec)
  if sizeChecks && !resumes && !decide (-lim < f ∧ f < lim) then none
  else if Fits dst.intBits f then some f else none

def rawTy : Ty := ⟨.fixedBin, 63, 0, false⟩

def storeRead (dst : Ty) (raw : Int) : Option Int :=
  if throughFloat rawTy dst then throughFloatStore double sizeChecks resumes dst raw
  else storeFixed sizeChecks resumes rawTy dst raw

end Target

/-- `toI64` of a FIXED value. -/
def toI64 (raw : Int) : Int := word 64 raw

/-- A CHARACTER variable of adjustable length has its live length, and 1 in its type. -/
inductive ScalarTy where
  | fixed (ty : Ty)
  | float
  | bit (len : Nat)
  | char (len : Nat)
  | adjustable (live : Nat)
  deriving DecidableEq

inductive Scalar where
  | fixed (raw : Int)
  | float (bits : Nat)
  | bit (b : Bool)
  | packed (bytes : List UInt8)
  | char (bytes : List UInt8)
  deriving DecidableEq

def Widest (ty : Ty) : Prop := ty.prec ≤ if ty.k = .fixedBin then 63 else 38

instance (ty : Ty) : Decidable (Widest ty) := inferInstanceAs (Decidable (_ ≤ _))

def HasType : ScalarTy → Scalar → Prop
  | .fixed ty, .fixed raw => Declared ty ∧ Widest ty ∧ Stored ty raw
  | .float, .float bits => bits < 2 ^ 64
  | .bit len, .bit _ => len = 1
  | .bit len, .packed bytes => len ≠ 1 ∧ bytes.length = (len + 7) / 8
  | .char len, .char bytes => bytes.length = len
  | .adjustable live, .char bytes => bytes.length = live
  | _, _ => False

structure Slot where
  file : Option CFile
  current : Option (Nat × Nat)

def openOutput : Slot := ⟨some ⟨[], 0⟩, none⟩

def reopenInput (s : Slot) : Slot := ⟨s.file.map fun f => ⟨f.bytes, 0⟩, none⟩

def recordWrite (s : Slot) (image : List UInt8) : Option Slot :=
  s.file.map fun f => ⟨some (f.write image), some (f.tell, image.length)⟩

def recordRead (s : Slot) (size : Nat) : Option (List UInt8 × Slot) :=
  s.file.bind fun f =>
    let r := f.read size
    if r.1.length = size then some (r.1, ⟨some r.2, some (f.tell, size)⟩) else none

def pliRecordWriteFixed (s : Slot) (v : Int) : Option Slot :=
  recordWrite s (leBytes 8 (v % 2 ^ 64).toNat)

def pliRecordWriteFloat (s : Slot) (bits : Nat) : Option Slot := recordWrite s (leBytes 8 bits)

def pliRecordWriteBit (s : Slot) (v : UInt8) : Option Slot := recordWrite s [v]

def pliRecordWriteChar (s : Slot) (p : List UInt8) : Option Slot :=
  if p.length ≤ 0 then s.file.map fun _ => s else recordWrite s p

def signed64 (bytes : List UInt8) : Int := word 64 (leValue bytes)

def pliRecordReadFixed (s : Slot) : Option (Int × Slot) :=
  (recordRead s 8).map fun r => (signed64 r.1, r.2)

def pliRecordReadFloat (s : Slot) : Option (Nat × Slot) :=
  (recordRead s 8).map fun r => (leValue r.1, r.2)

def pliRecordReadBit (s : Slot) : Option (Nat × Slot) :=
  (recordRead s 1).map fun r => (leValue r.1, r.2)

def pliRecordReadChar (s : Slot) (len : Nat) : Option (List UInt8 × Slot) :=
  if len ≤ 0 then s.file.map fun _ => ([], s) else recordRead s len

/-- WRITE FILE(f) FROM(x). A BIT string of several bits is no integer to extend: there is
    no code for it. -/
def emitRecordWrite (s : Slot) : ScalarTy → Scalar → Option Slot
  | .fixed _, .fixed raw => pliRecordWriteFixed s (toI64 raw)
  | .float, .float bits => pliRecordWriteFloat s bits
  | .bit _, .bit b => pliRecordWriteBit s (if b then 1 else 0)
  | .char _, .char bytes => pliRecordWriteChar s bytes
  | .adjustable _, .char bytes => pliRecordWriteChar s bytes
  | _, _ => none

/-- A BIT(1) assigned to a BIT string goes by way of an integer, whose low bits the string
    gets: its last byte is the only one that is not zero. -/
def widenBit (len : Nat) (b : Bool) : Option Scalar :=
  if len = 1 then some (.bit b)
  else if 64 < len then none
  else
    let bytes := (len + 7) / 8
    some (.packed (List.replicate (bytes - 1) 0 ++
      [if b then UInt8.ofNat (2 ^ (8 * bytes - len)) else 0]))

def padded (live : Nat) (bytes : List UInt8) : List UInt8 :=
  (bytes ++ List.replicate (live - bytes.length) 32).take live

section Transmission
variable (double : Rounding) (sizeChecks resumes : Bool)

def emitRecordRead (s : Slot) : ScalarTy → Option (Scalar × Slot)
  | .fixed ty =>
    (pliRecordReadFixed s).bind fun r =>
      (storeRead double sizeChecks resumes ty r.1).map fun raw => (.fixed raw, r.2)
  | .float => (pliRecordReadFloat s).map fun r => (.float r.1, r.2)
  | .bit len =>
    (pliRecordReadBit s).bind fun r => (widenBit len (r.1 % 2 == 1)).map fun v => (v, r.2)
  | .char len => (pliRecordReadChar s len).map fun r => (.char r.1, r.2)
  | .adjustable live => (pliRecordReadChar s 1).map fun r => (.char (padded live r.1), r.2)

def writeAll : Slot → List (ScalarTy × Scalar) → Option Slot
  | s, [] => some s
  | s, (ty, v) :: items => (emitRecordWrite s ty v).bind fun s' => writeAll s' items

def readAll : Slot → List ScalarTy → Option (List Scalar)
  | _, [] => some []
  | s, ty :: tys =>
    (emitRecordRead double sizeChecks resumes s ty).bind fun r =>
      (readAll r.2 tys).map (r.1 :: ·)

def transfer (items : List (ScalarTy × Scalar)) : Option (List Scalar) :=
  (writeAll openOutput items).bind fun s =>
    readAll double sizeChecks resumes (reopenInput s) (items.map (·.1))

end Transmission

def ComesBack (ty : Ty) (raw : Int) : Prop :=
  raw = 0 ∨ Fits 64 raw ∧ (ty.scale = 0 ∨ ty.wideDec = true ∧ ty.scale < 0)

def ItemComesBack : ScalarTy × Scalar → Prop
  | (.fixed ty, .fixed raw) => ComesBack ty raw
  | (.bit len, _) => len = 1
  | (.adjustable live, _) => live = 1
  | _ => True

/-- The last item of adjustable length comes back too when only blanks follow its first
    character. -/
def AllBack : List (ScalarTy × Scalar) → Prop
  | [(.adjustable live, .char bytes)] => 0 < live ∧ ∀ c ∈ bytes.drop 1, c = 32
  | item :: items => ItemComesBack item ∧ AllBack items
  | [] => True

def ScalarTy.Sized : ScalarTy → Prop
  | .adjustable live => live = 1
  | _ => True

section Rescaled

def rescaled (ty : Ty) (n : Int) : Int :=
  if ty.k = .fixedBin then
    if ty.scale = 0 then n
    else if 0 < ty.scale then word 128 (n * oneShl ty.scale)
    else word 128 (n.tdiv (oneShl (-ty.scale)))
  else if ty.intBits = 128 then binToDecWide rawTy ty n
  else binToDecNarrow rawTy ty n

def keptBits (ty : Ty) : Nat :=
  if ty.k = .fixedBin then min (ty.prec.toNat + 1) ty.intBits else ty.intBits

theorem keptBits_pos (ty : Ty) : 0 < keptBits ty := by
  have slot := intBits_pos ty
  unfold keptBits
  split <;> omega

variable {ty : Ty}

theorem stored_kept {raw : Int} (stored : Stored ty raw) : Fits (keptBits ty) raw := by
  unfold keptBits
  split
  · rename_i binary
    have range := (inRange_binary binary raw).1 stored.1
    rcases Nat.le_total (ty.prec.toNat + 1) ty.intBits with le | le
    · rw [Nat.min_eq_left le]
      exact range
    · rw [Nat.min_eq_right le]
      exact stored.2
  · exact stored.2

theorem checkBin_modEq {bits : Nat} {dst : Ty} {r : Int} (binary : dst.k = .fixedBin) :
    (checkBin bits dst r).raw ≡ r [ZMOD 2 ^ keptBits dst] := by
  have kept : keptBits dst = min (dst.prec.toNat + 1) dst.intBits := by
    rw [keptBits, if_pos binary]
  have coarser : ∀ w, keptBits dst ≤ w → word w r ≡ r [ZMOD 2 ^ keptBits dst] := by
    intro w le
    exact (word_mod_eq w r).of_dvd (pow_dvd_pow 2 le)
  have slot : ∀ n, fitFixed dst n ≡ n [ZMOD 2 ^ keptBits dst] := by
    intro n
    exact (word_mod_eq dst.intBits n).of_dvd (pow_dvd_pow 2 (by omega))
  unfold checkBin
  refine (slot _).trans ?_
  unfold fixedBinPrecTrap
  split
  · exact Int.ModEq.refl r
  · dsimp only
    split
    · exact coarser _ (by omega)
    · exact Int.ModEq.refl r

variable {n : Int}

theorem kept_of_slot {m : Int} (same : m ≡ n [ZMOD 2 ^ ty.intBits]) :
    m ≡ n [ZMOD 2 ^ keptBits ty] := by
  refine same.of_dvd (pow_dvd_pow 2 ?_)
  unfold keptBits
  split <;> omega

theorem rescaled_wide (decimal : ty.k = .fixedDec) (wide : ty.intBits = 128) (n : Int) :
    rescaled ty n = binToDecWide rawTy ty n := by
  rw [rescaled, if_neg (by simp [decimal]), if_pos wide]

theorem rescaled_narrow (decimal : ty.k = .fixedDec) (narrow : ¬ ty.intBits = 128) (n : Int) :
    rescaled ty n = binToDecNarrow rawTy ty n := by
  rw [rescaled, if_neg (by simp [decimal]), if_neg narrow]

theorem binToDec_raw (decimal : ty.k = .fixedDec) (n : Int) :
    (binToDec rawTy ty n).raw = word ty.intBits (rescaled ty n) := by
  unfold binToDec
  split
  · rename_i wide
    rw [rescaled_wide decimal wide]
    rfl
  · rename_i narrow
    rw [rescaled_narrow decimal narrow]
    rfl

theorem stored_modEq {r : Int} {sizeChecks resumes : Bool}
    (fixed : ty.k = .fixedBin ∨ ty.k = .fixedDec) (direct : throughFloat rawTy ty = false)
    (stored : storeFixed sizeChecks resumes rawTy ty n = some r) :
    r ≡ rescaled ty n [ZMOD 2 ^ keptBits ty] := by
  have source : rawTy.k = .fixedBin := rfl
  have level : rawTy.scale = 0 := rfl
  have checked : ∀ c, convert rawTy ty n = some c →
    c.raw ≡ rescaled ty n [ZMOD 2 ^ keptBits ty] := by
    intro c done
    rcases fixed with binary | decimal
    · simp only [convert, direct, source, binary, Bool.false_eq_true, if_false,
        Option.some.injEq] at done
      subst done
      unfold binToBin rescaled
      rw [if_pos binary, level, sub_zero]
      dsimp only
      split
      · exact checkBin_modEq binary
      · split
        · exact checkBin_modEq binary
        · exact checkBin_modEq binary
    · simp only [convert, direct, source, decimal, Bool.false_eq_true, if_false,
        Option.some.injEq] at done
      subst done
      rw [binToDec_raw decimal]
      exact kept_of_slot (word_mod_eq _ _)
  unfold storeFixed at stored
  split at stored
  · obtain ⟨c, done, taken⟩ := Option.bind_eq_some_iff.mp stored
    split at taken
    · cases taken
    · injection taken with taken
      subst taken
      exact checked c done
  · rcases fixed with binary | decimal
    · simp only [convertNoSize, direct, source, binary, level, sub_zero, Bool.false_eq_true,
        if_false] at stored
      unfold rescaled
      rw [if_pos binary]
      split at stored
      · rename_i whole
        rw [if_pos whole]
        injection stored with stored
        rw [← stored]
        exact kept_of_slot (word_mod_eq _ _)
      · rename_i scaled
        rw [if_neg scaled]
        split at stored
        · rename_i up
          rw [if_pos up]
          injection stored with stored
          rw [← stored]
          exact kept_of_slot (word_mod_eq _ _)
        · rename_i down
          rw [if_neg down]
          injection stored with stored
          rw [← stored]
          exact kept_of_slot (word_mod_eq _ _)
    · have done : convert rawTy ty n = some (binToDec rawTy ty n) := by
        simp [convert, direct, source, decimal]
      simp only [convertNoSize, direct, source, decimal, Bool.false_eq_true, if_false,
        Option.some.injEq] at stored
      rw [← stored]
      exact checked _ done

theorem rescaled_stored {ty : Ty} {n : Int} {sizeChecks resumes : Bool} (declared : Declared ty)
    (widest : Widest ty) (direct : throughFloat rawTy ty = false)
    (stored : Stored ty (rescaled ty n)) :
    storeFixed sizeChecks resumes rawTy ty n = some (rescaled ty n) := by
  have source : rawTy.k = .fixedBin := rfl
  have slot : word ty.intBits (rescaled ty n) = rescaled ty n :=
    word_of_fits (intBits_pos ty) stored.2
  apply storeFixed_quiet
  rcases declared.1 with binary | decimal
  · have range : InRange ty (rescaled ty n) := stored.1
    have quiet : ∀ bits, checkBin bits ty (rescaled ty n) = ⟨rescaled ty n, false⟩ := by
      intro bits
      rw [InRange, if_pos binary] at range
      unfold checkBin fixedBinPrecTrap
      split
      · simp [fitFixed, slot]
      · dsimp only
        rw [if_neg (by omega)]
        simp [fitFixed, slot]
    simp only [convert, direct, source, binary, Bool.false_eq_true, if_false, Option.some.injEq]
    have formed : ∃ bits, binToBin rawTy ty n = checkBin bits ty (rescaled ty n) := by
      unfold binToBin rescaled
      rw [if_pos binary, show rawTy.scale = 0 from rfl, sub_zero]
      dsimp only
      split
      · exact ⟨_, rfl⟩
      · split
        · exact ⟨_, rfl⟩
        · exact ⟨_, rfl⟩
    obtain ⟨bits, formed⟩ := formed
    rw [formed, quiet]
  · rw [Widest, if_neg (by simp [decimal])] at widest
    simp only [convert, direct, source, decimal, Bool.false_eq_true, if_false, Option.some.injEq]
    unfold binToDec
    by_cases wide : ty.intBits = 128
    · rw [if_pos wide]
      have formed := rescaled_wide decimal wide n
      have inside : ¬ wideMagTrap 256 (rescaled ty n) ty.prec = true := by
        rw [wideMagTrap_iff decimal (by omega), not_not]
        exact stored.1
      rw [Bool.not_eq_true] at inside
      simp only [← formed, fitFixed, slot, inside]
    · rw [if_neg wide]
      have formed := rescaled_narrow decimal wide n
      have narrow : ty.prec ≤ 18 := by
        by_contra many
        have wideDec := declared.2.2
        simp only [decimal, decide_true, Bool.true_and] at wideDec
        rw [decimal_wide decimal, wideDec] at wide
        exact wide (decide_eq_true (by omega))
      have inside : ¬ magTrap (rescaled ty n) (decLimit ty) = true := by
        rw [magTrap_iff decimal narrow, not_not]
        exact stored.1
      rw [Bool.not_eq_true] at inside
      simp only [← formed, checkDec, fitFixed, slot, inside, Bool.and_false]

variable {w : Nat}

theorem word_dvd {j : Nat} (within : j ≤ w) (divides : (2 : Int) ^ j ∣ n) :
    (2 : Int) ^ j ∣ word w n :=
  ((word_mod_eq w n).of_dvd (pow_dvd_pow 2 within)).dvd_iff.2 divides

theorem power_even {b : Int} {k : Nat} (even : (2 : Int) ∣ b) (some_power : 0 < k) :
    (2 : Int) ∣ b ^ k :=
  even.trans (dvd_pow_self b (by omega))

theorem rescaled_level (fixed : ty.k = .fixedBin ∨ ty.k = .fixedDec)
    (level : ty.scale = 0 ∨ ty.intBits = 128 ∧ ty.scale < 0) (n : Int) : rescaled ty n = n := by
  rcases fixed with binary | decimal
  · have narrow := binary_word binary
    rw [rescaled, if_pos binary, if_pos (by omega)]
  · by_cases wide : ty.intBits = 128
    · rw [rescaled_wide decimal wide]
      have not_up : ¬ 0 < ty.scale := by omega
      simp [binToDecWide, rawTy, not_up]
    · have whole : ty.scale = 0 := by omega
      rw [rescaled_narrow decimal wide]
      simp [binToDecNarrow, rawTy, whole]

theorem rescaled_up (fixed : ty.k = .fixedBin ∨ ty.k = .fixedDec) (up : 0 < ty.scale)
    (n : Int) : ∃ c, (2 : Int) ∣ c ∧ rescaled ty n ≡ n * c [ZMOD 2 ^ 128] := by
  rcases fixed with binary | decimal
  · refine ⟨oneShl ty.scale, word_dvd (j := 1) (by omega) (power_even (by omega) (by omega)), ?_⟩
    rw [rescaled, if_pos binary, if_neg (by omega), if_pos up]
    exact word_mod_eq 128 _
  · by_cases wide : ty.intBits = 128
    · refine ⟨intPowConst 256 10 ty.scale,
        word_dvd (j := 1) (by omega) (power_even (by omega) (by omega)), ?_⟩
      rw [rescaled_wide decimal wide]
      have formed : binToDecWide rawTy ty n = word 256 (n * intPowConst 256 10 ty.scale) := by
        simp [binToDecWide, rawTy, up]
      rw [formed]
      exact (word_mod_eq 256 _).of_dvd (pow_dvd_pow 2 (by omega))
    · refine ⟨pliPow10 ty.scale, word_dvd (j :=
        1) (by omega) (power_even (by omega) (by omega)), ?_⟩
      rw [rescaled_narrow decimal wide]
      have formed : binToDecNarrow rawTy ty n = word 128 (n * pliPow10 ty.scale) := by
        simp [binToDecNarrow, rawTy, up]
      rw [formed]
      exact word_mod_eq 128 _

theorem rescaled_down (fixed : ty.k = .fixedBin ∨ ty.k = .fixedDec) (down : ty.scale < 0)
    (narrow : ¬ ty.intBits = 128) (n : Int) :
    ∃ c, (2 : Int) ∣ c ∧ rescaled ty n = word 128 (n.tdiv c) := by
  rcases fixed with binary | decimal
  · refine ⟨oneShl (-ty.scale), word_dvd (j := 1) (by omega) (power_even (by omega) (by omega)), ?_⟩
    rw [rescaled, if_pos binary, if_neg (by omega), if_neg (by omega)]
  · refine ⟨pliPow10 (-ty.scale), word_dvd (j :=
      1) (by omega) (power_even (by omega) (by omega)), ?_⟩
    rw [rescaled_narrow decimal narrow]
    have not_up : ¬ 0 < ty.scale := by omega
    simp [binToDecNarrow, rawTy, not_up, down]

theorem tdiv_even_halves (n : Int) {c : Int} (even : (2 : Int) ∣ c) :
    2 * (n.tdiv c).natAbs ≤ n.natAbs := by
  rw [Int.natAbs_tdiv]
  obtain ⟨d, rfl⟩ := even
  rw [Int.natAbs_mul]
  show 2 * (n.natAbs / (2 * d.natAbs)) ≤ n.natAbs
  rw [← Nat.div_div_eq_div_mul]
  have le := Nat.div_le_self (n.natAbs / 2) d.natAbs
  omega

theorem grows_dvd (step : ∀ j < w, (2 : Int) ^ j ∣ n → (2 : Int) ^ (j + 1) ∣ n) :
    (2 : Int) ^ w ∣ n := by
  induction w with
  | zero =>
    rw [pow_zero]
    exact one_dvd n
  | succ w ih => exact step w (by omega) (ih fun j lt => step j (by omega))

theorem even_multiple_dvd {c : Int} (even : (2 : Int) ∣ c)
    (same : n ≡ n * c [ZMOD 2 ^ w]) : (2 : Int) ^ w ∣ n := by
  refine grows_dvd fun j lt divides => ?_
  have product : (2 : Int) ^ (j + 1) ∣ n * c := by
    rw [pow_succ]
    exact mul_dvd_mul divides even
  exact (same.of_dvd (pow_dvd_pow 2 lt)).dvd_iff.2 product

theorem zero_of_dvd (pos : 0 < w) (fits : Fits w n) (divides : (2 : Int) ^ w ∣ n) : n = 0 := by
  have same : word w n = word w 0 := word_eq_iff.2 (Int.modEq_zero_iff_dvd.2 divides)
  have zero : Fits w 0 := by
    have some_range : (0 : Int) < 2 ^ (w - 1) := by positivity
    unfold Fits
    omega
  rwa [word_of_fits pos fits, word_of_fits pos zero] at same

theorem fits_modEq {m : Int} (pos : 0 < w) (left : Fits w m) (right : Fits w n)
    (same : m ≡ n [ZMOD 2 ^ w]) : m = n := by
  have words := word_eq_iff.2 same
  rwa [word_of_fits pos left, word_of_fits pos right] at words

end Rescaled

section Scalars
variable (double : Rounding) (sizeChecks resumes : Bool)

variable {ty : Ty}

theorem comesBack_level (declared : Declared ty) :
    (ty.scale = 0 ∨ ty.wideDec = true ∧ ty.scale < 0) ↔
      (ty.scale = 0 ∨ ty.intBits = 128 ∧ ty.scale < 0) := by
  rcases declared.1 with binary | decimal
  · have narrow := binary_word binary
    have wideDec := declared.2.2
    simp only [binary, reduceCtorEq, decide_false, Bool.false_and] at wideDec
    rw [wideDec]
    constructor
    · rintro (whole | ⟨wide, -⟩)
      · exact Or.inl whole
      · cases wide
    · rintro (whole | ⟨wide, -⟩)
      · exact Or.inl whole
      · omega
  · rw [decimal_wide decimal]

theorem zero_stored : Stored ty 0 := by
  have two : (0 : Int) < 2 ^ ty.prec.toNat := by positivity
  have ten : (0 : Int) < 10 ^ ty.prec.toNat := by positivity
  have slot : (0 : Int) < 2 ^ (ty.intBits - 1) := by positivity
  unfold Stored InRange Fits
  split <;> omega

theorem keptBits_le (ty : Ty) : keptBits ty ≤ ty.intBits := by
  unfold keptBits
  split <;> omega

theorem rescaled_zero (fixed : ty.k = .fixedBin ∨ ty.k = .fixedDec) : rescaled ty 0 = 0 := by
  have zero : ∀ w, word w 0 = 0 := by
    intro w
    simp [word]
  rcases fixed with binary | decimal
  · simp [rescaled, binary, zero]
  · by_cases wide : ty.intBits = 128
    · rw [rescaled_wide decimal wide]
      simp [binToDecWide, rawTy, zero]
    · rw [rescaled_narrow decimal wide]
      simp [binToDecNarrow, rawTy, zero]

variable {raw : Int}

theorem direct_comes_back_iff (declared : Declared ty) (widest : Widest ty)
    (stored : Stored ty raw) (direct : throughFloat rawTy ty = false) :
    storeFixed sizeChecks resumes rawTy ty (toI64 raw) = some raw ↔ ComesBack ty raw := by
  have kept := stored_kept stored
  have bits := keptBits_pos ty
  have cut : toI64 raw ≡ raw [ZMOD 2 ^ 64] := word_mod_eq 64 raw
  have cut_fits : Fits 64 (toI64 raw) := word_fits (by omega) raw
  unfold ComesBack
  rw [comesBack_level declared]
  constructor
  · intro back
    have agrees := stored_modEq declared.1 direct back
    by_cases level : ty.scale = 0 ∨ ty.intBits = 128 ∧ ty.scale < 0
    · rw [rescaled_level declared.1 level] at agrees
      refine Or.inr ⟨?_, level⟩
      by_cases narrow : ty.intBits ≤ 64
      · exact fits_mono narrow stored.2
      · have wide : keptBits ty = ty.intBits := by
          unfold keptBits
          split
          · rename_i binary
            exact absurd (binary_word binary) narrow
          · rfl
        have same : raw = toI64 raw := by
          refine fits_modEq bits kept (fits_mono (by omega) cut_fits) agrees
        rw [same]
        exact cut_fits
    · left
      rcases Int.lt_or_gt_of_ne (fun whole => level (Or.inl whole)) with down | up
      · have narrow : ¬ ty.intBits = 128 := fun wide => level (Or.inr ⟨wide, down⟩)
        have slot : ty.intBits ≤ 64 := by
          have cases := slot_cases ty
          omega
        obtain ⟨c, even, formed⟩ := rescaled_down declared.1 down narrow (toI64 raw)
        have whole : toI64 raw = raw := word_of_fits (by omega) (fits_mono slot stored.2)
        have small := tdiv_even_halves raw even
        have size := keptBits_le ty
        have quotient : Fits (keptBits ty) (raw.tdiv c) := by
          unfold Fits at kept ⊢
          omega
        rw [formed, whole, word_of_fits (by omega) (fits_mono (by omega) quotient)] at agrees
        have same := fits_modEq bits kept quotient agrees
        omega
      · obtain ⟨c, even, formed⟩ := rescaled_up declared.1 up (toI64 raw)
        have size := keptBits_le ty
        have cases := slot_cases ty
        by_cases narrow : ty.intBits ≤ 64
        · have whole : toI64 raw = raw := word_of_fits (by omega) (fits_mono narrow stored.2)
          rw [whole] at formed agrees
          have same := agrees.trans (formed.of_dvd (pow_dvd_pow 2 (by omega)))
          exact zero_of_dvd bits kept (even_multiple_dvd even same)
        · have wide : keptBits ty = 128 := by
            unfold keptBits
            split
            · rename_i binary
              exact absurd (binary_word binary) narrow
            · omega
          rw [wide] at agrees kept
          have low := cut.trans ((agrees.trans formed).of_dvd (pow_dvd_pow 2 (by omega)))
          have none_left := zero_of_dvd (by omega) cut_fits (even_multiple_dvd even low)
          rw [none_left, rescaled_zero declared.1] at agrees
          exact fits_modEq (by omega) kept (by decide) agrees
  · rintro (rfl | ⟨fits, level⟩)
    · have computes := rescaled_zero declared.1
      have cut_zero : toI64 0 = 0 := by
        simp [toI64, word]
      rw [cut_zero]
      have stores := @rescaled_stored ty 0 sizeChecks resumes declared widest direct
        (by rw [computes]; exact stored)
      rwa [computes] at stores
    · have computes := rescaled_level declared.1 level raw
      have whole : toI64 raw = raw := word_of_fits (by omega) fits
      rw [whole]
      have stores := @rescaled_stored ty raw sizeChecks resumes declared widest direct
        (by rw [computes]; exact stored)
      rwa [computes] at stores

theorem float_comes_back_iff (declared : Declared ty) (widest : Widest ty)
    (stored : Stored ty raw) (through : throughFloat rawTy ty = true) :
    throughFloatStore double sizeChecks resumes ty (toI64 raw) = some raw ↔ ComesBack ty raw := by
  simp only [throughFloat, rawTy, decide_true, Bool.true_and, reduceCtorEq, decide_false,
    Bool.false_and, Bool.or_false, Bool.and_eq_true, Bool.or_eq_true, decide_eq_true_eq] at through
  obtain ⟨⟨decimal, digits⟩, steep⟩ := through
  have zero_only : ComesBack ty raw ↔ raw = 0 := by
    constructor
    · rintro (zero | ⟨-, whole | ⟨-, down⟩⟩)
      · exact zero
      · omega
      · omega
    · intro zero
      exact Or.inl zero
  have wideDec : ty.wideDec = true := by
    rcases digits with wide | many
    · exact (decimal_wide decimal).1 wide
    · rw [declared.2.2, decimal]
      simpa using many
  have many : 18 < ty.prec := by
    have same := declared.2.2
    rw [wideDec, decimal] at same
    simpa using same.symm
  rw [Widest, if_neg (by simp [decimal])] at widest
  rw [zero_only]
  unfold throughFloatStore
  rw [if_neg (by omega : ¬ ty.scale ≤ 18), if_neg (by omega : ¬ ty.prec ≤ 18)]
  dsimp only
  constructor
  · intro back
    split at back
    · cases back
    · split at back
      · injection back with back
        have even : (2 : Int) ^ 1 ∣ double.fl (pliPow10_128 ty.scale) :=
          double.keeps 1 _ (word_dvd (by omega) (power_even (by omega) (by omega)))
        have cut : toI64 raw ≡ raw [ZMOD 2 ^ 64] := word_mod_eq 64 raw
        have low : (2 : Int) ^ 64 ∣ toI64 raw := by
          refine grows_dvd fun j lt divides => ?_
          have product := double.keeps (j + 1) _ (pow_add (2 : Int) j 1 ▸
            mul_dvd_mul (double.keeps j _ divides) even)
          rw [back] at product
          exact (cut.of_dvd (pow_dvd_pow 2 lt)).dvd_iff.2 product
        have none_left := zero_of_dvd (by omega) (word_fits (by omega) raw) low
        rw [show toI64 raw = 0 from none_left, double.zero, zero_mul, double.zero] at back
        exact back.symm
      · cases back
  · rintro rfl
    have limit := double.pos _ (show 0 < pliPow10_128 ty.prec by
      rw [pliPow10_128_eq widest]
      positivity)
    have cut_zero : toI64 0 = 0 := by
      simp [toI64, word]
    rw [cut_zero, double.zero, zero_mul, double.zero, if_neg, if_pos zero_stored.2]
    simp [limit]

theorem fixed_comes_back_iff (declared : Declared ty) (widest : Widest ty)
    (stored : Stored ty raw) :
    storeRead double sizeChecks resumes ty (toI64 raw) = some raw ↔ ComesBack ty raw := by
  unfold storeRead
  split
  · rename_i through
    exact float_comes_back_iff double sizeChecks resumes declared widest stored through
  · rename_i direct
    exact direct_comes_back_iff sizeChecks resumes declared widest stored (by simpa using direct)

end Scalars

section Files
variable (double : Rounding) (sizeChecks resumes : Bool)

def itemSize : ScalarTy → Nat
  | .fixed _ | .float => 8
  | .bit _ => 1
  | .char len => len
  | .adjustable _ => 1

def image : ScalarTy → Scalar → Option (List UInt8)
  | .fixed _, .fixed raw => some (leBytes 8 (toI64 raw % 2 ^ 64).toNat)
  | .float, .float bits => some (leBytes 8 bits)
  | .bit _, .bit b => some [if b then 1 else 0]
  | .char _, .char bytes => some bytes
  | .adjustable _, .char bytes => some bytes
  | _, _ => none

def decode : ScalarTy → List UInt8 → Option Scalar
  | .fixed ty, r => (storeRead double sizeChecks resumes ty (signed64 r)).map .fixed
  | .float, r => some (.float (leValue r))
  | .bit len, r => widenBit len (leValue r % 2 == 1)
  | .char _, r => some (.char r)
  | .adjustable live, r => some (.char (padded live r))

variable {ty : ScalarTy} {v : Scalar} {r : List UInt8}

theorem image_length (typed : HasType ty v) (sized : ty.Sized)
    (written : image ty v = some r) : r.length = itemSize ty := by
  unfold image at written
  split at written
  · cases written
    exact leBytes_length 8 _
  · cases written
    exact leBytes_length 8 _
  · cases written
    rfl
  · cases written
    exact typed
  · cases written
    exact typed.trans sized
  · cases written

theorem signed64_written (raw : Int) :
    signed64 (leBytes 8 (toI64 raw % 2 ^ 64).toNat) = toI64 raw := by
  have low : (toI64 raw % 2 ^ 64).toNat < 256 ^ 8 := by omega
  have unsigned : ((toI64 raw % 2 ^ 64).toNat : Int) = toI64 raw % 2 ^ 64 := by omega
  rw [signed64, leValue_leBytes low, unsigned]
  have same : word 64 (toI64 raw % 2 ^ 64) = word 64 (toI64 raw) :=
    word_eq_iff.2 (Int.mod_modEq _ _)
  rw [same]
  exact word_of_fits (by omega) (word_fits (by omega) raw)

theorem padded_whole {live : Nat} (length : r.length = live) : padded live r = r := by
  rw [padded, length, Nat.sub_self, List.replicate_zero, List.append_nil, ← length,
    List.take_length]

theorem decode_image_iff (typed : HasType ty v) (sized : ty.Sized) (written : image ty v = some r) :
    decode double sizeChecks resumes ty r = some v ↔ ItemComesBack (ty, v) := by
  unfold image at written
  split at written
  · rename_i ty raw
    obtain ⟨declared, widest, stored⟩ := typed
    cases written
    rw [decode, signed64_written, Option.map_eq_some_iff]
    simp only [Scalar.fixed.injEq, exists_eq_right]
    exact fixed_comes_back_iff double sizeChecks resumes declared widest stored
  · rename_i bits
    cases written
    have typed : bits < 2 ^ 64 := typed
    rw [decode, leValue_leBytes (by omega)]
    exact ⟨fun _ => trivial, fun _ => rfl⟩
  · rename_i len b
    have one : len = 1 := typed
    cases written
    subst one
    refine ⟨fun _ => rfl, fun _ => ?_⟩
    cases b
    · rfl
    · rfl
  · cases written
    exact ⟨fun _ => trivial, fun _ => rfl⟩
  · injection written with written
    subst written
    rw [decode, padded_whole typed]
    exact ⟨fun _ => sized, fun _ => rfl⟩
  · cases written

variable {s : Slot}

theorem write_appends {bytes : List UInt8}
    (at_end : s.file = some ⟨bytes, bytes.length⟩) (written : image ty v = some r) :
    ∃ s', emitRecordWrite s ty v = some s' ∧
      s'.file = some ⟨bytes ++ r, (bytes ++ r).length⟩ := by
  have append : ∀ r : List UInt8, ∃ s', recordWrite s r = some s' ∧
      s'.file = some ⟨bytes ++ r, (bytes ++ r).length⟩ := by
    intro r
    refine ⟨_, by rw [recordWrite, at_end]; rfl, ?_⟩
    simp [CFile.write, splice_end]
  have append_chars : ∀ chars : List UInt8, ∃ s', pliRecordWriteChar s chars = some s' ∧
      s'.file = some ⟨bytes ++ chars, (bytes ++ chars).length⟩ := by
    intro chars
    unfold pliRecordWriteChar
    split
    · rename_i empty
      have none_left : chars = [] := List.eq_nil_of_length_eq_zero (by omega)
      refine ⟨s, by rw [at_end]; rfl, ?_⟩
      rw [at_end, none_left, List.append_nil]
    · exact append _
  unfold image at written
  split at written
  · cases written
    exact append _
  · cases written
    exact append _
  · rename_i b
    cases written
    cases b
    · exact append _
    · exact append _
  · injection written with written
    subst written
    exact append_chars _
  · injection written with written
    subst written
    exact append_chars _
  · cases written

theorem write_needs_image (none_made : image ty v = none) : emitRecordWrite s ty v = none := by
  unfold image at none_made
  split at none_made
  · cases none_made
  · cases none_made
  · cases none_made
  · cases none_made
  · cases none_made
  · unfold emitRecordWrite
    split
    · simp at *
    · simp at *
    · simp at *
    · simp at *
    · simp at *
    · rfl

theorem read_decodes {before after : List UInt8}
    (here : s.file = some ⟨before ++ r ++ after, before.length⟩) (size : r.length = itemSize ty) :
    ∃ s', s'.file = some ⟨before ++ r ++ after, (before ++ r).length⟩ ∧
      emitRecordRead double sizeChecks resumes s ty =
        (decode double sizeChecks resumes ty r).map fun v => (v, s') := by
  have taken : recordRead s (itemSize ty) = some (r,
      ⟨some ⟨before ++ r ++ after, (before ++ r).length⟩, some (before.length, itemSize ty)⟩) := by
    rw [recordRead, here, Option.bind_some, ← size]
    simp only [CFile.read, CFile.tell, read_middle, if_true, List.length_append]
  by_cases empty : ty = .char 0
  · subst empty
    have none_left : r = [] := List.eq_nil_of_length_eq_zero size
    refine ⟨s, by rw [here, none_left, List.append_nil], ?_⟩
    rw [emitRecordRead, pliRecordReadChar, if_pos (Nat.le_refl 0), here, none_left]
    rfl
  · refine ⟨⟨some ⟨before ++ r ++ after, (before ++ r).length⟩, some (before.length, itemSize ty)⟩,
      rfl, ?_⟩
    cases ty with
    | fixed ty =>
      have taken8 : recordRead s 8 = _ := taken
      rw [emitRecordRead, pliRecordReadFixed, taken8, decode, Option.map_some, Option.bind_some,
        Option.map_map]
      rfl
    | float =>
      have taken8 : recordRead s 8 = _ := taken
      rw [emitRecordRead, pliRecordReadFloat, taken8]
      rfl
    | bit len =>
      have taken1 : recordRead s 1 = _ := taken
      rw [emitRecordRead, pliRecordReadBit, taken1]
      rfl
    | char len =>
      have taken_len : recordRead s len = _ := taken
      have some_bytes : ¬ len ≤ 0 := fun none_left => empty (by rw [Nat.le_zero.1 none_left])
      rw [emitRecordRead, pliRecordReadChar, if_neg some_bytes, taken_len]
      rfl
    | adjustable live =>
      have taken1 : recordRead s 1 = _ := taken
      rw [emitRecordRead, pliRecordReadChar, if_neg (by omega), taken1]
      rfl

theorem padded_first_iff {live : Nat} {bytes : List UInt8} {first : UInt8}
    (length : (first :: bytes).length = live) :
    padded live [first] = first :: bytes ↔ ∀ c ∈ bytes, c = 32 := by
  have blanks : padded live [first] = first :: List.replicate bytes.length 32 := by
    rw [List.length_cons] at length
    rw [padded, List.length_singleton, ← length, Nat.add_sub_cancel, List.singleton_append,
      List.take_of_length_le (by simp)]
  rw [blanks, List.cons.injEq, eq_comm (a := List.replicate _ _), List.eq_replicate_iff]
  simp

theorem last_back_iff {live : Nat} {before bytes : List UInt8} (typed : bytes.length = live)
    (here : s.file = some ⟨before ++ bytes, before.length⟩) :
    (emitRecordRead double sizeChecks resumes s (.adjustable live)).map Prod.fst =
        some (.char bytes) ↔ 0 < live ∧ ∀ c ∈ bytes.drop 1, c = 32 := by
  cases bytes with
  | nil =>
    have none_left : (pliRecordReadChar s 1) = none := by
      rw [pliRecordReadChar, if_neg (by omega), recordRead, here, Option.bind_some]
      simp [CFile.read]
    rw [List.length_nil] at typed
    rw [emitRecordRead, none_left]
    simp [← typed]
  | cons first bytes =>
    have shape : before ++ first :: bytes = before ++ [first] ++ bytes := by simp
    rw [shape] at here
    obtain ⟨s', _, reads⟩ := @read_decodes double sizeChecks resumes (.adjustable live) [first] s
      before bytes here rfl
    rw [reads, decode, Option.map_some, Option.map_some, Option.some.injEq, Scalar.char.injEq,
      padded_first_iff typed, List.drop_one, List.tail_cons]
    rw [List.length_cons] at typed
    exact ⟨fun blanks => ⟨by omega, blanks⟩, fun both => both.2⟩

def images : List (ScalarTy × Scalar) → Option (List UInt8)
  | [] => some []
  | (ty, v) :: items => (image ty v).bind fun r => (images items).map (r ++ ·)

theorem writeAll_appends {items : List (ScalarTy × Scalar)} {s : Slot} {bytes : List UInt8}
    (at_end : s.file = some ⟨bytes, bytes.length⟩) :
    (writeAll s items).map (fun s' => s'.file) =
      (images items).map fun rs => some ⟨bytes ++ rs, (bytes ++ rs).length⟩ := by
  induction items generalizing s bytes with
  | nil => simp [writeAll, images, at_end]
  | cons item items ih =>
    obtain ⟨ty, v⟩ := item
    unfold writeAll images
    cases made : image ty v with
    | none =>
      rw [write_needs_image made]
      rfl
    | some r =>
      obtain ⟨s', wrote, after⟩ := write_appends at_end made
      rw [wrote, Option.bind_some, Option.bind_some, ih after]
      cases images items with
      | none => rfl
      | some rs => simp

theorem dropLast_cons_mem {A : Type} {a i : A} {items : List A} (member : i ∈ items.dropLast) :
    i ∈ (a :: items).dropLast := by
  have some_item : items ≠ [] := by
    rintro rfl
    cases member
  rw [List.dropLast_cons_of_ne_nil some_item]
  exact List.mem_cons_of_mem a member

theorem readAll_back_iff {items : List (ScalarTy × Scalar)} (typed : ∀ i ∈ items, HasType i.1 i.2)
    (sized : ∀ i ∈ items.dropLast, i.1.Sized) {rs before : List UInt8} {s : Slot}
    (written : images items = some rs) (here : s.file = some ⟨before ++ rs, before.length⟩) :
    readAll double sizeChecks resumes s (items.map (·.1)) = some (items.map (·.2)) ↔
      AllBack items := by
  induction items generalizing rs before s with
  | nil => simp [readAll, AllBack]
  | cons item items ih =>
    obtain ⟨ty, v⟩ := item
    have typed_here := typed (ty, v) (by simp)
    unfold images at written
    obtain ⟨r, made, rest⟩ := Option.bind_eq_some_iff.mp written
    obtain ⟨rs', made_rest, rfl⟩ := Option.map_eq_some_iff.mp rest
    by_cases last : items = [] ∧ ∃ live bytes, ty = .adjustable live ∧ v = .char bytes
    · obtain ⟨rfl, live, bytes, rfl, rfl⟩ := last
      obtain rfl := Option.some.inj made
      obtain rfl := Option.some.inj made_rest
      rw [List.append_nil] at here
      rw [AllBack, ← last_back_iff double sizeChecks resumes typed_here here]
      simp only [List.map_cons, List.map_nil, readAll]
      cases emitRecordRead double sizeChecks resumes s (.adjustable live) <;> simp
    have sized_here : ty.Sized := by
      by_cases alone : items = []
      · cases ty with
        | adjustable live =>
          cases v with
          | char bytes => exact absurd ⟨alone, live, bytes, rfl, rfl⟩ last
          | fixed _ | float _ | bit _ | packed _ => exact typed_here.elim
        | fixed _ | float | bit _ | char _ => trivial
      · exact sized (ty, v) (by simp [List.dropLast_cons_of_ne_nil alone])
    have all : AllBack ((ty, v) :: items) ↔ ItemComesBack (ty, v) ∧ AllBack items := by
      rw [AllBack]
      exact fun live bytes same alone => by
        obtain ⟨rfl, rfl⟩ := Prod.mk.inj same
        exact last ⟨alone, live, bytes, rfl, rfl⟩
    have first := decode_image_iff double sizeChecks resumes typed_here sized_here made
    rw [← List.append_assoc] at here
    obtain ⟨s', after, reads⟩ := read_decodes double sizeChecks resumes here
      (image_length typed_here sized_here made)
    have others := ih (fun i member => typed i (by simp [member]))
      (fun i member => sized i (dropLast_cons_mem member)) made_rest after
    rw [List.map_cons, List.map_cons, readAll, reads, all, ← first, ← others]
    cases decode double sizeChecks resumes ty r with
    | none => simp
    | some got =>
      rw [Option.map_some, Option.bind_some]
      dsimp only
      cases readAll double sizeChecks resumes s' (items.map (·.1)) with
      | none | some vs => simp

theorem allBack_cons {item : ScalarTy × Scalar} {items : List (ScalarTy × Scalar)}
    (back : AllBack (item :: items)) :
    (ItemComesBack item ∨ items = [] ∧ ∃ live bytes, item = (.adjustable live, .char bytes)) ∧
      AllBack items := by
  unfold AllBack at back
  split at back
  · rename_i same
    obtain ⟨rfl, rfl⟩ := List.cons.inj same
    exact ⟨Or.inr ⟨rfl, _, _, rfl⟩, trivial⟩
  · rename_i same
    obtain ⟨rfl, rfl⟩ := List.cons.inj same
    exact ⟨Or.inl back.1, back.2⟩
  · rename_i same
    cases same

theorem allBack_sized {items : List (ScalarTy × Scalar)} (back : AllBack items) :
    ∀ i ∈ items.dropLast, i.1.Sized := by
  induction items with
  | nil => exact fun i member => by cases member
  | cons item items ih =>
    obtain ⟨here, rest⟩ := allBack_cons back
    intro i member
    by_cases alone : items = []
    · rw [alone] at member
      cases member
    · rw [List.dropLast_cons_of_ne_nil alone] at member
      rcases List.mem_cons.mp member with rfl | later
      · have comes_back := here.resolve_right fun last => alone last.1
        obtain ⟨ty, v⟩ := i
        cases ty with
        | adjustable live => exact comes_back
        | fixed _ | float | bit _ | char _ => trivial
      · exact ih rest i later

theorem images_of_back {items : List (ScalarTy × Scalar)} (typed : ∀ i ∈ items, HasType i.1 i.2)
    (back : AllBack items) : ∃ rs, images items = some rs := by
  induction items with
  | nil => exact ⟨[], rfl⟩
  | cons item items ih =>
    obtain ⟨ty, v⟩ := item
    obtain ⟨first, later⟩ := allBack_cons back
    obtain ⟨rs, rest⟩ := ih (fun i member => typed i (by simp [member])) later
    have here := typed (ty, v) (by simp)
    have made : ∃ r, image ty v = some r := by
      dsimp only at here
      unfold HasType at here
      split at here
      · exact ⟨_, rfl⟩
      · exact ⟨_, rfl⟩
      · exact ⟨_, rfl⟩
      · rcases first with one | ⟨_, _, _, other⟩
        · exact absurd one here.1
        · cases other
      · exact ⟨_, rfl⟩
      · exact ⟨_, rfl⟩
      · exact here.elim
    obtain ⟨r, made⟩ := made
    exact ⟨r ++ rs, by rw [images, made, rest]; rfl⟩

theorem transfer_back_iff {items : List (ScalarTy × Scalar)} (typed : ∀ i ∈ items, HasType i.1 i.2)
    (sized : ∀ i ∈ items.dropLast, i.1.Sized) :
    transfer double sizeChecks resumes items = some (items.map (·.2)) ↔ AllBack items := by
  have writes := @writeAll_appends items openOutput [] rfl
  unfold transfer
  cases made : images items with
  | none =>
    rw [made] at writes
    have stopped : writeAll openOutput items = none := Option.map_eq_none_iff.mp writes
    rw [stopped]
    constructor
    · intro absurd_run
      cases absurd_run
    · intro back
      obtain ⟨rs, written⟩ := images_of_back typed back
      rw [made] at written
      cases written
  | some rs =>
    rw [made] at writes
    obtain ⟨s, wrote, file⟩ := Option.map_eq_some_iff.mp writes
    rw [wrote, Option.bind_some]
    refine @readAll_back_iff double sizeChecks resumes items typed sized rs [] (reopenInput s)
      made ?_
    rw [reopenInput, file]
    rfl

end Files

def exactDouble : Rounding := ⟨id, rfl, fun _ pos => pos, fun _ _ divides => divides⟩

end PliRecordTransfer
