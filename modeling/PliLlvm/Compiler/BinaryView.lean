import PliLlvm.Compiler.FixedDivision

/- A DECIMAL operand of a mixed division in its binary view (src/irgen.cpp, convert, over
   src/sema.cpp, decToBinDigits and decToBinScale), for two types of one scale that both hold the
   number. A type of 128 bits is converted in i256 or by way of FLOAT, any other in i128. -/
namespace PliBinaryView
open FixedPoint PliFixedConvert PliFixedArith PliFixedDivision
open PliConstFold hiding value

def binaryScale (q : Int) : Int := min 62 (decToBinScale q)

def viewNumber (o : Ty) (raw : Int) : Int :=
  if o.intBits = 128 then decToBinWide o (bin 63 (binaryScale o.scale)) raw
  else decToBinNarrow o (bin 63 (binaryScale o.scale)) raw

variable {q : Int}

theorem binaryScale_pos (above : 0 < q) : binaryScale q = min 62 ((q * 83 + 24) / 25) := by
  unfold binaryScale decToBinScale
  rw [if_neg (by omega), if_pos above]
  omega

theorem binaryScale_neg (below : q < 0) : binaryScale q = -((-q * 83 + 24) / 25) := by
  unfold binaryScale decToBinScale
  rw [if_neg (by omega), if_neg (by omega)]
  omega

theorem oneShl_lost {k : Int} (long : 64 ≤ k) : oneShl k = 0 := by
  have parts : (2 : Int) ^ k.toNat = 2 ^ (k.toNat - 64) * 2 ^ 64 := by
    rw [← pow_add]
    congr 1
    omega
  have lost : word 64 (2 ^ k.toNat) = word 64 0 := by
    rw [word_eq_iff, parts]
    exact (Int.modEq_zero_iff_dvd.mpr (dvd_mul_left _ _))
  exact lost.trans (by decide)

theorem ten_lost {w : Nat} (some_bits : 0 < w) {k : Nat} (long : w ≤ k) (m : Int) :
    word w (m * 10 ^ k) = 0 := by
  have parts : m * (10 : Int) ^ k = m * 5 ^ k * 2 ^ (k - w) * 2 ^ w := by
    rw [mul_assoc _ (2 ^ (k - w)), ← pow_add, Nat.sub_add_cancel long, mul_assoc, ← mul_pow]
    norm_num
  have lost : word w (m * 10 ^ k) = word w 0 := by
    rw [word_eq_iff, parts]
    exact Int.modEq_zero_iff_dvd.mpr (dvd_mul_left _ _)
  rw [lost]
  exact word_of_fits some_bits ⟨by simp, by positivity⟩

theorem scaled_power : ∀ k < 128, 0 < k →
    pliPow10_128 (k : Nat) = 0 ∨
      2 ^ (binaryScale (k : Nat)).toNat ≤ 2 * (pliPow10_128 (k : Nat)).natAbs := by
  decide +kernel

theorem dropped_power : ∀ k < 19, 10 ^ k ≤ 2 * 2 ^ ((k * 83 + 24) / 25) := by
  decide +kernel

variable {o : Ty} {raw : Int}

theorem fits_twice (kept : Fits 64 raw) {n : Int}
    (le : n.natAbs ≤ 2 * raw.natAbs) : Fits 128 n := by
  unfold Fits at *
  omega

/-- The number in the view has at most twice the magnitude, whatever the powers' words are. -/
theorem narrow_bound (kept : Fits 64 raw) :
    (decToBinNarrow o (bin 63 (binaryScale o.scale)) raw).natAbs ≤ 2 * raw.natAbs := by
  have own : Fits 128 raw := fits_mono (by omega) kept
  change (let r := if 0 < binaryScale o.scale then word 128 (raw * oneShl (binaryScale o.scale))
      else if binaryScale o.scale < 0 then
        word 128 (raw.tdiv (oneShl (-binaryScale o.scale))) else raw
    if 0 < o.scale then word 128 (r.tdiv (pliPow10_128 o.scale))
    else if o.scale < 0 then word 128 (r * pliPow10_128 (-o.scale)) else r).natAbs ≤ _
  rcases lt_trichotomy o.scale 0 with below | level | above
  · obtain ⟨k, down⟩ := Int.eq_ofNat_of_zero_le (show 0 ≤ -o.scale by omega)
    have scale := binaryScale_neg below
    rw [down] at scale
    simp only [if_neg (show ¬0 < binaryScale o.scale by omega),
      if_pos (show binaryScale o.scale < 0 by omega), if_neg (show ¬0 < o.scale by omega),
      if_pos below, down]
    rw [show -binaryScale o.scale = (((k * 83 + 24) / 25 : Nat) : Int) by omega]
    rcases Nat.lt_or_ge k 19 with short | long
    · have divided : Fits 128 (raw.tdiv (2 ^ ((k * 83 + 24) / 25) : Nat)) := tdiv_fits own _
      have digits : pliPow10_128 (k : Int) = 10 ^ k := pliPow10_128_eq (by omega)
      have shift : oneShl (((k * 83 + 24) / 25 : Nat) : Int) =
        (2 ^ ((k * 83 + 24) / 25) : Nat) := by
        rw [oneShl_eq (by omega)]
        push_cast
        rfl
      have size : (raw.tdiv (2 ^ ((k * 83 + 24) / 25) : Nat) * 10 ^ k).natAbs ≤ 2 * raw.natAbs := by
        rw [Int.natAbs_mul, Int.natAbs_tdiv, Int.natAbs_pow, Int.natAbs_natCast]
        calc raw.natAbs / 2 ^ ((k * 83 + 24) / 25) * 10 ^ k
            ≤ raw.natAbs / 2 ^ ((k * 83 + 24) / 25) * (2 * 2 ^ ((k * 83 + 24) / 25)) :=
              Nat.mul_le_mul_left _ (dropped_power k short)
          _ = 2 * (raw.natAbs / 2 ^ ((k * 83 + 24) / 25) * 2 ^ ((k * 83 + 24) / 25)) := by ring
          _ ≤ 2 * raw.natAbs := Nat.mul_le_mul_left _ (Nat.div_mul_le_self _ _)
      rw [shift, digits, word_of_fits (by omega) divided,
        word_of_fits (by omega) (fits_twice kept size)]
      exact size
    · rw [oneShl_lost (by omega), Int.tdiv_zero]
      have none_left : word 128 0 = 0 := by decide
      rw [none_left, zero_mul, none_left]
      omega
  · have flat : binaryScale 0 = 0 := by decide
    simp only [level, flat, Int.lt_irrefl, if_false]
    omega
  · obtain ⟨k, up⟩ := Int.eq_ofNat_of_zero_le (show 0 ≤ o.scale by omega)
    have scale := binaryScale_pos above
    have inner : Fits 128 (raw * 2 ^ (binaryScale o.scale).toNat) :=
      @fits_mul_pow 128 63 2 _ 62 _ kept (by omega) (by omega) (by norm_num) (by omega)
    simp only [if_pos (show 0 < binaryScale o.scale by omega), if_pos above]
    rw [oneShl_eq (by omega), word_of_fits (by omega) inner]
    have size : ((raw * 2 ^ (binaryScale o.scale).toNat).tdiv (pliPow10_128 o.scale)).natAbs ≤
        2 * raw.natAbs := by
      have power : pliPow10_128 o.scale = 0 ∨
          2 ^ (binaryScale o.scale).toNat ≤ 2 * (pliPow10_128 o.scale).natAbs := by
        rw [up]
        rcases Nat.lt_or_ge k 128 with short | long
        · exact scaled_power k short (by omega)
        · have lost := @ten_lost 128 (by omega) k long 1
          rw [one_mul] at lost
          exact Or.inl lost
      rcases power with lost | power
      · rw [lost, Int.tdiv_zero]
        exact Nat.zero_le _
      · rw [Int.natAbs_tdiv, Int.natAbs_mul, Int.natAbs_pow]
        refine Nat.div_le_of_le_mul ?_
        calc raw.natAbs * (2 : Int).natAbs ^ (binaryScale o.scale).toNat
            ≤ raw.natAbs * (2 * (pliPow10_128 o.scale).natAbs) := Nat.mul_le_mul_left _ power
          _ = (pliPow10_128 o.scale).natAbs * (2 * raw.natAbs) := by ring
    rw [word_of_fits (by omega) (fits_twice kept size)]
    exact size

section Views

def view (o : Ty) : Ty := bin (decToBinDigits o.prec) (binaryScale o.scale)

/-- What FLOAT leaves depends on the word and the scale of the number, not on its digits. -/
def FloatOfWord (viaFloat : Ty → Ty → Int → Converted) : Prop :=
  ∀ src src' dst raw, src.intBits = src'.intBits → src.scale = src'.scale →
    viaFloat src dst raw = viaFloat src' dst raw

variable {viaFloat : Ty → Ty → Int → Converted} {t r : Ty}

theorem operandType_view {other : Ty} (decimal : o.k = .fixedDec) (mixed : other.k ≠ .fixedDec) :
    operandType o other = view o := by
  rw [operandType, if_neg fun both => mixed both.2, if_pos decimal, operandScale,
    if_pos ⟨decimal, mixed⟩]
  rfl

theorem checkBin_width {p q n : Int} (prec : p ≤ 63) :
    checkBin 256 (bin p q) n = checkBin 128 (bin p q) n := by
  have trap : fixedBinPrecTrap 256 n p = fixedBinPrecTrap 128 n p := by
    unfold fixedBinPrecTrap
    by_cases none_left : p ≤ 0
    · rw [if_pos (Or.inl none_left), if_pos (Or.inl none_left)]
    · rw [if_neg (show ¬(p ≤ 0 ∨ ((256 : Nat) : Int) - 1 ≤ p) by omega),
        if_neg (show ¬(p ≤ 0 ∨ ((128 : Nat) : Int) - 1 ≤ p) by omega)]
  change (⟨fitFixed (bin p q) (fixedBinPrecTrap 256 n p).raw, (fixedBinPrecTrap 256 n p).size⟩ :
    Converted) = _
  rw [trap]
  rfl

theorem checkBin_inside {p q n : Int} (some_prec : 0 < p) (prec : p ≤ 63)
    (small : n.natAbs < 2 ^ p.toNat) : checkBin 128 (bin p q) n = ⟨n, false⟩ := by
  have bound : (n.natAbs : Int) < 2 ^ p.toNat := by exact_mod_cast small
  have slot : p.toNat + 1 ≤ (bin p q).intBits := by
    unfold Ty.intBits bin
    dsimp only
    split <;> omega
  have held : Fits (p.toNat + 1) n := by
    unfold Fits
    rw [Nat.add_sub_cancel]
    omega
  have inside : fixedBinPrecTrap 128 n p = ⟨n, false⟩ := trap_inside 128 (by omega) (by omega)
  change (⟨fitFixed (bin p q) (fixedBinPrecTrap 128 n p).raw, (fixedBinPrecTrap 128 n p).size⟩ :
    Converted) = _
  rw [inside]
  exact congrArg (Converted.mk · false) (word_of_fits (by omega) (fits_mono slot held))

theorem checkBin_raw (q n : Int) : (checkBin 128 (bin 63 q) n).raw = word 64 n := by
  change word 64 (fixedBinPrecTrap 128 n 63).raw = _
  unfold fixedBinPrecTrap
  rw [if_neg (by omega)]
  dsimp only
  split
  · exact word_word (Nat.le_refl _) n
  · rfl

def checked (o : Ty) (raw : Int) : Converted := checkBin 128 (view o) (viewNumber o raw)

theorem converted_direct (decimal : o.k = .fixedDec) (some_prec : 0 < o.prec)
    (direct : ¬(o.intBits = 128 ∧ 38 < o.scale)) :
    convertOperand viaFloat o (view o) raw = some (checked o raw) := by
  have plain : throughFloat o (view o) = false := by
    simp only [throughFloat, decimal, view, bin]
    simp
    omega
  have prec := (decToBinDigits_range some_prec).2
  rw [convertOperand, plain]
  simp only [Bool.false_eq_true, if_false, convert, plain, decimal]
  change some (decToBin o (view o) raw) = _
  unfold decToBin checked viewNumber
  by_cases wide : o.intBits = 128
  · rw [if_pos wide, if_pos wide, view, checkBin_width prec]
    rfl
  · rw [if_neg wide, if_neg wide]
    rfl

theorem converted_float (decimal : o.k = .fixedDec) (wide : o.intBits = 128)
    (large : 38 < o.scale) :
    convertOperand viaFloat o (view o) raw =
      (let c := viaFloat o (view o) raw
      let t := fixedBinPrecTrap (view o).intBits (word (view o).intBits c.raw) (view o).prec
      some ⟨t.raw, c.size || t.size⟩) := by
  have scale := binaryScale_pos (q := o.scale) (by omega)
  have float : throughFloat o (view o) = true := by
    have up : 0 < binaryScale o.scale := by omega
    simp [throughFloat, decimal, view, bin, wide, large, up]
  rw [convertOperand, float, if_pos rfl]

theorem wide_view (large : 18 < o.prec) : view o = bin 63 (binaryScale o.scale) := by
  have prec : decToBinDigits o.prec = 63 := by
    unfold decToBinDigits
    omega
  rw [view, prec]

theorem short_room : ∀ p < 19, 0 < p → 2 * 10 ^ p ≤ 2 ^ (decToBinDigits (p : Nat)).toNat := by
  decide +kernel

/-- Two DECIMAL types of one scale; a word of 128 bits is for more than 18 digits. -/
structure Twin (t r : Ty) : Prop where
  decimal : t.k = .fixedDec
  other : r.k = .fixedDec
  scale : r.scale = t.scale
  some_digits : 0 < t.prec
  other_digits : 0 < r.prec
  wide : t.intBits = 128 → 18 < t.prec
  other_wide : r.intBits = 128 → 18 < r.prec

theorem Twin.symm (twin : Twin t r) : Twin r t :=
  ⟨twin.other, twin.decimal, twin.scale.symm, twin.other_digits, twin.some_digits, twin.other_wide,
    twin.wide⟩

theorem wide_narrow_same (kept : Fits 64 raw) (from_zero : 0 ≤ o.scale) (scale : o.scale ≤ 38) :
    decToBinWide o (bin 63 (binaryScale o.scale)) raw =
      decToBinNarrow o (bin 63 (binaryScale o.scale)) raw := by
  have up : 0 ≤ binaryScale o.scale ∧ binaryScale o.scale ≤ 62 := by
    rcases Int.lt_or_eq_of_le from_zero with above | level
    · have := binaryScale_pos above
      omega
    · rw [← level]
      decide
  have inner : Fits 128 (raw * 2 ^ (binaryScale o.scale).toNat) :=
    @fits_mul_pow 128 63 2 _ 62 _ kept (by omega) (by omega) (by norm_num) (by omega)
  have down : (-o.scale).toNat = 0 ∧ (-binaryScale o.scale).toNat = 0 := by omega
  have widened := @decToBinWide_eq (bin 63 (binaryScale o.scale)) raw o
    (by change binaryScale o.scale ≤ 254; omega) (by omega)
  have narrowed := @decToBinNarrow_eq (bin 63 (binaryScale o.scale)) raw o
    (by change (binaryScale o.scale).natAbs ≤ 62; omega) (by omega)
  simp only [bin, down, pow_zero, mul_one, Nat.cast_one, Int.tdiv_one] at widened narrowed ⊢
  rw [widened (fits_mono (by omega) inner), narrowed inner]

theorem viewNumber_narrow (narrow : o.intBits ≠ 128) :
    viewNumber o raw = decToBinNarrow o (bin 63 (binaryScale o.scale)) raw := if_neg narrow

theorem viewNumber_same (twin : Twin t r) (held : Fits t.intBits raw) (held' : Fits r.intBits raw)
    (kept : (t.intBits = 128 ↔ r.intBits = 128) ∨ 0 ≤ t.scale ∧ t.scale ≤ 38) :
    viewNumber r raw = viewNumber t raw := by
  have wide_same : decToBinWide r (bin 63 (binaryScale r.scale)) raw =
      decToBinWide t (bin 63 (binaryScale t.scale)) raw := by
    simp only [decToBinWide, twin.scale]
  have narrow_same : decToBinNarrow r (bin 63 (binaryScale r.scale)) raw =
      decToBinNarrow t (bin 63 (binaryScale t.scale)) raw := by
    simp only [decToBinNarrow, twin.scale]
  unfold viewNumber
  by_cases one : t.intBits = 128 <;> by_cases two : r.intBits = 128
  · rw [if_pos one, if_pos two, wide_same]
  · rw [if_pos one, if_neg two, narrow_same]
    have small := fits_mono (by have := slot_cases r; omega : r.intBits ≤ 64) held'
    exact (wide_narrow_same small (by grind) (by grind)).symm
  · rw [if_neg one, if_pos two, wide_same]
    have small := fits_mono (by have := slot_cases t; omega : t.intBits ≤ 64) held
    exact wide_narrow_same small (by grind) (by grind)
  · rw [if_neg one, if_neg two, narrow_same]

theorem checked_short (some_prec : 0 < o.prec) {p : Nat}
    (few : p < 19) (some_digits : 0 < p) (le : (p : Int) ≤ o.prec) (small : raw.natAbs < 10 ^ p)
    (bound : (viewNumber o raw).natAbs ≤ 2 * raw.natAbs) :
    checked o raw = ⟨viewNumber o raw, false⟩ := by
  obtain ⟨some_bits, bits⟩ := decToBinDigits_range some_prec
  refine checkBin_inside (by omega) bits ?_
  have room := short_room p few some_digits
  have more : decToBinDigits p ≤ decToBinDigits o.prec := by
    unfold decToBinDigits
    omega
  have mono : 2 ^ (decToBinDigits p).toNat ≤ 2 ^ (decToBinDigits o.prec).toNat :=
    Nat.pow_le_pow_right (by omega) (by omega)
  omega

theorem same_view (twin : Twin t r) (ofWord : FloatOfWord viaFloat) (held : Stored t raw)
    (held' : Stored r raw)
    (kept : (t.intBits = 128 ↔ r.intBits = 128) ∨ 0 ≤ t.scale ∧ t.scale ≤ 38) :
    convertOperand viaFloat t (view t) raw = convertOperand viaFloat r (view r) raw := by
  have number := viewNumber_same twin held.2 held'.2 kept
  have scale := twin.scale
  by_cases float : t.intBits = 128 ∧ r.intBits = 128 ∧ 38 < t.scale
  · obtain ⟨one, two, large⟩ := float
    have target : view t = view r := by
      rw [wide_view (twin.wide one), wide_view (twin.other_wide two), scale]
    rw [converted_float twin.decimal one large, converted_float twin.other two (by omega), target,
      ofWord t r (view r) raw (one.trans two.symm) scale.symm]
  · rw [converted_direct twin.decimal twin.some_digits (by grind),
      converted_direct twin.other twin.other_digits (by grind)]
    congr 1
    by_cases long : 18 < t.prec ∧ 18 < r.prec
    · rw [checked, checked, wide_view long.1, wide_view long.2, scale, number]
    · obtain ⟨p, least⟩ := Int.eq_ofNat_of_zero_le
        (show 0 ≤ min t.prec r.prec by have := twin.some_digits; have := twin.other_digits; omega)
      have some_digits := twin.some_digits
      have other_digits := twin.other_digits
      have range {o : Ty} (decimal : o.k = .fixedDec) (held : Stored o raw) (is : o.prec = p) :
          raw.natAbs < 10 ^ p := by
        have inside := held.1
        rw [InRange, if_neg (by simp [decimal]), is, Int.toNat_natCast] at inside
        have : (raw.natAbs : Int) < 10 ^ p := by omega
        exact_mod_cast this
      have small : raw.natAbs < 10 ^ p := by
        rcases Int.le_total t.prec r.prec with less | less
        · exact range twin.decimal held (by omega)
        · exact range twin.other held' (by omega)
      have slots := slot_cases t
      have slots' := slot_cases r
      have bound : (viewNumber t raw).natAbs ≤ 2 * raw.natAbs := by
        by_cases wide : t.intBits = 128
        · have narrow : r.intBits ≠ 128 := fun two => long ⟨twin.wide wide, twin.other_wide two⟩
          rw [← number, viewNumber_narrow narrow]
          exact narrow_bound (fits_mono (by omega) held'.2)
        · rw [viewNumber_narrow wide]
          exact narrow_bound (fits_mono (by omega) held.2)
      rw [checked_short some_digits (by omega) (by omega) (by omega) small bound,
        checked_short other_digits (by omega) (by omega) (by omega) small
          (number ▸ bound), number]

/- A scale below 0: the i128 path divides by the power of two first, the i256 path leaves it out. -/

theorem narrow_lost (narrow : o.intBits ≠ 128) (below : o.scale ≤ -19) : viewNumber o raw = 0 := by
  have scale := binaryScale_neg (q := o.scale) (by omega)
  have lost : oneShl (-binaryScale o.scale) = 0 := oneShl_lost (by omega)
  have zero : word 128 0 = 0 := by decide
  rw [viewNumber_narrow narrow]
  simp only [decToBinNarrow, bin, if_neg (show ¬0 < binaryScale o.scale by omega),
    if_pos (show binaryScale o.scale < 0 by omega), if_neg (show ¬0 < o.scale by omega),
    if_pos (show o.scale < 0 by omega), lost, Int.tdiv_zero, zero, zero_mul]

theorem narrow_one (narrow : o.intBits ≠ 128) (below : o.scale < 0) : viewNumber o 1 = 0 := by
  rcases Int.lt_or_le (-19) o.scale with short | long
  · have scale := binaryScale_neg below
    have shift : oneShl (-binaryScale o.scale) = 2 ^ (-binaryScale o.scale).toNat :=
      oneShl_eq (by omega)
    have dropped : (1 : Int).tdiv (2 ^ (-binaryScale o.scale).toNat) = 0 := by
      refine Int.tdiv_eq_zero_of_lt (by omega) ?_
      exact one_lt_pow₀ (by omega) (by omega)
    have zero : word 128 0 = 0 := by decide
    rw [viewNumber_narrow narrow]
    simp only [decToBinNarrow, bin, if_neg (show ¬0 < binaryScale o.scale by omega),
      if_pos (show binaryScale o.scale < 0 by omega), if_neg (show ¬0 < o.scale by omega),
      if_pos below, shift, dropped, zero, zero_mul]
  · exact narrow_lost narrow long

theorem wide_below (wide : o.intBits = 128) (below : o.scale < 0) :
    viewNumber o raw = word 256 (raw * 10 ^ (-o.scale).toNat) := by
  have scale := binaryScale_neg below
  have flat : ¬0 < (bin 63 (binaryScale o.scale)).scale := by
    change ¬0 < binaryScale o.scale
    omega
  rw [viewNumber, if_pos wide]
  simp only [decToBinWide, intPowConst]
  rw [if_neg (show ¬0 < o.scale by omega), if_pos below, if_neg flat]
  exact word_mul_word (Nat.le_refl _) _ _

theorem checked_wide (wide : o.intBits = 128) (large : 18 < o.prec) (below : o.scale < 0) :
    checked o raw = checkBin 128 (bin 63 0) (word 256 (raw * 10 ^ (-o.scale).toNat)) := by
  rw [checked, wide_view large, wide_below wide below]
  rfl

theorem checked_zero (some_prec : 0 < o.prec) (zero : viewNumber o raw = 0) :
    checked o raw = ⟨0, false⟩ := by
  obtain ⟨some_bits, bits⟩ := decToBinDigits_range some_prec
  rw [checked, zero]
  exact checkBin_inside (by omega) bits (by simp)

section Unit
variable {i : Ty} {n : Int}

/-- n / 1 of a dividend of 63 bits. -/
def unitQuotient (t i : Ty) (n : Int) : Converted :=
  if quotientScale t i < 0 then
    checkBin 128 (bin 63 0) (word 128 (n * oneShl (-quotientScale t i)))
  else ⟨n, false⟩

theorem slash_unit (decimal : t.k = .fixedDec) (mixed : i.k = .fixedBin) (large : 18 < t.prec) :
    slash t i n 1 = .result (unitQuotient t i n) := by
  have both : ¬BothDec t i := by simp [BothDec, mixed]
  have digits : dividendDigits t i = 63 := by
    rw [dividendDigits, if_pos ⟨decimal, by simp [mixed]⟩, decToBinDigits]
    omega
  have top : maxP t i = 63 := if_neg both
  have same : numerator t i n = n := by
    rw [numerator, top, digits, if_neg (by omega)]
  have up (k : Int) : scaledUp t i k n = checkBin 128 (bin 63 0) (word 128 (n * oneShl k)) := by
    unfold scaledUp
    rw [if_neg both]
    rfl
  rw [slash, if_neg (by omega), if_neg (by omega), same]
  simp only [Int.tdiv_one, up]
  rfl

theorem unit_zero : unitQuotient t i 0 = ⟨0, false⟩ := by
  unfold unitQuotient
  split
  · rw [zero_mul]
    decide
  · rfl

theorem emit_unit {c : Converted} (decimal : t.k = .fixedDec) (mixed : i.k = .fixedBin)
    (large : 18 < t.prec) (held : Fits i.intBits 1)
    (converted : convertOperand viaFloat t (view t) raw = some c) :
    emitSlash viaFloat ⟨t, raw⟩ ⟨i, 1⟩ =
      some (.result ⟨(unitQuotient t i c.raw).raw, c.size || (unitQuotient t i c.raw).size⟩) := by
  rw [emitSlash, operandType_view decimal (by simp [mixed]), converted,
    plain_operand held (Or.inr mixed)]
  simp only [Option.bind_some, Option.map_some, slash_unit decimal mixed large, Division.sizes,
    Bool.or_false]

end Unit

theorem power_large : ∀ k < 256, 19 ≤ k →
    (checkBin 128 (bin 63 0) (word 256 (1 * 10 ^ k))).size = true := by
  decide +kernel

theorem power_more : ∀ k < 19, 0 < k →
    (checkBin 128 (bin 63 0) (word 256 (10 ^ 18 * 10 ^ k))).size = true ∧
      checkBin 128 (bin 63 0) (word 256 (1 * 10 ^ k)) = ⟨10 ^ k, false⟩ := by
  decide +kernel

theorem oneShl_some : ∀ m < 64, oneShl (m : Nat) ≠ 0 ∧ (oneShl (m : Nat)).natAbs ≤ 2 ^ 63 := by
  decide +kernel

theorem power_shifted {k m : Nat} (short : k < 19) (near : m < 64) :
    checkBin 128 (bin 63 0) (word 128 (10 ^ k * oneShl m)) ≠ ⟨0, false⟩ := by
  obtain ⟨some_unit, size⟩ := oneShl_some m near
  have power : 10 ^ k ≤ 10 ^ 18 := Nat.pow_le_pow_right (by omega) (by omega)
  have product : Fits 128 (10 ^ k * oneShl m) := by
    have bound : (10 ^ k * oneShl m).natAbs ≤ 10 ^ 18 * 2 ^ 63 := by
      rw [Int.natAbs_mul, Int.natAbs_pow]
      exact Nat.mul_le_mul power size
    unfold Fits
    omega
  rw [word_of_fits (by omega) product]
  intro same
  have inside : InRange (bin 63 0) (10 ^ k * oneShl m) := by
    have checks := (checkBin_checks rfl (by decide : 0 < (bin 63 0).prec) product).1
    rw [same] at checks
    by_contra outside
    cases checks.mpr outside
  have stored := checkBin_raw 0 (10 ^ k * oneShl m)
  rw [same, word_of_fits (by omega) (by simpa [InRange, Fits, bin] using inside)] at stored
  exact mul_ne_zero (by positivity) some_unit stored.symm

theorem power_bits : ∀ k < 64, word 64 (word 256 (1 * 10 ^ k)) ≠ 0 := by
  decide +kernel

section Quotients
variable {i j : Ty}

theorem stored_digits (decimal : o.k = .fixedDec) {n : Nat}
    (small : n < 10 ^ o.prec.toNat) (held : Fits o.intBits n) : Stored o n := by
  refine ⟨?_, held⟩
  rw [InRange, if_neg (by simp [decimal])]
  have : (n : Int) < 10 ^ o.prec.toNat := by exact_mod_cast small
  omega

theorem small_fits (n : Int) (small : n.natAbs < 2 ^ 31) (ty : Ty) : Fits ty.intBits n :=
  fits_mono (by have := slot_cases ty; omega : 32 ≤ ty.intBits) (by unfold Fits; omega)

theorem stored_one (decimal : o.k = .fixedDec) (some_digits : 0 < o.prec) : Stored o 1 :=
  stored_digits decimal (Nat.one_lt_pow (by omega) (by omega))
    (small_fits 1 (by decide) o)

theorem stored_zero (decimal : o.k = .fixedDec) : Stored o 0 :=
  stored_digits decimal (by positivity) (small_fits 0 (by decide) o)

theorem binary_small {n : Int} (binary : i.k = .fixedBin) (some_digits : 0 < i.prec)
    (small : n = 0 ∨ n = 1) : Stored i n := by
  have room : (2 : Int) ^ 1 ≤ 2 ^ i.prec.toNat := pow_le_pow_right₀ (by omega) (by omega)
  refine ⟨?_, small_fits n (by omega) i⟩
  rw [InRange, if_pos binary]
  omega

/-- FLOAT that leaves 1 and SIZE whatever it is given. -/
def noisy (_ _ : Ty) (_ : Int) : Converted := ⟨1, true⟩

theorem noisy_word : FloatOfWord noisy := fun _ _ _ _ _ _ => rfl

theorem converted_noisy (decimal : o.k = .fixedDec) (wide : o.intBits = 128) (digits : 18 < o.prec)
    (large : 38 < o.scale) : convertOperand noisy o (view o) raw = some ⟨1, true⟩ := by
  rw [converted_float decimal wide large, wide_view digits]
  have slot : (fixedBinPrecTrap 64 (word 64 1) 63).raw = 1 := by decide
  exact congrArg (fun n => some (⟨n, true⟩ : Converted)) slot

theorem zero_number (narrow : o.intBits ≠ 128) : viewNumber o 0 = 0 := by
  have bound := @narrow_bound o 0 (by decide)
  rw [viewNumber_narrow narrow]
  omega

/-- Where the words differ, past 38 places and below 0 a dividend of more than 18 digits gives
    another quotient. -/
theorem dividend_differs (twin : Twin t r) (narrow : t.intBits ≠ 128) (wide : r.intBits = 128)
    (digits : 18 < t.prec) (first : i.k = .fixedBin) (second : j.k = .fixedBin)
    (level : quotientScale t i = quotientScale r j)
    (out : 38 < t.scale ∨ t.scale < 0 ∧ -256 < t.scale) :
    ∃ viaFloat x, FloatOfWord viaFloat ∧ Stored t x ∧ Stored r x ∧
      emitSlash viaFloat ⟨t, x⟩ ⟨i, 1⟩ ≠ emitSlash viaFloat ⟨r, x⟩ ⟨j, 1⟩ := by
  obtain ⟨decimal, other, scale, some_digits, other_digits, -, more⟩ := twin
  have digits' := more wide
  have one (ty : Ty) := small_fits 1 (by decide) ty
  have direct (x : Int) := @converted_direct t x noisy decimal some_digits (by simp [narrow])
  rcases out with large | ⟨below, above⟩
  · refine ⟨noisy, 0, noisy_word, stored_zero decimal, stored_zero other, ?_⟩
    rw [emit_unit decimal first digits (one i) (direct 0),
      checked_zero some_digits (zero_number narrow), unit_zero,
      emit_unit other second digits' (one j) (converted_noisy other wide digits' (by omega))]
    simp
  · obtain ⟨k, down⟩ := Int.eq_ofNat_of_zero_le (show 0 ≤ -r.scale by omega)
    have direct' (x : Int) := @converted_direct r x noisy other other_digits (by omega)
    have number (x : Int) : checked r x = checkBin 128 (bin 63 0) (word 256 (x * 10 ^ k)) := by
      rw [checked_wide wide digits' (by omega), down, Int.toNat_natCast]
    have quiet := checked_zero some_digits (narrow_one narrow below)
    rcases Nat.lt_or_ge k 19 with short | long
    · rcases Int.lt_or_le (-quotientScale r j) 64 with near | far
      · refine ⟨noisy, 1, noisy_word, stored_one decimal some_digits,
          stored_one other other_digits, ?_⟩
        rw [emit_unit decimal first digits (one i) (direct 1), quiet, unit_zero,
          emit_unit other second digits' (one j) (direct' 1), number,
          (power_more k short (by omega)).2]
        have apart : unitQuotient r j (10 ^ k) ≠ ⟨0, false⟩ := by
          unfold unitQuotient
          split
          · rename_i negative
            obtain ⟨m, up⟩ := Int.eq_ofNat_of_zero_le (show 0 ≤ -quotientScale r j by omega)
            rw [up]
            exact power_shifted short (by omega)
          · have some_power : (10 : Int) ^ k ≠ 0 := by positivity
            simp [some_power]
        intro same
        simp only [Option.some.injEq, Division.result.injEq, Converted.mk.injEq,
          Bool.false_or] at same
        refine apart ?_
        rw [Converted.mk.injEq]
        exact ⟨same.1.symm, same.2.symm⟩
      · have room {o : Ty} (digits : 18 < o.prec) :
          ((10 ^ 18 : Nat) : Int).natAbs < 10 ^ o.prec.toNat :=
          Nat.pow_lt_pow_right (by omega) (by omega)
        have held {o : Ty} (decimal : o.k = .fixedDec) (digits : 18 < o.prec) :
            Stored o ((10 ^ 18 : Nat) : Int) := by
          refine stored_digits decimal (room digits) (fits_mono ?_ (by decide : Fits 64 _))
          unfold Ty.intBits
          rw [decimal]
          dsimp only
          split
          · omega
          · rw [if_neg (by omega)]
        have bound := @narrow_bound t ((10 ^ 18 : Nat) : Int) (by decide)
        have lost : oneShl (-quotientScale t i) = 0 := oneShl_lost (by omega)
        have none_left (n : Int) : unitQuotient t i n = ⟨0, false⟩ := by
          rw [unitQuotient, if_pos (by omega), lost, mul_zero]
          decide
        have kept : (checked t ((10 ^ 18 : Nat) : Int)).size = false := by
          rw [checked, wide_view digits, viewNumber_narrow narrow]
          rw [checkBin_inside (by omega) (by omega) (lt_of_le_of_lt bound (by decide))]
        refine ⟨noisy, _, noisy_word, held decimal digits, held other digits', ?_⟩
        rw [emit_unit decimal first digits (one i) (direct _), none_left, kept,
          emit_unit other second digits' (one j) (direct' _), number]
        have ten : ((10 ^ 18 : Nat) : Int) = 10 ^ 18 := by norm_num
        rw [ten, (power_more k short (by omega)).1]
        simp
    · refine ⟨noisy, 1, noisy_word, stored_one decimal some_digits,
        stored_one other other_digits, ?_⟩
      rw [emit_unit decimal first digits (one i) (direct 1), quiet, unit_zero,
        emit_unit other second digits' (one j) (direct' 1), number, power_large k (by omega) long]
      simp

theorem same_quotient {a b c d : Operand}
    (first : convertOperand viaFloat a.ty (operandType a.ty b.ty) a.raw =
      convertOperand viaFloat c.ty (operandType c.ty d.ty) c.raw)
    (second : convertOperand viaFloat b.ty (operandType b.ty a.ty) b.raw =
      convertOperand viaFloat d.ty (operandType d.ty c.ty) d.raw)
    (divided : ∀ x y, slash a.ty b.ty x y = slash c.ty d.ty x y) :
    emitSlash viaFloat a b = emitSlash viaFloat c d := by
  rw [emitSlash, emitSlash, first, second]
  simp only [divided]

theorem plain_same {a b c d : Ty} {x : Int} (first : a.k = .fixedBin) (second : c.k = .fixedBin)
    (held : Fits a.intBits x) (held' : Fits c.intBits x) :
    convertOperand viaFloat a (operandType a b) x =
      convertOperand viaFloat c (operandType c d) x := by
  rw [plain_operand held (Or.inr first), plain_operand held' (Or.inr second)]

def SameView (t r : Ty) (gone : Int) : Prop :=
  (t.intBits = 128 ↔ r.intBits = 128) ∨ 0 ≤ t.scale ∧ t.scale ≤ 38 ∨ t.scale ≤ gone

theorem scale_out {gone : Int} (split : ¬SameView t r gone) :
    (t.intBits ≠ 128 ∧ r.intBits = 128 ∨ t.intBits = 128 ∧ r.intBits ≠ 128) ∧
      (38 < t.scale ∨ t.scale < 0 ∧ gone < t.scale) := by
  unfold SameView at split
  grind

theorem words_apart (words : ¬(t.intBits = 128 ↔ r.intBits = 128)) :
    t.intBits ≠ 128 ∧ r.intBits = 128 ∨ t.intBits = 128 ∧ r.intBits ≠ 128 := by
  grind

theorem lost_dividend (twin : Twin t r) (wide : t.intBits = 128) (narrow : r.intBits ≠ 128)
    (gone : t.scale ≤ -256) (raw : Int) :
    convertOperand viaFloat t (view t) raw = convertOperand viaFloat r (view r) raw := by
  have scale := twin.scale
  rw [converted_direct twin.decimal twin.some_digits (by omega),
    converted_direct twin.other twin.other_digits (by omega),
    checked_zero twin.some_digits, checked_zero twin.other_digits (narrow_lost narrow (by omega))]
  rw [wide_below wide (by omega)]
  exact ten_lost (by omega) (by omega) raw

/-- A DECIMAL dividend over BINARY gives the same quotients in two types of one scale exactly where
    their words are the same or the scale is in 0..38, or all of it is shifted out. -/
theorem dividend_same_iff (twin : Twin t r) (digits : decToBinDigits t.prec = decToBinDigits r.prec)
    (first : i.k = .fixedBin ∧ 0 < i.prec) (second : j.k = .fixedBin ∧ 0 < j.prec)
    (level : quotientScale t i = quotientScale r j)
    (divided : ∀ x y, slash t i x y = slash r j x y) :
    (∀ viaFloat x y, FloatOfWord viaFloat → Stored t x → Stored r x → Stored i y → Stored j y →
        emitSlash viaFloat ⟨t, x⟩ ⟨i, y⟩ = emitSlash viaFloat ⟨r, x⟩ ⟨j, y⟩) ↔
      SameView t r (-256) := by
  have mixed : i.k ≠ .fixedDec := by simp [first.1]
  have mixed' : j.k ≠ .fixedDec := by simp [second.1]
  constructor
  · intro same
    by_contra split
    obtain ⟨words, out⟩ := scale_out split
    have one := binary_small first.1 first.2 (Or.inr rfl)
    have one' := binary_small second.1 second.2 (Or.inr rfl)
    have long : 18 < t.prec ∧ 18 < r.prec := by
      have wide := twin.wide
      have wide' := twin.other_wide
      unfold decToBinDigits at digits
      omega
    rcases words with ⟨narrow, wide⟩ | ⟨wide, narrow⟩
    · obtain ⟨viaFloat, x, ofWord, held, held', apart⟩ :=
        dividend_differs twin narrow wide long.1 first.1 second.1 level out
      exact apart (same viaFloat x 1 ofWord held held' one one')
    · obtain ⟨viaFloat, x, ofWord, held, held', apart⟩ :=
        dividend_differs twin.symm narrow wide long.2 second.1 first.1 level.symm
          (by have := twin.scale; omega)
      exact apart (same viaFloat x 1 ofWord held' held one one').symm
  · intro kept viaFloat x y ofWord held held' other other'
    refine same_quotient ?_ (plain_same first.1 second.1 other.2 other'.2) divided
    rw [operandType_view twin.decimal mixed, operandType_view twin.other mixed']
    by_cases few : (t.intBits = 128 ↔ r.intBits = 128) ∨ 0 ≤ t.scale ∧ t.scale ≤ 38
    · exact same_view twin ofWord held held' few
    · have gone : t.scale ≤ -256 := by
        rcases kept with words | range | gone
        · exact absurd (Or.inl words) few
        · exact absurd (Or.inr range) few
        · exact gone
      rcases words_apart fun words => few (Or.inl words) with ⟨narrow, wide⟩ | ⟨wide, narrow⟩
      · exact (lost_dividend twin.symm wide narrow (by have := twin.scale; omega) x).symm
      · exact lost_dividend twin wide narrow gone x

theorem divisor_zero {c : Converted} {x y : Int} (decimal : t.k = .fixedDec)
    (binary : i.k = .fixedBin) (held : Fits i.intBits x)
    (converted : convertOperand viaFloat t (view t) y = some c) :
    emitSlash viaFloat ⟨i, x⟩ ⟨t, y⟩ = some .zerodivide ↔ c.raw = 0 := by
  rw [emitSlash, operandType_view decimal (by simp [binary]), converted,
    plain_operand held (Or.inr binary)]
  simp only [Option.bind_some, Option.map_some, Option.some.injEq]
  unfold slash
  by_cases zero : c.raw = 0
  · simp [zero, Division.sizes]
  · rw [if_neg zero]
    split <;> simp [zero, Division.sizes]

theorem raw_below (wide : o.intBits = 128) (decimal : o.k = .fixedDec) (digits : 18 < o.prec)
    (below : o.scale < 0) : ∃ c, convertOperand viaFloat o (view o) raw = some c ∧
      c.raw = word 64 (word 256 (raw * 10 ^ (-o.scale).toNat)) := by
  refine ⟨_, converted_direct decimal (by omega) (by omega), ?_⟩
  rw [checked_wide wide digits below, checkBin_raw]

theorem divisor_differs (twin : Twin t r) (narrow : t.intBits ≠ 128) (wide : r.intBits = 128)
    (first : i.k = .fixedBin) (second : j.k = .fixedBin)
    (out : 38 < t.scale ∨ t.scale < 0 ∧ -64 < t.scale) :
    ∃ viaFloat y, FloatOfWord viaFloat ∧ Stored t y ∧ Stored r y ∧
      emitSlash viaFloat ⟨i, 0⟩ ⟨t, y⟩ ≠ emitSlash viaFloat ⟨j, 0⟩ ⟨r, y⟩ := by
  obtain ⟨decimal, other, scale, some_digits, other_digits, -, more⟩ := twin
  have zero (ty : Ty) := small_fits 0 (by decide) ty
  have direct (y : Int) := @converted_direct t y noisy decimal some_digits (by simp [narrow])
  have stops {y : Int} (none_left : viewNumber t y = 0) :
      emitSlash noisy ⟨i, 0⟩ ⟨t, y⟩ = some .zerodivide := by
    refine (divisor_zero decimal first (zero i) (direct y)).mpr ?_
    rw [checked_zero some_digits none_left]
  rcases out with large | ⟨below, above⟩
  · refine ⟨noisy, 0, noisy_word, stored_zero decimal, stored_zero other, ?_⟩
    rw [stops (zero_number narrow)]
    intro same
    have divides := (divisor_zero other second (zero j)
      (converted_noisy other wide (more wide) (by omega))).mp same.symm
    exact absurd divides (by decide)
  · refine ⟨noisy, 1, noisy_word, stored_one decimal some_digits, stored_one other other_digits, ?_⟩
    rw [stops (narrow_one narrow below)]
    intro same
    obtain ⟨c, converted, is⟩ := @raw_below r 1 noisy wide other (more wide) (by omega)
    have divides := (divisor_zero other second (zero j) converted).mp same.symm
    rw [is] at divides
    exact power_bits _ (by omega) divides

theorem lost_divisor {x : Int} (twin : Twin t r) (wide : t.intBits = 128) (narrow : r.intBits ≠ 128)
    (gone : t.scale ≤ -64) (first : i.k = .fixedBin) (second : j.k = .fixedBin)
    (held : Fits i.intBits x) (held' : Fits j.intBits x) (y : Int) :
    emitSlash viaFloat ⟨i, x⟩ ⟨t, y⟩ = emitSlash viaFloat ⟨j, x⟩ ⟨r, y⟩ := by
  have scale := twin.scale
  obtain ⟨c, converted, is⟩ := @raw_below t y viaFloat wide twin.decimal (twin.wide wide) (by omega)
  have lost : c.raw = 0 := by
    rw [is, word_word (by omega)]
    exact ten_lost (by omega) (by omega) y
  rw [(divisor_zero twin.decimal first held converted).mpr lost]
  refine ((divisor_zero twin.other second held'
    (converted_direct twin.other twin.other_digits (by omega))).mpr ?_).symm
  rw [checked_zero twin.other_digits (narrow_lost narrow (by omega))]

/-- The same for a DECIMAL divisor; its scale is shifted out sooner. -/
theorem divisor_same_iff (twin : Twin t r) (first : i.k = .fixedBin ∧ 0 < i.prec)
    (second : j.k = .fixedBin ∧ 0 < j.prec) (divided : ∀ x y, slash i t x y = slash j r x y) :
    (∀ viaFloat x y, FloatOfWord viaFloat → Stored i x → Stored j x → Stored t y → Stored r y →
        emitSlash viaFloat ⟨i, x⟩ ⟨t, y⟩ = emitSlash viaFloat ⟨j, x⟩ ⟨r, y⟩) ↔
      SameView t r (-64) := by
  have mixed : i.k ≠ .fixedDec := by simp [first.1]
  have mixed' : j.k ≠ .fixedDec := by simp [second.1]
  constructor
  · intro same
    by_contra split
    obtain ⟨words, out⟩ := scale_out split
    have zero := binary_small first.1 first.2 (Or.inl rfl)
    have zero' := binary_small second.1 second.2 (Or.inl rfl)
    rcases words with ⟨narrow, wide⟩ | ⟨wide, narrow⟩
    · obtain ⟨viaFloat, y, ofWord, held, held', apart⟩ :=
        divisor_differs twin narrow wide first.1 second.1 out
      exact apart (same viaFloat 0 y ofWord zero zero' held held')
    · obtain ⟨viaFloat, y, ofWord, held, held', apart⟩ :=
        divisor_differs twin.symm narrow wide second.1 first.1 (by have := twin.scale; omega)
      exact apart (same viaFloat 0 y ofWord zero zero' held' held).symm
  · intro kept viaFloat x y ofWord other other' held held'
    by_cases few : (t.intBits = 128 ↔ r.intBits = 128) ∨ 0 ≤ t.scale ∧ t.scale ≤ 38
    · refine same_quotient (plain_same first.1 second.1 other.2 other'.2) ?_ divided
      rw [operandType_view twin.decimal mixed, operandType_view twin.other mixed']
      exact same_view twin ofWord held held' few
    · have gone : t.scale ≤ -64 := by
        rcases kept with words | range | gone
        · exact absurd (Or.inl words) few
        · exact absurd (Or.inr range) few
        · exact gone
      rcases words_apart fun words => few (Or.inl words) with ⟨narrow, wide⟩ | ⟨wide, narrow⟩
      · exact (lost_divisor twin.symm wide narrow (by have := twin.scale; omega) second.1 first.1
          other'.2 other.2 y).symm
      · exact lost_divisor twin wide narrow gone first.1 second.1 other.2 other'.2 y

end Quotients

end Views

end PliBinaryView
