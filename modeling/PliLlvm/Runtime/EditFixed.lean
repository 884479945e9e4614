import PliLlvm.Compiler.FixedText

/- F(w,d) of a FIXED value (runtime/rt_edit.c, pli_put_edit_fixed and
   pli_put_edit_fixed_scaled). Signed and unsigned 64-bit arithmetic wraps, a division by a
   power of ten that wrapped to zero has no result, and the buffers are never filled. -/
namespace PliEditFixed
open FixedPoint Decimal PliFixedConvert PliFixedText

/-- `for (i = 0; i < k; ++i) sf *= 10;` on an unsigned word. -/
def timesTen : Nat → Nat → Nat
  | 0, sf => sf
  | k + 1, sf => timesTen k (sf * 10 % 2 ^ 64)

/-- The fraction digits: `'0' + (t / df) % 10`, then `df /= 10`. -/
def fracDigits (t : Nat) : Nat → Nat → Option (List Nat)
  | 0, _ => some []
  | n + 1, df => if df = 0 then none else (fracDigits t n (df / 10)).map (t / df % 10 :: ·)

def roundFraction (ip fr : Nat) (scale d : Int) : Option (Nat × Nat) :=
  let df := timesTen (scale - d).toNat 1
  let tenD := timesTen d.toNat 1
  if df = 0 then none
  else
    let q := fr / df
    let r := fr % df
    let q := if df ≤ r * 2 % 2 ^ 64 then q + 1 else q
    some (if tenD ≤ q then (ip + 1, 0) else (ip, q))

def pointPart (fr : Nat) (scale d : Int) : Option (List UInt8) :=
  if 0 < d then
    let ndig := min d 64
    let nfrom := min scale ndig
    (fracDigits fr nfrom.toNat (timesTen (nfrom - 1).toNat 1)).map fun frac =>
      46 :: digitBytes (frac ++ List.replicate (ndig - nfrom).toNat 0)
  else some []

def putEditFixed (v scale d : Int) : Option (List UInt8) :=
  let d := if d < 0 then 0 else d
  let d := if 60 < d then 60 else d
  let (v, scale) :=
    if scale < 0 then (word 64 (v * word 64 (timesTen (-scale).toNat 1)), 0) else (v, scale)
  let sf := timesTen (min scale 18).toNat 1
  let neg := v < 0
  let u := if neg then (-(v + 1)).toNat + 1 else v.toNat
  let ip := u / sf
  let fr := u % sf
  (if d < scale then roundFraction ip fr scale d else some (ip, fr)).bind fun (ip, fr) =>
    (pointPart fr scale d).map fun point =>
      (if neg ∧ (ip ≠ 0 ∨ fr ≠ 0) then [45] else []) ++ digitBytes (image ip) ++ point

def putEditFixedScaled (v scale fscale d : Int) : Option (List UInt8) :=
  let (v, scale) :=
    if 0 ≤ fscale then (timesTen64 fscale.toNat v, scale) else (v, scale - fscale)
  let scale := if scale < 0 then 0 else scale
  putEditFixed v scale d

/- What the text is for. -/

def decimalText (n : Int) (d : Nat) : List UInt8 :=
  signText n ++ digitBytes (image (n.natAbs / 10 ^ d)) ++
    if 0 < d then 46 :: digitBytes (padded d (n.natAbs % 10 ^ d)) else []

def rounded (v scale : Int) (d : Nat) : Int :=
  roundAway (v * (10 : ℚ) ^ (-scale) * (10 : ℚ) ^ d)

/-- The value fits where a negative scale multiplies it up; a scale past 18 has a value
    below 10^18, at most 20 digits to print, and a divisor that did not wrap below twice it. -/
def Holds (v scale : Int) (d : Nat) : Prop :=
  if scale < 0 then Fits 64 (v * 10 ^ (-scale).toNat)
  else scale ≤ 18 ∨ v.natAbs < 10 ^ 18 ∧ min scale d ≤ 20 ∧
    (20 ≤ scale - d → v.natAbs * 2 < 10 ^ (scale - d).toNat % 2 ^ 64)

instance (v scale : Int) (d : Nat) : Decidable (Holds v scale d) := by
  unfold Holds
  infer_instance

def HoldsScaled (v scale fscale : Int) (d : Nat) : Prop :=
  if scale - min fscale 0 < 0 then v = 0
  else if 0 ≤ fscale then Fits 64 (v * 10 ^ fscale.toNat) ∧ Holds (v * 10 ^ fscale.toNat) scale d
  else Holds v (scale - fscale) d

instance (v scale fscale : Int) (d : Nat) : Decidable (HoldsScaled v scale fscale d) := by
  unfold HoldsScaled
  infer_instance

theorem timesTen_eq (k : Nat) {sf : Nat} (word : sf < 2 ^ 64) :
    timesTen k sf = sf * 10 ^ k % 2 ^ 64 := by
  induction k generalizing sf with
  | zero => rw [timesTen, pow_zero, Nat.mul_one, Nat.mod_eq_of_lt word]
  | succ k ih =>
    rw [timesTen, ih (Nat.mod_lt _ (by omega)), Nat.mod_mul_mod, pow_succ]
    congr 1
    ring

theorem power_word (k : Nat) : timesTen k 1 = 10 ^ k % 2 ^ 64 := by
  rw [timesTen_eq k (by omega), Nat.one_mul]

theorem power_small {k : Nat} (le : k ≤ 19) : timesTen k 1 = 10 ^ k := by
  have power : 10 ^ k ≤ 10 ^ 19 := Nat.pow_le_pow_right (by omega) le
  rw [power_word, Nat.mod_eq_of_lt (by omega)]

theorem padded_head (j t : Nat) : padded (j + 1) t = t / 10 ^ j % 10 :: padded j t := by
  induction j generalizing t with
  | zero => simp [padded]
  | succ j ih =>
    rw [padded, ih, padded, Nat.div_div_eq_div_mul, pow_succ, Nat.mul_comm 10]
    rfl

theorem fracDigits_padded (t n : Nat) : fracDigits t (n + 1) (10 ^ n) = some
    (padded (n + 1) t) := by
  induction n with
  | zero => simp [fracDigits, padded]
  | succ n ih =>
    have positive : (10 : Nat) ^ (n + 1) ≠ 0 := by positivity
    rw [fracDigits, if_neg positive, pow_succ, Nat.mul_div_cancel _ (by omega), ih,
      Option.map_some, ← pow_succ, ← padded_head]

theorem fracDigits_none (t : Nat) {n df : Nat} (short : df < 10 ^ n) :
    fracDigits t (n + 1) df = none := by
  induction n generalizing df with
  | zero =>
    have zero : df = 0 := by omega
    rw [fracDigits, if_pos zero]
  | succ n ih =>
    rw [pow_succ] at short
    rw [fracDigits]
    split
    · rfl
    · rw [ih (by omega)]
      rfl

theorem padded_zeros (n k t : Nat) :
    padded (n + k) (t * 10 ^ k) = padded n t ++ List.replicate k 0 := by
  induction k with
  | zero => simp
  | succ k ih =>
    rw [← Nat.add_assoc, padded, pow_succ, ← Nat.mul_assoc, Nat.mul_div_cancel _ (by omega), ih,
      Nat.mul_mod_left, List.append_assoc, List.replicate_succ']

theorem pointPart_eq (fr : Nat) {s d : Nat} (few : d ≤ 60) (digits : min s d ≤ 20) :
    pointPart fr s d =
      some (if 0 < d then 46 :: digitBytes (padded d (fr * 10 ^ (d - min s d))) else []) := by
  unfold pointPart
  by_cases some_digit : 0 < d
  · have ndig : min (d : Int) 64 = d := by omega
    have nfrom : min (s : Int) d = (min s d : Nat) := by omega
    have positive : (0 : Int) < d := by omega
    rw [if_pos positive, if_pos some_digit]
    simp only [ndig, nfrom]
    obtain ⟨m, least⟩ : ∃ m, m = min s d := ⟨_, rfl⟩
    rw [← least] at digits ⊢
    have rest : ((d : Int) - (m : Nat)).toNat = d - m := by omega
    have whole : d = m + (d - m) := by omega
    have shown : padded d (fr * 10 ^ (d - m)) = padded m fr ++ List.replicate (d - m) 0 := by
      rw [← padded_zeros, ← whole]
    rw [rest, shown, Int.toNat_natCast]
    cases m with
    | zero => rfl
    | succ k =>
      have step : (((k + 1 : Nat) : Int) - 1).toNat = k := by omega
      rw [step, power_small (by omega), fracDigits_padded]
      rfl
  · have none : ¬ (0 : Int) < d := by omega
    rw [if_neg none, if_neg some_digit]

theorem pointPart_none (fr : Nat) {s d : Nat} (few : d ≤ 60) (many : 21 ≤ min s d) :
    pointPart fr s d = none := by
  unfold pointPart
  have ndig : min (d : Int) 64 = d := by omega
  have nfrom : min (s : Int) d = (min s d : Nat) := by omega
  have positive : (0 : Int) < d := by omega
  rw [if_pos positive]
  simp only [ndig, nfrom]
  obtain ⟨k, least⟩ : ∃ k, min s d = k + 1 := ⟨min s d - 1, by omega⟩
  have step : (((k + 1 : Nat) : Int) - 1).toNat = k := by omega
  have short : timesTen k 1 < 10 ^ k := by
    have power : 10 ^ 20 ≤ 10 ^ k := Nat.pow_le_pow_right (by omega) (by omega)
    rw [power_word]
    have small := Nat.mod_lt (10 ^ k) (show 0 < 2 ^ 64 by omega)
    omega
  rw [least, step, Int.toNat_natCast, fracDigits_none fr short]
  rfl

theorem text_shown {neg : Prop} [Decidable neg] {ip fr m d : Nat} (le : m ≤ d) (low : fr < 10 ^ m) :
    (if neg ∧ (ip ≠ 0 ∨ fr ≠ 0) then [45] else []) ++ digitBytes (image ip) ++
        (if 0 < d then 46 :: digitBytes (padded d (fr * 10 ^ (d - m))) else []) =
      decimalText (if neg then -((ip * 10 ^ d + fr * 10 ^ (d - m) : Nat) : Int)
        else (ip * 10 ^ d + fr * 10 ^ (d - m) : Nat)) d := by
  have power : 10 ^ d = 10 ^ m * 10 ^ (d - m) := by rw [← pow_add, Nat.add_sub_cancel' le]
  have positive : 0 < 10 ^ (d - m) := Nat.pow_pos (by omega)
  have inside : fr * 10 ^ (d - m) < 10 ^ d := by
    rw [power]
    exact Nat.mul_lt_mul_of_pos_right low positive
  obtain ⟨n, total⟩ : ∃ n, n = ip * 10 ^ d + fr * 10 ^ (d - m) := ⟨_, rfl⟩
  have whole : n / 10 ^ d = ip := by
    rw [total, Nat.add_comm, Nat.add_mul_div_right _ _ (Nat.pow_pos (by omega)),
      Nat.div_eq_of_lt inside, Nat.zero_add]
  have left : n % 10 ^ d = fr * 10 ^ (d - m) := by
    rw [total, Nat.add_comm, Nat.add_mul_mod_self_right, Nat.mod_eq_of_lt inside]
  have zero : n = 0 ↔ ip = 0 ∧ fr = 0 := by
    rw [total, Nat.add_eq_zero_iff, Nat.mul_eq_zero, Nat.mul_eq_zero]
    simp
  rw [← total]
  have size : (if neg then -(n : Int) else n).natAbs = n := by
    split <;> omega
  have sign : signText (if neg then -(n : Int) else n) =
      if neg ∧ (ip ≠ 0 ∨ fr ≠ 0) then [45] else [] := by
    unfold signText
    by_cases minus : neg
    · by_cases none : n = 0
      · rw [if_neg (by simp [none]), if_neg (by rw [zero] at none; simp [none])]
      · have below : -(n : Int) < 0 := by omega
        have shown : ip ≠ 0 ∨ fr ≠ 0 := by
          by_contra blank
          push Not at blank
          exact none (zero.mpr blank)
        rw [if_pos minus, if_pos below, if_pos ⟨minus, shown⟩]
    · rw [if_neg minus, if_neg (by omega), if_neg (fun both => minus both.1)]
  rw [decimalText, size, whole, left, sign]

def roundedMag (u s d : Nat) : Nat :=
  if s ≤ d then u * 10 ^ (d - s) else (u + 5 * 10 ^ (s - d - 1)) / 10 ^ (s - d)

theorem half_power {k : Nat} (some_digit : 0 < k) : 2 * (5 * 10 ^ (k - 1)) = 10 ^ k := by
  obtain ⟨j, rfl⟩ : ∃ j, k = j + 1 := ⟨k - 1, by omega⟩
  rw [Nat.add_sub_cancel, pow_succ]
  ring

theorem rounded_eq (v : Int) (s d : Nat) :
    rounded v s d = if v < 0 then -(roundedMag v.natAbs s d : Int) else roundedMag
      v.natAbs s d := by
  unfold rounded roundedMag
  have ten : (10 : ℚ) ≠ 0 := by norm_num
  by_cases le : s ≤ d
  · have whole : (v : ℚ) * 10 ^ (-(s : Int)) * 10 ^ d = ((v * 10 ^ (d - s) : Int) : ℚ) := by
      rw [zpow_neg, zpow_natCast]
      push_cast
      rw [pow_sub₀ _ ten le]
      field_simp
    rw [whole, roundAway_intCast, if_pos le]
    push_cast
    split
    · rw [abs_of_neg ‹_›]
      ring
    · rw [abs_of_nonneg (by omega)]
  · have quotient : (v : ℚ) * 10 ^ (-(s : Int)) * 10 ^ d =
      (v : ℚ) / ((10 ^ (s - d) : Nat) : ℚ) := by
      rw [zpow_neg, zpow_natCast]
      push_cast
      rw [pow_sub₀ _ ten (by omega)]
      field_simp
    have twice := half_power (show 0 < s - d by omega)
    have whole_twice : 2 * ((5 * 10 ^ (s - d - 1) : Nat) : Int) = ((10 ^ (s - d) : Nat) : Int) := by
      exact_mod_cast twice
    rw [quotient, roundAway_div (Nat.pow_pos (by omega)) whole_twice, if_neg le]
    split
    · exact towardSign_tdiv_of_neg ‹_› _ _
    · exact towardSign_tdiv_of_nonneg (by omega) _ _

theorem rounded_shift (v scale : Int) (f d : Nat) :
    rounded v (scale - f) d = rounded (v * 10 ^ f) scale d := by
  have ten : (10 : ℚ) ≠ 0 := by norm_num
  unfold rounded
  congr 2
  push_cast
  rw [neg_sub, sub_eq_add_neg, zpow_add₀ ten, zpow_natCast]
  ring

theorem roundFraction_eq {ip fr s d : Nat} (less : d < s) (near : s - d ≤ 19) (few : d ≤ 20)
    (low : fr < 10 ^ s) (word : fr < 10 ^ 18) :
    ∃ ip' fr', roundFraction ip fr s d = some (ip', fr') ∧ fr' < 10 ^ d ∧
      ip' * 10 ^ d + fr' = roundedMag (ip * 10 ^ s + fr) s d := by
  obtain ⟨h, half⟩ : ∃ h, h = 5 * 10 ^ (s - d - 1) := ⟨_, rfl⟩
  have twice : 2 * h = 10 ^ (s - d) := by
    rw [half]
    exact half_power (by omega)
  obtain ⟨df, divisor⟩ : ∃ df, df = 10 ^ (s - d) := ⟨_, rfl⟩
  have positive : 0 < df := by
    rw [divisor]
    positivity
  have power : 10 ^ s = 10 ^ d * df := by rw [divisor, ← pow_add, Nat.add_sub_cancel' less.le]
  obtain ⟨q, quotient⟩ : ∃ q, q = (fr + h) / df := ⟨_, rfl⟩
  have due : roundedMag (ip * 10 ^ s + fr) s d = ip * 10 ^ d + q := by
    rw [roundedMag, if_neg (by omega), ← half, ← divisor, power, quotient,
      show ip * (10 ^ d * df) + fr + h = fr + h + ip * 10 ^ d * df by ring,
      Nat.add_mul_div_right _ _ positive, Nat.add_comm]
  have bound : q ≤ 10 ^ d := by
    rw [quotient]
    refine Nat.lt_succ_iff.mp (Nat.div_lt_of_lt_mul ?_)
    rw [power] at low
    rw [← divisor] at twice
    have product : df * (10 ^ d).succ = 10 ^ d * df + df := by rw [Nat.succ_eq_add_one]; ring
    omega
  have count : (if df ≤ fr % df * 2 % 2 ^ 64 then fr / df + 1 else fr / df) = q := by
    have less_word : fr % df * 2 % 2 ^ 64 = fr % df * 2 := by
      have le := Nat.mod_le fr df
      exact Nat.mod_eq_of_lt (by omega)
    rw [quotient, add_half_div positive (by rw [twice, divisor]), less_word]
    split <;> omega
  have first : timesTen ((s : Int) - d).toNat 1 = df := by
    rw [show ((s : Int) - d).toNat = s - d by omega, power_small near, divisor]
  unfold roundFraction
  simp only [first, Int.toNat_natCast, count, if_neg positive.ne']
  have small : q ≤ fr + 1 := by
    have floor := Nat.div_le_self fr df
    rw [← count]
    split <;> omega
  have carry : timesTen d 1 ≤ q ↔ q = 10 ^ d := by
    rcases Nat.lt_or_ge d 20 with narrow | wide
    · rw [power_small (by omega)]
      omega
    · have twenty : d = 20 := by omega
      have wrapped : timesTen 20 1 = 7766279631452241920 := by decide
      rw [twenty, wrapped]
      omega
  by_cases full : q = 10 ^ d
  · refine ⟨ip + 1, 0, by rw [if_pos (carry.mpr full)], Nat.pow_pos (by omega), ?_⟩
    rw [due, full]
    ring
  · refine ⟨ip, q, by rw [if_neg (fun much => full (carry.mp much))], by omega, ?_⟩
    rw [due]

variable {s d : Nat}

theorem roundFraction_wrapped {u : Nat} (far : 20 ≤ s - d) (few : d ≤ 20) (small : u < 10 ^ 18) :
    (u * 2 < 10 ^ (s - d) % 2 ^ 64 → roundFraction 0 u s d = some (0, 0)) ∧
      ∀ ip fr, roundFraction 0 u s d = some (ip, fr) → ip = 0 → fr < 10 ^ d ∧
        (fr = 0 → u * 2 < 10 ^ (s - d) % 2 ^ 64) := by
  obtain ⟨df, divisor⟩ : ∃ df, df = 10 ^ (s - d) % 2 ^ 64 := ⟨_, rfl⟩
  have first : timesTen ((s : Int) - d).toNat 1 = df := by
    rw [show ((s : Int) - d).toNat = s - d by omega, power_word, divisor]
  have tens : 0 < timesTen d 1 ∧ (timesTen d 1 ≤ 10 ^ d) := by
    rcases Nat.lt_or_ge d 20 with narrow | wide
    · rw [power_small (by omega)]
      exact ⟨Nat.pow_pos (by omega), le_refl _⟩
    · have twenty : d = 20 := by omega
      rw [twenty]
      decide
  have less_word : u % df * 2 % 2 ^ 64 = u % df * 2 := by
    have le := Nat.mod_le u df
    exact Nat.mod_eq_of_lt (by omega)
  rw [← divisor]
  unfold roundFraction
  simp only [first, Int.toNat_natCast, less_word]
  constructor
  · intro low
    have positive : df ≠ 0 := by omega
    have none : u / df = 0 := Nat.div_eq_of_lt (by omega)
    have all : u % df = u := Nat.mod_eq_of_lt (by omega)
    have down : ¬ df ≤ u * 2 := by omega
    have room : ¬ timesTen d 1 ≤ 0 := by omega
    rw [if_neg positive, none, all, if_neg down, if_neg room]
  · intro ip fr found integer
    split at found
    · cases found
    · rename_i positive
      obtain ⟨q, count⟩ : ∃ q, q = if df ≤ u % df * 2 then u / df + 1 else u / df := ⟨_, rfl⟩
      rw [← count] at found
      split at found
      · cases found
        omega
      · cases found
        refine ⟨by omega, fun zero => ?_⟩
        rw [zero] at count
        split at count
        · exact absurd count.symm (Nat.succ_ne_zero _)
        · have low : u < df := (Nat.div_eq_zero_iff_lt (by omega)).mp count.symm
          have rest := Nat.mod_eq_of_lt low
          omega

variable {v : Int}

theorem putEditFixed_parts (few : d ≤ 60) : putEditFixed v s d =
      (if d < s then
          roundFraction (v.natAbs / 10 ^ min s 18) (v.natAbs % 10 ^ min s 18) s d
        else some (v.natAbs / 10 ^ min s 18, v.natAbs % 10 ^ min s 18)).bind fun (ip, fr) =>
      (pointPart fr s d).map fun point =>
        (if v < 0 ∧ (ip ≠ 0 ∨ fr ≠ 0) then [45] else []) ++ digitBytes (image ip) ++ point := by
  have clamped : (if (d : Int) < 0 then (0 : Int) else d) = d := by omega
  have capped : (if 60 < (d : Int) then (60 : Int) else d) = d := by omega
  have least : (min (s : Int) 18).toNat = min s 18 := by omega
  have size : (if v < 0 then (-(v + 1)).toNat + 1 else v.toNat) = v.natAbs := by split <;> omega
  have nonneg : ¬ (s : Int) < 0 := by omega
  have less : (d : Int) < s ↔ d < s := by omega
  unfold putEditFixed
  simp only [clamped, capped, if_neg nonneg, least, size, power_small (show min s 18 ≤ 19 by omega),
    less]

theorem putEditFixed_right {v : Int} {s d : Nat} (few : d ≤ 60)
    (holds : s ≤ 18 ∨ v.natAbs < 10 ^ 18 ∧ min s d ≤ 20 ∧
      (20 ≤ (s : Int) - d → v.natAbs * 2 < 10 ^ (s - d) % 2 ^ 64)) :
    putEditFixed v s d = some (decimalText (rounded v s d) d) := by
  obtain ⟨u, size⟩ : ∃ u, u = v.natAbs := ⟨_, rfl⟩
  obtain ⟨ip, integer⟩ : ∃ ip, ip = u / 10 ^ min s 18 := ⟨_, rfl⟩
  obtain ⟨fr, fraction⟩ : ∃ fr, fr = u % 10 ^ min s 18 := ⟨_, rfl⟩
  rw [putEditFixed_parts few, rounded_eq, ← size, ← integer, ← fraction]
  rw [← size] at holds
  have digits : min s d ≤ 20 := by omega
  have word : fr < 10 ^ 18 := by
    have power : 10 ^ min s 18 ≤ 10 ^ 18 := Nat.pow_le_pow_right (by omega) (by omega)
    have below := Nat.mod_lt u (show 0 < 10 ^ min s 18 by positivity)
    omega
  have parts : u = ip * 10 ^ s + fr ∧ fr < 10 ^ s := by
    rcases Nat.lt_or_ge 18 s with wide | narrow
    · have least : min s 18 = 18 := by omega
      have power : 10 ^ 18 ≤ 10 ^ s := Nat.pow_le_pow_right (by omega) (by omega)
      have small : u < 10 ^ 18 := by omega
      rw [least] at integer fraction
      rw [Nat.div_eq_of_lt small] at integer
      rw [Nat.mod_eq_of_lt small] at fraction
      rw [integer, fraction]
      omega
    · have least : min s 18 = s := by omega
      rw [least] at integer fraction
      rw [integer, fraction, Nat.mul_comm]
      exact ⟨(Nat.div_add_mod u _).symm, Nat.mod_lt _ (by positivity)⟩
  -- what is left to show once the final parts are known
  have finish : ∀ ip' fr', fr' < 10 ^ min s d →
      ip' * 10 ^ d + fr' * 10 ^ (d - min s d) = roundedMag u s d →
      (pointPart fr' s d).map (fun point =>
        (if v < 0 ∧ (ip' ≠ 0 ∨ fr' ≠ 0) then [45] else []) ++ digitBytes (image ip') ++ point) =
      some (decimalText (if v < 0 then -(roundedMag u s d : Int) else roundedMag u s d) d) := by
    intro ip' fr' low total
    rw [pointPart_eq fr' few digits, Option.map_some, text_shown (by omega) low, total]
  by_cases less : d < s
  · rw [if_pos less]
    have least : min s d = d := by omega
    rw [least] at finish digits
    simp only [Nat.sub_self, pow_zero, Nat.mul_one] at finish
    by_cases near : s - d ≤ 19
    · obtain ⟨ip', fr', found, low, total⟩ :=
        @roundFraction_eq ip fr s d less near digits parts.2 word
      rw [← parts.1] at total
      rw [found, Option.bind_some]
      exact finish ip' fr' low total
    · have wide : u < 10 ^ 18 ∧ u * 2 < 10 ^ (s - d) % 2 ^ 64 := by omega
      have least : min s 18 = 18 := by omega
      have zero : ip = 0 := by rw [integer, least, Nat.div_eq_of_lt wide.1]
      have all : fr = u := by rw [fraction, least, Nat.mod_eq_of_lt wide.1]
      rw [zero, all, (roundFraction_wrapped (by omega) digits wide.1).1 wide.2, Option.bind_some]
      refine finish 0 0 (by positivity) ?_
      have power : 10 ^ 19 ≤ 10 ^ (s - d - 1) := Nat.pow_le_pow_right (by omega) (by omega)
      have twice := half_power (show 0 < s - d by omega)
      rw [roundedMag, if_neg (by omega), Nat.div_eq_of_lt (by omega), Nat.zero_mul]
  · rw [if_neg less, Option.bind_some]
    have least : min s d = s := by omega
    rw [least] at finish
    refine finish ip fr parts.2 ?_
    have power : 10 ^ d = 10 ^ s * 10 ^ (d - s) := by rw [← pow_add, Nat.add_sub_cancel' (by omega)]
    rw [roundedMag, if_pos (by omega), power]
    conv_rhs => rw [parts.1]
    ring

theorem digitBytes_inj {as bs : List Nat} (first : ∀ d ∈ as, d < 10) (second : ∀ d ∈ bs, d < 10)
    (same : digitBytes as = digitBytes bs) : as = bs := by
  rw [← digitBytes_digitOf first, same, digitBytes_digitOf second]

variable {m n : Nat}

theorem image_inj (same : image m = image n) : m = n := by
  have first := image_value m 0
  have second := image_value n 0
  rw [Nat.zero_mul, Nat.zero_add] at first second
  rw [← first, same, second]

def NoDigit (tail : List UInt8) : Prop := ∀ c ∈ tail.head?, isDigit c = false

theorem text_parts {minus minus' : Bool} {tail tail' : List UInt8}
    (stops : NoDigit tail) (stops' : NoDigit tail')
    (same : (if minus then [45] else []) ++ digitBytes (image m) ++ tail =
      (if minus' then [45] else []) ++ digitBytes (image n) ++ tail') :
    minus = minus' ∧ m = n ∧ tail = tail' := by
  have lead : ∀ k : Nat, ∃ c rest, digitBytes (image k) = c :: rest ∧ isDigit c = true := by
    intro k
    obtain ⟨d, ds, shown⟩ := List.exists_cons_of_ne_nil (image_ne_nil k)
    refine ⟨_, _, by rw [shown]; rfl, ?_⟩
    exact digitBytes_isDigit (fun e there => image_digits there)
      (by rw [shown, digitBytes, List.map_cons]; exact List.mem_cons_self)
  have signs : minus = minus' := by
    obtain ⟨c, rest, shown, digit⟩ := lead m
    obtain ⟨c', rest', shown', digit'⟩ := lead n
    cases minus <;> cases minus'
    · rfl
    · rw [shown] at same
      have head : c = 45 := by simpa using congrArg List.head? same
      rw [head] at digit
      cases digit
    · rw [shown'] at same
      have head : 45 = c' := by simpa using congrArg List.head? same
      rw [← head] at digit'
      cases digit'
    · rfl
  rw [signs, List.append_assoc, List.append_assoc] at same
  have behind := List.append_cancel_left same
  have first := @digitsAt_text (image m) (fun d there => image_digits there) _ stops
  have second := @digitsAt_text (image n) (fun d there => image_digits there) _ stops'
  rw [behind] at first
  refine ⟨signs, image_inj ?_, ?_⟩
  · rw [← first.1, second.1]
  · rw [← first.2, second.2]

theorem point_stops (ds : List Nat) (d : Nat) :
    NoDigit (if 0 < d then 46 :: digitBytes ds else []) := by
  intro c head
  split at head
  · cases head
    rfl
  · cases head

theorem decimalText_shape (n : Int) (d : Nat) :
    decimalText n d =
      (if decide (n < 0) then [45] else []) ++ digitBytes (image (n.natAbs / 10 ^ d)) ++
      if 0 < d then 46 :: digitBytes (padded d (n.natAbs % 10 ^ d)) else [] := by
  unfold decimalText signText
  simp only [decide_eq_true_eq]

theorem padded_inj (same : padded d m = padded d n) : m % 10 ^ d = n % 10 ^ d := by
  have first := padded_value d m 0
  have second := padded_value d n 0
  rw [Nat.zero_mul, Nat.zero_add] at first second
  rw [← first, same, second]

theorem point_inj (same : (if 0 < d then 46 :: digitBytes (padded d m) else []) =
    if 0 < d then (46 : UInt8) :: digitBytes (padded d n) else []) : m % 10 ^ d = n % 10 ^ d := by
  rcases Nat.eq_zero_or_pos d with rfl | positive
  · rw [pow_zero, Nat.mod_one, Nat.mod_one]
  · rw [if_pos positive, if_pos positive, List.cons.injEq] at same
    exact padded_inj (digitBytes_inj (fun e there => padded_digits there)
      (fun e there => padded_digits there) same.2)

theorem decimalText_inj {m n : Int} (same : decimalText m d = decimalText n d) : m = n := by
  rw [decimalText_shape, decimalText_shape] at same
  obtain ⟨signs, whole, points⟩ := text_parts (point_stops _ d) (point_stops _ d) same
  have left := point_inj points
  rw [Nat.mod_mod, Nat.mod_mod] at left
  have size : m.natAbs = n.natAbs := by
    rw [← Nat.div_add_mod m.natAbs (10 ^ d), whole, left, Nat.div_add_mod]
  rw [decide_eq_decide] at signs
  omega

theorem rounded_integer {u : Nat} (word : u ≤ 2 ^ 63) (wide : 19 ≤ s) :
    roundedMag u s d / 10 ^ d = 0 ∨ roundedMag u s d / 10 ^ d = 1 ∧ 5 * 10 ^ 18 ≤ u := by
  have power : 10 ^ 19 ≤ 10 ^ s := Nat.pow_le_pow_right (by omega) wide
  unfold roundedMag
  split
  · rename_i le
    have split_power : 10 ^ d = 10 ^ (d - s) * 10 ^ s := by rw [← pow_add, Nat.sub_add_cancel le]
    rw [split_power, ← Nat.div_div_eq_div_mul, Nat.mul_div_cancel _ (by positivity),
      Nat.div_eq_of_lt (by omega)]
    exact Or.inl rfl
  · rename_i less
    have split_power : 10 ^ s = 10 ^ (s - d) * 10 ^ d := by
      rw [← pow_add, Nat.sub_add_cancel (by omega)]
    have half : 5 * 10 ^ (s - d - 1) ≤ 5 * 10 ^ (s - 1) :=
      Nat.mul_le_mul_left _ (Nat.pow_le_pow_right (by omega) (by omega))
    have twice := half_power (show 0 < s by omega)
    have low : 10 ^ 18 ≤ 10 ^ (s - 1) := Nat.pow_le_pow_right (by omega) (by omega)
    rw [Nat.div_div_eq_div_mul, ← split_power]
    rcases Nat.lt_or_ge (u + 5 * 10 ^ (s - d - 1)) (10 ^ s) with small | large
    · exact Or.inl (Nat.div_eq_of_lt small)
    · refine Or.inr ⟨Nat.div_eq_of_lt_le (by omega) (by omega), by omega⟩

theorem roundFraction_integer {ip fr ip' fr' : Nat} {scale d : Int}
    (found : roundFraction ip fr scale d = some (ip', fr')) : ip ≤ ip' := by
  unfold roundFraction at found
  dsimp only at found
  split at found
  · cases found
  · rw [Option.some.injEq] at found
    obtain ⟨q, count⟩ : ∃ q, q = if timesTen (scale - d).toNat 1 ≤
        fr % timesTen (scale - d).toNat 1 * 2 % 2 ^ 64 then fr / timesTen (scale - d).toNat 1 + 1
      else fr / timesTen (scale - d).toNat 1 := ⟨_, rfl⟩
    rw [← count] at found
    split at found
    · cases found
      omega
    · cases found
      exact le_refl _

theorem putEditFixed_wrong (fits : Fits 64 v) {s d : Nat} (few : d ≤ 60)
    (text : putEditFixed v s d = some (decimalText (rounded v s d) d)) :
    s ≤ 18 ∨ v.natAbs < 10 ^ 18 ∧ min s d ≤ 20 ∧
      (20 ≤ (s : Int) - d → v.natAbs * 2 < 10 ^ (s - d) % 2 ^ 64) := by
  obtain ⟨u, size⟩ : ∃ u, u = v.natAbs := ⟨_, rfl⟩
  have word : u ≤ 2 ^ 63 := by
    unfold Fits at fits
    omega
  rcases Nat.lt_or_ge 18 s with wide | narrow
  · right
    have least : min s 18 = 18 := by omega
    rw [putEditFixed_parts few, rounded_eq, ← size, least] at text
    rw [← size]
    -- the parts that were printed
    have printed : ∃ ip fr point,
        (if d < s then roundFraction (u / 10 ^ 18) (u % 10 ^ 18) s d
          else some (u / 10 ^ 18, u % 10 ^ 18)) = some (ip, fr) ∧
        pointPart fr s d = some point ∧
        (if v < 0 ∧ (ip ≠ 0 ∨ fr ≠ 0) then [45] else []) ++ digitBytes (image ip) ++ point =
          decimalText (if v < 0 then -(roundedMag u s d : Int) else roundedMag u s d) d := by
      rw [Option.bind_eq_some_iff] at text
      obtain ⟨⟨ip, fr⟩, parts, text⟩ := text
      rw [Option.map_eq_some_iff] at text
      obtain ⟨point, shown, same⟩ := text
      exact ⟨ip, fr, point, parts, shown, same⟩
    obtain ⟨ip, fr, point, parts, shown, same⟩ := printed
    have digits : min s d ≤ 20 := by
      by_contra many
      rw [pointPart_none fr few (by omega)] at shown
      cases shown
    rw [pointPart_eq fr few digits, Option.some.injEq] at shown
    have abs : (if v < 0 then -(roundedMag u s d : Int) else roundedMag u s d).natAbs =
        roundedMag u s d := by split <;> omega
    have sign : (if v < 0 ∧ (ip ≠ 0 ∨ fr ≠ 0) then [(45 : UInt8)] else []) =
        if decide (v < 0 ∧ (ip ≠ 0 ∨ fr ≠ 0)) then [45] else [] := by
      simp only [decide_eq_true_eq]
    rw [← shown, decimalText_shape, abs, sign] at same
    obtain ⟨-, whole, points⟩ := text_parts (point_stops _ d) (point_stops _ d) same
    have grown : u / 10 ^ 18 ≤ ip := by
      split at parts
      · exact roundFraction_integer parts
      · cases parts
        exact le_refl _
    have small : u < 10 ^ 18 := by
      rcases rounded_integer word wide (d := d) with none | ⟨one, large⟩
      · omega
      · omega
    refine ⟨small, digits, fun far => ?_⟩
    rw [if_pos (by omega), Nat.div_eq_of_lt small, Nat.mod_eq_of_lt small] at parts
    have none : roundedMag u s d = 0 := by
      have twice := half_power (show 0 < s - d by omega)
      have power : 10 ^ 19 ≤ 10 ^ (s - d - 1) := Nat.pow_le_pow_right (by omega) (by omega)
      rw [roundedMag, if_neg (by omega), Nat.div_eq_of_lt (by omega)]
    rw [none, Nat.zero_div] at whole
    have left := (roundFraction_wrapped (by omega) (by omega) small).2 ip fr parts whole
    apply left.2
    have no_digit := point_inj points
    have least_d : min s d = d := by omega
    rw [none, Nat.zero_mod, Nat.zero_mod, least_d, Nat.sub_self, pow_zero, Nat.mul_one,
      Nat.mod_eq_of_lt left.1] at no_digit
    exact no_digit
  · exact Or.inl narrow

theorem rounded_whole (v : Int) (d : Nat) : rounded v 0 d = v * 10 ^ d := by
  have whole : (v : ℚ) * 10 ^ (-(0 : Int)) * 10 ^ d = ((v * 10 ^ d : Int) : ℚ) := by
    push_cast
    simp
  rw [rounded, whole, roundAway_intCast]

theorem whole_text_iff {w : Int} (d : Nat) :
    decimalText (rounded v 0 d) d = decimalText (rounded w 0 d) d ↔ v = w := by
  constructor
  · intro same
    have products := decimalText_inj same
    rw [rounded_whole, rounded_whole] at products
    exact Int.eq_of_mul_eq_mul_right (by positivity) products
  · intro same
    rw [same]

theorem word_whole_iff (n : Int) : word 64 n = n ↔ Fits 64 n := by
  constructor
  · intro same
    rw [← same]
    exact word_fits (by omega) n
  · exact word_of_fits (by omega)

theorem word_multiplied (v : Int) (k : Nat) :
    word 64 (v * word 64 (timesTen k 1)) = word 64 (v * 10 ^ k) := by
  rw [word_mul_word (le_refl _), power_word, word_eq_iff]
  refine Int.ModEq.mul_left v ?_
  push_cast
  exact Int.mod_modEq _ _

theorem putEditFixed_negative {scale : Int} (negative : scale < 0) (d : Nat) :
    putEditFixed v scale d = putEditFixed (word 64 (v * 10 ^ (-scale).toNat)) 0 d := by
  have again : word 64 (v * word 64 (timesTen (-scale).toNat 1)) =
      word 64 (v * 10 ^ (-scale).toNat) :=
    word_multiplied v _
  unfold putEditFixed
  simp only [if_pos negative, again, lt_self_iff_false, if_false]

theorem editFixed_iff (fits : Fits 64 v) (scale : Int) {d : Nat} (few : d ≤ 60) :
    putEditFixed v scale d = some (decimalText (rounded v scale d) d) ↔ Holds v scale d := by
  rcases Int.lt_or_le scale 0 with negative | nonneg
  · obtain ⟨k, up⟩ : ∃ k : Nat, k = (-scale).toNat := ⟨_, rfl⟩
    have due : rounded v scale d = rounded (v * 10 ^ k) 0 d := by
      rw [← rounded_shift, show (0 : Int) - k = scale by omega]
    have whole := @putEditFixed_right (word 64 (v * 10 ^ k)) 0 d few (Or.inl (by omega))
    rw [Nat.cast_zero] at whole
    rw [putEditFixed_negative negative, ← up, due, whole, Option.some.injEq, whole_text_iff,
      word_whole_iff, Holds, if_pos negative, up]
  · obtain ⟨s, rfl⟩ : ∃ s : Nat, scale = s := ⟨scale.toNat, by omega⟩
    have power : ((s : Int) - d).toNat = s - d := by omega
    have least : min (s : Int) d ≤ 20 ↔ min s d ≤ 20 := by omega
    have low : (s : Int) ≤ 18 ↔ s ≤ 18 := by omega
    rw [Holds, if_neg (by omega), power, least, low]
    exact ⟨putEditFixed_wrong fits few, putEditFixed_right few⟩

theorem roundAway_near (x : ℚ) : x - 1 / 2 ≤ roundAway x ∧ (roundAway x : ℚ) ≤ x + 1 / 2 := by
  unfold roundAway
  split
  · have low := Int.floor_le (-x + 1 / 2)
    have high := Int.lt_floor_add_one (-x + 1 / 2)
    push_cast
    constructor <;> linarith
  · have low := Int.floor_le (x + 1 / 2)
    have high := Int.lt_floor_add_one (x + 1 / 2)
    constructor <;> linarith

theorem rounded_apart {w : Int} (narrow : s ≤ 18) (far : v + 2 ^ 64 ≤ w) :
    rounded v s d ≠ rounded w s d := by
  intro same
  obtain ⟨unit, scaling⟩ : ∃ unit : ℚ, unit = 10 ^ (-(s : Int)) * 10 ^ d := ⟨_, rfl⟩
  have low : (1 : ℚ) / 10 ^ 18 ≤ unit := by
    have one : (1 : ℚ) ≤ 10 ^ d := one_le_pow₀ (by norm_num)
    have inverse : (1 : ℚ) / 10 ^ 18 ≤ 10 ^ (-(s : Int)) := by
      rw [zpow_neg, zpow_natCast, one_div]
      exact inv_anti₀ (by positivity) (pow_le_pow_right₀ (by norm_num) narrow)
    have nonneg : (0 : ℚ) ≤ 10 ^ (-(s : Int)) := by positivity
    rw [scaling]
    nlinarith
  have first := roundAway_near ((v : ℚ) * unit)
  have second := roundAway_near ((w : ℚ) * unit)
  unfold rounded at same
  rw [mul_assoc, mul_assoc, ← scaling] at same
  rw [same] at first
  have apart : (v : ℚ) + 2 ^ 64 ≤ w := by exact_mod_cast far
  have product : ((v : ℚ) + 2 ^ 64) * unit ≤ w * unit := by
    refine mul_le_mul_of_nonneg_right apart ?_
    exact le_trans (by norm_num) low
  have gap : (2 : ℚ) ≤ 2 ^ 64 * unit := by
    have scaled := mul_le_mul_of_nonneg_left low (show (0 : ℚ) ≤ 2 ^ 64 by positivity)
    refine le_trans ?_ scaled
    norm_num
  linarith [first.1, first.2, second.1, second.2]

theorem word_apart {n : Int} (wrapped : ¬ Fits 64 n) :
    word 64 n + 2 ^ 64 ≤ n ∨ n + 2 ^ 64 ≤ word 64 n := by
  have range := word_fits (show 0 < 64 by omega) n
  have differs : word 64 n ≠ n := fun same => wrapped ((word_whole_iff n).mp same)
  obtain ⟨k, shift⟩ := (word_mod_eq 64 n).dvd
  have some_turn : k ≠ 0 := by
    rintro rfl
    omega
  omega

theorem grown_iff (n : Int) (k : Nat) : n = n * 10 ^ (k + 1) ↔ n = 0 := by
  constructor
  · intro same
    have power : (10 : Int) ≤ 10 ^ (k + 1) := by
      rw [pow_succ]
      have positive : (0 : Int) < 10 ^ k := by positivity
      omega
    by_contra nonzero
    have one := mul_left_cancel₀ nonzero ((mul_one n).trans same)
    omega
  · rintro rfl
    rw [zero_mul]

theorem word_grown_iff (n : Int) (k : Nat) : word 64 n = n * 10 ^ (k + 1) ↔ n = 0 := by
  constructor
  · intro same
    have kept : Fits 64 n := by
      have range := word_fits (show 0 < 64 by omega) n
      rw [same] at range
      exact fits_of_mul (by positivity) range
    rw [word_of_fits (by omega) kept] at same
    exact (grown_iff n k).mp same
  · rintro rfl
    rw [zero_mul]
    rfl

theorem editFixedScaled_iff (fits : Fits 64 v) (scale fscale : Int) {d : Nat}
    (few : d ≤ 60) (kept : 0 ≤ fscale → 19 ≤ scale → Fits 64 (v * 10 ^ fscale.toNat)) :
    putEditFixedScaled v scale fscale d = some (decimalText (rounded v (scale - fscale) d) d) ↔
      HoldsScaled v scale fscale d := by
  rcases Int.lt_or_le fscale 0 with down | up
  · have least : min fscale 0 = fscale := by omega
    unfold putEditFixedScaled HoldsScaled
    simp only [least, if_neg (show ¬ 0 ≤ fscale by omega)]
    rcases Int.lt_or_le (scale - fscale) 0 with negative | nonneg
    · obtain ⟨k, step⟩ : ∃ k : Nat, scale - fscale = 0 - (k + 1 : Nat) :=
        ⟨(fscale - scale - 1).toNat, by omega⟩
      have whole := @putEditFixed_right v 0 d few (Or.inl (by omega))
      rw [Nat.cast_zero] at whole
      rw [if_pos negative, if_pos negative, whole, step, rounded_shift, Option.some.injEq,
        whole_text_iff, grown_iff]
    · rw [if_neg (by omega), if_neg (by omega)]
      exact editFixed_iff fits (scale - fscale) few
  · have least : min fscale 0 = 0 := by omega
    have product : timesTen64 fscale.toNat v = word 64 (v * 10 ^ fscale.toNat) := by
      rw [← timesTen64_word, word_of_fits (by omega) fits]
    obtain ⟨f, factor⟩ : ∃ f : Nat, fscale = f := ⟨fscale.toNat, by omega⟩
    subst factor
    rw [Int.toNat_natCast] at product kept
    unfold putEditFixedScaled HoldsScaled
    simp only [least, if_pos up, Int.toNat_natCast, product, sub_zero]
    rw [rounded_shift]
    rcases Int.lt_or_le scale 0 with negative | nonneg
    · obtain ⟨k, step⟩ : ∃ k : Nat, scale = 0 - (k + 1 : Nat) := ⟨(-scale - 1).toNat, by omega⟩
      have whole := @putEditFixed_right (word 64 (v * 10 ^ f)) 0 d few (Or.inl (by omega))
      rw [Nat.cast_zero] at whole
      have power : (10 : Int) ^ f ≠ 0 := by positivity
      rw [if_pos negative, if_pos negative, whole, step, rounded_shift, Option.some.injEq,
        whole_text_iff, word_grown_iff, mul_eq_zero, or_iff_left power]
    · rw [if_neg (by omega), if_neg (by omega)]
      by_cases whole : Fits 64 (v * 10 ^ f)
      · rw [word_of_fits (by omega) whole, editFixed_iff whole scale few]
        exact ⟨fun holds => ⟨whole, holds⟩, fun both => both.2⟩
      · have narrow : scale ≤ 18 := by
          by_contra wide
          exact whole (kept (by omega) (by omega))
        obtain ⟨s, rfl⟩ : ∃ s : Nat, scale = s := ⟨scale.toNat, by omega⟩
        have shown := @putEditFixed_right (word 64 (v * 10 ^ f)) s d few (Or.inl (by omega))
        rw [shown, Option.some.injEq]
        refine ⟨fun same => ?_, fun both => absurd both.1 whole⟩
        have equal := decimalText_inj same
        rcases word_apart whole with below | above
        · exact absurd equal (rounded_apart (by omega) below)
        · exact absurd equal.symm (rounded_apart (by omega) above)

/-- The text is the rounded value just where no power or product wraps. -/
theorem edit_fixed_exact_iff (v scale : Int) (d : Nat) (fits : Fits 64 v) (few : d ≤ 60) :
    (putEditFixed v scale d = some (decimalText (rounded v scale d) d) ↔ Holds v scale d) ∧
      ∀ fscale : Int,
        (HoldsScaled v scale fscale d →
          putEditFixedScaled v scale fscale d =
            some (decimalText (rounded v (scale - fscale) d) d)) ∧
        ((0 ≤ fscale → 19 ≤ scale → Fits 64 (v * 10 ^ fscale.toNat)) →
          putEditFixedScaled v scale fscale d =
            some (decimalText (rounded v (scale - fscale) d) d) →
          HoldsScaled v scale fscale d) := by
  refine ⟨editFixed_iff fits scale few, fun fscale => ⟨fun holds => ?_, fun kept => ?_⟩⟩
  · refine (editFixedScaled_iff fits scale fscale few ?_).mpr holds
    intro up wide
    have least : min fscale 0 = 0 := by omega
    rw [HoldsScaled, if_neg (by omega), if_pos up] at holds
    exact holds.1
  · exact (editFixedScaled_iff fits scale fscale few kept).mp

/-- -12.345 to two digits, and 5 at scale -2 with the factor -3. -/
theorem edit_fixed_rounds :
    putEditFixed (-12345) 3 2 = some (decimalText (-1235) 2) ∧
      putEditFixedScaled 5 (-2) (-3) 1 = some (decimalText 5 1) := by
  have first : rounded (-12345) 3 2 = -1235 := by decide +kernel
  have second : rounded 5 (-2 - -3) 1 = 5 := by decide +kernel
  have exact := edit_fixed_exact_iff (-12345) 3 2 (by decide) (by decide)
  have scaled := (edit_fixed_exact_iff 5 (-2) 1 (by decide) (by decide)).2 (-3)
  rw [first] at exact
  rw [second] at scaled
  exact ⟨exact.1.mpr (by decide), scaled.1 (by decide)⟩

/-- A value of scale 21 printed with 21 digits divides by zero, and 1 at scale -2 loses its
    hundreds under a scale factor. -/
theorem edit_fixed_misplaced :
    putEditFixed 1 21 21 = none ∧ rounded 1 21 21 = 1 ∧
      putEditFixedScaled 1 (-2) 0 0 = some (decimalText 1 0) ∧ rounded 1 (-2 - 0) 0 = 100 := by
  decide +kernel

end PliEditFixed
