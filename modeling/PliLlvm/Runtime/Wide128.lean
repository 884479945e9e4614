import PliLlvm.Lib.Limbs
import PliLlvm.Lib.Block

/- The portable 128-bit integers (runtime/pli_wide128.h), as built where the compiler has
   no __int128: a pair of 64-bit words, the high one signed in PliI128. The conversions to
   double and to 64 bits are left out. -/
namespace PliWide128
open Limbs Blocks

structure PliU128 where
  lo : UInt64
  hi : UInt64

structure PliI128 where
  lo : UInt64
  hi : Int64

def PliU128.toNat (v : PliU128) : Nat := v.lo.toNat + 2 ^ 64 * v.hi.toNat

def PliI128.toInt (v : PliI128) : Int := v.lo.toNat + 2 ^ 64 * v.hi.toInt

def pliU128 (lo hi : UInt64) : PliU128 := ⟨lo, hi⟩

def pliIszeroU (v : PliU128) : Bool := v.lo == 0 && v.hi == 0

def pliIszeroS (v : PliI128) : Bool := v.lo == 0 && v.hi == 0

def pliIsnegS (v : PliI128) : Bool := v.hi < 0

def pliToU (v : PliI128) : PliU128 := ⟨v.lo, v.hi.toUInt64⟩

def pliToS (v : PliU128) : PliI128 := ⟨v.lo, v.hi.toInt64⟩

def pliAddU (a b : PliU128) : PliU128 :=
  let lo := a.lo + b.lo
  ⟨lo, a.hi + b.hi + if lo < a.lo then 1 else 0⟩

def pliSubU (a b : PliU128) : PliU128 :=
  ⟨a.lo - b.lo, a.hi - b.hi - if a.lo < b.lo then 1 else 0⟩

def pliNegU (v : PliU128) : PliU128 :=
  ⟨0 - v.lo, 0 - v.hi - if v.lo ≠ 0 then 1 else 0⟩

def pliCmpU (a b : PliU128) : Int :=
  if a.hi ≠ b.hi then if a.hi < b.hi then -1 else 1
  else if a.lo ≠ b.lo then if a.lo < b.lo then -1 else 1
  else 0

/-- One turn of the outer loop of pli_mul_u: `r` is the part of the result from `r[i]` on,
    so the inner loop stops where the result does. -/
def mulRow (x : UInt32) : List UInt32 → List UInt32 → UInt64 → List UInt32
  | y :: ys, r :: rs, carry =>
    let p := x.toUInt64 * y.toUInt64
    let t := r.toUInt64 + (p &&& 0xFFFFFFFF) + carry
    t.toUInt32 :: mulRow x ys rs ((t >>> 32) + (p >>> 32))
  | _, rs, _ => rs

def mulRows : List UInt32 → List UInt32 → List UInt32 → List UInt32
  | x :: xs, y, r =>
    match mulRow x y r 0 with
    | first :: rest => first :: mulRows xs y rest
    | [] => []
  | [], _, r => r

def quarters (v : PliU128) : List UInt32 :=
  [v.lo.toUInt32, (v.lo >>> 32).toUInt32, v.hi.toUInt32, (v.hi >>> 32).toUInt32]

def pliMulU (a b : PliU128) : PliU128 :=
  let r := mulRows (quarters a) (quarters b) [0, 0, 0, 0]
  let at_ (k : Nat) : UInt64 := (r.getD k 0).toUInt64
  ⟨(at_ 1 <<< 32) ||| at_ 0, (at_ 3 <<< 32) ||| at_ 2⟩

/-- The variables of pli_divmod_u's loop. -/
structure DivVars where
  qlo : UInt64
  qhi : UInt64
  rlo : UInt64
  rhi : UInt64
  carry : UInt64

def DivVars.q (v : DivVars) : PliU128 := pliU128 v.qlo v.qhi

def DivVars.r (v : DivVars) : PliU128 := pliU128 v.rlo v.rhi

def divShift (n : PliU128) (i : Nat) (v : DivVars) : DivVars :=
  let bit := (if 64 ≤ i then n.hi >>> UInt64.ofNat (i - 64) else n.lo >>> UInt64.ofNat i) &&& 1
  { v with
    carry := v.rhi >>> 63
    rhi := (v.rhi <<< 1) ||| (v.rlo >>> 63)
    rlo := (v.rlo <<< 1) ||| bit }

def divSubtract (d : PliU128) (i : Nat) (v : DivVars) : DivVars :=
  let b0 : UInt64 := if v.rlo < d.lo then 1 else 0
  let b1 : UInt64 := if v.rhi < d.hi ∨ (b0 ≠ 0 ∧ v.rhi = d.hi) then 1 else 0
  { qlo := if 64 ≤ i then v.qlo else v.qlo ||| (1 <<< UInt64.ofNat i)
    qhi := if 64 ≤ i then v.qhi ||| (1 <<< UInt64.ofNat (i - 64)) else v.qhi
    rlo := v.rlo - d.lo
    rhi := v.rhi - d.hi - b0
    carry := v.carry - b1 }

def divTurn (n d : PliU128) (i : Nat) (v : DivVars) : DivVars :=
  let v := divShift n i v
  if v.carry ≠ 0 ∨ 0 ≤ pliCmpU v.r d then divSubtract d i v else v

/-- The turns for the bits below `i`, the highest first. -/
def divLoop (n d : PliU128) : Nat → DivVars → DivVars
  | 0, v => v
  | i + 1, v => divLoop n d i (divTurn n d i v)

def pliDivmodU (n d : PliU128) : PliU128 × PliU128 :=
  let v := divLoop n d 128 ⟨0, 0, 0, 0, 0⟩
  (v.q, v.r)

def pliNegS (v : PliI128) : PliI128 := pliToS (pliNegU (pliToU v))

def pliMagS (v : PliI128) : PliU128 := if pliIsnegS v then pliNegU (pliToU v) else pliToU v

def pliSdiv (a b : PliI128) : PliI128 :=
  if pliIszeroU (pliToU b) then pliToS (pliU128 0 0)
  else
    let neg := pliIsnegS a ^^ pliIsnegS b
    let (mag, _) := pliDivmodU (pliMagS a) (pliMagS b)
    if neg then pliNegS (pliToS mag) else pliToS mag

/- The operators the C++ sources use. -/
instance : Add PliI128 := ⟨fun a b => pliToS (pliAddU (pliToU a) (pliToU b))⟩
instance : Sub PliI128 := ⟨fun a b => pliToS (pliSubU (pliToU a) (pliToU b))⟩
instance : Neg PliI128 := ⟨pliNegS⟩
instance : Mul PliI128 := ⟨fun a b => pliToS (pliMulU (pliToU a) (pliToU b))⟩
instance : Div PliI128 := ⟨pliSdiv⟩

def eqS (a b : PliI128) : Bool := a.lo == b.lo && a.hi == b.hi

def ltS (a b : PliI128) : Bool :=
  let an := pliIsnegS a
  let bn := pliIsnegS b
  if an ≠ bn then an else pliCmpU (pliToU a) (pliToU b) < 0

def gtS (a b : PliI128) : Bool := ltS b a

def leS (a b : PliI128) : Bool := !ltS b a

def geS (a b : PliI128) : Bool := !ltS a b

theorem toNat_lt (v : PliU128) : v.toNat < 2 ^ 128 := by
  have lo := v.lo.toNat_lt
  have hi := v.hi.toNat_lt
  unfold PliU128.toNat
  omega

theorem add_toNat (a b : PliU128) : (pliAddU a b).toNat = (a.toNat + b.toNat) % 2 ^ 128 := by
  have alo := a.lo.toNat_lt
  have blo := b.lo.toNat_lt
  simp only [pliAddU, PliU128.toNat, UInt64.lt_iff_toNat_lt, UInt64.toNat_add]
  split
  · rw [show (1 : UInt64).toNat = 1 from rfl]
    omega
  · rw [show (0 : UInt64).toNat = 0 from rfl]
    omega

theorem sub_toNat (a b : PliU128) :
    (pliSubU a b).toNat = (2 ^ 128 - b.toNat + a.toNat) % 2 ^ 128 := by
  have alo := a.lo.toNat_lt
  have blo := b.lo.toNat_lt
  have ahi := a.hi.toNat_lt
  have bhi := b.hi.toNat_lt
  simp only [pliSubU, PliU128.toNat, UInt64.lt_iff_toNat_lt, UInt64.toNat_sub]
  split
  · rw [show (1 : UInt64).toNat = 1 from rfl]
    omega
  · rw [show (0 : UInt64).toNat = 0 from rfl]
    omega

theorem neg_toNat (v : PliU128) : (pliNegU v).toNat = (2 ^ 128 - v.toNat) % 2 ^ 128 := by
  have lo := v.lo.toNat_lt
  have hi := v.hi.toNat_lt
  have zero : v.lo ≠ 0 ↔ v.lo.toNat ≠ 0 := by rw [Ne, ← UInt64.toNat_inj]; rfl
  simp only [pliNegU, PliU128.toNat, zero, UInt64.toNat_sub]
  split
  · simp only [show (1 : UInt64).toNat = 1 from rfl, show (0 : UInt64).toNat = 0 from rfl]
    omega
  · simp only [show (0 : UInt64).toNat = 0 from rfl]
    omega

theorem cmp_spec (a b : PliU128) :
    pliCmpU a b = if a.toNat < b.toNat then -1 else if b.toNat < a.toNat then 1 else 0 := by
  have alo := a.lo.toNat_lt
  have blo := b.lo.toNat_lt
  simp only [pliCmpU, PliU128.toNat, Ne, ← UInt64.toNat_inj, UInt64.lt_iff_toNat_lt]
  split_ifs <;> omega

theorem word_product (x y : UInt32) :
    (x.toUInt64 * y.toUInt64).toNat = x.toNat * y.toNat ∧
      x.toNat * y.toNat ≤ (2 ^ 32 - 1) * (2 ^ 32 - 1) := by
  have xb := x.toNat_lt
  have yb := y.toNat_lt
  have bound : x.toNat * y.toNat ≤ (2 ^ 32 - 1) * (2 ^ 32 - 1) :=
    Nat.mul_le_mul (by omega) (by omega)
  refine ⟨?_, bound⟩
  rw [UInt64.toNat_mul, UInt32.toNat_toUInt64, UInt32.toNat_toUInt64, Nat.mod_eq_of_lt (by omega)]

theorem mulRow_toNat (x : UInt32) (ys rs : List UInt32) {carry : UInt64}
    (small : carry.toNat < 2 ^ 33) :
    (mulRow x ys rs carry).map UInt32.toNat =
      productRow (2 ^ 32) x.toNat (ys.map UInt32.toNat) (rs.map UInt32.toNat) carry.toNat := by
  induction rs generalizing ys carry with
  | nil => cases ys <;> simp [mulRow, productRow]
  | cons r rs ih =>
    cases ys with
    | nil => simp [mulRow, productRow]
    | cons y ys =>
      obtain ⟨product, bound⟩ := word_product x y
      have low : (x.toUInt64 * y.toUInt64 &&& 0xFFFFFFFF).toNat = x.toNat * y.toNat % 2 ^ 32 := by
        rw [UInt64.toNat_and, product, show (0xFFFFFFFF : UInt64).toNat = 2 ^ 32 - 1 from rfl,
          Nat.and_two_pow_sub_one_eq_mod]
      have limb := r.toNat_lt
      have sum : (r.toUInt64 + (x.toUInt64 * y.toUInt64 &&& 0xFFFFFFFF) + carry).toNat =
          r.toNat + x.toNat * y.toNat % 2 ^ 32 + carry.toNat := by
        simp only [UInt64.toNat_add, low, UInt32.toNat_toUInt64]
        omega
      have next : ((r.toUInt64 + (x.toUInt64 * y.toUInt64 &&& 0xFFFFFFFF) + carry) >>> 32 +
          (x.toUInt64 * y.toUInt64) >>> 32).toNat =
          (r.toNat + x.toNat * y.toNat % 2 ^ 32 + carry.toNat) / 2 ^ 32 +
            x.toNat * y.toNat / 2 ^ 32 := by
        simp only [UInt64.toNat_add, UInt64.toNat_shiftRight, sum, product,
          Nat.shiftRight_eq_div_pow,
          show (32 : UInt64).toNat % 64 = 32 from rfl]
        omega
      simp only [mulRow, List.map_cons, productRow, UInt64.toNat_toUInt32, sum]
      rw [ih ys (by rw [next]; omega), next]

theorem mulRows_toNat (xs ys rs : List UInt32) :
    (mulRows xs ys rs).map UInt32.toNat =
      productRows (2 ^ 32) (xs.map UInt32.toNat) (ys.map UInt32.toNat) (rs.map UInt32.toNat) := by
  induction xs generalizing rs with
  | nil => simp [mulRows, productRows]
  | cons x xs ih =>
    have row := mulRow_toNat x ys rs (show (0 : UInt64).toNat < 2 ^ 33 by decide)
    rw [show (0 : UInt64).toNat = 0 from rfl] at row
    simp only [mulRows, List.map_cons, productRows, ← row]
    cases mulRow x ys rs 0 with
    | nil => rfl
    | cons first rest => simp [ih]

theorem mulRows_length (xs ys rs : List UInt32) : (mulRows xs ys rs).length = rs.length := by
  induction xs generalizing rs with
  | nil => simp [mulRows]
  | cons x xs ih =>
    have row := congrArg List.length
      (mulRow_toNat x ys rs (show (0 : UInt64).toNat < 2 ^ 33 by decide))
    rw [productRow_length, List.length_map, List.length_map] at row
    simp only [mulRows]
    cases result : mulRow x ys rs 0 with
    | nil => rw [result] at row; simpa using row
    | cons first rest => rw [result] at row; simpa [ih] using row

theorem quarters_value (v : PliU128) :
    Nat.ofDigits (2 ^ 32) ((quarters v).map UInt32.toNat) = v.toNat := by
  have lo := v.lo.toNat_lt
  have hi := v.hi.toNat_lt
  simp only [quarters, List.map_cons, List.map_nil, Nat.ofDigits_cons, Nat.ofDigits_nil,
    UInt64.toNat_toUInt32, UInt64.toNat_shiftRight, Nat.shiftRight_eq_div_pow, PliU128.toNat,
    show (32 : UInt64).toNat % 64 = 32 from rfl]
  omega

theorem join_halves (high low : UInt32) :
    ((high.toUInt64 <<< 32) ||| low.toUInt64).toNat = low.toNat + 2 ^ 32 * high.toNat := by
  have hb := high.toNat_lt
  have lb := low.toNat_lt
  rw [UInt64.toNat_or, UInt64.toNat_shiftLeft, UInt32.toNat_toUInt64, UInt32.toNat_toUInt64,
    show (32 : UInt64).toNat % 64 = 32 from rfl, Nat.shiftLeft_eq, Nat.mod_eq_of_lt (by omega),
    Nat.mul_comm, ← Nat.two_pow_add_eq_or_of_lt lb, Nat.add_comm]

theorem mul_toNat (a b : PliU128) : (pliMulU a b).toNat = (a.toNat * b.toNat) % 2 ^ 128 := by
  have length := mulRows_length (quarters a) (quarters b) [0, 0, 0, 0]
  have value := @productRows_value (2 ^ 32) ((quarters a).map UInt32.toNat)
    ((quarters b).map UInt32.toNat) (List.map UInt32.toNat [0, 0, 0, 0]) (by simp [quarters])
  rw [← mulRows_toNat, quarters_value, quarters_value] at value
  obtain ⟨r0, r1, r2, r3, result⟩ := List.length_eq_four.mp length
  have halves : (pliMulU a b).toNat =
      r0.toNat + 2 ^ 32 * r1.toNat + 2 ^ 64 * (r2.toNat + 2 ^ 32 * r3.toNat) := by
    simp only [pliMulU, result, PliU128.toNat, List.getD_cons_zero,
      List.getD_cons_succ, join_halves]
  have b0 := r0.toNat_lt
  have b1 := r1.toNat_lt
  have b2 := r2.toNat_lt
  have b3 := r3.toNat_lt
  rw [result] at value
  simp only [List.map_cons, List.map_nil, Nat.ofDigits_cons, Nat.ofDigits_nil, List.length_cons,
    List.length_nil, show (0 : UInt32).toNat = 0 from rfl, Nat.ModEq] at value
  rw [halves]
  omega

theorem shift_in (w : UInt64) {b : UInt64} (bit : b.toNat < 2) :
    ((w <<< 1) ||| b).toNat = 2 * w.toNat % 2 ^ 64 + b.toNat := by
  have even : 2 * w.toNat % 2 ^ 64 = 2 ^ 1 * (w.toNat % 2 ^ 63) := by omega
  rw [UInt64.toNat_or, UInt64.toNat_shiftLeft, show (1 : UInt64).toNat % 64 = 1 from rfl,
    Nat.shiftLeft_eq, Nat.mul_comm, pow_one, even, ← Nat.two_pow_add_eq_or_of_lt bit]

theorem set_bit {w : UInt64} {j : Nat} (inside : j < 64) (clear : 2 ^ (j + 1) ∣ w.toNat) :
    (w ||| (1 <<< UInt64.ofNat j)).toNat = w.toNat + 2 ^ j := by
  obtain ⟨k, multiple⟩ := clear
  have small : 2 ^ j < 2 ^ 64 := Nat.pow_lt_pow_right (by decide) inside
  have shifted : ((1 : UInt64) <<< UInt64.ofNat j).toNat = 2 ^ j := by
    rw [UInt64.toNat_shiftLeft, UInt64.toNat_ofNat', Nat.mod_eq_of_lt (by omega : j < 2 ^ 64),
      Nat.mod_eq_of_lt inside, show (1 : UInt64).toNat = 1 from rfl, Nat.one_shiftLeft,
      Nat.mod_eq_of_lt small]
  rw [UInt64.toNat_or, shifted, multiple,
    ← Nat.two_pow_add_eq_or_of_lt (Nat.pow_lt_pow_right (by decide) (Nat.lt_succ_self j))]

theorem shift_down {w : UInt64} {j : Nat} (inside : j < 64) :
    ((w >>> UInt64.ofNat j) &&& 1).toNat = w.toNat / 2 ^ j % 2 := by
  rw [UInt64.toNat_and, UInt64.toNat_shiftRight, UInt64.toNat_ofNat',
    Nat.mod_eq_of_lt (by omega : j < 2 ^ 64), Nat.mod_eq_of_lt inside, Nat.shiftRight_eq_div_pow,
    show (1 : UInt64).toNat = 2 ^ 1 - 1 from rfl, Nat.and_two_pow_sub_one_eq_mod, pow_one]

theorem dividend_bit (n : PliU128) {i : Nat} (inside : i < 128) :
    ((if 64 ≤ i then n.hi >>> UInt64.ofNat (i - 64) else n.lo >>> UInt64.ofNat i) &&& 1).toNat =
      n.toNat / 2 ^ i % 2 := by
  have lo := n.lo.toNat_lt
  by_cases high : 64 ≤ i
  · rw [if_pos high, shift_down (by omega)]
    obtain ⟨j, rfl⟩ := Nat.exists_eq_add_of_le high
    rw [PliU128.toNat, Nat.pow_add, ← Nat.div_div_eq_div_mul, Nat.add_mul_div_left _ _ (by decide),
      Nat.div_eq_of_lt lo, Nat.zero_add, Nat.add_sub_cancel_left]
  · rw [if_neg high, shift_down (by omega)]
    obtain ⟨j, split⟩ := Nat.exists_eq_add_of_le (by omega : i + 1 ≤ 64)
    have spread : 2 ^ 64 * n.hi.toNat = 2 ^ i * (2 * (2 ^ j * n.hi.toNat)) := by
      rw [split]
      ring
    rw [PliU128.toNat, spread, Nat.add_mul_div_left _ _ (Nat.two_pow_pos i),
      Nat.add_mul_mod_self_left]

theorem shift_spec (n : PliU128) {i : Nat} (inside : i < 128) (v : DivVars) :
    (divShift n i v).r.toNat + 2 ^ 128 * (divShift n i v).carry.toNat =
      2 * v.r.toNat + n.toNat / 2 ^ i % 2 := by
  have top : (v.rlo >>> 63).toNat = v.rlo.toNat / 2 ^ 63 := by
    rw [UInt64.toNat_shiftRight, Nat.shiftRight_eq_div_pow]
    rfl
  have carried : (v.rhi >>> 63).toNat = v.rhi.toNat / 2 ^ 63 := by
    rw [UInt64.toNat_shiftRight, Nat.shiftRight_eq_div_pow]
    rfl
  have lo := v.rlo.toNat_lt
  have hi := v.rhi.toNat_lt
  have bit := dividend_bit n inside
  have small : n.toNat / 2 ^ i % 2 < 2 := Nat.mod_lt _ (by decide)
  have low := shift_in v.rlo (bit.trans_lt small)
  have high := shift_in v.rhi (top.trans_lt (by omega))
  rw [bit] at low
  rw [top] at high
  have value : (divShift n i v).r.toNat = 2 * v.rlo.toNat % 2 ^ 64 + n.toNat / 2 ^ i % 2 +
      2 ^ 64 * (2 * v.rhi.toNat % 2 ^ 64 + v.rlo.toNat / 2 ^ 63) := by
    rw [← low, ← high]
    rfl
  have before : v.r.toNat = v.rlo.toNat + 2 ^ 64 * v.rhi.toNat := rfl
  rw [value, before, show (divShift n i v).carry = v.rhi >>> 63 from rfl, carried]
  omega

theorem subtract_remainder (d : PliU128) (i : Nat) {v : DivVars}
    (reached : d.toNat ≤ v.r.toNat + 2 ^ 128 * v.carry.toNat)
    (below : v.r.toNat + 2 ^ 128 * v.carry.toNat < d.toNat + 2 ^ 128) :
    (divSubtract d i v).r.toNat = v.r.toNat + 2 ^ 128 * v.carry.toNat - d.toNat := by
  have rlo := v.rlo.toNat_lt
  have rhi := v.rhi.toNat_lt
  have dlo := d.lo.toNat_lt
  have dhi := d.hi.toNat_lt
  simp only [DivVars.r, pliU128, PliU128.toNat] at reached below
  simp only [divSubtract, DivVars.r, pliU128, PliU128.toNat, UInt64.toNat_sub,
    UInt64.lt_iff_toNat_lt]
  split
  · rw [show (1 : UInt64).toNat = 1 from rfl]
    omega
  · rw [show (0 : UInt64).toNat = 0 from rfl]
    omega

theorem subtract_quotient (d : PliU128) {i : Nat} (inside : i < 128) {v : DivVars}
    (clear : 2 ^ (i + 1) ∣ v.q.toNat) :
    (divSubtract d i v).q.toNat = v.q.toNat + 2 ^ i := by
  have lo := v.qlo.toNat_lt
  simp only [DivVars.q, pliU128, PliU128.toNat] at clear
  simp only [divSubtract, DivVars.q, pliU128, PliU128.toNat]
  by_cases high : 64 ≤ i
  · obtain ⟨j, rfl⟩ := Nat.exists_eq_add_of_le high
    have empty : v.qlo.toNat = 0 := by
      have := (Nat.dvd_add_left (Dvd.intro _ rfl)).mp
        (Nat.dvd_trans (Nat.pow_dvd_pow 2 (by omega : 64 ≤ 64 + j + 1)) clear)
      exact Nat.eq_zero_of_dvd_of_lt this lo
    rw [empty, Nat.zero_add, Nat.add_assoc, Nat.pow_add] at clear
    have upper := Nat.dvd_of_mul_dvd_mul_left (by decide) clear
    simp only [if_pos high, Nat.add_sub_cancel_left, set_bit (by omega) upper]
    rw [Nat.pow_add]
    omega
  · have lower : 2 ^ (i + 1) ∣ v.qlo.toNat := by
      refine (Nat.dvd_add_left ?_).mp clear
      exact Nat.dvd_trans (Nat.pow_dvd_pow 2 (by omega : i + 1 ≤ 64)) (Dvd.intro _ rfl)
    simp only [if_neg high, set_bit (by omega) lower]
    omega

theorem reached_iff (d : PliU128) (v : DivVars) :
    (v.carry ≠ 0 ∨ 0 ≤ pliCmpU v.r d) ↔ d.toNat ≤ v.r.toNat + 2 ^ 128 * v.carry.toNat := by
  have small := toNat_lt d
  have zero : v.carry ≠ 0 ↔ v.carry.toNat ≠ 0 := by
    rw [Ne, ← UInt64.toNat_inj]
    rfl
  rw [zero, cmp_spec]
  split_ifs <;> omega

theorem divLoop_divides (n d : PliU128) {i : Nat} (inside : i ≤ 128) {v : DivVars}
    (below : v.r.toNat < d.toNat) (clear : 2 ^ i ∣ v.q.toNat) :
    ((divLoop n d i v).q.toNat, (divLoop n d i v).r.toNat) =
      divide n.toNat d.toNat i v.q.toNat v.r.toNat := by
  induction i generalizing v with
  | zero => rfl
  | succ i ih =>
    have shifted := shift_spec n (by omega : i < 128) v
    have kept : (divShift n i v).q = v.q := rfl
    have bit : n.toNat / 2 ^ i % 2 < 2 := Nat.mod_lt _ (by decide)
    have room := toNat_lt d
    simp only [divLoop, divide, divTurn, reached_iff, shifted]
    split
    · rename_i reached
      have quotient := subtract_quotient d (by omega : i < 128) (v := divShift n i v) clear
      have remainder := subtract_remainder d i (v := divShift n i v) (by omega) (by omega)
      rw [kept] at quotient
      rw [shifted] at remainder
      rw [← quotient, ← remainder]
      apply ih (by omega)
      · omega
      · rw [quotient]
        exact Nat.dvd_add (Nat.dvd_trans (Nat.pow_dvd_pow 2 (Nat.le_succ i)) clear) (Nat.dvd_refl _)
    · rename_i short
      have whole : (divShift n i v).r.toNat = 2 * v.r.toNat + n.toNat / 2 ^ i % 2 := by omega
      rw [← whole, ← kept]
      apply ih (by omega)
      · omega
      · exact Nat.dvd_trans (Nat.pow_dvd_pow 2 (Nat.le_succ i)) clear

theorem divmod_toNat (n : PliU128) {d : PliU128} (nonzero : d.toNat ≠ 0) :
    (pliDivmodU n d).1.toNat = n.toNat / d.toNat ∧ (pliDivmodU n d).2.toNat =
      n.toNat % d.toNat := by
  have start := divLoop_divides n d (Nat.le_refl 128) (v := ⟨0, 0, 0, 0, 0⟩)
    (Nat.pos_of_ne_zero nonzero) (Nat.dvd_zero _)
  have front : n.toNat / 2 ^ 128 = 0 * d.toNat + 0 := by
    rw [Nat.div_eq_of_lt (toNat_lt n), Nat.zero_mul]
  have whole := divide_exact (Nat.pos_of_ne_zero nonzero) front
  rw [Nat.zero_mul] at whole
  exact Prod.mk.inj (start.trans whole)

theorem isneg_iff (v : PliI128) : pliIsnegS v = true ↔ v.toInt < 0 := by
  have lo := v.lo.toNat_lt
  simp only [pliIsnegS, PliI128.toInt, decide_eq_true_eq, Int64.lt_iff_toInt_lt,
    show (0 : Int64).toInt = 0 from rfl]
  omega

theorem hi_toUInt64 (x : Int64) : (x.toUInt64.toNat : Int) =
    x.toInt + if x.toInt < 0 then 2 ^ 64 else 0 := by
  have signed := BitVec.toInt_eq_toNat_cond x.toBitVec
  have size := x.toUInt64.toNat_lt
  rw [Int64.toNat_toBitVec] at signed
  change x.toInt = _ at signed
  rw [signed]
  split_ifs <;> omega

theorem toU_toNat (v : PliI128) :
    ((pliToU v).toNat : Int) = v.toInt + if v.toInt < 0 then 2 ^ 128 else 0 := by
  have lo := v.lo.toNat_lt
  have high := hi_toUInt64 v.hi
  simp only [pliToU, PliU128.toNat, PliI128.toInt]
  push_cast
  rw [high]
  split_ifs <;> omega

theorem toU_toS (v : PliU128) : pliToU (pliToS v) = v := rfl

theorem toInt_range (v : PliI128) : -2 ^ 127 ≤ v.toInt ∧ v.toInt < 2 ^ 127 := by
  have lo := v.lo.toNat_lt
  have low := v.hi.le_toInt
  have high := v.hi.toInt_lt
  unfold PliI128.toInt
  omega

theorem toS_toInt (v : PliU128) :
    (pliToS v).toInt = if v.toNat < 2 ^ 127 then (v.toNat : Int) else v.toNat - 2 ^ 128 := by
  have pattern := toU_toNat (pliToS v)
  have range := toInt_range (pliToS v)
  have size := toNat_lt v
  rw [toU_toS] at pattern
  rw [pattern]
  split_ifs at pattern ⊢ <;> omega

theorem toInt_inj {a b : PliI128} : a.toInt = b.toInt ↔ a = b := by
  constructor
  · intro same
    have alo := a.lo.toNat_lt
    have blo := b.lo.toNat_lt
    unfold PliI128.toInt at same
    cases a
    cases b
    simp only [PliI128.mk.injEq, ← UInt64.toNat_inj, ← Int64.toInt_inj]
    simp only at *
    omega
  · intro same
    rw [same]

theorem mag_toNat (v : PliI128) : (pliMagS v).toNat = v.toInt.natAbs := by
  have pattern := toU_toNat v
  have range := toInt_range v
  by_cases negative : v.toInt < 0
  · rw [if_pos negative] at pattern
    rw [pliMagS, if_pos ((isneg_iff v).mpr negative), neg_toNat]
    omega
  · rw [if_neg negative] at pattern
    rw [pliMagS, if_neg (fun neg => negative ((isneg_iff v).mp neg))]
    omega

theorem neg_toInt {v : PliI128} : (pliNegS v).toInt = if v.toInt =
    -2 ^ 127 then -2 ^ 127 else -v.toInt := by
  have pattern := toU_toNat v
  have range := toInt_range v
  rw [pliNegS, toS_toInt, neg_toNat]
  split_ifs at pattern ⊢ <;> omega

theorem iszero_toNat (v : PliU128) : pliIszeroU v = true ↔ v.toNat = 0 := by
  have zero : ∀ w : UInt64, w = 0 ↔ w.toNat = 0 := by
    intro w
    rw [← UInt64.toNat_inj]
    rfl
  simp only [pliIszeroU, PliU128.toNat, Bool.and_eq_true, beq_iff_eq, zero]
  omega

theorem tdiv_of_magnitudes (a b : Int) :
    a.tdiv b = if a < 0 ↔ b < 0 then ((a.natAbs / b.natAbs : Nat) : Int)
      else -((a.natAbs / b.natAbs : Nat) : Int) := by
  cases a with
  | ofNat m =>
    have pos : ¬ Int.ofNat m < 0 := by simp
    cases b with
    | ofNat n =>
      have other : ¬ Int.ofNat n < 0 := by simp
      simp only [pos, other, if_true]
      rfl
    | negSucc n =>
      have neg : Int.negSucc n < 0 := Int.negSucc_lt_zero n
      simp only [pos, neg, iff_true, if_false]
      rfl
  | negSucc m =>
    have neg : Int.negSucc m < 0 := Int.negSucc_lt_zero m
    cases b with
    | ofNat n =>
      have pos : ¬ Int.ofNat n < 0 := by simp
      simp only [neg, pos, iff_false, not_true_eq_false, if_false]
      rfl
    | negSucc n =>
      have other : Int.negSucc n < 0 := Int.negSucc_lt_zero n
      simp only [neg, other, if_true]
      rfl

theorem sdiv_toInt (a : PliI128) {b : PliI128} (nonzero : b.toInt ≠ 0)
    (fits : ¬ (a.toInt = -2 ^ 127 ∧ b.toInt = -1)) :
    (pliSdiv a b).toInt = a.toInt.tdiv b.toInt := by
  have pattern := toU_toNat b
  have range := toInt_range a
  have divisor : (pliMagS b).toNat ≠ 0 := by
    rw [mag_toNat]
    omega
  have zero : ¬ pliIszeroU (pliToU b) = true := by
    intro zero
    rw [iszero_toNat] at zero
    have range := toInt_range b
    split_ifs at pattern <;> omega
  obtain ⟨quotient, -⟩ := divmod_toNat (pliMagS a) divisor
  rw [mag_toNat, mag_toNat] at quotient
  have smaller : a.toInt.natAbs / b.toInt.natAbs ≤ a.toInt.natAbs := Nat.div_le_self _ _
  have signs : ((pliIsnegS a ^^ pliIsnegS b) = true) ↔ ¬ (a.toInt < 0 ↔ b.toInt < 0) := by
    rw [Bool.xor_iff_ne, Ne, Bool.eq_iff_iff, isneg_iff, isneg_iff]
  rw [pliSdiv, if_neg zero, tdiv_of_magnitudes]
  simp only [signs]
  by_cases same : a.toInt < 0 ↔ b.toInt < 0
  · -- Only MIN / -1 gives a quotient of equal signs that does not fit.
    have room : a.toInt.natAbs / b.toInt.natAbs < 2 ^ 127 := by
      by_cases unit : b.toInt.natAbs = 1
      · rw [unit, Nat.div_one]
        omega
      · have half : a.toInt.natAbs / b.toInt.natAbs ≤ a.toInt.natAbs / 2 :=
          Nat.div_le_div_left (by omega) (by decide)
        omega
    rw [if_neg (not_not.mpr same), if_pos same, toS_toInt, quotient, if_pos room]
  · rw [if_pos same, if_neg same, neg_toInt, toS_toInt, quotient]
    split_ifs <;> omega

theorem lt_iff (a b : PliI128) : ltS a b = true ↔ a.toInt < b.toInt := by
  have ap := toU_toNat a
  have bp := toU_toNat b
  have ar := toInt_range a
  have br := toInt_range b
  have same : (pliIsnegS a = pliIsnegS b) ↔ (a.toInt < 0 ↔ b.toInt < 0) := by
    rw [← isneg_iff, ← isneg_iff, Bool.eq_iff_iff]
  simp only [ltS, Ne, same, cmp_spec]
  split_ifs at ap bp ⊢ <;> first | simp only [isneg_iff]; omega | simp; omega

theorem eq_iff (a b : PliI128) : eqS a b = true ↔ a.toInt = b.toInt := by
  rw [toInt_inj, eqS, Bool.and_eq_true, beq_iff_eq, beq_iff_eq]
  cases a
  cases b
  simp

theorem ordered (a b : PliI128) :
    (gtS a b = true ↔ b.toInt < a.toInt) ∧ (leS a b = true ↔ a.toInt ≤ b.toInt) ∧
      (geS a b = true ↔ b.toInt ≤ a.toInt) := by
  refine ⟨lt_iff b a, ?_, ?_⟩
  · rw [leS, Bool.not_eq_true', Bool.eq_false_iff, Ne, lt_iff, Int.not_lt]
  · rw [geS, Bool.not_eq_true', Bool.eq_false_iff, Ne, lt_iff, Int.not_lt]

def pliDivmod10 (v : PliU128) : PliU128 × UInt32 :=
  let (q, r) := pliDivmodU v (pliU128 10 0)
  (q, r.lo.toUInt32)

theorem divmod10_spec (v : PliU128) :
    (pliDivmod10 v).1.toNat = v.toNat / 10 ∧ (pliDivmod10 v).2.toNat = v.toNat % 10 := by
  obtain ⟨quotient, remainder⟩ := divmod_toNat v (d := pliU128 10 0) (by decide)
  have ten : (pliU128 10 0).toNat = 10 := rfl
  rw [ten] at quotient remainder
  refine ⟨quotient, ?_⟩
  have small : (pliDivmodU v (pliU128 10 0)).2.lo.toNat = v.toNat % 10 := by
    have value : (pliDivmodU v (pliU128 10 0)).2.toNat =
        (pliDivmodU v (pliU128 10 0)).2.lo.toNat +
          2 ^ 64 * (pliDivmodU v (pliU128 10 0)).2.hi.toNat := rfl
    omega
  simp only [pliDivmod10, UInt64.toNat_toUInt32, small]
  omega

/-- The loop of pli_to_dec_string that pushes the digits, the lowest first. -/
def decDigits (u : PliU128) : List Char :=
  if zero : pliIszeroU u = true then []
  else Char.ofNat (48 + (pliDivmod10 u).2.toNat) :: decDigits (pliDivmod10 u).1
termination_by u.toNat
decreasing_by
  rw [iszero_toNat] at zero
  rw [(divmod10_spec u).1]
  omega

def pliToDecString (v : PliI128) : List Char :=
  if pliIszeroS v then ['0']
  else
    let s := decDigits (pliMagS v) ++ if pliIsnegS v then ['-'] else []
    swapEnds s (s.length / 2)

/- Reading a decimal number back: an optional sign and at least one digit. -/
def readDigits (text : List Char) : Option Nat :=
  if text ≠ [] ∧ text.all Char.isDigit then
    some (text.foldl (fun value c => 10 * value + (c.toNat - 48)) 0)
  else none

def readDecimal : List Char → Option Int
  | '-' :: text => (readDigits text).map fun n : Nat => -(n : Int)
  | text => (readDigits text).map fun n : Nat => (n : Int)

theorem decDigits_digits (u : PliU128) :
    decDigits u = (Nat.digits 10 u.toNat).map fun d => Char.ofNat (48 + d) := by
  induction size : u.toNat using Nat.strongRecOn generalizing u with
  | ind n ih =>
    obtain ⟨quotient, digit⟩ := divmod10_spec u
    rw [decDigits]
    split
    · rename_i zero
      rw [iszero_toNat] at zero
      have none : n = 0 := by omega
      simp [none]
    · rename_i nonzero
      rw [iszero_toNat] at nonzero
      rw [Nat.digits_def' (by decide) (by omega), List.map_cons, digit, size,
        ih (n / 10) (by omega) (pliDivmod10 u).1 (by omega)]

theorem digit_char {d : Nat} (small : d < 10) :
    (Char.ofNat (48 + d)).isDigit = true ∧ (Char.ofNat (48 + d)).toNat - 48 = d := by
  interval_cases d <;> decide

theorem foldl_digits {ds : List Nat} (small : ∀ d ∈ ds, d < 10) :
    (ds.map fun d => Char.ofNat (48 + d)).reverse.foldl
      (fun value c => 10 * value + (c.toNat - 48)) 0 = Nat.ofDigits 10 ds := by
  induction ds with
  | nil => rfl
  | cons d ds ih =>
    rw [List.map_cons, List.reverse_cons, List.foldl_append, Nat.ofDigits_cons,
      ih fun other mem => small other (List.mem_cons_of_mem _ mem)]
    simp only [List.foldl_cons, List.foldl_nil, (digit_char (small d List.mem_cons_self)).2]
    exact Nat.add_comm _ _

theorem readDigits_digits {n : Nat} (pos : 0 < n) :
    readDigits ((Nat.digits 10 n).map fun d => Char.ofNat (48 + d)).reverse = some n := by
  have small : ∀ d ∈ Nat.digits 10 n, d < 10 := fun d mem => Nat.digits_lt_base (by decide) mem
  have well : ((Nat.digits 10 n).map fun d => Char.ofNat (48 + d)).reverse ≠ [] ∧
      ((Nat.digits 10 n).map fun d => Char.ofNat (48 + d)).reverse.all Char.isDigit = true := by
    constructor
    · simp [Nat.digits_ne_nil_iff_ne_zero.mpr pos.ne', pos.ne']
    · simp only [List.all_reverse, List.all_map, List.all_eq_true, Function.comp_apply]
      exact fun d mem => (digit_char (small d mem)).1
  rw [readDigits, if_pos well, foldl_digits small, Nat.ofDigits_digits]

theorem readDecimal_digits {text : List Char} {n : Nat} (digits : readDigits text = some n) :
    readDecimal text = some (n : Int) := by
  cases text with
  | nil => simp [readDigits] at digits
  | cons c text =>
    have other : c ≠ '-' := by
      rintro rfl
      simp [readDigits] at digits
    simp [readDecimal, digits, other]

theorem readDecimal_toDecString (v : PliI128) : readDecimal (pliToDecString v) = some v.toInt := by
  have zero : pliIszeroS v = true ↔ v.toInt = 0 := by
    rw [show (0 : Int) = (PliI128.mk 0 0).toInt from rfl, ← eq_iff]
    rfl
  by_cases isZero : v.toInt = 0
  · rw [pliToDecString, if_pos (zero.mpr isZero), isZero]
    decide
  · have digits := readDigits_digits (Int.natAbs_pos.mpr isZero)
    rw [pliToDecString, if_neg fun none => isZero (zero.mp none)]
    simp only [swapEnds_reverse, List.reverse_append, decDigits_digits, mag_toNat]
    by_cases negative : v.toInt < 0
    · rw [if_pos ((isneg_iff v).mpr negative)]
      rw [List.reverse_singleton, List.singleton_append, readDecimal, digits, Option.map_some]
      congr 1
      omega
    · rw [if_neg fun neg => negative ((isneg_iff v).mp neg)]
      rw [List.reverse_nil, List.nil_append, readDecimal_digits digits]
      congr 1
      omega

/-- The portable integers compute what 128-bit machine integers do, over all values. -/
theorem portable_is_native (a b : PliU128) (x y : PliI128) :
    (pliAddU a b).toNat = (a.toNat + b.toNat) % 2 ^ 128 ∧
    ((pliSubU a b).toNat : Int) = ((a.toNat : Int) - b.toNat) % 2 ^ 128 ∧
    ((pliNegU a).toNat : Int) = -(a.toNat : Int) % 2 ^ 128 ∧
    (pliMulU a b).toNat = (a.toNat * b.toNat) % 2 ^ 128 ∧
    (b.toNat ≠ 0 →
      a.toNat = (pliDivmodU a b).1.toNat * b.toNat + (pliDivmodU a b).2.toNat ∧
        (pliDivmodU a b).2.toNat < b.toNat) ∧
    (y.toInt ≠ 0 → ¬ (x.toInt = -2 ^ 127 ∧ y.toInt = -1) →
      (pliSdiv x y).toInt = x.toInt.tdiv y.toInt) ∧
    ((pliCmpU a b < 0 ↔ a.toNat < b.toNat) ∧ (pliCmpU a b = 0 ↔ a.toNat = b.toNat) ∧
      (0 < pliCmpU a b ↔ b.toNat < a.toNat)) ∧
    ((ltS x y = true ↔ x.toInt < y.toInt) ∧ (gtS x y = true ↔ y.toInt < x.toInt) ∧
      (leS x y = true ↔ x.toInt ≤ y.toInt) ∧ (geS x y = true ↔ y.toInt ≤ x.toInt) ∧
      (eqS x y = true ↔ x.toInt = y.toInt)) ∧
    readDecimal (pliToDecString x) = some x.toInt := by
  have size := toNat_lt b
  refine ⟨add_toNat a b, ?_, ?_, mul_toNat a b, ?_, fun nonzero fits => sdiv_toInt x nonzero fits,
    ?_, ?_, readDecimal_toDecString x⟩
  · rw [sub_toNat]
    omega
  · have bound := toNat_lt a
    rw [neg_toNat]
    omega
  · intro nonzero
    obtain ⟨quotient, remainder⟩ := divmod_toNat a nonzero
    rw [quotient, remainder, Nat.mul_comm]
    exact ⟨(Nat.div_add_mod _ _).symm, Nat.mod_lt _ (Nat.pos_of_ne_zero nonzero)⟩
  · rw [cmp_spec]
    split_ifs <;> simp <;> omega
  · obtain ⟨gt, le, ge⟩ := ordered x y
    exact ⟨lt_iff x y, gt, le, ge, eq_iff x y⟩

/-- The least value divided, and the greatest by a divisor above 2^127. -/
theorem portable_divides_at_the_ends :
    (pliSdiv ⟨0, Int64.minValue⟩ ⟨3, 0⟩).toInt =
      (PliI128.mk 0 Int64.minValue).toInt.tdiv (PliI128.mk 3 0).toInt ∧
    (pliDivmodU ⟨-1, -1⟩ ⟨1, -1⟩).2.toNat < (PliU128.mk 1 (-1)).toNat := by
  obtain ⟨-, -, -, -, divides, truncates, -⟩ :=
    portable_is_native ⟨-1, -1⟩ ⟨1, -1⟩ ⟨0, Int64.minValue⟩ ⟨3, 0⟩
  exact ⟨truncates (by decide) fun unit => absurd unit.2 (by decide), (divides (by decide)).2⟩

end PliWide128
