import Mathlib.Data.List.Induction
import Mathlib.Data.Nat.Bitwise
import Mathlib.Data.Int.ModEq
import Mathlib.Data.Nat.Prime.Basic
import Mathlib.Tactic.Ring

/- Numbers in bytes and in binary digits, the most significant first, and a byte string into
   which single bits are set from the front. -/
namespace BigEndian

def ofBytes (bytes : List (BitVec 8)) : Nat := bytes.foldl (fun acc b => acc * 256 + b.toNat) 0

/-- The low bytes of a number. -/
def toBytes : Nat → Nat → List (BitVec 8)
  | 0, _ => []
  | k + 1, v => toBytes k (v / 256) ++ [BitVec.ofNat 8 v]

def binary (digits : List Bool) : Nat := digits.foldl (fun acc b => 2 * acc + b.toNat) 0

theorem ofBytes_snoc (bytes : List (BitVec 8)) (b : BitVec 8) :
    ofBytes (bytes ++ [b]) = ofBytes bytes * 256 + b.toNat := by
  simp [ofBytes]

theorem ofBytes_append (front back : List (BitVec 8)) :
    ofBytes (front ++ back) = ofBytes front * 256 ^ back.length + ofBytes back := by
  induction back using List.reverseRecOn with
  | nil => simp [ofBytes]
  | append_singleton back b ih =>
    rw [← List.append_assoc, ofBytes_snoc, ih, ofBytes_snoc, List.length_append,
      List.length_singleton]
    ring

theorem ofBytes_lt (bytes : List (BitVec 8)) : ofBytes bytes < 256 ^ bytes.length := by
  induction bytes using List.reverseRecOn with
  | nil => simp [ofBytes]
  | append_singleton bytes b ih =>
    have small := b.isLt
    rw [ofBytes_snoc, List.length_append, List.length_singleton, Nat.pow_succ]
    omega

theorem toBytes_length (k v : Nat) : (toBytes k v).length = k := by
  induction k generalizing v with
  | zero => rfl
  | succ k ih => rw [toBytes, List.length_append, ih, List.length_singleton]

theorem ofBytes_toBytes (k v : Nat) : ofBytes (toBytes k v) = v % 256 ^ k := by
  induction k generalizing v with
  | zero => simp [toBytes, ofBytes, Nat.mod_one]
  | succ k ih =>
    have apart := Nat.mod_mul (x := v) (a := 256) (b := 256 ^ k)
    have step : 256 ^ (k + 1) = 256 * 256 ^ k := Nat.pow_succ'
    rw [toBytes, ofBytes_snoc, ih, BitVec.toNat_ofNat, step, apart]
    ring

theorem toBytes_mod (k v : Nat) : toBytes k (v % 256 ^ k) = toBytes k v := by
  induction k generalizing v with
  | zero => rfl
  | succ k ih =>
    have low : BitVec.ofNat 8 (v % 256 ^ (k + 1)) = BitVec.ofNat 8 v := by
      apply BitVec.eq_of_toNat_eq
      rw [BitVec.toNat_ofNat, BitVec.toNat_ofNat]
      exact Nat.mod_mod_of_dvd v ⟨256 ^ k, by rw [Nat.pow_succ, Nat.mul_comm]⟩
    have high : v % 256 ^ (k + 1) / 256 = v / 256 % 256 ^ k := by
      rw [Nat.pow_succ, Nat.mul_comm, Nat.mod_mul_right_div_self]
    rw [toBytes, toBytes, low, high, ih]

theorem toBytes_eq_iff {k v w : Nat} : toBytes k v = toBytes k w ↔ v % 256 ^ k = w % 256 ^ k := by
  constructor
  · intro same
    rw [← ofBytes_toBytes, ← ofBytes_toBytes, same]
  · intro same
    rw [← toBytes_mod k v, same, toBytes_mod]

/-- Byte i of the low bytes of a number. -/
theorem toBytes_eq_map (k v : Nat) :
    toBytes k v = (List.range k).map fun i => BitVec.ofNat 8 (v / 256 ^ (k - 1 - i)) := by
  induction k generalizing v with
  | zero => rfl
  | succ k ih =>
    rw [toBytes, ih, List.range_succ, List.map_append]
    congr 1
    · refine List.map_congr_left fun i inside => ?_
      have below := List.mem_range.mp inside
      have exponent : k + 1 - 1 - i = k - 1 - i + 1 := by omega
      rw [exponent, Nat.pow_succ', Nat.div_div_eq_div_mul]
    · simp

theorem binary_snoc (digits : List Bool) (b : Bool) :
    binary (digits ++ [b]) = 2 * binary digits + b.toNat := by
  simp [binary]

theorem binary_lt (digits : List Bool) : binary digits < 2 ^ digits.length := by
  induction digits using List.reverseRecOn with
  | nil => simp [binary]
  | append_singleton digits b ih =>
    have small := b.toNat_lt
    rw [binary_snoc, List.length_append, List.length_singleton, Nat.pow_succ]
    omega

/-- A number's front, a byte and its back are apart from each other. -/
theorem ofBytes_split (front back : List (BitVec 8)) (b : BitVec 8) :
    ofBytes (front ++ b :: back) =
      ofBytes front * 256 ^ (back.length + 1) ||| b.toNat * 256 ^ back.length ||| ofBytes back := by
  have pow (k : Nat) : 256 ^ k = 2 ^ (8 * k) := by rw [Nat.pow_mul]
  have low := ofBytes_lt back
  have single := b.isLt
  rw [← List.singleton_append, ofBytes_append, ofBytes_append]
  simp only [List.length_append, List.length_singleton]
  rw [pow] at low
  have inner : ofBytes [b] * 256 ^ back.length + ofBytes back =
      b.toNat * 256 ^ back.length ||| ofBytes back := by
    rw [pow, Nat.mul_comm, Nat.two_pow_add_eq_or_of_lt low, Nat.mul_comm]
    simp [ofBytes]
  have bound : ofBytes [b] * 256 ^ back.length + ofBytes back < 2 ^ (8 * (back.length + 1)) := by
    rw [← pow]
    have whole := ofBytes_lt (b :: back)
    rwa [← List.singleton_append, ofBytes_append] at whole
  rw [Nat.add_comm 1, pow (back.length + 1), Nat.mul_comm, Nat.two_pow_add_eq_or_of_lt bound, inner,
    Nat.mul_comm, Nat.or_assoc]

/-- Bits set in one byte are set at its place in the number. -/
theorem ofBytes_modify_or {bytes : List (BitVec 8)} {i : Nat} (inside : i < bytes.length)
    (mask : BitVec 8) :
    ofBytes (bytes.modify i (· ||| mask)) =
      ofBytes bytes ||| mask.toNat * 256 ^ (bytes.length - 1 - i) := by
  have parts : bytes = bytes.take i ++ bytes[i] :: bytes.drop (i + 1) := by
    rw [← List.drop_eq_getElem_cons inside, List.take_append_drop]
  have changed : bytes.modify i (· ||| mask) =
      bytes.take i ++ (bytes[i] ||| mask) :: bytes.drop (i + 1) := by
    rw [List.modify_eq_take_cons_drop inside]
  have after : (bytes.drop (i + 1)).length = bytes.length - 1 - i := by
    rw [List.length_drop]
    omega
  have both : (bytes[i] ||| mask).toNat * 256 ^ (bytes.drop (i + 1)).length =
      bytes[i].toNat * 256 ^ (bytes.drop (i + 1)).length |||
        mask.toNat * 256 ^ (bytes.drop (i + 1)).length := by
    rw [show (256 : Nat) = 2 ^ 8 from rfl, ← Nat.pow_mul, ← Nat.shiftLeft_eq, ← Nat.shiftLeft_eq,
      ← Nat.shiftLeft_eq, BitVec.toNat_or, Nat.shiftLeft_or_distrib]
  have before : ofBytes bytes = ofBytes (bytes.take i) * 256 ^ ((bytes.drop (i + 1)).length + 1) |||
      bytes[i].toNat * 256 ^ (bytes.drop (i + 1)).length ||| ofBytes (bytes.drop (i + 1)) := by
    rw [← ofBytes_split, ← parts]
  rw [changed, ofBytes_split, both, before, ← after]
  ac_rfl

/-- A number's low bytes are those of its bits moved to the front just when there is nothing
    to move, or nothing there. -/
theorem justified_iff {v k e : Nat} : v % 2 ^ k = v * 2 ^ e % 2 ^ k ↔ e = 0 ∨ 2 ^ k ∣ v := by
  constructor
  · intro same
    by_cases still : e = 0
    · exact Or.inl still
    · right
      have up : v ≤ v * 2 ^ e := Nat.le_mul_of_pos_right v (Nat.two_pow_pos e)
      have apart : 2 ^ k ∣ v * 2 ^ e - v := (Nat.modEq_iff_dvd' up).mp same
      have factor : v * 2 ^ e - v = v * (2 ^ e - 1) := by rw [Nat.mul_sub, Nat.mul_one]
      have odd : Nat.Coprime (2 ^ k) (2 ^ e - 1) := by
        refine Nat.Coprime.pow_left k ?_
        have even : 2 ^ e = 2 * 2 ^ (e - 1) := by
          rw [← Nat.pow_succ', Nat.succ_eq_add_one, Nat.sub_add_cancel (by omega)]
        have positive := Nat.two_pow_pos (e - 1)
        exact Nat.coprime_two_left.mpr ⟨2 ^ (e - 1) - 1, by omega⟩
      rw [factor] at apart
      exact odd.dvd_of_dvd_mul_right apart
  · rintro (rfl | divides)
    · rw [Nat.pow_zero, Nat.mul_one]
    · rw [Nat.mod_eq_zero_of_dvd divides, Nat.mod_eq_zero_of_dvd (divides.mul_right _)]

end BigEndian
