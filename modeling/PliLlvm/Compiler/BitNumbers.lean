import PliLlvm.Compiler.InitialValue
import PliLlvm.Compiler.StoreFixed
import PliLlvm.Lib.BigEndian

/- BIT strings of at most 64 bits and FIXED values (src/irgen.cpp): a BIT(1) is an i1, a longer
   string the bytes of an aggregate, left-justified. The conversions are those of convert with
   SIZE enabled; a source of 128 bits has no zero extension to 64 and gives no value. -/
namespace PliBitNumbers
open Scan FixedPoint PliConstFold PliFixedConvert PliStoreFixed PliInitialValue BigEndian
open PliLexer (ch)
open PliNumericConstant (digit positional)

def bitBytes (nbits : Nat) : Nat := (nbits + 7) / 8

def packBitLiteral (sval : List Bool) (nbits : Nat) : List (BitVec 8) :=
  (List.range nbits).foldl
    (fun bytes i =>
      if sval.getD i false then bytes.modify (i / 8)
        (· ||| (0x80 : BitVec 8) >>> (i % 8)) else bytes)
    (List.replicate (bitBytes nbits) 0)

def packBitValue (agg : List (BitVec 8)) (nbits : Nat) : BitVec 64 :=
  (agg.foldl (fun (acc : BitVec 64) byte => acc <<< 8 ||| byte.setWidth 64) 0) >>>
    (8 * bitBytes nbits - nbits)

def unpackBitValue (intval : BitVec 64) (nbits : Nat) : List (BitVec 8) :=
  let left := intval <<< (8 * bitBytes nbits - nbits)
  (List.range (bitBytes nbits)).map fun k => (left >>> (8 * (bitBytes nbits - 1 - k))).setWidth 8

def lowBytes : Nat → BitVec 64 → List (BitVec 8)
  | 0, _ => []
  | k + 1, v => lowBytes k (v >>> 8) ++ [v.setWidth 8]

def packBitInit (ini : Lit) (nbits : Nat) : List (BitVec 8) :=
  lowBytes (bitBytes nbits) (BitVec.ofInt 64 ini.ival)

inductive BitReg where
  | i1 (b : Bool)
  | agg (bytes : List (BitVec 8))
  deriving DecidableEq

def emitBitLit (sval : List Bool) (n : Nat) : BitReg :=
  if n = 1 then .i1 (sval.headD false) else .agg (packBitLiteral sval n)

def convertToBit (src : Ty) (raw : Int) (len : Nat) : Option BitReg :=
  if len = 1 then some (.i1 (decide (raw ≠ 0)))
  else if src.intBits = 64 then some (.agg (unpackBitValue (BitVec.ofInt 64 raw) len))
  else if src.intBits = 32 then
    some (.agg (unpackBitValue ((BitVec.ofInt 32 raw).setWidth 64) len))
  else none

def bitNumber (v : BitReg) (len : Nat) : BitVec 64 :=
  match v with
  | .i1 b => if b then 1 else 0
  | .agg bytes => packBitValue bytes len

def convertFromBit (v : BitReg) (len : Nat) (dst : Ty) : Converted :=
  let iv := bitNumber v len
  let out :=
    if dst.intBits = 64 then iv.toInt
    else if dst.intBits = 128 then (iv.signExtend 128).toInt
    else (iv.setWidth 32).toInt
  if dst.k = .fixedBin then fixedBinPrecTrap dst.intBits out dst.prec else ⟨out, false⟩

def BitReg.stored : BitReg → List (BitVec 8)
  | .i1 b => [if b then 1 else 0]
  | .agg bytes => bytes

def initialBytes (ini : Lit) (n : Nat) : List (BitVec 8) :=
  if n = 1 then (BitReg.i1 (decide (ini.ival ≠ 0))).stored else packBitInit ini n

def assignedBytes (lit : Lit) (n : Nat) : Option (List (BitVec 8)) :=
  (convertToBit (literalTy lit) (emitLiteral lit (literalTy lit)) n).map BitReg.stored

theorem bitBytes_bits {n : Nat} : n ≤ 8 * bitBytes n ∧ 8 * bitBytes n < n + 8 := by
  unfold bitBytes
  omega

theorem pow_256 (k : Nat) : 256 ^ k = 2 ^ (8 * k) := by rw [Nat.pow_mul]

theorem packLoop_value (sval : List Bool) (B m : Nat) (room : m ≤ 8 * B) :
    let bytes := (List.range m).foldl
      (fun bytes i =>
        if sval.getD i false then bytes.modify (i / 8)
          (· ||| (0x80 : BitVec 8) >>> (i % 8)) else bytes)
      (List.replicate B 0)
    bytes.length = B ∧
      ofBytes bytes = binary ((List.range m).map fun i => sval.getD i false) * 2 ^ (8 * B - m) := by
  induction m with
  | zero =>
    have zeros : ofBytes (List.replicate B 0) = 0 := by
      induction B with
      | zero => rfl
      | succ B ih =>
        rw [List.replicate_succ', ofBytes_snoc, ih (by omega)]
        rfl
    refine ⟨List.length_replicate, ?_⟩
    rw [List.range_zero, List.foldl_nil, zeros]
    simp [binary]
  | succ m ih =>
    obtain ⟨length, value⟩ := ih (by omega)
    rw [List.range_succ, List.foldl_append, List.map_append, List.map_singleton, binary_snoc]
    simp only [List.foldl_cons, List.foldl_nil]
    have space : 8 * B - m = 8 * B - (m + 1) + 1 := by omega
    rw [space, Nat.pow_succ] at value
    cases digit : sval.getD m false with
    | false =>
      simp only [Bool.false_eq_true, if_false, Bool.toNat_false]
      refine ⟨length, ?_⟩
      rw [value]
      ring
    | true =>
      simp only [if_true, List.length_modify, Bool.toNat_true]
      refine ⟨length, ?_⟩
      have inside : m / 8 < B := by omega
      have mask : ((0x80 : BitVec 8) >>> (m % 8)).toNat = 2 ^ (7 - m % 8) := by
        have each : ∀ j < 8, ((0x80 : BitVec 8) >>> j).toNat = 2 ^ (7 - j) := by decide
        exact each (m % 8) (Nat.mod_lt m (by decide))
      have place : 2 ^ (7 - m % 8) * 256 ^ (B - 1 - m / 8) = 2 ^ (8 * B - (m + 1)) := by
        rw [pow_256, ← Nat.pow_add]
        congr 1
        omega
      rw [ofBytes_modify_or (by omega), length, mask, place, value]
      have below : (2 : Nat) ^ (8 * B - (m + 1)) < 2 ^ (8 * B - (m + 1) + 1) :=
        Nat.pow_lt_pow_right (by decide) (by omega)
      rw [← Nat.pow_succ, Nat.mul_comm _ (2 ^ (8 * B - (m + 1) + 1)),
        ← Nat.two_pow_add_eq_or_of_lt below, Nat.pow_succ]
      ring

variable {n : Nat}

theorem packBitLiteral_value {sval : List Bool} (whole : sval.length = n) :
    (packBitLiteral sval n).length = bitBytes n ∧
      ofBytes (packBitLiteral sval n) = binary sval * 2 ^ (8 * bitBytes n - n) := by
  have digits : (List.range n).map (fun i => sval.getD i false) = sval := by
    refine List.ext_getElem (by simp [whole]) fun i inside inside' => ?_
    simp [List.getElem?_eq_getElem inside']
  have packed := packLoop_value sval (bitBytes n) n (bitBytes_bits.1)
  rwa [digits] at packed

theorem shiftedIn_toNat (agg : List (BitVec 8)) (small : agg.length ≤ 8) :
    (agg.foldl (fun (acc : BitVec 64) byte => acc <<< 8 ||| byte.setWidth 64) 0).toNat =
      ofBytes agg := by
  induction agg using List.reverseRecOn with
  | nil => rfl
  | append_singleton agg b ih =>
    rw [List.length_append, List.length_singleton] at small
    have front := ofBytes_lt agg
    have power : 256 ^ agg.length ≤ 256 ^ 7 := Nat.pow_le_pow_right (by decide) (by omega)
    have byte := b.isLt
    rw [List.foldl_append, ofBytes_snoc, List.foldl_cons, List.foldl_nil, BitVec.toNat_or,
      BitVec.toNat_shiftLeft, ih (by omega), BitVec.toNat_setWidth, Nat.mod_eq_of_lt (a :=
        b.toNat) (by omega),
      Nat.shiftLeft_eq, Nat.mod_eq_of_lt (by omega), Nat.mul_comm,
      ← Nat.two_pow_add_eq_or_of_lt byte, Nat.mul_comm]

theorem packBitValue_toNat {agg : List (BitVec 8)} (small : agg.length ≤ 8) :
    (packBitValue agg n).toNat = ofBytes agg / 2 ^ (8 * bitBytes n - n) := by
  rw [packBitValue, BitVec.toNat_ushiftRight, shiftedIn_toNat agg small, Nat.shiftRight_eq_div_pow]

theorem lowBytes_eq (k : Nat) (v : BitVec 64) : lowBytes k v = toBytes k v.toNat := by
  induction k generalizing v with
  | zero => rfl
  | succ k ih =>
    rw [lowBytes, toBytes, ih, BitVec.toNat_ushiftRight, Nat.shiftRight_eq_div_pow]
    rfl

theorem unpackBitValue_eq (v : BitVec 64) : unpackBitValue v n =
      toBytes (bitBytes n) (v.toNat * 2 ^ (8 * bitBytes n - n) % 2 ^ 64) := by
  rw [unpackBitValue, toBytes_eq_map]
  refine List.map_congr_left fun k _ => BitVec.eq_of_toNat_eq ?_
  rw [BitVec.toNat_setWidth, BitVec.toNat_ushiftRight, BitVec.toNat_shiftLeft, Nat.shiftLeft_eq,
    Nat.shiftRight_eq_div_pow, BitVec.toNat_ofNat, pow_256]

theorem bits_come_back (narrow : n ≤ 64) (v : BitVec 64) :
    (packBitValue (unpackBitValue v n) n).toNat = v.toNat % 2 ^ n := by
  obtain ⟨room, tight⟩ := @bitBytes_bits n
  have split : 8 * bitBytes n = n + (8 * bitBytes n - n) := by omega
  rw [unpackBitValue_eq, packBitValue_toNat (by rw [toBytes_length]; omega), ofBytes_toBytes,
    pow_256, Nat.mod_mod_of_dvd _ (Nat.pow_dvd_pow 2 (by omega))]
  conv => lhs; rw [split]
  rw [Nat.add_sub_cancel_left, Nat.pow_add, Nat.mul_mod_mul_right,
    Nat.mul_div_cancel _ (Nat.two_pow_pos _)]

theorem bitNumber_literal {sval : List Bool} (some_bits : 1 ≤ n) (narrow : n ≤ 64)
    (whole : sval.length = n) : (bitNumber (emitBitLit sval n) n).toNat = binary sval := by
  by_cases single : n = 1
  · subst single
    obtain ⟨b, rfl⟩ := List.length_eq_one_iff.mp whole
    cases b <;> rfl
  · obtain ⟨length, packed⟩ := packBitLiteral_value whole
    have room := (@bitBytes_bits n).2
    simp only [emitBitLit, single, if_false, bitNumber]
    rw [packBitValue_toNat (by omega), packed, Nat.mul_div_cancel _ (Nat.two_pow_pos _)]

theorem register_eq (dst : Ty) (iv : BitVec 64) :
    (if dst.intBits = 64 then iv.toInt
      else if dst.intBits = 128 then (iv.signExtend 128).toInt
      else (iv.setWidth 32).toInt) = word (min dst.intBits 64) iv.toNat := by
  have whole : BitVec.ofInt 64 (iv.toNat : Int) = iv := by simp
  rcases slot_cases dst with width | width | width
  · rw [if_neg (by omega), if_neg (by omega), width]
    change _ = (BitVec.ofInt 32 (iv.toNat : Int)).toInt
    congr 1
  · rw [if_pos width, width]
    change _ = (BitVec.ofInt 64 (iv.toNat : Int)).toInt
    rw [whole]
  · rw [if_neg (by omega), if_pos width, width, BitVec.toInt_signExtend_of_le (by decide)]
    change _ = (BitVec.ofInt 64 (iv.toNat : Int)).toInt
    rw [whole]

/-- The check of a BINARY target raises SIZE for a register outside the precision, unless that
    takes up the whole slot; a DECIMAL target has none. -/
def checked (dst : Ty) (w : Int) : Converted :=
  if dst.k = .fixedBin then fixedBinPrecTrap dst.intBits w dst.prec else ⟨w, false⟩

variable {dst : Ty}

theorem checked_size (declared : Declared dst) (w : Int) : (checked dst w).size = true ↔
      dst.k = .fixedBin ∧ dst.prec < dst.intBits - 1 ∧ ¬InRange dst w := by
  have some_prec := declared.2.1
  unfold checked
  by_cases binary : dst.k = .fixedBin
  · rw [if_pos binary, fixedBinPrecTrap]
    by_cases full : (dst.intBits : Int) - 1 ≤ dst.prec
    · rw [if_pos (Or.inr full)]
      exact iff_of_false (by simp) fun trapped => by omega
    · rw [if_neg (by omega)]
      simp only [InRange, binary, if_true]
      split
      · exact iff_of_true rfl ⟨trivial, by omega, by omega⟩
      · exact iff_of_false (by simp) fun trapped => trapped.2.2 (by omega)
  · rw [if_neg binary]
    exact iff_of_false (by simp) fun trapped => binary trapped.1

theorem checked_raw {w : Int} (quiet : (checked dst w).size = false) : (checked dst w).raw = w := by
  by_cases binary : dst.k = .fixedBin
  · rw [checked, if_pos binary, fixedBinPrecTrap] at quiet ⊢
    by_cases full : dst.prec ≤ 0 ∨ (dst.intBits : Int) - 1 ≤ dst.prec
    · rw [if_pos full]
    · rw [if_neg full] at quiet ⊢
      dsimp only at quiet ⊢
      by_cases outside : 2 ^ dst.prec.toNat ≤ w ∨ w < -2 ^ dst.prec.toNat
      · rw [if_pos outside] at quiet
        cases quiet
      · rw [if_neg outside]
  · rw [checked, if_neg binary]

/-- When a bit string's number arrives: one out of range needs a check that sees the low word;
    one in range is 0, or has a target of scale 0 and no sign in its word; a negative scale
    may also meet a wrapped word by chance. -/
def ReadFits (dst : Ty) (number : Nat) : Prop :=
  if InRange dst (required dst number) then
    number = 0 ∨ (dst.scale = 0 ∧ number < 2 ^ 63) ∨
      (dst.scale < 0 ∧ 2 ^ (min dst.intBits 64 - 1) ≤ number ∧
        word (min dst.intBits 64) number = required dst number)
  else
    dst.k = .fixedBin ∧ dst.prec < dst.intBits - 1 ∧ ¬InRange dst (word dst.intBits number)

theorem required_down (negative : dst.scale < 0) (number : Nat) :
    required dst number = (number : Int).tdiv (base dst ^ (-dst.scale).toNat : Nat) := by
  refine required_truncated (Or.inr negative) (Nat.pow_pos (base_pos dst)) ?_
  rw [zpow_parts (by exact_mod_cast (base_pos dst).ne')]
  have none_up : dst.scale.toNat = 0 := by omega
  rw [none_up]
  push_cast
  ring

theorem required_up (positive : 0 ≤ dst.scale) (number : Nat) :
    required dst number = number * base dst ^ dst.scale.toNat := by
  refine required_whole ?_
  have none_down : (-dst.scale).toNat = 0 := by omega
  rw [zpow_parts (by exact_mod_cast (base_pos dst).ne'), none_down]
  push_cast
  ring

theorem small_slot (declared : Declared dst) (slot : dst.intBits = 32) {n : Int}
    (inside : InRange dst n) : n < 2 ^ 31 := by
  obtain ⟨fixed, some_prec, wide⟩ := declared
  unfold Ty.intBits at slot
  rcases fixed with binary | decimal
  · rw [InRange, if_pos binary] at inside
    rw [binary] at slot
    have prec : dst.prec ≤ 31 := by
      by_contra long
      simp [long] at slot
    have power : (2 : Int) ^ dst.prec.toNat ≤ 2 ^ 31 := pow_le_pow_right₀ (by decide) (by omega)
    omega
  · rw [InRange, if_neg (by simp [decimal])] at inside
    rw [decimal] at slot
    have prec : dst.prec ≤ 9 := by
      by_contra long
      simp [long] at slot
      split at slot <;> cases slot
    have power : (10 : Int) ^ dst.prec.toNat ≤ 10 ^ 9 := pow_le_pow_right₀ (by decide) (by omega)
    have bound : (10 : Int) ^ 9 < 2 ^ 31 := by decide
    omega

theorem arrives_iff (declared : Declared dst) {number : Nat}
    (inside : InRange dst (required dst number)) :
    word (min dst.intBits 64) number = required dst number ↔
      number = 0 ∨ (dst.scale = 0 ∧ number < 2 ^ 63) ∨
        (dst.scale < 0 ∧ 2 ^ (min dst.intBits 64 - 1) ≤ number ∧
          word (min dst.intBits 64) number = required dst number) := by
  have some_bits : 0 < min dst.intBits 64 := by have := intBits_pos dst; omega
  have below := (word_fits some_bits number).2
  have base_two : 2 ≤ base dst := by unfold base; split <;> omega
  by_cases negative : dst.scale < 0
  · by_cases wrapped : 2 ^ (min dst.intBits 64 - 1) ≤ number
    · have apart : ¬dst.scale = 0 := by omega
      have some_number : number ≠ 0 := by
        have := Nat.two_pow_pos (min dst.intBits 64 - 1)
        omega
      simp [negative, wrapped, apart, some_number]
    · have small : Fits (min dst.intBits 64) number := by
        unfold Fits
        have : (number : Int) < 2 ^ (min dst.intBits 64 - 1) :=
          by exact_mod_cast Nat.lt_of_not_le wrapped
        omega
      have power : 2 ≤ base dst ^ (-dst.scale).toNat :=
        le_trans base_two (Nat.le_self_pow (by omega) _)
      rw [word_of_fits some_bits small, required_down negative,
        tdiv_eq_self_iff (by exact_mod_cast power)]
      have apart : ¬dst.scale = 0 := by omega
      simp [negative, wrapped, apart]
  · rw [required_up (by omega)] at inside ⊢
    by_cases level : dst.scale = 0
    · rw [level] at inside ⊢
      simp only [Int.toNat_zero, pow_zero, mul_one, true_and, Int.lt_irrefl, false_and,
        or_false] at inside ⊢
      have half : (2 : Int) ^ (min dst.intBits 64 - 1) ≤ 2 ^ 63 :=
        pow_le_pow_right₀ (by decide) (by omega)
      constructor
      · intro same
        rw [same] at below
        exact Or.inr (by omega)
      · intro small
        refine word_of_fits some_bits ?_
        have positive : (0 : Int) < 2 ^ (min dst.intBits 64 - 1) := by positivity
        refine ⟨by omega, ?_⟩
        rcases slot_cases dst with width | width | width
        · have := small_slot declared width inside
          rw [width]
          change (number : Int) < 2 ^ 31
          omega
        · rw [width]
          change (number : Int) < 2 ^ 63
          omega
        · rw [width]
          change (number : Int) < 2 ^ 63
          omega
    · have larger : 2 ≤ (base dst : Int) ^ dst.scale.toNat := by
        exact_mod_cast le_trans base_two (Nat.le_self_pow (by omega) _)
      simp only [level, negative, false_and, or_false]
      constructor
      · intro same
        by_contra some_number
        have scaled : (number : Int) * 2 ≤ number * base dst ^ dst.scale.toNat :=
          Int.mul_le_mul_of_nonneg_left larger (by omega)
        rw [same] at below
        have small : Fits (min dst.intBits 64) number := ⟨by omega, by omega⟩
        rw [word_of_fits some_bits small] at same
        omega
      · rintro rfl
        simp [word]

theorem read_iff (declared : Declared dst) {sval : List Bool} {n : Nat}
    (some_bits : 1 ≤ n) (narrow : n ≤ 64) (whole : sval.length = n) :
    ExactAt dst (required dst (binary sval)) (convertFromBit (emitBitLit sval n) n dst) ↔
      ReadFits dst (binary sval) := by
  have number := bitNumber_literal some_bits narrow whole
  have read : convertFromBit (emitBitLit sval n) n dst =
      checked dst (word (min dst.intBits 64) (binary sval)) := by
    rw [← number, ← register_eq]
    rfl
  have trapped := checked_size declared (word (min dst.intBits 64) (binary sval))
  rw [read, ExactAt, trapped, ReadFits]
  by_cases inside : InRange dst (required dst (binary sval))
  · rw [if_pos inside, ← arrives_iff declared inside]
    simp only [inside, not_true, iff_false, forall_const]
    constructor
    · rintro ⟨quiet, same⟩
      have silent : (checked dst (word (min dst.intBits 64) (binary sval))).size = false :=
        Bool.eq_false_iff.mpr fun raised => quiet (trapped.mp raised)
      rw [← same, checked_raw silent]
    · intro same
      have quiet : ¬(dst.k = .fixedBin ∧ dst.prec < dst.intBits - 1 ∧
          ¬InRange dst (word (min dst.intBits 64) (binary sval))) := by
        rw [same]
        exact fun out => out.2.2 inside
      have silent : (checked dst (word (min dst.intBits 64) (binary sval))).size = false :=
        Bool.eq_false_iff.mpr fun raised => quiet (trapped.mp raised)
      exact ⟨quiet, (checked_raw silent).trans same⟩
  · rw [if_neg inside]
    simp only [inside, not_false_eq_true, iff_true, false_implies, and_true]
    refine and_congr_right fun binary_ => ?_
    rw [Nat.min_eq_left (binary_word binary_)]

def ComesBack (src : Ty) (raw : Int) (n : Nat) : Prop :=
  ∃ v, convertToBit src raw n = some v ∧ convertFromBit v n src = ⟨raw, false⟩

theorem bitNumber_unpacked (narrow : n ≤ 64) (v : BitVec 64) :
    (bitNumber (.agg (unpackBitValue v n)) n).toNat = v.toNat % 2 ^ n := bits_come_back narrow v

theorem widened_toNat {src : Ty} {raw : Int} (nonneg : 0 ≤ raw) (fits : Fits src.intBits raw) :
    (src.intBits = 64 → (BitVec.ofInt 64 raw).toNat = raw.toNat) ∧
      (src.intBits = 32 → ((BitVec.ofInt 32 raw).setWidth 64).toNat = raw.toNat) := by
  unfold Fits at fits
  constructor
  · intro width
    rw [width] at fits
    rw [BitVec.toNat_ofInt]
    omega
  · intro width
    rw [width] at fits
    rw [BitVec.toNat_setWidth, BitVec.toNat_ofInt]
    omega

theorem word_mod_iff {bits n : Nat} (some_bits : 0 < bits) {raw : Nat} (fits : Fits bits raw) :
    word bits ((raw % 2 ^ n : Nat) : Int) = raw ↔ raw < 2 ^ n := by
  have less := Nat.mod_le raw (2 ^ n)
  have small : Fits bits ((raw % 2 ^ n : Nat) : Int) := by
    unfold Fits at fits ⊢
    have positive : (0 : Int) < 2 ^ (bits - 1) := by positivity
    omega
  rw [word_of_fits some_bits small]
  constructor
  · intro same
    have kept : raw % 2 ^ n = raw := by exact_mod_cast same
    rw [← kept]
    exact Nat.mod_lt _ (Nat.two_pow_pos n)
  · intro below
    rw [Nat.mod_eq_of_lt below]

theorem convertFromBit_eq (v : BitReg) (n : Nat) (dst : Ty) :
    convertFromBit v n dst = checked dst (word (min dst.intBits 64) (bitNumber v n).toNat) := by
  rw [← register_eq]
  rfl

theorem checked_eq_iff (declared : Declared dst) {raw w : Int} (inside : InRange dst raw) :
    checked dst w = ⟨raw, false⟩ ↔ w = raw := by
  have trapped := checked_size declared w
  constructor
  · intro same
    have quiet : (checked dst w).size = false := by rw [same]
    rw [← checked_raw quiet, same]
  · rintro rfl
    have silent : (checked dst w).size = false :=
      Bool.eq_false_iff.mpr fun raised => (trapped.mp raised).2.2 inside
    have raw := checked_raw silent
    calc checked dst w = ⟨(checked dst w).raw, (checked dst w).size⟩ := rfl
      _ = ⟨w, false⟩ := by rw [raw, silent]

theorem comesBack_iff {src : Ty} (declared : Declared src) {raw : Int} {n : Nat}
    (narrow : n ≤ 64) (stored : Stored src raw) (nonneg : 0 ≤ raw) :
    ComesBack src raw n ↔ raw < 2 ^ n ∧ (n = 1 ∨ src.intBits ≤ 64) := by
  have some_bits : 0 < min src.intBits 64 := by have := intBits_pos src; omega
  by_cases single : n = 1
  · subst single
    have read : ComesBack src raw 1 ↔
        checked src (word (min src.intBits 64) (if raw = 0 then 0 else 1)) = ⟨raw, false⟩ := by
      unfold ComesBack
      simp only [convertToBit, if_true, Option.some.injEq, exists_eq_left', convertFromBit_eq]
      by_cases zero : raw = 0 <;> simp [zero, bitNumber]
    rw [read, checked_eq_iff declared stored.1]
    have bit : Fits (min src.intBits 64) (if raw = 0 then 0 else 1) := by
      rcases slot_cases src with width | width | width <;> rw [width] <;> split <;> decide
    rw [word_of_fits some_bits bit]
    split <;> omega
  · have slot_fits := stored.2
    obtain ⟨wide, small⟩ := widened_toNat nonneg stored.2
    have whole : ((raw.toNat : Nat) : Int) = raw := Int.toNat_of_nonneg nonneg
    have below : raw.toNat < 2 ^ n ↔ raw < 2 ^ n := by
      rw [← Int.ofNat_lt, whole]
      push_cast
      rfl
    simp only [single, false_or, ComesBack, convertToBit, if_false]
    rcases slot_cases src with width | width | width
    · rw [width] at slot_fits ⊢
      simp only [show ¬(32 : Nat) = 64 by decide, if_false, if_true, Option.some.injEq,
        exists_eq_left', convertFromBit_eq]
      rw [checked_eq_iff declared stored.1, bitNumber_unpacked narrow, small width, width]
      have kept := @word_mod_iff 32 n (by decide) raw.toNat (whole ▸ slot_fits)
      rw [whole] at kept
      simp only [show min 32 64 = 32 from rfl, kept, below, show 32 ≤ 64 by decide, and_true]
    · rw [width] at slot_fits ⊢
      simp only [if_true, Option.some.injEq, exists_eq_left', convertFromBit_eq]
      rw [checked_eq_iff declared stored.1, bitNumber_unpacked narrow, wide width, width]
      have kept := @word_mod_iff 64 n (by decide) raw.toNat (whole ▸ slot_fits)
      rw [whole] at kept
      simp only [show min 64 64 = 64 from rfl, kept, below, show 64 ≤ 64 by decide, and_true]
    · rw [width]
      simp

theorem zero_digits : constDigits 0 = 1 := by decide

theorem integer_slots {wideIval ival : Int} (nonneg : 0 ≤ ival) (long : ival < 2 ^ 63) :
    let ty := literalTy ⟨.intLit, wideIval, ival, 0, 0, untyped⟩
    (ty.intBits ≤ 64 → Fits ty.intBits ival) ∧ (ty.intBits = 128 → wideIval ≠ 0) := by
  obtain ⟨p, tier, many⟩ : ∃ p : Int,
      (if wideIval ≠ ival then Ty.fixedDec (constDigits (BitVec.ofInt 128 wideIval)) 0
        else Ty.fixedDec (if 99999 < ival ∨ ival < -99999 then 15 else 5) 0) = Ty.fixedDec p 0 ∧
      (18 < p → wideIval ≠ 0) := by
    by_cases apart : wideIval ≠ ival
    · refine ⟨_, if_pos apart, ?_⟩
      rintro many rfl
      rw [show BitVec.ofInt 128 0 = 0 from rfl, zero_digits] at many
      omega
    · refine ⟨_, if_neg apart, fun many => ?_⟩
      split at many <;> omega
  simp only [literalTy, tier]
  split
  · have slot : (bin 63 0).intBits = 64 := rfl
    rw [slot]
    exact ⟨fun _ => ⟨by omega, by omega⟩, fun wide => by omega⟩
  · rename_i inside
    refine ⟨fun narrow => ?_, fun wide => many ((fixedDec_wide p 0).mp wide)⟩
    rcases slot_cases (Ty.fixedDec p 0) with width | width | width
    · rw [width]
      have small : ival ≤ 2147483647 := by
        by_contra large
        exact inside ⟨width, Or.inl (by omega)⟩
      exact ⟨by omega, by omega⟩
    · rw [width]
      exact ⟨by omega, by omega⟩
    · omega

theorem literal_register {base : Nat} {text : List Byte} (digits : ∀ c ∈ text, digit c < base) :
    let lit := (Literal.integer base text digits).parse
    0 ≤ lit.ival ∧ ((literalTy lit).intBits ≤ 64 →
      emitLiteral lit (literalTy lit) = lit.ival ∧ Fits (literalTy lit).intBits lit.ival) ∧
      (emitLiteral lit (literalTy lit) ≠ 0 ↔ lit.ival ≠ 0) := by
  intro lit
  obtain ⟨saturated, whole⟩ := PliNumericConstant.int_forms digits
  change lit.ival = min (positional base text : Int) (2 ^ 63 - 1) at saturated
  change lit.wideIval = word 128 (positional base text) at whole
  have nonneg : 0 ≤ lit.ival := by omega
  obtain ⟨holds, wide⟩ := @integer_slots lit.wideIval lit.ival nonneg (by omega)
  have narrow : (literalTy lit).intBits ≤ 64 →
      emitLiteral lit (literalTy lit) = lit.ival ∧ Fits (literalTy lit).intBits lit.ival := by
    intro slot
    have slim : ¬(literalTy lit).intBits = 128 := by omega
    refine ⟨?_, holds slot⟩
    simp only [emitLiteral, needsWideDecLit, show lit.kind = .intLit from rfl, slim, decide_false,
      Bool.false_eq_true, if_false]
    exact word_of_fits (intBits_pos _) (holds slot)
  refine ⟨nonneg, narrow, ?_⟩
  rcases slot_cases (literalTy lit) with width | width | width
  · rw [(narrow (by omega)).1]
  · rw [(narrow (by omega)).1]
  · have register : emitLiteral lit (literalTy lit) = lit.wideIval := by
      simp only [emitLiteral, needsWideDecLit, show lit.kind = .intLit from rfl, width, decide_true,
        if_true]
    have some_wide := wide width
    rw [register]
    refine iff_of_true some_wide fun zero => some_wide ?_
    have none : positional base text = 0 := by omega
    rw [whole, none]
    rfl

theorem initial_iff {base : Nat} {text : List Byte} (digits : ∀ c ∈ text, digit c < base) {n : Nat}
    (narrow : n ≤ 64) :
    assignedBytes (Literal.integer base text digits).parse n =
        some (initialBytes (Literal.integer base text digits).parse n) ↔
      n = 1 ∨ ((literalTy (Literal.integer base text digits).parse).intBits ≤ 64 ∧
        (8 ∣ n ∨ 2 ^ (8 * bitBytes n) ∣ (Literal.integer base text digits).parse.ival)) := by
  obtain ⟨nonneg, held, zero⟩ := literal_register digits
  generalize (Literal.integer base text digits).parse = lit at nonneg held zero ⊢
  by_cases single : n = 1
  · subst single
    refine iff_of_true ?_ (Or.inl rfl)
    simp only [assignedBytes, convertToBit, initialBytes, if_true, Option.map_some,
      Option.some.injEq]
    congr 2
    exact decide_eq_decide.mpr zero
  · have packed : initialBytes lit n = toBytes (bitBytes n) (BitVec.ofInt 64 lit.ival).toNat := by
      rw [initialBytes, if_neg single, packBitInit, lowBytes_eq]
    have moved (x : BitVec 64) (same : x.toNat = lit.ival.toNat)
        (low : (BitVec.ofInt 64 lit.ival).toNat = lit.ival.toNat) :
        unpackBitValue x n = initialBytes lit n ↔
          8 ∣ n ∨ 2 ^ (8 * bitBytes n) ∣ lit.ival := by
      obtain ⟨room, tight⟩ := @bitBytes_bits n
      have still : 8 * bitBytes n - n = 0 ↔ 8 ∣ n := by unfold bitBytes; omega
      have divides : (2 ^ (8 * bitBytes n) : Int) ∣ lit.ival ↔
        2 ^ (8 * bitBytes n) ∣ lit.ival.toNat := by
        rw [← Int.natCast_dvd_natCast, Int.toNat_of_nonneg nonneg]
        push_cast
        rfl
      rw [packed, unpackBitValue_eq, toBytes_eq_iff, pow_256, same, low,
        Nat.mod_mod_of_dvd _ (Nat.pow_dvd_pow 2 (by omega)), eq_comm, justified_iff, still, divides]
    simp only [assignedBytes, convertToBit, single, if_false, false_or]
    rcases slot_cases (literalTy lit) with width | width | width
    · obtain ⟨register, fits⟩ := held (by omega)
      have fits64 := fits_mono (show (literalTy lit).intBits ≤ 64 by omega) fits
      rw [register, width]
      simp only [show ¬(32 : Nat) =
        64 by decide, if_false, if_true, Option.map_some, Option.some.injEq,
        BitReg.stored, show 32 ≤ 64 by decide, true_and]
      exact moved _ ((widened_toNat nonneg fits).2 width)
        ((@widened_toNat ⟨.fixedBin, 63, 0, false⟩ _ nonneg fits64).1 rfl)
    · obtain ⟨register, fits⟩ := held (by omega)
      have low := (widened_toNat nonneg fits).1 width
      rw [register, width]
      simp only [if_true, Option.map_some, Option.some.injEq, BitReg.stored, Nat.le_refl, true_and]
      exact moved _ low low
    · rw [width]
      simp

/-- Each of the three conversions, and when it keeps the value. -/
theorem bit_conversions_iff {n : Nat} (some_bits : 1 ≤ n) (narrow : n ≤ 64) :
    (∀ (dst : Ty) (sval : List Bool), Declared dst → sval.length = n →
      (ExactAt dst (required dst (binary sval)) (convertFromBit (emitBitLit sval n) n dst) ↔
        ReadFits dst (binary sval))) ∧
    (∀ (src : Ty) (raw : Int), Declared src → Stored src raw → 0 ≤ value src raw →
      value src raw < 2 ^ n →
      (ComesBack src raw n ↔ raw < 2 ^ n ∧ (n = 1 ∨ src.intBits ≤ 64))) ∧
    ∀ (base : Nat) (text : List Byte) (digits : ∀ c ∈ text, digit c < base),
      (assignedBytes (Literal.integer base text digits).parse n =
          some (initialBytes (Literal.integer base text digits).parse n) ↔
        n = 1 ∨ ((literalTy (Literal.integer base text digits).parse).intBits ≤ 64 ∧
          (8 ∣ n ∨ 2 ^ (8 * bitBytes n) ∣ (Literal.integer base text digits).parse.ival))) := by
  refine ⟨fun dst sval declared whole => read_iff declared some_bits narrow whole,
    fun src raw declared stored nonneg _ => comesBack_iff declared narrow stored ?_,
    fun base text digits => initial_iff digits narrow⟩
  by_contra negative
  have below : (raw : ℚ) < 0 := by exact_mod_cast Int.lt_of_not_ge negative
  have power : (0 : ℚ) < (base src : ℚ) ^ (-src.scale) :=
    zpow_pos (by exact_mod_cast base_pos src) _
  have : value src raw < 0 := mul_neg_of_neg_of_pos below power
  linarith

def five : Literal := .integer 10 [ch '5'] (by decide +kernel)

/-- '101'B is 5 and 5 comes back from BIT(3), and INITIAL(5) on a BIT(16) is the assignment of 5. -/
theorem bit_conversions_five :
    ExactAt (bin 31 0) (required (bin 31 0) (binary [true, false, true]))
        (convertFromBit (emitBitLit [true, false, true] 3) 3 (bin 31 0)) ∧
      ComesBack (bin 31 0) 5 3 ∧ assignedBytes five.parse 16 =
        some (initialBytes five.parse 16) := by
  have due : required (bin 31 0) (binary [true, false, true]) = 5 :=
    required_whole (by norm_num [binary, bin, PliFixedConvert.base])
  have reads : ReadFits (bin 31 0) (binary [true, false, true]) := by
    rw [ReadFits, due, if_pos (by decide)]
    exact Or.inr (Or.inl (by decide))
  obtain ⟨read, back, initial⟩ := @bit_conversions_iff 3 (by decide) (by decide)
  exact ⟨(read (bin 31 0) [true, false, true] (by decide) rfl).mpr reads,
    (back (bin 31 0) 5 (by decide) (by decide) (by simp [PliFixedConvert.value, bin])
      (by norm_num [PliFixedConvert.value, bin])).mpr (by decide),
    ((@bit_conversions_iff 16 (by decide) (by decide)).2.2 10 [ch '5'] (by decide +kernel)).mpr
      (by decide)⟩

/-- '11'B in DECIMAL(5,2) is 0.03, 0.5 in DECIMAL(5,1) comes back from BIT(1) as 0.1, and
    INITIAL(5) on a BIT(12) stores other bytes than the assignment of 5. -/
theorem bit_scale_lost :
    (convertFromBit (emitBitLit [true, true] 2) 2 (Ty.fixedDec 5 2) = ⟨3, false⟩ ∧
      ¬ExactAt (Ty.fixedDec 5 2) (required (Ty.fixedDec 5 2) (binary [true, true]))
        (convertFromBit (emitBitLit [true, true] 2) 2 (Ty.fixedDec 5 2))) ∧
    ¬ComesBack (Ty.fixedDec 5 1) 5 1 ∧
    initialBytes five.parse 12 = [0x00, 0x05] ∧
    assignedBytes five.parse 12 = some [0x00, 0x50] := by
  have read : convertFromBit (emitBitLit [true, true] 2) 2 (Ty.fixedDec 5 2) = ⟨3, false⟩ := by
    decide +kernel
  have due : required (Ty.fixedDec 5 2) (binary [true, true]) = 300 := by
    refine required_whole ?_
    rw [base_decimal rfl]
    norm_num [binary, Ty.fixedDec]
  refine ⟨⟨read, ?_⟩, ?_, by decide +kernel, by decide +kernel⟩
  · rintro ⟨-, arrives⟩
    rw [read, due] at arrives
    exact absurd (arrives (by decide)) (by decide)
  · rintro ⟨v, written, back⟩
    cases written
    exact absurd back (by decide +kernel)

end PliBitNumbers
