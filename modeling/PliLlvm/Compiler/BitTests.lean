import PliLlvm.Compiler.BitNumbers

/- Masked tests of BIT strings, (X & M) = E, and their conjunctions (src/irgen.cpp,
   src/irgen_decisions.cpp). A digit of a literal is a Bool. A result of none is a diagnosed
   program, or a rewriting that declines. -/
namespace PliBitTests
open PliFixedConvert PliInitialValue PliBitNumbers BigEndian

def Fits (len : Nat) : BitReg → Prop
  | .i1 _ => len = 1
  | .agg bytes => 2 ≤ len ∧ bytes.length = bitBytes len

structure BitVal where
  len : Nat
  reg : BitReg
  fits : Fits len reg

def flag (b : Bool) : BitVal := ⟨1, .i1 b, rfl⟩

def BitVal.bytes (v : BitVal) : List (BitVec 8) :=
  match v.reg with
  | .i1 _ => []
  | .agg bytes => bytes

def BitVal.toI1 (v : BitVal) : Bool :=
  match v.reg with
  | .i1 b => b
  | .agg _ => false

theorem BitVal.bytes_length (v : BitVal) (wide : 1 < v.len) : v.bytes.length = bitBytes v.len := by
  obtain ⟨len, reg, fits⟩ := v
  cases reg with
  | i1 b =>
    have single : len = 1 := fits
    exact absurd wide (by simp [single])
  | agg bytes => exact fits.2

theorem BitVal.number_eq (v : BitVal) (wide : 1 < v.len) :
    bitNumber v.reg v.len = packBitValue v.bytes v.len := by
  obtain ⟨len, reg, fits⟩ := v
  cases reg with
  | i1 b =>
    have single : len = 1 := fits
    exact absurd wide (by simp [single])
  | agg bytes => rfl

theorem packBitLiteral_length (s : List Bool) (n : Nat) :
    (packBitLiteral s n).length = bitBytes n :=
  (packLoop_value s (bitBytes n) n bitBytes_bits.1).1

def litVal (s : List Bool) : BitVal :=
  ⟨max 1 s.length, emitBitLit s (max 1 s.length), by
    unfold emitBitLit
    split
    · rename_i single
      exact single
    · exact ⟨by omega, packBitLiteral_length _ _⟩⟩

def byteAnd (x y : BitVal) (wide : 1 < x.len) (same : x.len = y.len) : BitVal :=
  ⟨x.len, .agg (List.zipWith (· &&& ·) x.bytes y.bytes), wide, by
    rw [List.length_zipWith, x.bytes_length wide, y.bytes_length (by omega), ← same, Nat.min_self]⟩

def unpackNarrow (intval : BitVec 32) (nbits : Nat) : List (BitVec 8) :=
  let left := intval <<< (8 * bitBytes nbits - nbits)
  (List.range (bitBytes nbits)).map fun k => (left >>> (8 * (bitBytes nbits - 1 - k))).setWidth 8

def packedAnd (x y : BitVal) (wide : 1 < x.len) : BitVal :=
  let xp := packBitValue x.bytes x.len
  let yp := packBitValue y.bytes y.len
  if x.len ≤ 32 then
    ⟨x.len, .agg (unpackNarrow (xp.setWidth 32 &&& yp.setWidth 32) x.len), wide,
      by simp [unpackNarrow]⟩
  else ⟨x.len, .agg (unpackBitValue (xp &&& yp) x.len), wide, by simp [unpackBitValue]⟩

def emitAmp (optimize : Bool) (x y : BitVal) : Option BitVal :=
  if wide : 1 < x.len ∨ 1 < y.len then
    if same : x.len = y.len then
      if x.len ≤ 64 ∧ optimize then some (packedAnd x y (by omega))
      else some (byteAnd x y (by omega) same)
    else none
  else some (flag (x.toI1 && y.toI1))

def compared (v : BitVal) : Converted := convertFromBit v.reg v.len (bin 63 0)

def emitCmp (ne : Bool) (x y : BitVal) : Option BitVal :=
  if 64 < x.len ∨ 64 < y.len then none
  else some (flag (xor ne (decide ((compared x).raw = (compared y).raw))))

/-- `for (i = 0; i < nbits; ++i) v = (v << 1) | bit;` -/
def litWord (bits : List Bool) : BitVec 64 :=
  bits.foldl (fun v b => v <<< 1 ||| if b then 1 else 0) 0

def bitLitToU64 (bits : List Bool) (nbits : Nat) : Option (BitVec 64) :=
  if nbits = 0 ∨ 64 < nbits ∨ bits.length ≠ nbits then none else some (litWord bits)

def mergeLoop : List Bool → List Bool → List Bool → List Bool → Option (List Bool × List Bool)
  | m1 :: mask1, w1 :: want1, m2 :: mask2, w2 :: want2 =>
    if m1 && m2 then none
    else if (w1 && !m1) || (w2 && !m2) then none
    else (mergeLoop mask1 want1 mask2 want2).map fun (mask, want) =>
      ((m1 || m2) :: mask, (w1 || w2) :: want)
  | _, _, _, _ => some ([], [])

def mergeBitTests (mask1 want1 mask2 want2 : List Bool) : Option (List Bool × List Bool) :=
  if mask1.length ≠ mask2.length ∨ mask1.length ≠ want1.length ∨ mask1.length ≠ want2.length then
    none
  else mergeLoop mask1 want1 mask2 want2

structure Ref where
  sym : Nat
  memberPath : List String
  locPtr : Option Nat

/-- The BIT expressions the tests are made of; `other` is any other one. -/
inductive BitExpr where
  | ref (r : Ref)
  | other (id : Nat)
  | lit (sval : List Bool)
  | amp (a b : BitExpr)
  | cmp (ne : Bool) (a b : BitExpr)

structure Env where
  ref : Ref → BitVal
  other : Nat → BitVal

def BitExpr.len (env : Env) : BitExpr → Nat
  | .ref r => (env.ref r).len
  | .other id => (env.other id).len
  | .lit sval => max 1 sval.length
  | .amp a b => if 1 < a.len env ∨ 1 < b.len env then a.len env else 1
  | .cmp _ _ _ => 1

structure Policy where
  optimize : Bool
  bitMerge : Bool
  bitTest : Bool

def packedTest (x : BitVal) (maskVal wantVal : BitVec 64) : Bool :=
  let xp := packBitValue x.bytes x.len
  if x.len ≤ 32 then decide (xp.setWidth 32 &&& maskVal.setWidth 32 = wantVal.setWidth 32)
  else decide (xp &&& maskVal = wantVal)

def parseSide (env : Env) : BitExpr → Option (Ref × List Bool × List Bool)
  | .cmp false (.amp (.ref r) (.lit mask)) (.lit want) =>
    if (env.ref r).len ≤ 1 then none
    else if max 1 mask.length ≠ (env.ref r).len ∨ max 1 want.length ≠ (env.ref r).len then none
    else if mask.length ≠ (env.ref r).len ∨ want.length ≠ (env.ref r).len then none
    else some (r, mask, want)
  | _ => none

def emitCombinedBitTest (p : Policy) (env : Env) (a b : BitExpr) : Option BitVal :=
  (parseSide env a).bind fun (r1, mask1, want1) =>
    (parseSide env b).bind fun (r2, mask2, want2) =>
      if r1.sym ≠ r2.sym ∨ r1.memberPath ≠ r2.memberPath ∨ r1.locPtr.isSome ∨ r2.locPtr.isSome then
        none
      else if (env.ref r1).len ≠ (env.ref r2).len then none
      else
        (mergeBitTests mask1 want1 mask2 want2).bind fun (mask, want) =>
          if p.bitMerge then none
          else
            let x := env.ref r1
            (bitLitToU64 mask x.len).bind fun maskVal =>
              (bitLitToU64 want x.len).bind fun wantVal =>
                if !p.optimize then
                  let masked := List.zipWith (· &&& ·) x.bytes (packBitLiteral mask x.len)
                  some (flag (decide (packBitValue masked x.len =
                    packBitValue (packBitLiteral want x.len) x.len)))
                else some (flag (packedTest x maskVal wantVal))

def maskedSides (a b : BitExpr) : Option (BitExpr × BitExpr × List Bool) :=
  match a, b with
  | .amp l r, .lit want => some (l, r, want)
  | .lit want, .amp l r => some (l, r, want)
  | _, _ => none

def maskedOperands (a b : BitExpr) : Option (BitExpr × List Bool × List Bool) :=
  match maskedSides a b with
  | some (value, .lit mask, want) => some (value, mask, want)
  | some (.lit mask, value, want) => some (value, mask, want)
  | _ => none

def emitMaskedBitTest (p : Policy) (ne : Bool) (nbits : Nat) (mask want : List Bool) (x : BitVal) :
    Option BitVal :=
  if nbits < 2 ∨ 64 < nbits then none
  else if max 1 mask.length ≠ nbits ∨ max 1 want.length ≠ nbits then none
  else
    (bitLitToU64 mask nbits).bind fun maskVal =>
      (bitLitToU64 want nbits).bind fun wantVal =>
        if !p.optimize then none
        else if p.bitTest then none
        else if x.len ≠ nbits then none
        else some (flag (xor ne (packedTest x maskVal wantVal)))

variable {a b : BitExpr} {want : List Bool}

theorem maskedSides_cases {l r : BitExpr} (found : maskedSides a b = some (l, r, want)) :
    (a = .amp l r ∧ b = .lit want) ∨ (a = .lit want ∧ b = .amp l r) := by
  unfold maskedSides at found
  split at found
  · cases found
    exact Or.inl ⟨rfl, rfl⟩
  · cases found
    exact Or.inr ⟨rfl, rfl⟩
  · cases found

def Masked (value : BitExpr) (mask want : List Bool) (a b : BitExpr) : Prop :=
  ∃ side, (side = .amp value (.lit mask) ∨ side = .amp (.lit mask) value) ∧
    ((a = side ∧ b = .lit want) ∨ (a = .lit want ∧ b = side))

variable {value : BitExpr} {mask : List Bool}

theorem maskedOperands_cases
    (found : maskedOperands a b = some (value, mask, want)) : Masked value mask want a b := by
  unfold maskedOperands at found
  split at found
  · rename_i sides
    cases found
    exact ⟨_, Or.inl rfl, maskedSides_cases sides⟩
  · rename_i sides
    cases found
    exact ⟨_, Or.inr rfl, maskedSides_cases sides⟩
  · cases found

theorem masked_smaller
    (found : Masked value mask want a b) : sizeOf value < sizeOf a + sizeOf b := by
  obtain ⟨side, rfl | rfl, ⟨rfl, rfl⟩ | ⟨rfl, rfl⟩⟩ := found <;> simp <;> omega

def emitExpr (p : Policy) (env : Env) : BitExpr → Option BitVal
  | .ref r => some (env.ref r)
  | .other id => some (env.other id)
  | .lit sval => some (litVal sval)
  | .amp a b =>
    (emitCombinedBitTest p env a b).or
      ((emitExpr p env a).bind fun x => (emitExpr p env b).bind fun y => emitAmp p.optimize x y)
  | .cmp ne a b =>
    (match _found : maskedOperands a b with
      | none => none
      | some (value, mask, want) =>
        (emitExpr p env value).bind (emitMaskedBitTest p ne (value.len env) mask want)).or
      ((emitExpr p env a).bind fun x => (emitExpr p env b).bind fun y => emitCmp ne x y)
termination_by e => sizeOf e
decreasing_by
  · simp; omega
  · simp
  · have := masked_smaller (maskedOperands_cases _found)
    simp
    omega
  · simp; omega
  · simp

def byteExpr (env : Env) : BitExpr → Option BitVal
  | .ref r => some (env.ref r)
  | .other id => some (env.other id)
  | .lit sval => some (litVal sval)
  | .amp a b => (byteExpr env a).bind fun x => (byteExpr env b).bind fun y => emitAmp false x y
  | .cmp ne a b => (byteExpr env a).bind fun x => (byteExpr env b).bind fun y => emitCmp ne x y

theorem shiftIn_and (xs ys : List (BitVec 8)) (acc acc' : BitVec 64)
    (same : xs.length = ys.length) :
    (List.zipWith (· &&& ·) xs ys).foldl (fun (acc : BitVec 64) byte =>
      acc <<< 8 ||| byte.setWidth 64)
        (acc &&& acc') =
      xs.foldl (fun (acc : BitVec 64) byte => acc <<< 8 ||| byte.setWidth 64) acc &&&
        ys.foldl (fun (acc : BitVec 64) byte => acc <<< 8 ||| byte.setWidth 64) acc' := by
  induction xs generalizing ys acc acc' with
  | nil =>
    rw [List.length_eq_zero_iff.mp same.symm]
    rfl
  | cons x xs ih =>
    obtain ⟨y, rest, rfl⟩ := List.exists_cons_of_length_eq_add_one same.symm
    have step : (acc &&& acc') <<< 8 ||| (x &&& y).setWidth 64 =
        (acc <<< 8 ||| x.setWidth 64) &&& (acc' <<< 8 ||| y.setWidth 64) := by
      refine BitVec.eq_of_getLsbD_eq fun j inside => ?_
      by_cases low : j < 8
      · simp [low, inside]
      · simp [low, inside, BitVec.getLsbD_of_ge x j (by omega), BitVec.getLsbD_of_ge y j (by omega)]
    rw [List.zipWith_cons_cons, List.foldl_cons, List.foldl_cons, List.foldl_cons, step,
      ih rest _ _ (Nat.succ.inj same)]

theorem packBitValue_and {xs ys : List (BitVec 8)} (n : Nat) (same : xs.length = ys.length) :
    packBitValue (List.zipWith (· &&& ·) xs ys) n = packBitValue xs n &&& packBitValue ys n := by
  have joined := shiftIn_and xs ys 0 0 same
  rw [BitVec.and_self] at joined
  rw [packBitValue, packBitValue, packBitValue, joined]
  refine BitVec.eq_of_getLsbD_eq fun j inside => ?_
  simp

theorem litWord_snoc (s : List Bool) (b : Bool) :
    litWord (s ++ [b]) = litWord s <<< 1 ||| if b then 1 else 0 := by
  rw [litWord, List.foldl_append]
  rfl

variable {s : List Bool}

theorem litWord_toNat (small : s.length ≤ 64) : (litWord s).toNat = binary s := by
  induction s using List.reverseRecOn with
  | nil => rfl
  | append_singleton s b ih =>
    rw [List.length_append, List.length_singleton] at small
    have front := binary_lt s
    have power : 2 ^ s.length ≤ 2 ^ 63 := Nat.pow_le_pow_right (by decide) (by omega)
    have digit : ((if b then 1 else 0 : BitVec 64)).toNat = b.toNat := by cases b <;> rfl
    rw [litWord_snoc, binary_snoc, BitVec.toNat_or, BitVec.toNat_shiftLeft, ih (by omega), digit,
      Nat.shiftLeft_eq, Nat.mod_eq_of_lt (by omega), Nat.mul_comm,
      ← Nat.two_pow_add_eq_or_of_lt (show b.toNat < 2 ^ 1 from b.toNat_lt)]

theorem litWord_getLsbD (small : s.length ≤ 64) (j : Nat) :
    (litWord s).getLsbD j = (decide (j < s.length) && s.getD (s.length - 1 - j) false) := by
  induction s using List.reverseRecOn generalizing j with
  | nil => simp [litWord]
  | append_singleton s b ih =>
    rw [List.length_append, List.length_singleton] at small
    rw [litWord_snoc, List.length_append, List.length_singleton, BitVec.getLsbD_or,
      BitVec.getLsbD_shiftLeft]
    cases j with
    | zero => cases b <;> simp
    | succ j =>
      have digit : ((if b then 1 else 0 : BitVec 64)).getLsbD (j + 1) = false := by
        cases b <;> simp
      have before : (s ++ [b]).getD (s.length + 1 - 1 - (j + 1)) false =
          if j < s.length then s.getD (s.length - 1 - j) false
          else (s ++ [b]).getD (s.length + 1 - 1 - (j + 1)) false := by
        split
        · rw [List.getD_append _ _ _ _ (by omega)]
          congr 1
          omega
        · rfl
      rw [digit, Nat.add_sub_cancel, ih (by omega) j, Bool.or_false, before]
      by_cases inside : j < s.length
      · have room : j + 1 < 64 := by omega
        simp [inside, room]
      · simp [inside]

variable {n : Nat}

theorem packBitLiteral_word (narrow : n ≤ 64) (whole : s.length = n) :
    packBitValue (packBitLiteral s n) n = litWord s := by
  have room := @bitBytes_bits n
  obtain ⟨length, value⟩ := packBitLiteral_value whole
  refine BitVec.eq_of_toNat_eq ?_
  rw [packBitValue_toNat (by omega), value, Nat.mul_div_cancel _ (Nat.two_pow_pos _),
    litWord_toNat (by omega)]

theorem litVal_number {s : List Bool} (some_bits : 1 ≤ s.length) (narrow : s.length ≤ 64) :
    bitNumber (litVal s).reg (litVal s).len = litWord s := by
  have size : (litVal s).len = s.length := Nat.max_eq_right some_bits
  refine BitVec.eq_of_toNat_eq ?_
  have literal := bitNumber_literal some_bits narrow rfl
  rw [size, litWord_toNat narrow, ← literal]
  show (bitNumber (emitBitLit s (max 1 s.length)) s.length).toNat = _
  rw [Nat.max_eq_right some_bits]

theorem packBitValue_lt {agg : List (BitVec 8)} (narrow : n ≤ 64)
    (sized : agg.length = bitBytes n) : (packBitValue agg n).toNat < 2 ^ n := by
  obtain ⟨room, tight⟩ := @bitBytes_bits n
  have whole := ofBytes_lt agg
  rw [sized, pow_256, show 8 * bitBytes n = n + (8 * bitBytes n - n) by omega, Nat.pow_add] at whole
  rw [packBitValue_toNat (by omega)]
  exact Nat.div_lt_of_lt_mul (by rw [Nat.mul_comm]; exact whole)

theorem unpackNarrow_eq (narrow : n ≤ 32) (v : BitVec 32) :
    unpackNarrow v n = unpackBitValue (v.setWidth 64) n := by
  obtain ⟨room, tight⟩ := @bitBytes_bits n
  have bound : 8 * bitBytes n ≤ 32 := by unfold bitBytes; omega
  refine List.map_congr_left fun k member => BitVec.eq_of_getLsbD_eq fun j inside => ?_
  have within := List.mem_range.mp member
  have low : 8 * (bitBytes n - 1 - k) + j < 32 := by omega
  by_cases before : 8 * (bitBytes n - 1 - k) + j < 8 * bitBytes n - n
  · simp [inside, before]
  · have index : 8 * (bitBytes n - 1 - k) + j - (8 * bitBytes n - n) < 32 := by omega
    have wide : 8 * (bitBytes n - 1 - k) + j < 64 := by omega
    have word : 8 * (bitBytes n - 1 - k) + j - (8 * bitBytes n - n) < 64 := by omega
    simp [inside, before, low, wide, BitVec.getLsbD_eq_getElem index]

variable {x y : BitVal}

theorem packedAnd_number (wide : 1 < x.len) (same : x.len = y.len) (narrow : x.len ≤ 64) :
    bitNumber (packedAnd x y wide).reg x.len = bitNumber (byteAnd x y wide same).reg x.len := by
  have sizes : x.bytes.length = y.bytes.length := by
    rw [x.bytes_length wide, y.bytes_length (by omega), same]
  have bytewise : bitNumber (byteAnd x y wide same).reg x.len =
      packBitValue x.bytes x.len &&& packBitValue y.bytes y.len := by
    rw [← same]
    exact packBitValue_and x.len sizes
  have small := packBitValue_lt narrow (x.bytes_length wide)
  have below : (packBitValue x.bytes x.len &&& packBitValue y.bytes y.len).toNat < 2 ^ x.len := by
    rw [BitVec.toNat_and]
    exact Nat.lt_of_le_of_lt Nat.and_le_left small
  have back (v : BitVec 64) (fits : v.toNat < 2 ^ x.len) :
      packBitValue (unpackBitValue v x.len) x.len = v := by
    refine BitVec.eq_of_toNat_eq ?_
    rw [bits_come_back narrow, Nat.mod_eq_of_lt fits]
  rw [bytewise]
  simp only [packedAnd]
  split
  · rename_i half
    have power : 2 ^ x.len ≤ 2 ^ 32 := Nat.pow_le_pow_right (by decide) half
    show packBitValue (unpackNarrow _ x.len) x.len = _
    rw [unpackNarrow_eq half, ← BitVec.setWidth_and]
    have kept :
        ((packBitValue x.bytes x.len &&& packBitValue y.bytes y.len).setWidth 32).setWidth 64 =
          packBitValue x.bytes x.len &&& packBitValue y.bytes y.len := by
      refine BitVec.eq_of_toNat_eq ?_
      rw [BitVec.toNat_setWidth, BitVec.toNat_setWidth, Nat.mod_eq_of_lt (by omega),
        Nat.mod_eq_of_lt (by omega)]
    rw [kept]
    exact back _ below
  · exact back _ below

def Same (v w : BitVal) : Prop :=
  v.len = w.len ∧ (v.len ≤ 64 → bitNumber v.reg v.len = bitNumber w.reg w.len) ∧
    (64 < v.len → v.reg = w.reg)

theorem Same.self (v : BitVal) : Same v v := ⟨rfl, fun _ => rfl, fun _ => rfl⟩

variable {v w : BitVal}

theorem Same.numbers (same : Same v w) (narrow : v.len ≤ 64) :
    bitNumber v.reg v.len = bitNumber w.reg w.len := same.2.1 narrow

theorem Same.toI1 (same : Same v w) (single : v.len ≤ 1) : v.toI1 = w.toI1 := by
  obtain ⟨len, reg, fits⟩ := v
  obtain ⟨len', reg', fits'⟩ := w
  obtain ⟨lens, numbers, -⟩ := same
  simp only at lens numbers single
  subst lens
  cases reg with
  | agg bytes =>
    have wide : 2 ≤ len := fits.1
    omega
  | i1 b =>
    cases reg' with
    | agg bytes =>
      have wide : 2 ≤ len := fits'.1
      omega
    | i1 b' =>
      have equal : (if b then (1 : BitVec 64) else 0) = if b' then 1 else 0 := numbers (by omega)
      show b = b'
      revert equal
      cases b <;> cases b' <;> decide

theorem emitAmp_bytes {optimize : Bool} {x y : BitVal} (wide : 1 < x.len) (same : x.len = y.len)
    (long : ¬(x.len ≤ 64 ∧ optimize = true)) :
    emitAmp optimize x y = some (byteAnd x y wide same) := by
  rw [emitAmp, dif_pos (Or.inl wide), dif_pos same, if_neg long]

theorem emitAmp_packed (wide : 1 < x.len) (same : x.len = y.len)
    (narrow : x.len ≤ 64) : emitAmp true x y = some (packedAnd x y wide) := by
  rw [emitAmp, dif_pos (Or.inl wide), dif_pos same, if_pos ⟨narrow, rfl⟩]

theorem emitAmp_apart {optimize : Bool} (wide : 1 < x.len ∨ 1 < y.len)
    (apart : x.len ≠ y.len) : emitAmp optimize x y = none := by
  rw [emitAmp, dif_pos wide, dif_neg apart]

theorem emitAmp_flags {optimize : Bool} (narrow : ¬(1 < x.len ∨ 1 < y.len)) :
    emitAmp optimize x y = some (flag (x.toI1 && y.toI1)) := by
  rw [emitAmp, dif_neg narrow]

theorem byteAnd_number (wide : 1 < x.len) (same : x.len = y.len) :
    bitNumber (byteAnd x y wide same).reg x.len =
      bitNumber x.reg x.len &&& bitNumber y.reg y.len := by
  have sizes : x.bytes.length = y.bytes.length := by
    rw [x.bytes_length wide, y.bytes_length (by omega), same]
  rw [x.number_eq wide, y.number_eq (by omega), ← same]
  exact packBitValue_and x.len sizes

theorem byteAnd_same {x' y' : BitVal} (left : Same x x') (right : Same y y') (wide : 1 < x.len)
    (same : x.len = y.len) (wide' : 1 < x'.len) (same' : x'.len = y'.len) :
    Same (byteAnd x y wide same) (byteAnd x' y' wide' same') := by
  refine ⟨left.1, fun narrow => ?_, fun long => ?_⟩
  · have narrow' : x.len ≤ 64 := narrow
    show bitNumber (byteAnd x y wide same).reg x.len =
      bitNumber (byteAnd x' y' wide' same').reg x'.len
    rw [byteAnd_number, byteAnd_number, left.numbers narrow', right.numbers (by omega)]
  · have long' : 64 < x.len := long
    have first := left.2.2 long'
    have second := right.2.2 (show 64 < y.len by omega)
    simp only [byteAnd, BitVal.bytes, first, second]

theorem emitAmp_same (optimize : Bool) {x y x' y' : BitVal} (left : Same x x') (right : Same y y') :
    Option.Rel Same (emitAmp optimize x y) (emitAmp false x' y') := by
  have lens := left.1
  have lens' := right.1
  by_cases wide : 1 < x.len ∨ 1 < y.len
  · by_cases same : x.len = y.len
    · have wide' : 1 < x.len := by omega
      have bytewise := byteAnd_same left right wide' same (by omega) (by omega)
      rw [@emitAmp_bytes false x' y' (by omega) (by omega) (by simp)]
      by_cases packed : x.len ≤ 64 ∧ optimize = true
      · obtain ⟨narrow, rfl⟩ := packed
        have size : (packedAnd x y wide').len = x.len := by
          simp only [packedAnd]
          split <;> rfl
        rw [emitAmp_packed wide' same narrow]
        refine .some ⟨size.trans lens, fun _ => ?_, fun long => by omega⟩
        rw [size, packedAnd_number wide' same narrow]
        exact bytewise.2.1 narrow
      · rw [emitAmp_bytes wide' same packed]
        exact .some bytewise
    · rw [emitAmp_apart wide same, emitAmp_apart (by omega) (by omega)]
      exact .none
  · rw [emitAmp_flags wide, emitAmp_flags (by omega), left.toI1 (by omega), right.toI1 (by omega)]
    exact .some (Same.self _)

theorem compared_same (same : Same v w) (narrow : v.len ≤ 64) : compared v = compared w := by
  unfold compared convertFromBit
  rw [same.numbers narrow]

theorem emitCmp_same (ne : Bool) {x y x' y' : BitVal} (left : Same x x') (right : Same y y') :
    emitCmp ne x y = emitCmp ne x' y' := by
  unfold emitCmp
  rw [← left.1, ← right.1]
  by_cases long : 64 < x.len ∨ 64 < y.len
  · rw [if_pos long, if_pos long]
  · rw [if_neg long, if_neg long, compared_same left (by omega), compared_same right (by omega)]

theorem emitCmp_numbers (ne : Bool) {x y : BitVal} (left : x.len ≤ 64) (right : y.len ≤ 64) :
    emitCmp ne x y =
      some (flag (xor ne (decide (bitNumber x.reg x.len = bitNumber y.reg y.len)))) := by
  have number (v : BitVal) : (compared v).raw = (bitNumber v.reg v.len).toInt := rfl
  rw [emitCmp, if_neg (by omega), number, number]
  congr 3
  exact decide_eq_decide.mpr BitVec.toInt_inj

def BitVal.bit (v : BitVal) (i : Nat) : Bool :=
  match v.reg with
  | .i1 b => decide (i = 0) && b
  | .agg bytes => decide (i < v.len) && (bytes.getD (i / 8) 0).getLsbD (7 - i % 8)

def Holds (x : Nat → Bool) (mask want : List Bool) : Prop :=
  ∀ i, (x i && mask.getD i false) = want.getD i false

theorem shiftIn_getLsbD {bytes : List (BitVec 8)} (small : bytes.length ≤ 8) {j : Nat}
    (inside : j < 8 * bytes.length) :
    (bytes.foldl (fun (acc : BitVec 64) byte => acc <<< 8 ||| byte.setWidth 64) 0).getLsbD j =
      (bytes.getD (bytes.length - 1 - j / 8) 0).getLsbD (j % 8) := by
  induction bytes using List.reverseRecOn generalizing j with
  | nil => simp at inside
  | append_singleton bytes b ih =>
    rw [List.length_append, List.length_singleton] at small inside ⊢
    rw [List.foldl_append, List.foldl_cons, List.foldl_nil, BitVec.getLsbD_or,
      BitVec.getLsbD_shiftLeft, BitVec.getLsbD_setWidth]
    have word : j < 64 := by omega
    by_cases low : j < 8
    · have last : bytes.length + 1 - 1 - j / 8 = bytes.length := by omega
      rw [last, Nat.mod_eq_of_lt low]
      simp [low, word]
    · have place : bytes.length + 1 - 1 - j / 8 = bytes.length - 1 - (j - 8) / 8 := by omega
      have column : (j - 8) % 8 = j % 8 := by omega
      rw [place, List.getD_append _ _ _ _ (by omega), ← column, ← ih (by omega) (by omega),
        BitVec.getLsbD_of_ge b j (by omega)]
      simp [low, word]

theorem number_bit {v : BitVal} (wide : 1 < v.len) (narrow : v.len ≤ 64) {i : Nat}
    (inside : i < v.len) : (bitNumber v.reg v.len).getLsbD (v.len - 1 - i) = v.bit i := by
  obtain ⟨room, tight⟩ := @bitBytes_bits v.len
  have sized := v.bytes_length wide
  have bit_eq : v.bit i = (v.bytes.getD (i / 8) 0).getLsbD (7 - i % 8) := by
    obtain ⟨len, reg, fits⟩ := v
    cases reg with
    | i1 b =>
      have single : len = 1 := fits
      exact absurd wide (by simp [single])
    | agg bytes => simp [BitVal.bit, BitVal.bytes, inside]
  have place : 8 * bitBytes v.len - v.len + (v.len - 1 - i) = 8 * bitBytes v.len - 1 - i := by omega
  have byte : bitBytes v.len - 1 - (8 * bitBytes v.len - 1 - i) / 8 = i / 8 := by omega
  have column : (8 * bitBytes v.len - 1 - i) % 8 = 7 - i % 8 := by omega
  rw [v.number_eq wide, packBitValue, BitVec.getLsbD_ushiftRight, place,
    shiftIn_getLsbD (by omega) (by omega), sized, byte, column, bit_eq]

theorem masked_iff (wide : 1 < v.len) (narrow : v.len ≤ 64)
    (masks : mask.length = v.len) (wants : want.length = v.len) :
    bitNumber v.reg v.len &&& litWord mask = litWord want ↔ Holds v.bit mask want := by
  constructor
  · intro equal i
    by_cases inside : i < v.len
    · have at_bit := congrArg (BitVec.getLsbD · (v.len - 1 - i)) equal
      simp only [BitVec.getLsbD_and, litWord_getLsbD (show mask.length ≤ 64 by omega),
        litWord_getLsbD (show want.length ≤ 64 by omega), number_bit wide narrow inside, masks,
        wants] at at_bit
      have back : v.len - 1 - (v.len - 1 - i) = i := by omega
      have below : v.len - 1 - i < v.len := by omega
      simpa [back, below] using at_bit
    · rw [List.getD_eq_default _ _ (by omega), List.getD_eq_default _ _ (by omega), Bool.and_false]
  · intro holds
    refine BitVec.eq_of_getLsbD_eq fun j inside => ?_
    rw [BitVec.getLsbD_and, litWord_getLsbD (by omega), litWord_getLsbD (by omega), masks, wants]
    by_cases below : j < v.len
    · have bit := @number_bit v wide narrow (v.len - 1 - j) (by omega)
      have back : v.len - 1 - (v.len - 1 - j) = j := by omega
      have here := holds (v.len - 1 - j)
      rw [back] at bit
      rw [bit]
      simpa [below] using here
    · simp [below]

variable {mask1 want1 mask2 want2 : List Bool}

theorem mergeLoop_sound (size1 : mask1.length = want1.length) (size2 : mask1.length = mask2.length)
    (size3 : mask1.length = want2.length)
    (merged : mergeLoop mask1 want1 mask2 want2 = some (mask, want)) (x : Nat → Bool) :
    mask.length = mask1.length ∧ want.length = mask1.length ∧
      (Holds x mask1 want1 ∧ Holds x mask2 want2 ↔ Holds x mask want) := by
  induction mask1 generalizing want1 mask2 want2 mask want x with
  | nil =>
    rw [List.length_eq_zero_iff.mp size1.symm, List.length_eq_zero_iff.mp size2.symm,
      List.length_eq_zero_iff.mp size3.symm] at merged ⊢
    cases merged
    exact ⟨rfl, rfl, and_self_iff⟩
  | cons m1 mask1 ih =>
    obtain ⟨w1, want1, rfl⟩ := List.exists_cons_of_length_eq_add_one size1.symm
    obtain ⟨m2, mask2, rfl⟩ := List.exists_cons_of_length_eq_add_one size2.symm
    obtain ⟨w2, want2, rfl⟩ := List.exists_cons_of_length_eq_add_one size3.symm
    have unfolds (y : Nat → Bool) (m w : Bool) (ms ws : List Bool) :
        Holds y (m :: ms) (w :: ws) ↔ (y 0 && m) = w ∧ Holds (fun i => y (i + 1)) ms ws := by
      constructor
      · intro holds
        exact ⟨by simpa using holds 0, fun i => by simpa using holds (i + 1)⟩
      · rintro ⟨first, later⟩ i
        cases i with
        | zero => simpa using first
        | succ i => simpa using later i
    rw [mergeLoop] at merged
    split at merged
    · cases merged
    · split at merged
      · cases merged
      · rename_i apart expected
        obtain ⟨⟨mask', want'⟩, rest, joined⟩ := Option.map_eq_some_iff.mp merged
        cases joined
        obtain ⟨masks, wants, both⟩ := ih (Nat.succ.inj size1) (Nat.succ.inj size2)
          (Nat.succ.inj size3) rest (fun i => x (i + 1))
        refine ⟨by rw [List.length_cons, masks, List.length_cons],
          by rw [List.length_cons, wants, List.length_cons], ?_⟩
        rw [unfolds, unfolds, unfolds, ← both]
        have first : ((x 0 && m1) = w1 ∧ (x 0 && m2) = w2) ↔ (x 0 && (m1 || m2)) = (w1 || w2) := by
          revert apart expected
          cases x 0 <;> cases m1 <;> cases w1 <;> cases m2 <;> cases w2 <;> decide
        rw [← first]
        exact ⟨fun h => ⟨⟨h.1.1, h.2.1⟩, h.1.2, h.2.2⟩, fun h => ⟨⟨h.1.1, h.2.1⟩, h.1.2, h.2.2⟩⟩

def Outside (mask want : List Bool) : Prop := ∃ i, want.getD i false = true ∧
    mask.getD i false = false

theorem outside_never (outside : Outside mask want) (x : Nat → Bool) : ¬Holds x mask want := by
  obtain ⟨i, wanted, unmasked⟩ := outside
  intro holds
  have here := holds i
  rw [wanted, unmasked, Bool.and_false] at here
  cases here

theorem mergeLoop_refuses (refused : mergeLoop mask1 want1 mask2 want2 = none) :
    (∃ i, mask1.getD i false = true ∧ mask2.getD i false = true) ∨
      Outside mask1 want1 ∨ Outside mask2 want2 := by
  induction mask1, want1, mask2, want2 using mergeLoop.induct with
  | case1 m1 mask1 w1 want1 m2 mask2 w2 want2 overlap =>
    obtain ⟨first, second⟩ := Bool.and_eq_true_iff.mp overlap
    exact Or.inl ⟨0, first, second⟩
  | case2 m1 mask1 w1 want1 m2 mask2 w2 want2 apart outside =>
    rcases Bool.or_eq_true_iff.mp outside with left | right
    · obtain ⟨wanted, unmasked⟩ := Bool.and_eq_true_iff.mp left
      exact Or.inr (Or.inl ⟨0, wanted, by simpa using unmasked⟩)
    · obtain ⟨wanted, unmasked⟩ := Bool.and_eq_true_iff.mp right
      exact Or.inr (Or.inr ⟨0, wanted, by simpa using unmasked⟩)
  | case3 m1 mask1 w1 want1 m2 mask2 w2 want2 apart expected ih =>
    rw [mergeLoop, if_neg apart, if_neg expected, Option.map_eq_none_iff] at refused
    rcases ih refused with ⟨i, both⟩ | ⟨i, outside⟩ | ⟨i, outside⟩
    · exact Or.inl ⟨i + 1, both⟩
    · exact Or.inr (Or.inl ⟨i + 1, outside⟩)
    · exact Or.inr (Or.inr ⟨i + 1, outside⟩)
  | case4 mask1 want1 mask2 want2 short =>
    rw [mergeLoop] at refused
    · cases refused
    · exact short

theorem mergeBitTests_sizes (merged : mergeBitTests mask1 want1 mask2 want2 = some (mask, want)) :
    (mask1.length = want1.length ∧ mask1.length = mask2.length ∧ mask1.length = want2.length) ∧
      mergeLoop mask1 want1 mask2 want2 = some (mask, want) := by
  rw [mergeBitTests] at merged
  split at merged
  · cases merged
  · exact ⟨⟨by omega, by omega, by omega⟩, merged⟩

def verdict (ne : Bool) (x : BitVal) (mask want : List Bool) : BitVal :=
  flag (xor ne (decide (bitNumber x.reg x.len &&& litWord mask = litWord want)))

theorem verdict_same (same : Same x y) (narrow : x.len ≤ 64) (ne : Bool)
    (mask want : List Bool) : verdict ne x mask want = verdict ne y mask want := by
  rw [verdict, verdict, same.numbers narrow]

theorem packedTest_eq (wide : 1 < x.len) (narrow : x.len ≤ 64)
    (masks : mask.length = x.len) (wants : want.length = x.len) :
    packedTest x (litWord mask) (litWord want) =
      decide (bitNumber x.reg x.len &&& litWord mask = litWord want) := by
  rw [x.number_eq wide]
  simp only [packedTest]
  split
  · rename_i half
    have power : 2 ^ x.len ≤ 2 ^ 32 := Nat.pow_le_pow_right (by decide) half
    have mask_lt := binary_lt mask
    have want_lt := binary_lt want
    rw [masks, ← litWord_toNat (by omega)] at mask_lt
    rw [wants, ← litWord_toNat (by omega)] at want_lt
    have masked_lt : (packBitValue x.bytes x.len &&& litWord mask).toNat < 2 ^ 32 := by
      rw [BitVec.toNat_and]
      exact Nat.lt_of_le_of_lt Nat.and_le_right (by omega)
    refine decide_eq_decide.mpr ?_
    rw [← BitVec.setWidth_and, ← BitVec.toNat_inj, ← BitVec.toNat_inj, BitVec.toNat_setWidth,
      BitVec.toNat_setWidth, Nat.mod_eq_of_lt masked_lt, Nat.mod_eq_of_lt (by omega)]
  · rfl

variable {env : Env}

theorem byteExpr_masked
    (shape : Masked value mask want a b) (read : byteExpr env value = some x) (wide : 1 < x.len)
    (narrow : x.len ≤ 64) (masks : mask.length = x.len) (wants : want.length = x.len) (ne : Bool) :
    byteExpr env (.cmp ne a b) = some (verdict ne x mask want) := by
  have mask_len : (litVal mask).len = x.len := by
    show max 1 mask.length = _
    omega
  have want_len : (litVal want).len = x.len := by
    show max 1 want.length = _
    omega
  have mask_number := @litVal_number mask (by omega) (by omega)
  have want_number := @litVal_number want (by omega) (by omega)
  have side_read (side : BitExpr) (either : side = .amp value (.lit mask) ∨
      side = .amp (.lit mask) value) : ∃ v, byteExpr env side = some v ∧ v.len = x.len ∧
        bitNumber v.reg v.len = bitNumber x.reg x.len &&& litWord mask := by
    rcases either with rfl | rfl
    · refine ⟨byteAnd x (litVal mask) wide mask_len.symm, ?_, rfl, ?_⟩
      · rw [byteExpr, read, byteExpr, Option.bind_some, Option.bind_some]
        exact emitAmp_bytes wide mask_len.symm (by simp)
      · exact (byteAnd_number wide mask_len.symm).trans (by rw [mask_number])
    · refine ⟨byteAnd (litVal mask) x (by omega) mask_len, ?_, mask_len, ?_⟩
      · rw [byteExpr, read, byteExpr, Option.bind_some, Option.bind_some]
        exact emitAmp_bytes (by omega) mask_len (by simp)
      · refine (byteAnd_number (by omega) mask_len).trans ?_
        rw [mask_number, BitVec.and_comm]
  obtain ⟨side, either, placed⟩ := shape
  obtain ⟨v, side_value, size, number⟩ := side_read side either
  rcases placed with ⟨rfl, rfl⟩ | ⟨rfl, rfl⟩
  · rw [byteExpr, side_value, byteExpr, Option.bind_some, Option.bind_some,
      emitCmp_numbers ne (by omega) (by omega), number, want_number]
    rfl
  · rw [byteExpr, side_value, byteExpr, Option.bind_some, Option.bind_some,
      emitCmp_numbers ne (by omega) (by omega), number, want_number, verdict]
    congr 3
    exact decide_eq_decide.mpr eq_comm

theorem bitLitToU64_some {bits : List Bool} {nbits : Nat} {v : BitVec 64}
    (made : bitLitToU64 bits nbits = some v) :
    0 < nbits ∧ nbits ≤ 64 ∧ bits.length = nbits ∧ v = litWord bits := by
  rw [bitLitToU64] at made
  split at made
  · cases made
  · cases made
    exact ⟨by omega, by omega, by omega, rfl⟩

theorem emitMaskedBitTest_some {p : Policy} {ne : Bool} {nbits : Nat}
    (made : emitMaskedBitTest p ne nbits mask want x = some v) :
    1 < x.len ∧ x.len ≤ 64 ∧ mask.length = x.len ∧ want.length = x.len ∧
      v = verdict ne x mask want := by
  rw [emitMaskedBitTest] at made
  split at made
  · cases made
  · split at made
    · cases made
    · obtain ⟨maskVal, first, made⟩ := Option.bind_eq_some_iff.mp made
      obtain ⟨wantVal, second, made⟩ := Option.bind_eq_some_iff.mp made
      obtain ⟨-, narrow, masks, rfl⟩ := bitLitToU64_some first
      obtain ⟨-, -, wants, rfl⟩ := bitLitToU64_some second
      split at made
      · cases made
      · split at made
        · cases made
        · split at made
          · cases made
          · rename_i size
            have size : x.len = nbits := not_not.mp size
            rw [packedTest_eq (by omega) (by omega) (by omega) (by omega)] at made
            cases made
            exact ⟨by omega, by omega, by omega, by omega, rfl⟩

theorem parseSide_some {e : BitExpr} {r : Ref} (parsed : parseSide env e = some (r, mask, want)) :
    e = .cmp false (.amp (.ref r) (.lit mask)) (.lit want) ∧ 1 < (env.ref r).len ∧
      mask.length = (env.ref r).len ∧ want.length = (env.ref r).len := by
  unfold parseSide at parsed
  split at parsed
  · split at parsed
    · cases parsed
    · split at parsed
      · cases parsed
      · split at parsed
        · cases parsed
        · cases parsed
          exact ⟨rfl, by omega, by omega, by omega⟩
  · cases parsed

theorem emitCombinedBitTest_some {p : Policy}
    (made : emitCombinedBitTest p env a b = some v) : byteExpr env (.amp a b) = some v := by
  rw [emitCombinedBitTest] at made
  obtain ⟨⟨r1, mask1, want1⟩, left, one_side⟩ := Option.bind_eq_some_iff.mp made
  obtain ⟨⟨r2, mask2, want2⟩, right, both_sides⟩ := Option.bind_eq_some_iff.mp one_side
  clear made one_side
  obtain ⟨rfl, wide, masks1, wants1⟩ := parseSide_some left
  obtain ⟨rfl, -, masks2, wants2⟩ := parseSide_some right
  simp only at both_sides
  split at both_sides
  · cases both_sides
  · rename_i one_value
    have same : r1 = r2 := by
      obtain ⟨sym, path, loc⟩ := r1
      obtain ⟨sym', path', loc'⟩ := r2
      simp only [ne_eq, not_or, not_not, Bool.not_eq_true, Option.isSome_eq_false_iff,
        Option.isNone_iff_eq_none] at one_value
      obtain ⟨rfl, rfl, rfl, rfl⟩ := one_value
      rfl
    subst same
    rw [if_neg (by simp)] at both_sides
    obtain ⟨⟨mask, want⟩, merged, lowered⟩ := Option.bind_eq_some_iff.mp both_sides
    simp only at lowered
    split at lowered
    · cases lowered
    · obtain ⟨maskVal, first, half⟩ := Option.bind_eq_some_iff.mp lowered
      obtain ⟨wantVal, second, made⟩ := Option.bind_eq_some_iff.mp half
      obtain ⟨-, narrow, masks, rfl⟩ := bitLitToU64_some first
      obtain ⟨-, -, wants, rfl⟩ := bitLitToU64_some second
      have decided : v = verdict false (env.ref r1) mask want := by
        split at made
        · have sizes : (env.ref r1).bytes.length =
            (packBitLiteral mask (env.ref r1).len).length := by
            rw [(env.ref r1).bytes_length wide, packBitLiteral_length]
          rw [packBitValue_and _ sizes, packBitLiteral_word narrow masks,
            packBitLiteral_word narrow wants, ← (env.ref r1).number_eq wide] at made
          cases made
          rw [verdict, Bool.false_xor]
        · rw [packedTest_eq wide narrow masks wants] at made
          cases made
          rw [verdict, Bool.false_xor]
      obtain ⟨⟨size1, size2, size3⟩, loop⟩ := mergeBitTests_sizes merged
      have both := (mergeLoop_sound size1 size2 size3 loop (env.ref r1).bit).2.2
      rw [← masked_iff wide narrow masks1 wants1, ← masked_iff wide narrow masks2 wants2,
        ← masked_iff wide narrow masks wants] at both
      have read : byteExpr env (.ref r1) = some (env.ref r1) := rfl
      rw [byteExpr, byteExpr_masked ⟨_, Or.inl rfl,
        Or.inl ⟨rfl, rfl⟩⟩ read wide narrow masks1 wants1,
        byteExpr_masked ⟨_, Or.inl rfl, Or.inl ⟨rfl, rfl⟩⟩ read wide narrow masks2 wants2, decided]
      simp only [Option.bind_some, verdict, Bool.false_xor]
      rw [emitAmp_flags (by simp [flag])]
      show some (flag (decide _ && decide _)) = _
      rw [← Bool.decide_and, decide_eq_decide.mpr both]

section OptionRel
variable {α : Type} {r : α → α → Prop}

theorem optionRel_self (self : ∀ x, r x x) (o : Option α) : Option.Rel r o o := by
  cases o with
  | none => exact .none
  | some x => exact .some (self x)

theorem optionRel_some {x : α} {o : Option α} (related : Option.Rel r (some x) o) :
    ∃ y, o = some y ∧ r x y := by
  cases related with
  | some same => exact ⟨_, rfl, same⟩

theorem optionRel_bind {o o' : Option α} {f f' : α → Option α} (related : Option.Rel r o o')
    (each : ∀ x y, r x y → Option.Rel r (f x) (f' y)) : Option.Rel r (o.bind f) (o'.bind f') := by
  cases related with
  | none => exact .none
  | some same => exact each _ _ same

end OptionRel

theorem emitExpr_same (p : Policy) (env : Env) :
    (e : BitExpr) → Option.Rel Same (emitExpr p env e) (byteExpr env e)
  | .ref r | .other id | .lit sval => by
    rw [emitExpr, byteExpr]
    exact .some (Same.self _)
  | .amp a b => by
    have left := emitExpr_same p env a
    have right := emitExpr_same p env b
    rw [emitExpr]
    cases combined : emitCombinedBitTest p env a b with
    | some v =>
      rw [Option.some_or, emitCombinedBitTest_some combined]
      exact .some (Same.self _)
    | none =>
      rw [Option.none_or, byteExpr]
      exact optionRel_bind left fun _ _ first => optionRel_bind right fun _ _ second =>
        emitAmp_same p.optimize first second
  | .cmp ne a b => by
    have left := emitExpr_same p env a
    have right := emitExpr_same p env b
    have general : Option.Rel Same
        ((emitExpr p env a).bind fun x => (emitExpr p env b).bind fun y => emitCmp ne x y)
        (byteExpr env (.cmp ne a b)) := by
      rw [byteExpr]
      refine optionRel_bind left fun _ _ first => optionRel_bind right fun _ _ second => ?_
      rw [emitCmp_same ne first second]
      exact optionRel_self Same.self _
    rw [emitExpr]
    split
    · rw [Option.none_or]
      exact general
    · rename_i value mask want found
      have shape := maskedOperands_cases found
      have smaller := masked_smaller shape
      have tested := emitExpr_same p env value
      cases lowered : (emitExpr p env value).bind
          (emitMaskedBitTest p ne (value.len env) mask want) with
      | none =>
        rw [Option.none_or]
        exact general
      | some v =>
        obtain ⟨x, read, made⟩ := Option.bind_eq_some_iff.mp lowered
        obtain ⟨wide, narrow, masks, wants, rfl⟩ := emitMaskedBitTest_some made
        rw [read] at tested
        obtain ⟨y, read', same⟩ := optionRel_some tested
        rw [Option.some_or, byteExpr_masked shape read' (by have := same.1; omega)
          (by have := same.1; omega) (masks.trans same.1) (wants.trans same.1) ne,
          verdict_same same narrow]
        exact .some (Same.self _)
termination_by e => sizeOf e
decreasing_by
  all_goals simp
  all_goals omega

/-- Merging is sound. A merged test holds of just the strings both tests hold of; two tests
    of one size are refused where their masks overlap, or where no string satisfies both. The
    byte-array path decides a test by its bits, and the emitted code has that path's value in
    every nest of tests. -/
theorem bit_tests_sound :
    (∀ mask1 want1 mask2 want2 mask want,
      mergeBitTests mask1 want1 mask2 want2 = some (mask, want) →
        ∀ x, Holds x mask1 want1 ∧ Holds x mask2 want2 ↔ Holds x mask want) ∧
    (∀ mask1 want1 mask2 want2, mergeBitTests mask1 want1 mask2 want2 = none →
      mask1.length = want1.length → mask1.length = mask2.length → mask1.length = want2.length →
        (∃ i, mask1.getD i false = true ∧ mask2.getD i false = true) ∨
          ∀ x, ¬(Holds x mask1 want1 ∧ Holds x mask2 want2)) ∧
    (∀ env value a b mask want ne x, Masked value mask want a b → byteExpr env value = some x →
      1 < x.len → x.len ≤ 64 → mask.length = x.len → want.length = x.len →
        ∃ t, byteExpr env (.cmp ne a b) = some (flag (xor ne t)) ∧
          (t = true ↔ Holds x.bit mask want)) ∧
    ∀ p env e, Option.Rel Same (emitExpr p env e) (byteExpr env e) := by
  refine ⟨?_, ?_, ?_, emitExpr_same⟩
  · intro mask1 want1 mask2 want2 mask want merged x
    obtain ⟨⟨size1, size2, size3⟩, loop⟩ := mergeBitTests_sizes merged
    exact (mergeLoop_sound size1 size2 size3 loop x).2.2
  · intro mask1 want1 mask2 want2 refused size1 size2 size3
    rw [mergeBitTests, if_neg (by omega)] at refused
    rcases mergeLoop_refuses refused with overlap | outside | outside
    · exact Or.inl overlap
    · exact Or.inr fun x both => outside_never outside x both.1
    · exact Or.inr fun x both => outside_never outside x both.2
  · intro env value a b mask want ne x shape read wide narrow masks wants
    refine ⟨_, byteExpr_masked shape read wide narrow masks wants ne, ?_⟩
    rw [decide_eq_true_iff]
    exact masked_iff wide narrow masks wants

def tenEnv : Env := ⟨fun _ => flag false, fun _ => litVal [true, false, true, false]⟩

/-- Two tests of '1010'B merged, two that are refused, and the byte path's word on the merged. -/
theorem bit_tests_of_ten :
    (∀ x, Holds x [false, false, true, true] [false, false, true, false] ∧
        Holds x [true, false, false, false] [true, false, false, false] ↔
      Holds x [true, false, true, true] [true, false, true, false]) ∧
    ((∃ i, [true, false].getD i false = true ∧ [false, true].getD i false = true) ∨
      ∀ x, ¬(Holds x [true, false] [true, true] ∧ Holds x [false, true] [false, true])) ∧
    ∃ t, byteExpr tenEnv (.cmp true (.amp (.other 0) (.lit [true, false, true, true]))
        (.lit [true, false, true, false])) = some (flag (xor true t)) ∧
      (t = true ↔ Holds (litVal [true, false, true, false]).bit [true, false, true, true]
        [true, false, true, false]) := by
  obtain ⟨merged, refused, decided, -⟩ := bit_tests_sound
  refine ⟨merged _ _ _ _ _ _ (by decide), refused _ _ _ _ (by decide) rfl rfl rfl, ?_⟩
  exact decided tenEnv (.other 0) _ _ _ _ true _ ⟨_, Or.inl rfl, Or.inl ⟨rfl, rfl⟩⟩ rfl (by decide)
    (by decide) rfl rfl

end PliBitTests
