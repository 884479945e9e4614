import PliLlvm.Runtime.RepeatCenter
import PliLlvm.Compiler.SubstrLowering

/- The code emitted for REPEAT, COPY and CENTER (src/irgen.cpp). A poison value is no
   result, as is a read or a write outside the operands. -/
namespace PliRepeat
open CheckedCells PliSubstr

def exactUDiv (a b : BitVec 64) : Option (BitVec 64) := if a % b = 0 then some (a / b) else none

def repLoop (dstcap : BitVec 64) (src : Buffer) (kN : BitVec 64) (dst : List UInt8)
    (k : BitVec 64) : Option (List UInt8) :=
  if kN ≤ k ∨ dstcap ≤ k * src.word then some dst
  else
    let room := dstcap - k * src.word
    let copyLen := if src.word ≤ room then src.word else room
    (move dst (k * src.word).toNat src.bytes 0 copyLen.toNat).bind fun dst =>
      repLoop dstcap src kN dst (k + 1)
termination_by kN.toNat - k.toNat
decreasing_by
  have := kN.isLt
  have more : ¬kN.toNat ≤ k.toNat := fun le => by simp_all [BitVec.le_def]
  rw [BitVec.toNat_add, show (1 : BitVec 64).toNat = 1 from rfl]
  omega

def emitRepeatLLVM (dst src : Buffer) (n : BitVec 64) : Option (List UInt8) :=
  (fill dst.bytes 0 blank dst.word.toNat).bind fun out =>
    if n ≤ 0 then some out else repLoop dst.word src n out 0

def emitCenterLLVM (dst src : Buffer) (w : BitVec 64) : Option (List UInt8) :=
  let wClamped := if w.slt 0 then 0 else w
  let field := umin wClamped dst.word
  let take := umin src.word field
  (exactUDiv (field - take) 2).bind fun left =>
    (fill dst.bytes 0 blank left.toNat).bind fun out =>
      (move out left.toNat src.bytes 0 take.toNat).bind fun out =>
        let padStart := left + take
        let padLen := if padStart < dst.word then dst.word - padStart else 0
        fill out padStart.toNat blank padLen.toNat

theorem repeated_zero (src : List UInt8) (cap : Nat) :
    repeated src 0 cap = List.replicate cap blank := by
  simp [repeated]

variable {src : List UInt8} {cap : Nat}

theorem repeated_full {n m : Nat} (enough : cap ≤ n * src.length)
    (more : n ≤ m) : repeated src m cap = repeated src n cap := by
  have larger : n * src.length ≤ m * src.length := Nat.mul_le_mul_right _ more
  refine List.ext_getElem? fun i => ?_
  by_cases inside : i < cap
  · rw [repeated_get inside, repeated_get inside, if_pos (by omega), if_pos (by omega)]
  · rw [List.getElem?_eq_none (by rw [repeated_length]; omega),
      List.getElem?_eq_none (by rw [repeated_length]; omega)]

theorem repeated_succ {k : Nat} (room : k * src.length < cap) :
    splice (repeated src k cap) (k * src.length)
        ((src.drop 0).take (min src.length (cap - k * src.length))) =
      repeated src (k + 1) cap := by
  have next : (k + 1) * src.length = k * src.length + src.length := Nat.succ_mul _ _
  have size := repeated_length src k cap
  have copied : ((src.drop 0).take (min src.length (cap - k * src.length))).length =
      min src.length (cap - k * src.length) := by
    rw [List.length_take, List.drop_zero]
    omega
  refine List.ext_getElem? fun i => ?_
  by_cases inside : i < cap
  · rw [repeated_get inside]
    by_cases here : k * src.length ≤ i ∧ i < k * src.length + src.length
    · obtain ⟨j, rfl⟩ := Nat.exists_eq_add_of_le here.1
      have column : (k * src.length + j) % src.length = j := by
        rw [Nat.mul_comm, Nat.mul_add_mod]
        exact Nat.mod_eq_of_lt (by omega)
      rw [splice_inside (by omega) (by omega), List.getElem?_take_of_lt (by omega), List.drop_zero,
        if_pos (by omega), column, List.getD_eq_getElem?_getD, List.getElem?_eq_getElem (by omega),
        Option.getD_some]
    · rw [splice_outside (by omega) (by omega), repeated_get inside]
      by_cases before : i < k * src.length
      · rw [if_pos before, if_pos (by omega)]
      · rw [if_neg before, if_neg (by omega)]
  · rw [List.getElem?_eq_none (by rw [splice_length (by omega)]; omega),
      List.getElem?_eq_none (by rw [repeated_length]; omega)]

theorem repLoop_spec {dst src : Buffer} {n k : BitVec 64} (part : k.toNat ≤ n.toNat)
    (reached : k.toNat * src.bytes.length < 2 ^ 64) :
    repLoop dst.word src n (repeated src.bytes k.toNat dst.bytes.length) k =
      some (repeated src.bytes n.toNat dst.bytes.length) := by
  have cap_small := dst.small
  have src_small := src.small
  have off : (k * src.word).toNat = k.toNat * src.bytes.length := by
    rw [BitVec.toNat_mul, src.word_toNat, Nat.mod_eq_of_lt reached]
  induction left : n.toNat - k.toNat generalizing k with
  | zero =>
    have ended : k.toNat = n.toNat := by omega
    rw [repLoop, if_pos (Or.inl (by rw [BitVec.le_def]; omega)), ended]
  | succ m ih =>
    by_cases full : dst.bytes.length ≤ k.toNat * src.bytes.length
    · rw [repLoop, if_pos (Or.inr (by rw [BitVec.le_def, off, dst.word_toNat]; exact full)),
        repeated_full full part]
    · have more : ¬(n ≤ k ∨ dst.word ≤ k * src.word) := by
        rw [BitVec.le_def, BitVec.le_def, off, dst.word_toNat]
        omega
      have room : (dst.word - k * src.word).toNat =
          dst.bytes.length - k.toNat * src.bytes.length := by
        rw [BitVec.toNat_sub_of_le (by rw [BitVec.le_def, off, dst.word_toNat]; omega), off,
          dst.word_toNat]
      have copyLen : (if src.word ≤ dst.word - k * src.word then src.word
          else dst.word - k * src.word).toNat =
            min src.bytes.length (dst.bytes.length - k.toNat * src.bytes.length) := by
        split
        · rename_i fits
          rw [BitVec.le_def, room, src.word_toNat] at fits
          rw [src.word_toNat]
          omega
        · rename_i fits
          rw [BitVec.le_def, room, src.word_toNat] at fits
          rw [room]
          omega
      have step : (k + 1).toNat = k.toNat + 1 := by
        have := n.isLt
        rw [BitVec.toNat_add, show (1 : BitVec 64).toNat = 1 from rfl]
        omega
      have next : (k.toNat + 1) * src.bytes.length =
          k.toNat * src.bytes.length + src.bytes.length := Nat.succ_mul _ _
      have later : (k + 1).toNat * src.bytes.length < 2 ^ 64 := by
        rw [step]
        omega
      have later_off : ((k + 1) * src.word).toNat = (k + 1).toNat * src.bytes.length := by
        rw [BitVec.toNat_mul, src.word_toNat, Nat.mod_eq_of_lt later]
      have done := @ih (k + 1) (by omega) later later_off (by omega)
      rw [repLoop, if_neg more]
      simp only [copyLen, off]
      rw [move_inside (Or.inl (by omega)) (Or.inl (by rw [repeated_length]; omega)),
        Option.bind_some, repeated_succ (by omega), ← step]
      exact done

theorem emitRepeatLLVM_spec (dst src : Buffer) (n : BitVec 64) :
    emitRepeatLLVM dst src n = some (repeated src.bytes n.toNat dst.bytes.length) := by
  have blanked : splice dst.bytes 0 (List.replicate dst.bytes.length blank) =
      repeated src.bytes (0 : BitVec 64).toNat dst.bytes.length := by
    rw [show (0 : BitVec 64).toNat = 0 from rfl, repeated_zero]
    simp [splice]
  rw [emitRepeatLLVM, dst.word_toNat, fill_inside _ (Or.inl (by omega)), Option.bind_some, blanked]
  split
  · rename_i none_left
    have zero : n.toNat = 0 := Nat.le_zero.mp none_left
    rw [zero]
    rfl
  · exact repLoop_spec (Nat.zero_le _) (by simp)

theorem repeated_blank_iff {n : Nat} (enough : cap ≤ n * src.length) :
    repeated src n cap = List.replicate cap blank ↔ ∀ b ∈ src.take cap, b = blank := by
  constructor
  · intro same b member
    obtain ⟨i, here⟩ := List.mem_iff_getElem?.mp member
    obtain ⟨within, -⟩ := List.getElem?_eq_some_iff.mp here
    rw [List.length_take] at within
    rw [List.getElem?_take_of_lt (by omega)] at here
    have cell := congrArg (·[i]?) same
    simp only [repeated_get (show i < cap by omega), List.getElem?_replicate] at cell
    rw [if_pos (by omega), if_pos (by omega), Nat.mod_eq_of_lt (by omega),
      List.getD_eq_getElem?_getD, here] at cell
    exact Option.some.inj cell
  · intro blanks
    refine List.eq_replicate_iff.mpr ⟨repeated_length _ _ _, fun b member => ?_⟩
    obtain ⟨i, here⟩ := List.mem_iff_getElem?.mp member
    obtain ⟨within, -⟩ := List.getElem?_eq_some_iff.mp here
    rw [repeated_length] at within
    have some_source : 0 < src.length := by
      rcases Nat.eq_zero_or_pos src.length with empty | positive
      · rw [empty, Nat.mul_zero] at enough
        omega
      · exact positive
    have column := Nat.mod_lt i some_source
    have before := Nat.mod_le i src.length
    rw [repeated_get within, if_pos (by omega), List.getD_eq_getElem?_getD,
      List.getElem?_eq_getElem column, Option.getD_some] at here
    rw [← Option.some.inj here]
    refine blanks _ (List.mem_iff_getElem?.mpr ⟨i % src.length, ?_⟩)
    rw [List.getElem?_take_of_lt (by omega), List.getElem?_eq_getElem column]

theorem repeat_agrees_iff (dst src : Buffer) (n : BitVec 64) :
    emitRepeatLLVM dst src n = pliRepeat dst src n.toInt ↔
      0 ≤ n.toInt ∨ ∀ b ∈ src.bytes.take dst.bytes.length, b = blank := by
  have small := dst.small
  rw [emitRepeatLLVM_spec, pliRepeat_spec, Option.some.injEq]
  rcases toInt_cases n with ⟨signed, -⟩ | ⟨signed, large⟩
  · rw [signed, Int.toNat_natCast]
    exact ⟨fun _ => Or.inl (Int.natCast_nonneg _), fun _ => rfl⟩
  · have := n.isLt
    have negative : n.toInt.toNat = 0 := by omega
    rw [negative, repeated_zero]
    rcases Nat.eq_zero_or_pos src.bytes.length with empty | positive
    · have nothing : src.bytes = [] := List.length_eq_zero_iff.mp empty
      rw [nothing]
      refine ⟨fun _ => Or.inr fun b member => by simp at member, fun _ => ?_⟩
      simp [repeated]
    · have copies := Nat.mul_le_mul_left n.toNat positive
      rw [repeated_blank_iff (by omega)]
      exact ⟨Or.inr, fun blanks => blanks.resolve_left (by omega)⟩

def centerField (dst : Buffer) (w : BitVec 64) : Nat := min w.toInt.toNat dst.bytes.length

/-- The room around the centred source. -/
def centerExcess (dst src : Buffer) (w : BitVec 64) : Nat :=
  centerField dst w - min src.bytes.length (centerField dst w)

theorem exactUDiv_two (a : BitVec 64) :
    (a.toNat % 2 = 0 ∧ ∃ half, exactUDiv a 2 = some half ∧ half.toNat = a.toNat / 2) ∨
      (a.toNat % 2 = 1 ∧ exactUDiv a 2 = none) := by
  have rest : a % 2 = 0 ↔ a.toNat % 2 = 0 := by
    rw [← BitVec.toNat_inj, BitVec.toNat_umod]
    rfl
  rcases Nat.mod_two_eq_zero_or_one a.toNat with even | odd
  · exact Or.inl ⟨even, a / 2, if_pos (rest.mpr even), BitVec.toNat_udiv⟩
  · exact Or.inr ⟨odd, if_neg fun zero => by have := rest.mp zero; omega⟩

theorem emitCenterLLVM_spec (dst src : Buffer) (w : BitVec 64) :
    emitCenterLLVM dst src w =
      if centerExcess dst src w % 2 = 0 then
        some (centered src.bytes (centerField dst w) dst.bytes.length)
      else none := by
  have small := dst.small
  have within : centerField dst w ≤ dst.bytes.length := Nat.min_le_right _ _
  have clamped : (if w.slt 0 then (0 : BitVec 64) else w).toNat = w.toInt.toNat := by
    have zero : (0 : BitVec 64).toInt = 0 := rfl
    rcases toInt_cases w with ⟨signed, -⟩ | ⟨signed, -⟩
    · rw [if_neg (by rw [BitVec.slt, decide_eq_true_eq]; omega)]
      omega
    · have := w.isLt
      rw [if_pos (by rw [BitVec.slt, decide_eq_true_eq]; omega)]
      show 0 = _
      omega
  have field : (umin (if w.slt 0 then 0 else w) dst.word).toNat = centerField dst w := by
    rw [umin_toNat, clamped, dst.word_toNat, centerField]
  have take : (umin src.word (umin (if w.slt 0 then 0 else w) dst.word)).toNat =
      min src.bytes.length (centerField dst w) := by
    rw [umin_toNat, field, src.word_toNat]
  have excess : (umin (if w.slt 0 then 0 else w) dst.word -
      umin src.word (umin (if w.slt 0 then 0 else w) dst.word)).toNat = centerExcess dst src w := by
    rw [BitVec.toNat_sub_of_le (by rw [BitVec.le_def, take, field]; omega), take, field,
      centerExcess]
  have least : min src.bytes.length (centerField dst w) ≤ centerField dst w := Nat.min_le_right _ _
  have most : min src.bytes.length (centerField dst w) ≤ src.bytes.length := Nat.min_le_left _ _
  simp only [emitCenterLLVM, centered]
  unfold centerExcess at excess ⊢
  clear clamped
  generalize umin (if w.slt 0 then 0 else w) dst.word = fieldWord at field take excess ⊢
  generalize umin src.word fieldWord = takeWord at take excess ⊢
  generalize min src.bytes.length (centerField dst w) = m at take excess least most ⊢
  generalize centerField dst w = n at within field excess least ⊢
  have word := dst.word_toNat
  rcases exactUDiv_two (fieldWord - takeWord) with ⟨even, left, divided, half⟩ | ⟨odd, poison⟩
  · rw [excess] at even half
    have start : (left + takeWord).toNat = (n - m) / 2 + m := by
      rw [BitVec.toNat_add, half, take, Nat.mod_eq_of_lt (by omega)]
    have pad : (if left + takeWord < dst.word then dst.word - (left + takeWord)
        else (0 : BitVec 64)).toNat = dst.bytes.length - ((n - m) / 2 + m) := by
      rw [← start, ← word]
      split
      · rename_i less
        exact BitVec.toNat_sub_of_le (BitVec.le_of_lt less)
      · rename_i less
        have : ¬(left + takeWord).toNat < dst.word.toNat := less
        rw [Nat.sub_eq_zero_of_le (by omega)]
        rfl
    have lead : (List.replicate ((n - m) / 2) blank).length = (n - m) / 2 := List.length_replicate
    have fits : (n - m) / 2 + m ≤ dst.bytes.length := by omega
    have length : (padded src.bytes 0 m blank (dst.bytes.length - ((n - m) / 2 + m))).length =
        dst.bytes.length - (n - m) / 2 := by
      rw [padded_length _ _ (Or.inl (by omega))]
      omega
    rw [if_pos even]
    simp only [divided, Option.bind_some, half, take, start, pad]
    clear even half divided start pad excess field take word small
    have size : (splice dst.bytes 0 (List.replicate ((n - m) / 2) blank)).length =
        dst.bytes.length := splice_length (by rw [lead]; omega)
    rw [fill_inside _ (Or.inl (by omega)), Option.bind_some,
      move_fill blank (Or.inl (by omega)) (by rw [size]; omega)]
    have joined := @splice_splice _ dst.bytes (List.replicate ((n - m) / 2) blank)
      (padded src.bytes 0 m blank (dst.bytes.length - ((n - m) / 2 + m))) 0
      (by rw [lead, length]; omega)
    rw [lead, Nat.zero_add] at joined
    have whole : (List.replicate ((n - m) / 2) blank ++
        padded src.bytes 0 m blank (dst.bytes.length - ((n - m) / 2 + m))).length =
          dst.bytes.length := by
      rw [List.length_append, lead, length]
      omega
    rw [joined, splice, whole, Nat.zero_add, List.drop_length, List.take_zero, List.append_nil,
      List.nil_append, padded, List.drop_zero, List.append_assoc]
  · rw [excess] at odd
    rw [poison, if_neg (by omega)]
    rfl

/-- REPEAT and COPY agree with the runtime except on a negative count, which the inline
    code takes for a large one; CENTER agrees except where the room around the source is
    odd, where its exact division is poison. -/
theorem field_lowering_iff (dst src : Buffer) (n w : BitVec 64) :
    (emitRepeatLLVM dst src n).isSome ∧
      (emitRepeatLLVM dst src n = pliRepeat dst src n.toInt ↔
        0 ≤ n.toInt ∨ ∀ b ∈ src.bytes.take dst.bytes.length, b = blank) ∧
      (emitCenterLLVM dst src w = pliCenter dst src w.toInt ↔ centerExcess dst src w % 2 = 0) := by
  refine ⟨by rw [emitRepeatLLVM_spec]; rfl, repeat_agrees_iff dst src n, ?_⟩
  rw [emitCenterLLVM_spec, pliCenter_spec]
  constructor
  · intro same
    by_contra odd
    rw [if_neg odd] at same
    cases same
  · intro even
    rw [if_pos even, centerField]

/-- CENTER('abc', 6) divides 3 by 2 exactly; COPY('ab', -1) in five bytes is blank from the
    runtime and 'ababa' from the inline code. -/
theorem odd_center_negative_repeat :
    emitCenterLLVM ⟨[0, 0, 0, 0, 0, 0], by decide⟩ ⟨[97, 98, 99], by decide⟩ 6 = none ∧
      pliCenter ⟨[0, 0, 0, 0, 0, 0], by decide⟩ ⟨[97, 98, 99], by decide⟩ (6 : BitVec 64).toInt =
        some [32, 97, 98, 99, 32, 32] ∧
      emitRepeatLLVM ⟨[0, 0, 0, 0, 0], by decide⟩ ⟨[97, 98], by decide⟩ (-1) =
        some [97, 98, 97, 98, 97] ∧
      pliRepeat ⟨[0, 0, 0, 0, 0], by decide⟩ ⟨[97, 98], by decide⟩ (-1 : BitVec 64).toInt =
        some [32, 32, 32, 32, 32] := by
  refine ⟨by decide +kernel, by decide +kernel, ?_, by decide +kernel⟩
  rw [emitRepeatLLVM_spec]
  decide +kernel

end PliRepeat
