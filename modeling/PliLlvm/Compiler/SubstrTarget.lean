import PliLlvm.Compiler.SubstrLowering

/- SUBSTR as an assignment target (src/irgen.cpp): the inline code beside the runtime's
   two entries. -/
namespace PliSubstr
open CheckedCells

def emitSubstrAssignLLVM (dst : Target) (start len : BitVec 64) (src : Buffer) :
    Except Stop (List UInt8) :=
  let start0 := start - 1
  let space := dst.word - start0
  let nClipped := umin space len
  let take := umin src.word nClipped
  checked ((move dst.bytes start0.toNat src.bytes 0 take.toNat).bind fun out =>
    fill out (start0 + take).toNat blank (nClipped - take).toNat)

def emitSubstrAssignVaryingLLVM (dst : VaryingTarget) (start len : BitVec 64) (src : Buffer) :
    Except Stop (List UInt8 × BitVec 32) :=
  let start0 := start - 1
  let oldLen64 := dst.live.zeroExtend 64
  let oldClamped := if dst.word.slt oldLen64 then dst.word else oldLen64
  let space := dst.word - start0
  let nClipped := umin space len
  let gap := if oldClamped < start0 then start0 - oldClamped else 0
  (checked (fill dst.bytes oldClamped.toNat blank gap.toNat)).bind fun out =>
  let take := umin src.word nClipped
  (checked ((move out start0.toNat src.bytes 0 take.toNat).bind fun out =>
    fill out (start0 + take).toNat blank (nClipped - take).toNat)).bind fun out =>
  let last := start0 + nClipped
  let last := if oldClamped < last then last else oldClamped
  .ok (out, last.truncate 32)

def overlay (dst : List UInt8) (start0 nClipped : BitVec 64) (src : Buffer) :
    Except Stop (List UInt8) :=
  checked ((move dst start0.toNat src.bytes 0 (umin src.word nClipped).toNat).bind fun out =>
    fill out (start0 + umin src.word nClipped).toNat blank
      (nClipped - umin src.word nClipped).toNat)

variable {dst : List UInt8}

theorem overlay_inside {start0 n : BitVec 64} (small : dst.length < 2 ^ 63 - 1)
    (inside : start0.toNat + n.toNat ≤ dst.length) (src : Buffer) :
    overlay dst start0 n src = .ok (splice dst start0.toNat (substrField src 0 n.toNat)) := by
  have taken : (umin src.word n).toNat = min src.bytes.length n.toNat := by
    rw [umin_toNat, src.word_toNat]
  have pad : (n - umin src.word n).toNat = n.toNat - min src.bytes.length n.toNat := by
    rw [BitVec.toNat_sub_of_le (by rw [BitVec.le_def, taken]; omega), taken]
  have place : (start0 + umin src.word n).toNat =
      start0.toNat + min src.bytes.length n.toNat := by
    rw [BitVec.toNat_add, taken, Nat.mod_eq_of_lt (by omega)]
  rw [overlay, taken, pad, place, move_fill blank (by omega) (by omega)]
  rfl

theorem overlay_nothing (dst : List UInt8) (start0 : BitVec 64) (src : Buffer) :
    overlay dst start0 0 src = .ok dst := by
  have taken : umin src.word 0 = 0 := by
    apply BitVec.eq_of_toNat_eq
    rw [umin_toNat]
    exact Nat.min_zero _
  have none : ((0 : BitVec 64) - 0).toNat = 0 := rfl
  rw [overlay, taken, none, show ((0 : BitVec 64)).toNat = 0 from rfl, move_nothing,
    Option.bind_some, fill_nothing]
  rfl

theorem overlay_outside {start0 n : BitVec 64} (some_byte : n.toNat ≠ 0)
    (outside : dst.length < start0.toNat) (src : Buffer) :
    overlay dst start0 n src = .error .outside := by
  have taken : (umin src.word n).toNat = min src.bytes.length n.toNat := by
    rw [umin_toNat, src.word_toNat]
  by_cases copied : (umin src.word n).toNat = 0
  · have zero : umin src.word n = 0#64 := BitVec.eq_of_toNat_eq copied
    rw [overlay, copied, zero, move_nothing, Option.bind_some, BitVec.add_zero, BitVec.sub_zero,
      fill_outside blank some_byte (by omega)]
    rfl
  · rw [overlay, move_outside copied (by omega)]
    rfl

theorem wrapped_sub {p size : Nat} (far : p < 2 ^ 64) (small : size < 2 ^ 63) :
    (2 ^ 64 - p + size) % 2 ^ 64 = if p ≤ size then size - p else 2 ^ 64 - p + size := by
  split
  · rw [show 2 ^ 64 - p + size = size - p + 2 ^ 64 by omega, Nat.add_mod_right,
      Nat.mod_eq_of_lt (by omega)]
  · exact Nat.mod_eq_of_lt (by omega)

theorem clipped_part (dst : Target) (start len : BitVec 64) :
    (1 ≤ start.toInt ∧ start.toInt ≤ dst.len + 1 ∧
        (start - 1).toNat = (start.toInt - 1).toNat ∧
        (umin (dst.word - (start - 1)) len).toNat =
          min len.toNat (dst.bytes.length - (start - 1).toNat)) ∨
      ((start.toInt < 1 ∨ dst.len + 1 < start.toInt) ∧ dst.bytes.length < (start - 1).toNat ∧
        ((umin (dst.word - (start - 1)) len).toNat = 0 ↔ len = 0)) := by
  have small := dst.small
  have size := dst.word_toNat
  have far : (start - 1).toNat < 2 ^ 64 := (start - 1).isLt
  have zero : len = 0 ↔ len.toNat = 0 := ⟨fun h => by rw [h]; rfl, fun h => BitVec.eq_of_toNat_eq h⟩
  have space : (dst.word - (start - 1)).toNat =
      (2 ^ 64 - (start - 1).toNat + dst.bytes.length) % 2 ^ 64 := by
    rw [BitVec.toNat_sub, size]
  rw [wrapped_sub far (Nat.lt_of_lt_of_le small (by decide))] at space
  rw [umin_toNat, space, zero]
  clear space zero size
  unfold Buffer.len
  rcases pred_toNat start with ⟨high, pred⟩ | ⟨low, past⟩
  · by_cases inside : (start - 1).toNat ≤ dst.bytes.length
    · rw [if_pos inside, Nat.min_comm]
      exact Or.inl ⟨high, by omega, pred, rfl⟩
    · rw [if_neg inside]
      exact Or.inr ⟨Or.inr (by omega), by omega, by omega⟩
  · rw [if_neg (by omega)]
    exact Or.inr ⟨Or.inl low, by omega, by omega⟩

theorem emitAssign_overlay (dst : Target) (start len : BitVec 64) (src : Buffer) :
    emitSubstrAssignLLVM dst start len src =
      overlay dst.bytes (start - 1) (umin (dst.word - (start - 1)) len) src := rfl

def SameTarget (dst : Target) (start len : BitVec 64) (src : Buffer) : Prop :=
  ∃ out, emitSubstrAssignLLVM dst start len src = .ok out ∧
    pliSubstrAssign dst start.toInt len.toInt src = .ok out ∧
    out.length = dst.bytes.length ∧
    ∀ i : Nat, (i + 1 < start.toInt ∨ start.toInt + max len.toInt 0 ≤ i + 1) →
      out[i]? = dst.bytes[i]?

/-- When the two agree on a target of `cap` bytes. -/
def FixedFits (cap : Nat) (start len : Int) : Prop :=
  (start < 1 ∧ len = 0) ∨
    (1 ≤ start ∧ 0 < cap ∧ cap ≤ dstcapLimit ∧
      ((start ≤ cap ∧ 0 ≤ len) ∨ start = cap + 1 ∨ len = 0))

theorem toInt_zero_iff (w : BitVec 64) : w = 0 ↔ w.toInt = 0 := by
  have whole : w = 0 ↔ w.toNat = 0 := ⟨fun h => by rw [h]; rfl, fun h => BitVec.eq_of_toNat_eq h⟩
  have := w.isLt
  rw [whole]
  rcases toInt_cases w with ⟨signed, -⟩ | ⟨signed, large⟩ <;> omega

variable {start len : BitVec 64}

theorem part_toNat {size pos : Nat} (inside : pos ≤ size) (counted : 0 ≤ len.toInt ∨ pos = size) :
    (min len.toInt ((size : Int) - pos)).toNat = min len.toNat (size - pos) := by
  rcases toInt_cases len with ⟨signed, -⟩ | ⟨signed, -⟩ <;> omega

/-- Inside the variable the inline code's place and count are the runtime's. -/
theorem inside_part {dst : Target} (high : 1 ≤ start.toInt) (inside : start.toInt ≤ dst.len + 1)
    (counted : 0 ≤ len.toInt ∨ start.toInt = dst.len + 1) :
    ∃ pos n : Nat, start.toInt - 1 = pos ∧ partLen dst.len start.toInt len.toInt = n ∧
      (start - 1).toNat = pos ∧ (umin (dst.word - (start - 1)) len).toNat = n ∧
      pos + n ≤ dst.bytes.length ∧ (n : Int) ≤ max len.toInt 0 := by
  obtain ⟨pos, first⟩ := Int.eq_ofNat_of_zero_le (show 0 ≤ start.toInt - 1 by omega)
  rcases clipped_part dst start len with ⟨-, -, pred, count⟩ | ⟨far, -, -⟩
  · unfold Buffer.len at inside counted
    have within : pos ≤ dst.bytes.length := by omega
    rw [first, Int.toNat_natCast] at pred
    rw [pred, ← part_toNat within (by omega)] at count
    refine ⟨pos, _, first, by rw [partLen, first]; rfl, pred, count, ?_, ?_⟩
    · have part : (min len.toInt ((dst.bytes.length : Int) - pos)).toNat = _ :=
        part_toNat within (by omega)
      omega
    · rw [Int.toNat_eq_max]
      exact Int.max_le.2 ⟨Int.le_trans (Int.min_le_left ..) (Int.le_max_left ..),
        Int.le_max_right ..⟩
  · omega

theorem sameTarget_inside {dst : Target} (high : 1 ≤ start.toInt)
    (inside : start.toInt ≤ dst.len + 1) (sound : dst.Sound)
    (counted : 0 ≤ len.toInt ∨ start.toInt = dst.len + 1) (src : Buffer) :
    SameTarget dst start len src := by
  obtain ⟨pos, n, first, part, place, count, fits, most⟩ := inside_part high inside counted
  have field := substrField_length src 0 n
  have assigned := pliSubstrAssign_part high sound src
    (show 0 ≤ len.toInt ∨ dst.len < start.toInt by omega)
  rw [part, first, Int.toNat_natCast] at assigned
  refine ⟨splice dst.bytes pos (substrField src 0 n), ?_, assigned, ?_, ?_⟩
  · rw [emitAssign_overlay, overlay_inside dst.small (by rw [place, count]; exact fits), place,
      count]
  · exact splice_length (by rw [field]; exact fits)
  · intro i outside
    refine splice_outside (by rw [field]; exact fits) ?_
    rw [field]
    clear part count assigned
    omega

theorem sameTarget_empty {dst : Target} (empty : len.toInt = 0)
    (returns : start.toInt < 1 ∨ dst.len < start.toInt ∧ dst.Sound) (src : Buffer) :
    SameTarget dst start len src := by
  have zero := (toInt_zero_iff len).mpr empty
  have nothing : umin (dst.word - (start - 1)) len = 0 := by
    apply BitVec.eq_of_toNat_eq
    rw [umin_toNat, zero]
    exact Nat.min_zero _
  refine ⟨dst.bytes, ?_, ?_, rfl, fun _ _ => rfl⟩
  · rw [emitAssign_overlay, nothing, overlay_nothing]
  · rcases returns with low | ⟨past, sound⟩
    · exact pliSubstrAssign_low dst low _ src
    · have size := dst.len_nonneg
      rw [pliSubstrAssign_part (by omega) sound src (Or.inl (by omega)), partLen,
        show (min len.toInt (dst.len - (start.toInt - 1))).toNat = 0 by omega,
        List.length_eq_zero_iff.mp (substrField_length src 0 0), splice_nil]

theorem target_other (cap : Nat) (room : cap < 2 ^ 63 - 1) (c : UInt8) :
    ∃ dst : Target, dst.bytes.length = cap ∧ ∀ i : Nat, dst.bytes[i]? ≠ some c := by
  refine ⟨⟨⟨List.replicate cap (c + 1), by rw [List.length_replicate]; exact room⟩, 0, ?_⟩,
    List.length_replicate, fun i here => ?_⟩
  · show 0 + (List.replicate cap (c + 1)).length < 2 ^ 64
    rw [List.length_replicate]
    omega
  · have held := List.eq_of_mem_replicate (List.mem_of_getElem? here)
    simp at held

theorem sameTarget_returns {dst : Target} {src : Buffer}
    (same : SameTarget dst start len src) (high : 1 ≤ start.toInt) : dst.Sound := by
  obtain ⟨out, -, called, -⟩ := same
  by_contra corrupt
  rw [pliSubstrAssign_corrupt high corrupt] at called
  cases called

theorem sameTarget_counted {cap : Nat} (room : cap < 2 ^ 63 - 1) {start len : BitVec 64}
    {src : Buffer} (all : ∀ dst : Target, dst.bytes.length = cap → SameTarget dst start len src)
    (high : 1 ≤ start.toInt) (inside : start.toInt ≤ cap) : 0 ≤ len.toInt := by
  by_contra negative
  obtain ⟨c, first⟩ : ∃ c, (substrField src 0 (cap - (start.toInt - 1).toNat))[0]? = some c := by
    refine ⟨_, List.getElem?_eq_getElem ?_⟩
    rw [substrField_length]
    omega
  obtain ⟨dst, size, other⟩ := target_other cap room c
  have sound := sameTarget_returns (all dst size) high
  obtain ⟨out, emitted, called, -⟩ := all dst size
  rw [pliSubstrAssign_negative high sound (by omega)] at called
  cases called
  rcases clipped_part dst start len with ⟨-, -, pred, count⟩ | ⟨far, -, -⟩
  · have part : (umin (dst.word - (start - 1)) len).toNat = cap - (start.toInt - 1).toNat := by
      rcases toInt_cases len with ⟨signed, -⟩ | ⟨-, large⟩ <;> omega
    rw [emitAssign_overlay, overlay_inside dst.small (by rw [part, pred, size]; omega), part, pred]
      at emitted
    have written := congrArg (·[(start.toInt - 1).toNat + 0]?) (Except.ok.inj emitted)
    have field := substrField_length src 0 (cap - (start.toInt - 1).toNat)
    simp only [splice_inside (show (start.toInt - 1).toNat +
      (substrField src 0 (cap - (start.toInt - 1).toNat)).length ≤ dst.bytes.length by
        rw [field, size]; omega) (show 0 < _ by rw [field]; omega), first] at written
    exact other _ written.symm
  · unfold Buffer.len at far
    omega

theorem fixed_target_iff {cap : Nat} (room : cap < 2 ^ 63 - 1) (src : Buffer)
    (start len : BitVec 64) :
    (∀ dst : Target, dst.bytes.length = cap → SameTarget dst start len src) ↔
      FixedFits cap start.toInt len.toInt := by
  constructor
  · intro all
    obtain ⟨dst, size, -⟩ := target_other cap room blank
    have same := all dst size
    have cap_eq : dst.len = cap := by rw [Buffer.len, size]
    rcases clipped_part dst start len with ⟨high, inside, -, -⟩ | ⟨far, past, none⟩
    · have sound := sameTarget_returns same high
      unfold Target.Sound at sound
      refine Or.inr ⟨high, by omega, by omega, ?_⟩
      by_cases last : start.toInt = cap + 1
      · exact Or.inr (Or.inl last)
      · exact Or.inl ⟨by omega, sameTarget_counted room all high (by omega)⟩
    · have empty : len.toInt = 0 := by
        rw [← toInt_zero_iff, ← none]
        by_contra some_byte
        obtain ⟨out, emitted, -⟩ := same
        rw [emitAssign_overlay, overlay_outside some_byte past] at emitted
        cases emitted
      rcases far with low | high
      · exact Or.inl ⟨low, empty⟩
      · have size' := dst.len_nonneg
        have sound := sameTarget_returns same (by omega)
        unfold Target.Sound at sound
        exact Or.inr ⟨by omega, by omega, by omega, Or.inr (Or.inr empty)⟩
  · intro fits dst size
    have cap_eq : dst.len = cap := by rw [Buffer.len, size]
    rcases fits with ⟨low, empty⟩ | ⟨high, positive, limit, part⟩
    · exact sameTarget_empty empty (Or.inl low) src
    · have sound : dst.Sound := ⟨by omega, by omega⟩
      by_cases inside : start.toInt ≤ dst.len + 1
      · by_cases empty : len.toInt = 0
        · exact sameTarget_inside high inside sound (Or.inl (by omega)) src
        · exact sameTarget_inside high inside sound (by omega) src
      · exact sameTarget_empty (by omega) (Or.inr ⟨by omega, sound⟩) src

def gapFilled (dst : List UInt8) (old pos : Nat) : List UInt8 :=
  splice dst old (List.replicate (pos - old) blank)

theorem gapFilled_length {old pos : Nat} (live : old ≤ dst.length)
    (inside : pos ≤ dst.length) : (gapFilled dst old pos).length = dst.length :=
  splice_length (by rw [List.length_replicate]; omega)

theorem gapFilled_outside {old pos i : Nat}
    (inside : pos ≤ dst.length) (outside : i < old ∨ pos ≤ i) :
    (gapFilled dst old pos)[i]? = dst[i]? := by
  by_cases gap : pos ≤ old
  · rw [gapFilled, Nat.sub_eq_zero_of_le gap, List.replicate_zero, splice_nil]
  · exact splice_outside (by rw [List.length_replicate]; omega)
      (by rw [List.length_replicate]; omega)

theorem gapFilled_gap {old pos i : Nat} (inside : pos ≤ dst.length) (gap : old ≤ i)
    (before : i < pos) : (gapFilled dst old pos)[i]? = some blank := by
  obtain ⟨k, rfl⟩ := Nat.exists_eq_add_of_le gap
  rw [gapFilled, splice_inside (by rw [List.length_replicate]; omega)
    (by rw [List.length_replicate]; omega), List.getElem?_replicate, if_pos (by omega)]

theorem gapFilled_comm {dst field : List UInt8} {old pos : Nat}
    (inside : pos + field.length ≤ dst.length) :
    gapFilled (splice dst pos field) old pos = splice (gapFilled dst old pos) pos field := by
  by_cases gap : pos ≤ old
  · rw [gapFilled, gapFilled, Nat.sub_eq_zero_of_le gap, List.replicate_zero,
      splice_nil, splice_nil]
  · exact splice_comm (by rw [List.length_replicate]; omega) inside

def VaryingTarget.old (dst : VaryingTarget) : Nat := dst.live.toInt.toNat

theorem VaryingTarget.old_toInt (dst : VaryingTarget) : dst.live.toInt = dst.old :=
  (Int.toNat_of_nonneg dst.started).symm

theorem VaryingTarget.old_le (dst : VaryingTarget) : dst.old ≤ dst.bytes.length := by
  have within := dst.within
  rw [dst.old_toInt] at within
  exact Int.ofNat_le.mp within

theorem live_toNat (dst : VaryingTarget) : dst.live.toNat = dst.old := by
  have bound := dst.live.isLt
  have signed := dst.old_toInt
  rw [BitVec.toInt_eq_toNat_cond] at signed
  split at signed <;> omega

theorem live_toInt {live : BitVec 32} {m : Nat} (small : m < 2 ^ 31)
    (length : live.toNat = m % 2 ^ 32) : live.toInt = m := by
  rw [BitVec.toInt_eq_toNat_cond, length, Nat.mod_eq_of_lt (by omega), if_pos (by omega)]

theorem oldLen_toNat (dst : VaryingTarget) : (dst.live.zeroExtend 64).toNat = dst.old := by
  have bound := dst.live.isLt
  show (dst.live.setWidth 64).toNat = dst.old
  rw [BitVec.toNat_setWidth, Nat.mod_eq_of_lt (by omega), live_toNat]

theorem oldClamped_eq (dst : VaryingTarget) :
    (if dst.word.slt (dst.live.zeroExtend 64) then dst.word else dst.live.zeroExtend 64) =
      dst.live.zeroExtend 64 := by
  have small := dst.small
  have size := dst.word_toNat
  have live := dst.old_le
  have extended := oldLen_toNat dst
  refine if_neg fun less => ?_
  simp only [BitVec.slt, decide_eq_true_eq] at less
  rcases toInt_cases dst.word with ⟨signed, -⟩ | ⟨-, large⟩
  · rcases toInt_cases (dst.live.zeroExtend 64) with ⟨signed', -⟩ | ⟨-, large⟩ <;> omega
  · omega

theorem excess_toNat (a b : BitVec 64) :
    (if a < b then b - a else 0).toNat = b.toNat - a.toNat := by
  split
  · rename_i less
    exact BitVec.toNat_sub_of_le (Nat.le_of_lt less)
  · rename_i less
    have : ¬a.toNat < b.toNat := less
    rw [Nat.sub_eq_zero_of_le (by omega)]
    rfl

theorem umax_toNat (a b : BitVec 64) : (if a < b then b else a).toNat = max a.toNat b.toNat := by
  split
  · rename_i less
    have : a.toNat < b.toNat := less
    omega
  · rename_i less
    have : ¬a.toNat < b.toNat := less
    omega

theorem emitVarying_overlay (dst : VaryingTarget) (start len : BitVec 64) (src : Buffer) :
    emitSubstrAssignVaryingLLVM dst start len src =
      (checked (fill dst.bytes dst.old blank ((start - 1).toNat - dst.old))).bind fun out =>
      (overlay out (start - 1) (umin (dst.word - (start - 1)) len) src).bind fun out =>
      .ok (out, (if dst.live.zeroExtend 64 < start - 1 + umin (dst.word - (start - 1)) len
        then start - 1 + umin (dst.word - (start - 1)) len
        else dst.live.zeroExtend 64).truncate 32) := by
  have gap := excess_toNat (dst.live.zeroExtend 64) (start - 1)
  rw [oldLen_toNat] at gap
  simp only [emitSubstrAssignVaryingLLVM, oldClamped_eq, oldLen_toNat, gap]
  rfl

theorem emitVarying_inside {dst : VaryingTarget} {start len : BitVec 64} {pos n : Nat}
    (place : (start - 1).toNat = pos) (count : (umin (dst.word - (start - 1)) len).toNat = n)
    (inside : pos + n ≤ dst.bytes.length) (src : Buffer) :
    ∃ live : BitVec 32, live.toNat = max dst.old (pos + n) % 2 ^ 32 ∧
      emitSubstrAssignVaryingLLVM dst start len src =
        .ok (splice (gapFilled dst.bytes dst.old pos) pos (substrField src 0 n), live) := by
  have small := dst.small
  have live := dst.old_le
  have gap := gapFilled_length live (show pos ≤ dst.bytes.length by omega)
  have filled : fill dst.bytes dst.old blank (pos - dst.old) =
      some (gapFilled dst.bytes dst.old pos) :=
    fill_inside blank (by omega)
  have last : (start - 1 + umin (dst.word - (start - 1)) len).toNat = pos + n := by
    rw [BitVec.toNat_add, place, count, Nat.mod_eq_of_lt (by omega)]
  refine ⟨(if dst.live.zeroExtend 64 < start - 1 + umin (dst.word - (start - 1)) len
    then start - 1 + umin (dst.word - (start - 1)) len
    else dst.live.zeroExtend 64).truncate 32, ?_, ?_⟩
  · show (BitVec.setWidth 32 _).toNat = _
    rw [BitVec.toNat_setWidth, umax_toNat, oldLen_toNat, last]
  · rw [emitVarying_overlay, place, filled]
    simp only [checked, Option.elim_some, Except.bind]
    rw [overlay_inside (by omega) (by rw [place, count, gap]; exact inside), place, count]

theorem emitVarying_outside {dst : VaryingTarget}
    (past : dst.bytes.length < (start - 1).toNat) (len : BitVec 64) (src : Buffer) :
    emitSubstrAssignVaryingLLVM dst start len src = .error .outside := by
  have live := dst.old_le
  rw [emitVarying_overlay, fill_outside blank (by omega) (by omega)]
  rfl

theorem pliVarying_inside {dst : VaryingTarget} {start len : Int} {src : Buffer}
    {out : List UInt8} (assigned : pliSubstrAssign dst.toTarget start len src = .ok out)
    (same : out.length = dst.bytes.length) (high : 1 ≤ start) (inside : start ≤ dst.len) :
    pliSubstrAssignVarying dst start len src =
      .ok (gapFilled out dst.old (start - 1).toNat,
        if (dst.old : Int) < start - 1 + min len (dst.len - (start - 1))
        then BitVec.ofInt 32 (start - 1 + min len (dst.len - (start - 1))) else dst.live) := by
  have live := dst.old_le
  have n_eq : (if dst.len - (start - 1) < len then dst.len - (start - 1) else len) =
      min len (dst.len - (start - 1)) := by omega
  have filled : (if (dst.old : Int) < start - 1
      then fill out ((dst.old : Int)).toNat blank (start - 1 - dst.old).toNat else some out) =
      some (gapFilled out dst.old (start - 1).toNat) := by
    have count : (start - 1 - dst.old).toNat = (start - 1).toNat - dst.old := by omega
    split
    · unfold Buffer.len at inside
      rw [Int.toNat_natCast, count, gapFilled, fill_inside blank (by omega)]
    · rw [gapFilled, Nat.sub_eq_zero_of_le (by omega), List.replicate_zero, splice_nil]
  rw [pliSubstrAssignVarying, assigned]
  simp only [Except.bind, dst.old_toInt]
  rw [if_neg (by omega), if_neg (show ¬(dst.old : Int) < 0 by omega),
    if_neg (show ¬dst.len < dst.old by unfold Buffer.len; omega), if_neg (by omega), filled, n_eq]
  rfl

theorem pliVarying_past {dst : VaryingTarget} {start len : Int} (src : Buffer)
    (sound : dst.toTarget.Sound) (past : dst.len < start) :
    pliSubstrAssignVarying dst start len src = .ok (dst.bytes, dst.live) := by
  have live := dst.old_le
  have positive := dst.len_nonneg
  rw [pliSubstrAssignVarying, pliSubstrAssign_part (by omega) sound src (Or.inr past), partLen,
    show (min len (dst.len - (start - 1))).toNat = 0 by omega,
    List.length_eq_zero_iff.mp (substrField_length src 0 0), splice_nil]
  simp only [Except.bind]
  rw [if_neg (by omega), if_pos (by omega)]

/-- The code finishes with the runtime's target. Its live length grows to the end of the
    part; of its live bytes and those behind the part, only the part has changed, and the gap
    between the old length and the part is blank. -/
def SameVarying (dst : VaryingTarget) (start len : BitVec 64) (src : Buffer) : Prop :=
  ∃ out live, emitSubstrAssignVaryingLLVM dst start len src = .ok (out, live) ∧
    pliSubstrAssignVarying dst start.toInt len.toInt src = .ok (out, live) ∧
    out.length = dst.bytes.length ∧
    live.toInt =
      max dst.live.toInt (start.toInt - 1 + partLen dst.len start.toInt len.toInt) ∧
    (∀ i : Nat, (i + 1 < start.toInt ∧ i < dst.live.toInt ∨
        start.toInt + max len.toInt 0 ≤ i + 1) → out[i]? = dst.bytes[i]?) ∧
    ∀ i : Nat, dst.live.toInt ≤ i → i + 1 < start.toInt → out[i]? = some blank

/-- When the two agree on a VARYING target of `cap` bytes of which `live` are live. -/
def VaryingFits (cap live : Nat) (start len : Int) : Prop :=
  1 ≤ start ∧ 0 < cap ∧ cap ≤ dstcapLimit ∧
    ((start ≤ cap ∧ 0 ≤ len) ∨ (start = cap + 1 ∧ live = cap))

theorem grown_live {dst : VaryingTarget} {live : BitVec 32} {last : Nat}
    (length : live.toNat = max dst.old last % 2 ^ 32) :
    (if (dst.old : Int) < last then BitVec.ofInt 32 last else dst.live) = live := by
  apply BitVec.eq_of_toNat_eq
  rw [length]
  split
  · rename_i less
    rw [BitVec.ofInt_natCast, BitVec.toNat_ofNat, Nat.max_eq_right (by omega)]
  · rename_i less
    have bound := dst.live.isLt
    rw [live_toNat] at bound ⊢
    rw [Nat.max_eq_left (by omega), Nat.mod_eq_of_lt bound]

theorem sameVarying_inside {dst : VaryingTarget} {start len : BitVec 64}
    (high : 1 ≤ start.toInt) (inside : start.toInt ≤ dst.len) (sound : dst.toTarget.Sound)
    (counted : 0 ≤ len.toInt) (src : Buffer) : SameVarying dst start len src := by
  have old_le := dst.old_le
  have limit := sound.2
  obtain ⟨pos, n, first, part, place, count, fits, most⟩ :=
    inside_part high (show start.toInt ≤ dst.toTarget.len + 1 by omega) (Or.inl counted)
  have counted' : min len.toInt (dst.len - (start.toInt - 1)) = n := by
    rw [← part, partLen, Int.toNat_of_nonneg (Int.le_min.2 ⟨counted, by omega⟩)]
  have small : max dst.old (pos + n) < 2 ^ 31 := by
    unfold dstcapLimit Buffer.len at limit
    clear part count counted' most
    omega
  have field := substrField_length src 0 n
  have gap := gapFilled_length old_le (show pos ≤ dst.bytes.length by omega)
  obtain ⟨live, length, emitted⟩ := emitVarying_inside place count fits src
  have assigned := pliSubstrAssign_part high sound src (Or.inl counted)
  rw [part, first, Int.toNat_natCast] at assigned
  have called := pliVarying_inside assigned (splice_length (by rw [field]; exact fits)) high inside
  rw [counted', first, Int.toNat_natCast, gapFilled_comm (by rw [field]; exact fits),
    ← Int.natCast_add, grown_live length] at called
  refine ⟨_, live, emitted, called, ?_, ?_, ?_, ?_⟩
  · rw [splice_length (by rw [field, gap]; exact fits), gap]
  · rw [part, first, dst.old_toInt, live_toInt small length]
    clear part count counted' called assigned emitted limit most
    omega
  · intro i outside
    rw [dst.old_toInt] at outside
    clear part count counted' called assigned limit small
    rw [splice_outside (by omega) (by omega), gapFilled_outside (by omega) (by omega)]
  · intro i blank_from before
    rw [dst.old_toInt] at blank_from
    clear part count counted' called assigned limit small
    rw [splice_outside (by omega) (by omega), gapFilled_gap (by omega) (by omega) (by omega)]

theorem sameVarying_end {dst : VaryingTarget} {start len : BitVec 64}
    (last : start.toInt = dst.len + 1) (full : dst.old = dst.bytes.length)
    (sound : dst.toTarget.Sound) (src : Buffer) : SameVarying dst start len src := by
  have cap_eq : dst.len = dst.bytes.length := rfl
  have limit := sound.2
  unfold dstcapLimit at limit
  rcases clipped_part dst.toTarget start len with ⟨-, -, pred, count⟩ | ⟨far, -, -⟩
  · have count' : (umin (dst.word - (start - 1)) len).toNat = 0 := by omega
    obtain ⟨live, length, emitted⟩ :=
      emitVarying_inside (show (start - 1).toNat = dst.bytes.length by omega) count'
        (Nat.le_refl _) src
    have nothing : substrField src 0 0 = [] :=
      List.length_eq_zero_iff.mp (substrField_length src 0 0)
    rw [nothing, splice_nil, gapFilled, full, Nat.sub_self, List.replicate_zero, splice_nil]
      at emitted
    have live_eq : dst.live = live := by
      apply BitVec.eq_of_toNat_eq
      have bound := dst.live.isLt
      rw [live_toNat] at bound ⊢
      rw [length, full, Nat.add_zero, Nat.max_self, Nat.mod_eq_of_lt (full ▸ bound)]
    refine ⟨dst.bytes, live, emitted, ?_, rfl, ?_, fun _ _ => rfl, ?_⟩
    · rw [← live_eq]
      exact pliVarying_past src sound (by omega)
    · rw [← live_eq, dst.old_toInt, partLen]
      omega
    · intro i blank_from before
      rw [dst.old_toInt] at blank_from
      omega
  · omega

theorem sameVarying_returns {dst : VaryingTarget} {src : Buffer}
    (same : SameVarying dst start len src) :
    1 ≤ start.toInt ∧ start.toInt ≤ dst.len + 1 ∧ dst.toTarget.Sound := by
  obtain ⟨out, live, emitted, called, -⟩ := same
  rcases clipped_part dst.toTarget start len with ⟨high, inside, -, -⟩ | ⟨-, past, -⟩
  · refine ⟨high, inside, ?_⟩
    by_contra corrupt
    rw [pliSubstrAssignVarying, pliSubstrAssign_corrupt high corrupt] at called
    cases called
  · rw [emitVarying_outside past] at emitted
    cases emitted

theorem sameVarying_full {dst : VaryingTarget} {start len : BitVec 64} {src : Buffer}
    (same : SameVarying dst start len src) (last : start.toInt = dst.len + 1) :
    dst.old = dst.bytes.length := by
  obtain ⟨high, -, sound⟩ := sameVarying_returns same
  have limit := sound.2
  have old_le := dst.old_le
  have cap_eq : dst.len = dst.bytes.length := rfl
  unfold dstcapLimit at limit
  obtain ⟨out, live, emitted, called, -⟩ := same
  rcases clipped_part dst.toTarget start len with ⟨-, -, pred, count⟩ | ⟨far, -, -⟩
  · obtain ⟨live', length, emitted'⟩ :=
      emitVarying_inside (show (start - 1).toNat = dst.bytes.length by omega)
        (show (umin (dst.word - (start - 1)) len).toNat = 0 by omega) (Nat.le_refl _) src
    rw [emitted'] at emitted
    rw [pliVarying_past src sound (by omega)] at called
    have inline := congrArg Prod.snd (Except.ok.inj emitted)
    have runtime := congrArg Prod.snd (Except.ok.inj called)
    have word : dst.live.toNat = live'.toNat := congrArg BitVec.toNat (runtime.trans inline.symm)
    rw [live_toNat, length, Nat.mod_eq_of_lt (by omega)] at word
    omega
  · omega

theorem varying_other {cap live : Nat} (room : cap < 2 ^ 63 - 1) (within : live ≤ cap)
    (small : live < 2 ^ 31) (c : UInt8) : ∃ dst : VaryingTarget, dst.bytes.length = cap ∧
      dst.old = live ∧ ∀ i : Nat, dst.bytes[i]? ≠ some c := by
  obtain ⟨dst, size, other⟩ := target_other cap room c
  have signed : (BitVec.ofNat 32 live).toInt = live := by
    rw [BitVec.toInt_eq_toNat_cond, BitVec.toNat_ofNat]
    split <;> omega
  exact ⟨⟨dst, BitVec.ofNat 32 live, by omega, by omega⟩, size, by
    show (BitVec.ofNat 32 live).toInt.toNat = live
    omega, other⟩

theorem sameVarying_counted {cap live : Nat} (room : cap < 2 ^ 63 - 1) (within : live ≤ cap)
    (small : live < 2 ^ 31) {start len : BitVec 64} {src : Buffer}
    (all : ∀ dst : VaryingTarget, dst.bytes.length = cap → dst.old = live →
      SameVarying dst start len src)
    (high : 1 ≤ start.toInt) (inside : start.toInt ≤ cap) : 0 ≤ len.toInt := by
  by_contra negative
  obtain ⟨c, first⟩ : ∃ c, (substrField src 0 (cap - (start.toInt - 1).toNat))[0]? = some c := by
    refine ⟨_, List.getElem?_eq_getElem ?_⟩
    rw [substrField_length]
    omega
  obtain ⟨dst, size, old, other⟩ := varying_other room within small c
  have same := all dst size old
  obtain ⟨-, -, sound⟩ := sameVarying_returns same
  obtain ⟨out, live', emitted, called, -⟩ := same
  have cap_eq : dst.len = cap := by rw [Buffer.len, size]
  have assigned := pliSubstrAssign_negative high sound (show len.toInt < 0 by omega) src
  rw [pliVarying_inside assigned rfl high (by omega)] at called
  cases called
  rcases clipped_part dst.toTarget start len with ⟨-, -, pred, count⟩ | ⟨far, -, -⟩
  · have part : (umin (dst.word - (start - 1)) len).toNat = cap - (start.toInt - 1).toNat := by
      rcases toInt_cases len with ⟨signed, -⟩ | ⟨-, large⟩ <;> omega
    obtain ⟨live'', -, emitted'⟩ := emitVarying_inside pred part (by omega) src
    rw [emitted'] at emitted
    have bytes := congrArg Prod.fst (Except.ok.inj emitted)
    have written := congrArg (·[(start.toInt - 1).toNat + 0]?) bytes
    have field := substrField_length src 0 (cap - (start.toInt - 1).toNat)
    have gap :=
      gapFilled_length dst.old_le (show (start.toInt - 1).toNat ≤ dst.bytes.length by omega)
    simp only [splice_inside (show (start.toInt - 1).toNat +
        (substrField src 0 (cap - (start.toInt - 1).toNat)).length ≤
          (gapFilled dst.bytes dst.old (start.toInt - 1).toNat).length by omega)
        (show 0 < _ by rw [field]; omega), first,
      gapFilled_outside (show (start.toInt - 1).toNat ≤ dst.bytes.length by omega)
        (Or.inr (Nat.le_add_right _ 0))] at written
    exact other _ written.symm
  · omega

theorem varying_target_iff {cap live : Nat} (room : cap < 2 ^ 63 - 1) (within : live ≤ cap)
    (small : live < 2 ^ 31) (src : Buffer) (start len : BitVec 64) :
    (∀ dst : VaryingTarget, dst.bytes.length = cap → dst.old = live →
        SameVarying dst start len src) ↔ VaryingFits cap live start.toInt len.toInt := by
  constructor
  · intro all
    obtain ⟨dst, size, old, -⟩ := varying_other room within small blank
    have same := all dst size old
    have cap_eq : dst.len = cap := by rw [Buffer.len, size]
    obtain ⟨high, inside, sound⟩ := sameVarying_returns same
    unfold Target.Sound at sound
    refine ⟨high, by omega, by omega, ?_⟩
    by_cases last : start.toInt = dst.len + 1
    · have full := sameVarying_full same last
      exact Or.inr ⟨by omega, by omega⟩
    · exact Or.inl ⟨by omega, sameVarying_counted room within small all high (by omega)⟩
  · rintro ⟨high, positive, limit, part⟩ dst size old
    have cap_eq : dst.len = cap := by rw [Buffer.len, size]
    have sound : dst.toTarget.Sound := ⟨by omega, by omega⟩
    rcases part with ⟨inside, counted⟩ | ⟨last, full⟩
    · exact sameVarying_inside high (by omega) sound counted src
    · exact sameVarying_end (by omega) (by omega) sound src

/-- SUBSTR as a target: exactly when the inline code stays inside the variable and leaves
    what the runtime's entry leaves. -/
theorem substr_target_iff {cap live : Nat} (room : cap < 2 ^ 63 - 1) (within : live ≤ cap)
    (small : live < 2 ^ 31) (src : Buffer) (start len : BitVec 64) :
    ((∀ dst : Target, dst.bytes.length = cap → SameTarget dst start len src) ↔
        FixedFits cap start.toInt len.toInt) ∧
      ((∀ dst : VaryingTarget, dst.bytes.length = cap → dst.old = live →
          SameVarying dst start len src) ↔ VaryingFits cap live start.toInt len.toInt) :=
  ⟨fixed_target_iff room src start len, varying_target_iff room within small src start len⟩

def fourBytes : VaryingTarget :=
  { bytes := [97, 98, 98, 98], small := by decide, base := 4096, fits := by decide, live := 1,
    started := by decide, within := by decide }

theorem substr_target_overlay : SameVarying fourBytes 3 9 ⟨[99, 100], by decide⟩ :=
  (substr_target_iff (show 4 < 2 ^ 63 - 1 by decide) (show 1 ≤ 4 by decide) (by decide) ⟨[99, 100],
    by decide⟩ 3 9).2.mpr
    ⟨by decide, by decide, by decide, Or.inl ⟨by decide, by decide⟩⟩ fourBytes rfl rfl

/-- V = 'a'; SUBSTR(V, 3, 2) = 'cd': the live length becomes four, as the test of the
    growing length expects, and so does the runtime's. -/
theorem live_length_grows :
    emitSubstrAssignVaryingLLVM fourBytes 3 2 ⟨[99, 100], by decide⟩ =
        .ok ([97, 32, 99, 100], 4) ∧
      pliSubstrAssignVarying fourBytes 3 2 ⟨[99, 100], by decide⟩ = .ok ([97, 32, 99, 100], 4) ∧
      ¬∃ out, emitSubstrAssignVaryingLLVM fourBytes 3 2 ⟨[99, 100], by decide⟩ =
        .ok (out, fourBytes.live) := by
  have emitted : emitSubstrAssignVaryingLLVM fourBytes 3 2 ⟨[99, 100], by decide⟩ =
      .ok ([97, 32, 99, 100], 4) := by decide
  refine ⟨emitted, by decide, ?_⟩
  rintro ⟨out, kept⟩
  have lengths : (4 : BitVec 32) = fourBytes.live :=
    congrArg Prod.snd (Except.ok.inj (emitted.symm.trans kept))
  exact absurd lengths (by decide)

example : emitSubstrAssignLLVM fourBytes.toTarget 6 1 ⟨[120], by decide⟩ = .error .outside := by
  decide

end PliSubstr
