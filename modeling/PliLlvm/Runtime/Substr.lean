import PliLlvm.Lib.CheckedCells
import Mathlib.Algebra.Order.Ring.Int

/- SUBSTR of the runtime (runtime/rt_string.c), as a value and as a target. A long long
   is an integer: none of these sums leaves 64 bits. Source and target are apart, and an
   access to a byte outside them has no result. -/
namespace PliSubstr
open CheckedCells

def blank : UInt8 := 32

structure Buffer where
  bytes : List UInt8
  small : bytes.length < 2 ^ 63 - 1

def Buffer.len (b : Buffer) : Int := b.bytes.length

def copyPad (dst : List UInt8) (pos : Int) (src : List UInt8) (start take n : Int) :
    Option (List UInt8) :=
  (if 0 < take then move dst pos.toNat src start.toNat take.toNat else some dst).bind fun out =>
    if take < n then fill out (pos + take).toNat blank (n - take).toNat else some out

def pliSubstr (dst src : Buffer) (start len : Int) : Option (List UInt8) :=
  let start := if start < 1 then 1 else start
  let n := if len < dst.len then len else dst.len
  let avail := src.len - (start - 1)
  let avail := if avail < 0 then 0 else avail
  let take := if avail < n then avail else n
  copyPad dst.bytes 0 src.bytes (start - 1) take n

structure Target extends Buffer where
  base : BitVec 64
  fits : base.toNat + bytes.length < 2 ^ 64

/-- Why a call does not return: it touched a byte outside its operands, or it ended the
    program with a message. -/
inductive Stop where
  | outside
  | signalError (msg : String)
  deriving DecidableEq

def checked {α : Type} (r : Option α) : Except Stop α := r.elim (.error .outside) .ok

def dstcapLimit : Int := 100 * 1024 * 1024

def pliSubstrAssign (dst : Target) (start len : Int) (src : Buffer) : Except Stop (List UInt8) :=
  if start < 1 then .ok dst.bytes
  else if dst.len ≤ 0 ∨ dstcapLimit < dst.len then
    .error (.signalError "substr_assign: corrupt dstcap")
  else if (dst.base + BitVec.ofInt 64 dst.len).ult dst.base then
    .error (.signalError "substr_assign: wraparound in dstcap")
  else
    let space := dst.len - (start - 1)
    if space ≤ 0 then .ok dst.bytes
    else
      let n := if space < len then space else len
      let take := if src.len < n then src.len else n
      checked (copyPad dst.bytes (start - 1) src.bytes 0 take n)

structure VaryingTarget extends Target where
  live : BitVec 32
  started : 0 ≤ live.toInt
  within : live.toInt ≤ bytes.length

def pliSubstrAssignVarying (dst : VaryingTarget) (start len : Int) (src : Buffer) :
    Except Stop (List UInt8 × BitVec 32) :=
  let old := dst.live.toInt
  (pliSubstrAssign dst.toTarget start len src).bind fun out =>
    if start < 1 then .ok (out, dst.live)
    else
      let old := if old < 0 then 0 else old
      let old := if dst.len < old then dst.len else old
      let space := dst.len - (start - 1)
      if space ≤ 0 then .ok (out, dst.live)
      else
        let n := if space < len then space else len
        (checked (if old < start - 1 then fill out old.toNat blank (start - 1 - old).toNat
          else some out)).bind fun out =>
        let last := start - 1 + n
        .ok (out, if old < last then BitVec.ofInt 32 last else dst.live)

theorem Buffer.len_nonneg (b : Buffer) : 0 ≤ b.len := Int.natCast_nonneg _

variable {start : Int}

theorem copyPad_field {dst src : List UInt8} {pos take n : Int} (from_ : 0 ≤ pos)
    (some_ : 0 ≤ take) (part : take ≤ n) (inside : pos + n ≤ dst.length) (first : 0 ≤ start)
    (source : start + take ≤ src.length ∨ take = 0) :
    copyPad dst pos src start take n = some (splice dst pos.toNat
      (padded src start.toNat take.toNat blank (n - take).toNat)) := by
  have copied : (if 0 < take then move dst pos.toNat src start.toNat take.toNat else some dst) =
      move dst pos.toNat src start.toNat take.toNat := by
    split
    · rfl
    · rw [show take.toNat = 0 by omega, move_nothing]
  have filled : ∀ out, (if take < n then fill out (pos + take).toNat blank (n - take).toNat
      else some out) = fill out (pos.toNat + take.toNat) blank (n - take).toNat := by
    intro out
    split
    · rw [show (pos + take).toNat = pos.toNat + take.toNat by omega]
    · rw [show (n - take).toNat = 0 by omega, fill_nothing]
  simp only [copyPad, copied, filled]
  exact move_fill blank (by omega) (by omega)

theorem copyPad_negative {dst src : List UInt8} {pos n : Int} (negative : n < 0) :
    copyPad dst pos src start n n = some dst := by
  rw [copyPad, if_neg (by omega), Option.bind_some, if_neg (by omega)]

/-- The field SUBSTR yields: `n` bytes from the one at `start0` on, blanks past the end. -/
def substrField (src : Buffer) (start0 n : Nat) : List UInt8 :=
  padded src.bytes start0 (min (src.bytes.length - start0) n) blank
    (n - min (src.bytes.length - start0) n)

theorem substrField_length (src : Buffer) (start0 n : Nat) :
    (substrField src start0 n).length = n := by
  rw [substrField, padded_length]
  · omega
  · omega

theorem take_toNat (size first n : Nat) :
    (min (max ((size : Int) - first) 0) n).toNat = min (size - first) n := by omega

theorem rest_toNat (size first n : Nat) :
    ((n : Int) - min (max ((size : Int) - first) 0) n).toNat = n - min (size - first) n := by omega

theorem pliSubstr_field (dst src : Buffer) {start len : Int} (counted : 0 ≤ len) :
    pliSubstr dst src start len = some (splice dst.bytes 0
      (substrField src (max start 1 - 1).toNat (min len dst.len).toNat)) := by
  have room := dst.len_nonneg
  have n_eq : (if len < dst.len then len else dst.len) = min len dst.len := by omega
  have start_eq : (if start < 1 then (1 : Int) else start) = max start 1 := by omega
  have take_eq (avail n : Int) : (if (if avail < 0 then 0 else avail) < n then
      (if avail < 0 then 0 else avail) else n) = min (max avail 0) n := by omega
  obtain ⟨n, within⟩ := Int.eq_ofNat_of_zero_le (Int.le_min.2 ⟨counted, room⟩)
  obtain ⟨first, from_⟩ := Int.eq_ofNat_of_zero_le (show 0 ≤ max start 1 - 1 by omega)
  have most : n ≤ dst.bytes.length := Int.ofNat_le.1 (within ▸ Int.min_le_right len dst.len)
  simp only [pliSubstr, n_eq, start_eq, take_eq, within, from_]
  rw [Buffer.len, copyPad_field (Int.le_refl 0) (by omega) (by omega) (by omega)
    (by omega) (by omega),
    take_toNat, rest_toNat]
  rfl

theorem pliSubstr_negative (dst src : Buffer) {start len : Int} (negative : len < 0) :
    pliSubstr dst src start len = some dst.bytes := by
  have room := dst.len_nonneg
  have n_eq : (if len < dst.len then len else dst.len) = len := by omega
  have take_eq (avail : Int) : (if (if avail < 0 then 0 else avail) < len then
      (if avail < 0 then 0 else avail) else len) = len := if_neg (by split <;> omega)
  simp only [pliSubstr, n_eq, take_eq]
  exact copyPad_negative negative

def Target.Sound (dst : Target) : Prop := 0 < dst.len ∧ dst.len ≤ dstcapLimit

theorem Target.no_wrap (dst : Target) :
    (dst.base + BitVec.ofInt 64 dst.len).ult dst.base = false := by
  have fits := dst.fits
  have small := dst.small
  have len : (BitVec.ofInt 64 dst.len).toNat = dst.bytes.length := by
    rw [BitVec.toNat_ofInt, Buffer.len]
    omega
  have sum : (dst.base + BitVec.ofInt 64 dst.len).toNat = dst.base.toNat + dst.bytes.length := by
    rw [BitVec.toNat_add, len, Nat.mod_eq_of_lt fits]
  simp [BitVec.ult, sum]

theorem pliSubstrAssign_low (dst : Target) {start : Int} (low : start < 1) (len : Int)
    (src : Buffer) : pliSubstrAssign dst start len src = .ok dst.bytes := if_pos low

variable {dst : Target}

theorem pliSubstrAssign_corrupt (high : 1 ≤ start)
    (corrupt : ¬dst.Sound) (len : Int) (src : Buffer) :
    pliSubstrAssign dst start len src =
      .error (.signalError "substr_assign: corrupt dstcap") := by
  unfold Target.Sound at corrupt
  rw [pliSubstrAssign, if_neg (by omega), if_pos (by omega)]

/-- The bytes of the part a target of `cap` bytes has from `start` on. -/
def partLen (cap start len : Int) : Nat := (min len (cap - (start - 1))).toNat

theorem pliSubstrAssign_part {len : Int} (high : 1 ≤ start)
    (sound : dst.Sound) (src : Buffer) (counted : 0 ≤ len ∨ dst.len < start) :
    pliSubstrAssign dst start len src = .ok (splice dst.bytes (start - 1).toNat
      (substrField src 0 (partLen dst.len start len))) := by
  unfold Target.Sound at sound
  rw [pliSubstrAssign, if_neg (by omega), if_neg (by omega), dst.no_wrap, if_neg (by simp)]
  simp only [partLen]
  by_cases past : dst.len - (start - 1) ≤ 0
  · rw [if_pos past, Int.toNat_of_nonpos (Int.le_trans (Int.min_le_right ..) past),
      List.length_eq_zero_iff.mp (substrField_length src 0 0), splice_nil]
  · have n_eq : (if dst.len - (start - 1) < len then dst.len - (start - 1) else len) =
        min len (dst.len - (start - 1)) := by omega
    have take_eq (n : Nat) : (if src.len < n then src.len else n) =
        min (max ((src.bytes.length : Int) - (0 : Nat)) 0) n := by
      unfold Buffer.len
      omega
    obtain ⟨n, within⟩ := Int.eq_ofNat_of_zero_le
      (show 0 ≤ min len (dst.len - (start - 1)) from Int.le_min.2 ⟨by omega, by omega⟩)
    obtain ⟨pos, place⟩ := Int.eq_ofNat_of_zero_le (show 0 ≤ start - 1 by omega)
    have most : (n : Int) ≤ dst.bytes.length - pos :=
      within ▸ place ▸ Int.min_le_right len (dst.len - (start - 1))
    rw [if_neg past, n_eq, within, place, take_eq, copyPad_field (Int.natCast_nonneg pos) (by omega)
      (by omega) (by omega) (Int.le_refl 0) (by omega), take_toNat, rest_toNat]
    rfl

theorem pliSubstrAssign_negative {len : Int} (high : 1 ≤ start)
    (sound : dst.Sound) (negative : len < 0) (src : Buffer) :
    pliSubstrAssign dst start len src = .ok dst.bytes := by
  unfold Target.Sound at sound
  rw [pliSubstrAssign, if_neg (by omega), if_neg (by omega), dst.no_wrap, if_neg (by simp)]
  by_cases past : dst.len - (start - 1) ≤ 0
  · exact if_pos past
  · have source := src.len_nonneg
    have n_eq : (if dst.len - (start - 1) < len then dst.len - (start - 1) else len) = len := by
      omega
    have take_eq : (if src.len < len then src.len else len) = len := by omega
    simp only [if_neg past, n_eq, take_eq, copyPad_negative negative, checked, Option.elim_some]

end PliSubstr
