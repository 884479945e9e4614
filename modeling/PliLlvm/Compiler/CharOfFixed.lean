import PliLlvm.Compiler.FixedText
import PliLlvm.Runtime.Strings
import PliLlvm.Compiler.SubstrLowering

/- CHAR of a FIXED value: pli_char_of_fixed with the formatter behind it (runtime/rt_stream.c)
   and the loops emitted for it (src/irgen.cpp). A long long is a 64-bit word. The local
   buffers have 24 bytes and hold anything at the start. -/
namespace PliCharOfFixed
open CheckedCells Decimal PliStrings PliSubstr
open PliFixedText (digitBytes digitBytes_length signText)

structure Scratch where
  cells : List UInt8
  size : cells.length = 24

def digitByte (u : BitVec 64) : UInt8 := UInt8.ofNat (48 + (u % 10).toNat)

/-- `do { tmp[n++] = ..; u /= 10; } while (u);` -/
def countLoop (u : BitVec 64) (tmp : List UInt8) (n : Nat) : Option (List UInt8 × Nat) :=
  (store tmp n (digitByte u)).bind fun tmp =>
    if u / 10 = 0 then some (tmp, n + 1) else countLoop (u / 10) tmp (n + 1)
termination_by u.toNat
decreasing_by
  rename_i more
  have quotient : (u / 10).toNat = u.toNat / 10 := BitVec.toNat_udiv
  have : (u / 10).toNat ≠ 0 := fun zero => more (BitVec.eq_of_toNat_eq zero)
  omega

structure Fmt where
  buf : List UInt8
  len : Nat

def fputc (f : Fmt) (c : UInt8) : Option Fmt :=
  if f.len + 1 < f.buf.length then (store f.buf f.len c).map fun buf => ⟨buf, f.len + 1⟩
  else some { f with len := f.len + 1 }

def fpad (f : Fmt) (c : UInt8) : Nat → Option Fmt
  | 0 => some f
  | n + 1 => (fputc f c).bind fun f => fpad f c n

/-- `while (n) fputc_(f, tmp[--n]);` -/
def putDigits (f : Fmt) (tmp : List UInt8) : Nat → Option Fmt
  | 0 => some f
  | n + 1 => (loadByte tmp n).bind fun c => (fputc f c).bind fun f => putDigits f tmp n

def fmtInt (work : Scratch) (f : Fmt) (v : BitVec 64) (width : Int) (zero : Bool) : Option Fmt :=
  let u := if v.slt 0 then -(v + 1) + 1 else v
  (countLoop u work.cells 0).bind fun (tmp, n) =>
    let sign : Nat := if v.slt 0 then 1 else 0
    let pad := (width - (n + sign)).toNat
    (if zero then some f else fpad f blank pad).bind fun f =>
      (if sign = 1 then fputc f 45 else some f).bind fun f =>
        (if zero then fpad f 48 pad else some f).bind fun f => putDigits f tmp n

/-- pli_snprintf of "%lld": the buffer and the length of the whole text. -/
def snprintfLld (work : Scratch) (buf : List UInt8) (v : BitVec 64) : Option (List UInt8 × Nat) :=
  (fmtInt work ⟨buf, 0⟩ v 0 false).bind fun f =>
    (if 0 < f.buf.length then
      if f.len < f.buf.length then store f.buf f.len 0 else store f.buf (f.buf.length - 1) 0
    else some f.buf).map fun buf => (buf, f.len)

def pliCharOfFixed (work tmp : Scratch) (dst : List UInt8) (v : BitVec 64) :
    Option (List UInt8) :=
  let dstcap := dst.length
  (snprintfLld work tmp.cells v).bind fun (tmp, n) =>
    (storeLoop (min n dstcap) (loadByte tmp) dst 0).bind fun dst =>
      storeLoop dstcap (fun _ => some blank) dst (min n dstcap)

def cofLoop (val : BitVec 64) (dbuf : List UInt8) (cnt : BitVec 64) :
    Option (List UInt8 × BitVec 64) :=
  if 0 < val then
    let pos := 24 - (cnt + 1)
    (store dbuf pos.toNat (digitByte val)).bind fun dbuf => cofLoop (val / 10) dbuf (cnt + 1)
  else some (dbuf, cnt)
termination_by val.toNat
decreasing_by
  rename_i more
  have quotient : (val / 10).toNat = val.toNat / 10 := BitVec.toNat_udiv
  have positive : 0 < val.toNat := more
  omega

def emitCharOfFixedLLVM (scratch : Scratch) (dst : List UInt8) (vc : BitVec 64) :
    Option (List UInt8) :=
  let cap := dst.length
  let isNeg := vc.slt 0
  let av := if isNeg then 0 - vc else vc
  (store scratch.cells 23 48).bind fun dbuf =>
    (cofLoop av dbuf 0).bind fun (dbuf, cnt) =>
      let cntClamped := if cnt = 0 then 1 else cnt
      let dstOff : BitVec 64 := if isNeg then 1 else 0
      let srcStart := 24 - cntClamped
      (store dst 0 45).bind fun dst =>
        (move dst dstOff.toNat dbuf srcStart.toNat cntClamped.toNat).bind fun dst =>
          let writeEnd := (dstOff + cntClamped).toNat
          let padLen := if writeEnd < cap then cap - writeEnd else 0
          fill dst writeEnd blank padLen

def text (v : BitVec 64) : List UInt8 := signText v.toInt ++ digitBytes (image v.toInt.natAbs)

def magnitude (v : BitVec 64) : BitVec 64 := if v.slt 0 then 0 - v else v

theorem slt_zero (v : BitVec 64) : v.slt 0 = decide (v.toInt < 0) := by
  simp [BitVec.slt]

theorem magnitude_toNat (v : BitVec 64) : (magnitude v).toNat = v.toInt.natAbs := by
  unfold magnitude
  have bound := v.isLt
  rcases toInt_cases v with ⟨signed, small⟩ | ⟨signed, large⟩
  · rw [slt_zero, if_neg (by simp; omega)]
    omega
  · rw [slt_zero, if_pos (by simp; omega), BitVec.toNat_sub]
    simp
    omega

theorem magnitude_eq (v : BitVec 64) : (if v.slt 0 then -(v + 1) + 1 else v) = magnitude v := by
  unfold magnitude
  split
  · ring
  · rfl

theorem tenth_toNat (u : BitVec 64) : (u / 10).toNat = u.toNat / 10 := BitVec.toNat_udiv

theorem digitBytes_append (ds es : List Nat) :
    digitBytes (ds ++ es) = digitBytes ds ++ digitBytes es := List.map_append

theorem digitByte_eq (u : BitVec 64) : [digitByte u] = digitBytes [u.toNat % 10] := rfl

theorem countLoop_spec {u : BitVec 64} {tmp : List UInt8} {n : Nat}
    (room : n + (image u.toNat).length ≤ tmp.length) :
    countLoop u tmp n = some (splice tmp n (digitBytes (image u.toNat)).reverse,
      n + (image u.toNat).length) := by
  induction size : u.toNat using Nat.strong_induction_on generalizing u tmp n with
  | _ m ih =>
    subst size
    have one : 0 < (image u.toNat).length := List.length_pos_iff.mpr (image_ne_nil _)
    rw [countLoop, store_splice _ (by omega), Option.bind_some]
    by_cases last : u.toNat < 10
    · have none_left : u / 10 = 0 := by
        apply BitVec.eq_of_toNat_eq
        rw [tenth_toNat, Nat.div_eq_of_lt last]
        rfl
      rw [if_pos none_left, image_small last, digitByte_eq, Nat.mod_eq_of_lt last]
      rfl
    · obtain ⟨q, quotient⟩ : ∃ q, q = u / 10 := ⟨_, rfl⟩
      have tenth : q.toNat = u.toNat / 10 := by rw [quotient, tenth_toNat]
      have some_left : q ≠ 0 := by
        rintro rfl
        simp at tenth
        omega
      have image_eq : image u.toNat = image q.toNat ++ [u.toNat % 10] := by
        rw [tenth]
        exact image_step (by omega)
      rw [image_eq, List.length_append, List.length_singleton] at room
      have spliced : (splice tmp n [digitByte u]).length = tmp.length :=
        splice_length (by rw [List.length_singleton]; omega)
      have front := @ih q.toNat (by omega) q (splice tmp n [digitByte u]) (n + 1) (by omega) rfl
      rw [← quotient, if_neg some_left, front, image_eq, digitBytes_append, List.reverse_append,
        ← digitByte_eq]
      congr 2
      · exact splice_splice (by simp [digitBytes]; omega)
      · simp
        omega

theorem putDigits_spec {f : Fmt} {tmp cs : List UInt8} {n : Nat} (bytes : tmp.take n = cs)
    (inside : n ≤ tmp.length) (room : f.len + n + 1 ≤ f.buf.length) :
    putDigits f tmp n = some ⟨splice f.buf f.len cs.reverse, f.len + n⟩ := by
  induction n generalizing f cs with
  | zero =>
    subst bytes
    simp [putDigits]
  | succ n ih =>
    have load : loadByte tmp n = some tmp[n] := List.getElem?_eq_getElem (by omega)
    have last : cs = tmp.take n ++ [tmp[n]] := by
      rw [← bytes, List.take_succ_eq_append_getElem (by omega)]
    have spliced : (splice f.buf f.len [tmp[n]]).length = f.buf.length :=
      splice_length (by rw [List.length_singleton]; omega)
    have part : (tmp.take n).reverse.length = n := by simp; omega
    have rest := @ih ⟨splice f.buf f.len [tmp[n]], f.len + 1⟩ _ rfl (by omega) (by simp only; omega)
    have joined : splice (splice f.buf f.len [tmp[n]]) (f.len + 1) (tmp.take n).reverse =
        splice f.buf f.len ([tmp[n]] ++ (tmp.take n).reverse) :=
      splice_splice (by rw [part, List.length_singleton]; omega)
    rw [putDigits, load, Option.bind_some, fputc, if_pos (by omega), store_splice _ (by omega),
      Option.map_some, Option.bind_some, rest, last, List.reverse_append]
    simp only [joined, List.reverse_singleton]
    congr 2
    omega

theorem signText_eq (v : BitVec 64) : signText v.toInt = if v.slt 0 then [45] else [] := by
  rw [slt_zero]
  simp [signText]

theorem image_word_length (u : BitVec 64) : (image u.toNat).length ≤ 20 :=
  (image_length_iff _ 19).mpr (Nat.lt_of_lt_of_le u.isLt (by norm_num))

theorem digits_taken (cells news : List UInt8) :
    (splice cells 0 news).take news.length = news := by
  rw [splice, List.take_zero, List.nil_append, List.take_left]

theorem text_eq (v : BitVec 64) :
    text v = (if v.slt 0 then [45] else []) ++ digitBytes (image (magnitude v).toNat) := by
  rw [text, signText_eq, magnitude_toNat]

theorem text_length (v : BitVec 64) :
    (text v).length = (if v.slt 0 then 1 else 0) + (image (magnitude v).toNat).length := by
  rw [text_eq, List.length_append, digitBytes_length]
  split <;> rfl

theorem text_short (v : BitVec 64) : (text v).length ≤ 21 := by
  have := image_word_length (magnitude v)
  rw [text_length]
  split <;> omega

theorem fmtInt_spec (work : Scratch) (buf : List UInt8) (room : 22 ≤ buf.length) (v : BitVec 64) :
    fmtInt work ⟨buf, 0⟩ v 0 false = some ⟨splice buf 0 (text v), (text v).length⟩ := by
  have digits := image_word_length (magnitude v)
  have counted := @countLoop_spec (magnitude v) work.cells 0 (by rw [work.size]; omega)
  have size : (digitBytes (image (magnitude v).toNat)).length =
    (image (magnitude v).toNat).length :=
    digitBytes_length _
  have reversed : (digitBytes (image (magnitude v).toNat)).reverse.length =
      (image (magnitude v).toNat).length := by rw [List.length_reverse, size]
  have taken := digits_taken work.cells (digitBytes (image (magnitude v).toNat)).reverse
  rw [reversed] at taken
  have held : (splice work.cells 0 (digitBytes (image (magnitude v).toNat)).reverse).length =
    24 := by
    rw [splice_length (by rw [reversed, work.size]; omega), work.size]
  unfold fmtInt
  simp only [magnitude_eq, counted, Option.bind_some, Nat.zero_add]
  rw [text_length, text_eq]
  generalize digitBytes (image (magnitude v).toNat) = ds at *
  generalize (image (magnitude v).toNat).length = n at *
  have no_pad : ∀ sign : Nat, ((0 : Int) - (↑n + ↑sign)).toNat = 0 := by omega
  simp only [Bool.false_eq_true, if_false, no_pad, fpad, Option.bind_some]
  by_cases negative : v.slt 0 = true
  · simp only [negative, if_true]
    have sign : fputc ⟨buf, 0⟩ 45 = some ⟨splice buf 0 [45], 1⟩ := by
      rw [fputc, if_pos (by simp only; omega),
        store_splice _ (by simp only; omega), Option.map_some]
    have spliced : (splice buf 0 [(45 : UInt8)]).length = buf.length :=
      splice_length (by rw [List.length_singleton]; omega)
    rw [sign, Option.bind_some, putDigits_spec taken (by omega) (by simp only; omega),
      List.reverse_reverse]
    simp only
    congr 2
    exact splice_splice (by rw [List.length_singleton, size]; omega)
  · simp only [negative]
    rw [if_neg (by decide), Option.bind_some, putDigits_spec taken (by omega) (by simp only; omega),
      List.reverse_reverse]
    simp

theorem snprintfLld_spec (work tmp : Scratch) (v : BitVec 64) :
    ∃ buf, snprintfLld work tmp.cells v = some (buf, (text v).length) ∧
      ∀ i, i < (text v).length → loadByte buf i = (text v)[i]? := by
  have short := text_short v
  have size := tmp.size
  have spliced : (splice tmp.cells 0 (text v)).length = 24 := by
    rw [splice_length (by omega), size]
  refine ⟨splice (splice tmp.cells 0 (text v)) (text v).length [0], ?_, ?_⟩
  · rw [snprintfLld, fmtInt_spec work tmp.cells (by omega) v, Option.bind_some]
    simp only [spliced]
    rw [if_pos (by omega), if_pos (by omega), store_splice _ (by omega), Option.map_some]
  · intro i inside
    have within := @splice_inside _ tmp.cells (text v) 0 i (by omega) inside
    rw [Nat.zero_add] at within
    rw [loadByte, splice_outside (by rw [List.length_singleton]; omega) (Or.inl inside), within]

/-- The text as it stands in a field of `cap` bytes: cut off or padded. -/
def field (v : BitVec 64) (cap : Nat) : List UInt8 :=
  (text v).take cap ++ List.replicate (cap - (text v).length) blank

theorem field_length (v : BitVec 64) (cap : Nat) : (field v cap).length = cap := by
  simp [field]
  omega

theorem field_text {v : BitVec 64} {cap i : Nat} (inside : i < cap) (within : i < (text v).length) :
    (field v cap)[i]? = (text v)[i]? := by
  rw [field, List.getElem?_append_left (by simp; omega), List.getElem?_take_of_lt inside]

theorem field_blank {v : BitVec 64} {cap i : Nat} (inside : i < cap)
    (behind : (text v).length ≤ i) :
    (field v cap)[i]? = some blank := by
  rw [field, List.getElem?_append_right (by simp; omega), List.getElem?_replicate, if_pos]
  simp
  omega

theorem pliCharOfFixed_spec (work tmp : Scratch) (dst : List UInt8) (v : BitVec 64) :
    pliCharOfFixed work tmp dst v = some (field v dst.length) := by
  obtain ⟨buf, printed, bytes⟩ := snprintfLld_spec work tmp v
  have size := field_length v dst.length
  obtain ⟨out, copied, upto⟩ := @storeLoop_upto _ (field v dst.length) dst
    (min (text v).length dst.length) 0 (loadByte buf) (upto_nothing size.symm) (fun i _ less => by
      refine ⟨(text v).get ⟨i, by omega⟩, ?_, ?_⟩
      · rw [bytes i (by omega), List.getElem?_eq_getElem, List.get_eq_getElem]
      · rw [field_text (by omega) (by omega), List.getElem?_eq_getElem, List.get_eq_getElem])
  rw [Nat.zero_max] at upto
  obtain ⟨last, padded, whole⟩ := @storeLoop_upto _ _ _ dst.length _ (fun _ => some blank) upto
    (fun i low less => ⟨blank, rfl, field_blank less (by omega)⟩)
  have ended : max (min (text v).length dst.length) dst.length = (field v dst.length).length := by
    omega
  rw [ended] at whole
  rw [pliCharOfFixed, printed, Option.bind_some]
  simp only
  rw [copied, Option.bind_some, padded, upto_whole whole]

def extracted (val : BitVec 64) : List Nat := if val = 0 then [] else image val.toNat

theorem extracted_step {val : BitVec 64} (positive : 0 < val) :
    extracted val = extracted (val / 10) ++ [val.toNat % 10] := by
  have above : 0 < val.toNat := positive
  have nonzero : val ≠ 0 := by
    rintro rfl
    cases above
  have tenth := tenth_toNat val
  rw [extracted, if_neg nonzero, extracted]
  by_cases last : val.toNat < 10
  · have none_left : val / 10 = 0 := by
      apply BitVec.eq_of_toNat_eq
      rw [tenth, Nat.div_eq_of_lt last]
      rfl
    rw [if_pos none_left, image_small last, Nat.mod_eq_of_lt last, List.nil_append]
  · have some_left : val / 10 ≠ 0 := by
      intro zero
      rw [zero] at tenth
      simp at tenth
      omega
    rw [if_neg some_left, tenth, image_step (by omega)]

theorem cofLoop_spec {val cnt : BitVec 64} {dbuf : List UInt8} (size : dbuf.length = 24)
    (room : cnt.toNat + (extracted val).length ≤ 24) :
    cofLoop val dbuf cnt =
      some (splice dbuf (24 - cnt.toNat - (extracted val).length) (digitBytes (extracted val)),
        cnt + BitVec.ofNat 64 (extracted val).length) := by
  induction size_eq : val.toNat using Nat.strong_induction_on generalizing val cnt dbuf with
  | _ m ih =>
    subst size_eq
    rw [cofLoop]
    by_cases positive : 0 < val
    · have above : 0 < val.toNat := positive
      have split := extracted_step positive
      obtain ⟨q, quotient⟩ : ∃ q, q = val / 10 := ⟨_, rfl⟩
      have tenth : q.toNat = val.toNat / 10 := by rw [quotient, tenth_toNat]
      rw [← quotient] at split ⊢
      rw [split, List.length_append, List.length_singleton] at room
      have next : (cnt + 1).toNat = cnt.toNat + 1 := by
        rw [BitVec.toNat_add]
        simp
        omega
      have pos : (24 - (cnt + 1)).toNat = 23 - cnt.toNat := by
        rw [BitVec.toNat_sub, next]
        simp
        omega
      have spliced : (splice dbuf (23 - cnt.toNat) [digitByte val]).length = 24 := by
        rw [splice_length (by rw [List.length_singleton]; omega), size]
      have front := @ih q.toNat (by omega) q (cnt + 1) _ spliced (by omega) rfl
      rw [if_pos positive]
      simp only
      rw [pos, store_splice _ (by omega), Option.bind_some, front, split, digitBytes_append,
        ← digitByte_eq, List.length_append, List.length_singleton, next]
      have digits : (digitBytes (extracted q)).length = (extracted q).length := digitBytes_length _
      have place : 23 - cnt.toNat = 24 - (cnt.toNat + 1) - (extracted q).length +
          (digitBytes (extracted q)).length := by omega
      congr 2
      · rw [splice_comm (by omega) (by rw [List.length_singleton]; omega), place,
          splice_splice (by rw [List.length_singleton]; omega)]
        congr 1
        omega
      · apply BitVec.eq_of_toNat_eq
        simp
        omega
    · have zero : val = 0 := by
        apply BitVec.eq_of_toNat_eq
        have : ¬ 0 < val.toNat := positive
        simp
        omega
      rw [if_neg positive, extracted, if_pos zero]
      simp [digitBytes]

theorem cofLoop_digits (scratch : Scratch) (val : BitVec 64) :
    ∃ dbuf cnt, ((store scratch.cells 23 48).bind fun dbuf => cofLoop val dbuf 0) =
        some (dbuf, cnt) ∧
      (if cnt = 0 then 1 else cnt).toNat = (image val.toNat).length ∧ dbuf.length = 24 ∧
      dbuf.drop (24 - (image val.toNat).length) = digitBytes (image val.toNat) := by
  have size := scratch.size
  have seeded : (splice scratch.cells 23 [(48 : UInt8)]).length = 24 := by
    rw [splice_length (by rw [List.length_singleton]; omega), size]
  have short := image_word_length val
  rw [store_splice _ (by omega), Option.bind_some]
  by_cases zero : val = 0
  · subst zero
    refine ⟨_, _, cofLoop_spec seeded (by simp [extracted]), ?_⟩
    have none_out : extracted 0 = [] := if_pos rfl
    have one : image (0 : BitVec 64).toNat = [0] := image_small (by decide)
    rw [none_out, one]
    refine ⟨rfl, ?_, ?_⟩
    · rw [digitBytes, List.map_nil, splice_nil, seeded]
    · simp [digitBytes, splice, size]
  · have all : extracted val = image val.toNat := if_neg zero
    have some_digit : 0 < (image val.toNat).length := List.length_pos_iff.mpr (image_ne_nil _)
    have digits : (digitBytes (image val.toNat)).length = (image val.toNat).length :=
      digitBytes_length _
    have loop := @cofLoop_spec val 0 _ seeded (by rw [all]; simp; omega)
    rw [all] at loop
    refine ⟨_, _, loop, ?_, ?_, ?_⟩
    · have count : (0 + BitVec.ofNat 64 (image val.toNat).length).toNat =
          (image val.toNat).length := by
        simp
        omega
      have counted : (0 + BitVec.ofNat 64 (image val.toNat).length) ≠ 0 := by
        intro none
        rw [none] at count
        simp at count
        omega
      rw [if_neg counted, count]
    · rw [splice_length (by simp; omega), seeded]
    · have place : 24 - (0 : BitVec 64).toNat - (image val.toNat).length =
          24 - (image val.toNat).length := rfl
      rw [place, splice, List.append_assoc, List.drop_append_of_le_length (by simp; omega),
        List.drop_eq_nil_of_le (by simp), List.nil_append, digits,
        List.drop_eq_nil_of_le (by omega), List.append_nil]

def signWidth (v : BitVec 64) : Nat := if v.slt 0 then 1 else 0

def digitCount (v : BitVec 64) : Nat := (image (magnitude v).toNat).length

theorem text_width (v : BitVec 64) : (text v).length = signWidth v + digitCount v := text_length v

theorem emitCharOfFixed_eq (scratch : Scratch) (dst : List UInt8) (v : BitVec 64) :
    ∃ dbuf, dbuf.length = 24 ∧
      dbuf.drop (24 - digitCount v) = digitBytes (image (magnitude v).toNat) ∧
      emitCharOfFixedLLVM scratch dst v =
        (store dst 0 45).bind fun out =>
          (move out (signWidth v) dbuf (24 - digitCount v) (digitCount v)).bind fun out =>
            fill out (text v).length blank (dst.length - (text v).length) := by
  obtain ⟨dbuf, cnt, loop, counted, size, digits⟩ := cofLoop_digits scratch (magnitude v)
  refine ⟨dbuf, size, digits, ?_⟩
  have short := image_word_length (magnitude v)
  have off : (if v.slt 0 then (1 : BitVec 64) else 0).toNat = signWidth v := by
    unfold signWidth
    split <;> rfl
  have small : signWidth v ≤ 1 := by
    unfold signWidth
    split <;> omega
  unfold digitCount
  rw [emitCharOfFixedLLVM]
  change ((store scratch.cells 23 48).bind fun dbuf => (cofLoop (magnitude v) dbuf 0).bind _) = _
  rw [← Option.bind_assoc, loop, Option.bind_some]
  have start : (24 - (if cnt = 0 then 1 else cnt)).toNat =
      24 - (image (magnitude v).toNat).length := by
    rw [BitVec.toNat_sub, counted]
    simp
    omega
  have writeEnd : ((if v.slt 0 then (1 : BitVec 64) else 0) + (if cnt = 0 then 1 else cnt)).toNat =
      (text v).length := by
    rw [BitVec.toNat_add, off, counted, text_width, digitCount]
    omega
  simp only [off, counted, start, writeEnd]
  congr 1
  funext out
  congr 1
  funext last
  congr 1
  split <;> omega

theorem emitCharOfFixed_fits (scratch : Scratch) {dst : List UInt8} {v : BitVec 64}
    (fits : (text v).length ≤ dst.length) :
    emitCharOfFixedLLVM scratch dst v = some (field v dst.length) := by
  obtain ⟨dbuf, size, digits, emitted⟩ := emitCharOfFixed_eq scratch dst v
  have width := text_width v
  have some_digit : 0 < digitCount v := List.length_pos_iff.mpr (image_ne_nil _)
  have short : digitCount v ≤ 20 := image_word_length _
  have whole : (digitBytes (image (magnitude v).toNat)).length = digitCount v := digitBytes_length _
  have signed : (splice dst 0 [(45 : UInt8)]).length = dst.length :=
    splice_length (by rw [List.length_singleton]; omega)
  rw [emitted, store_splice _ (by omega), Option.bind_some, width,
    move_fill _ (by omega) (by omega), CheckedCells.padded, digits,
      List.take_of_length_le (by omega)]
  congr 1
  rw [field, List.take_of_length_le fits, width, text_eq]
  have wide := width
  unfold signWidth at wide ⊢
  by_cases negative : v.slt 0 = true
  · rw [if_pos negative] at wide
    rw [if_pos negative, if_pos negative, List.append_assoc]
    have joined := @splice_splice _ dst [(45 : UInt8)]
      (digitBytes (image (magnitude v).toNat) ++
        List.replicate (dst.length - (1 + digitCount v)) blank) 0 (by simp; omega)
    rw [List.length_singleton, Nat.zero_add] at joined
    rw [joined, splice_all (by simp; omega)]
  · rw [if_neg negative] at wide
    rw [if_neg negative, if_neg negative, List.nil_append, splice_all (by simp; omega)]

theorem emitCharOfFixed_overrun (scratch : Scratch) {dst : List UInt8} {v : BitVec 64}
    (long : dst.length < (text v).length) : emitCharOfFixedLLVM scratch dst v = none := by
  obtain ⟨dbuf, size, digits, emitted⟩ := emitCharOfFixed_eq scratch dst v
  have width := text_width v
  have some_digit : 0 < digitCount v := List.length_pos_iff.mpr (image_ne_nil _)
  rw [emitted]
  by_cases room : 0 < dst.length
  · rw [store_splice _ room, Option.bind_some, move_outside (by omega), Option.bind_none]
    rw [splice_length (by rw [List.length_singleton]; omega)]
    omega
  · rw [store, if_neg room, Option.bind_none]

/-- The numbers whose text has at most `cap` characters, the minus counted. -/
def TextFits (cap : Nat) (v : Int) : Prop :=
  0 < cap ∧ v < 10 ^ cap ∧ -v < 10 ^ (cap - 1)

theorem text_fits_iff (cap : Nat) (v : BitVec 64) :
    (text v).length ≤ cap ↔ TextFits cap v.toInt := by
  have some_digit : 0 < digitCount v := List.length_pos_iff.mpr (image_ne_nil _)
  rw [text_width]
  unfold TextFits signWidth
  have power (k : Nat) : (0 : Int) < 10 ^ k := by positivity
  have count (k : Nat) : digitCount v ≤ k + 1 ↔ (v.toInt.natAbs : Int) < 10 ^ (k + 1) := by
    rw [digitCount, image_length_iff, magnitude_toNat]
    norm_cast
  rw [slt_zero]
  rcases Int.lt_or_le v.toInt 0 with negative | nonneg
  · rw [if_pos (by simpa using negative)]
    obtain _ | _ | k := cap
    · omega
    · have := power 1
      simp
      omega
    · have := power (k + 2)
      have step := count k
      rw [show k + 2 - 1 = k + 1 by omega]
      constructor
      · intro fits
        have := step.mp (by omega)
        exact ⟨by omega, by omega, by omega⟩
      · rintro ⟨-, -, small⟩
        have := step.mpr (by omega)
        omega
  · rw [if_neg (by simpa using nonneg)]
    obtain _ | k := cap
    · omega
    · have := power k
      have step := count k
      rw [Nat.add_sub_cancel]
      constructor
      · intro fits
        have := step.mp (by omega)
        exact ⟨by omega, by omega, by omega⟩
      · rintro ⟨-, small, -⟩
        have := step.mpr (by omega)
        omega

def CharAgrees (dst : List UInt8) (v : BitVec 64) : Prop :=
  ∀ scratch work tmp, ∃ out, emitCharOfFixedLLVM scratch dst v = some out ∧
    pliCharOfFixed work tmp dst v = some out

def zeros : Scratch := ⟨List.replicate 24 0, rfl⟩

theorem char_agrees_iff (dst : List UInt8) (v : BitVec 64) :
    CharAgrees dst v ↔ TextFits dst.length v.toInt := by
  rw [← text_fits_iff]
  constructor
  · intro agrees
    by_contra long
    obtain ⟨out, emitted, -⟩ := agrees zeros zeros zeros
    rw [emitCharOfFixed_overrun zeros (by omega)] at emitted
    cases emitted
  · intro fits scratch work tmp
    exact ⟨_, emitCharOfFixed_fits scratch fits, pliCharOfFixed_spec work tmp dst v⟩

/-- 123 in two bytes: the runtime stores 12, the emitted code three digits. -/
theorem overrun_two_bytes :
    ¬ CharAgrees [0, 0] 123 ∧ pliCharOfFixed zeros zeros [0, 0] 123 = some [49, 50] := by
  refine ⟨fun agrees => ?_, ?_⟩
  · obtain ⟨out, emitted, -⟩ := agrees zeros zeros zeros
    rw [emitCharOfFixed_overrun zeros (by rw [text_width]; decide)] at emitted
    cases emitted
  · rw [pliCharOfFixed_spec]
    decide

end PliCharOfFixed
