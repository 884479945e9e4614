import PliLlvm.Runtime.Substr

/- The code emitted for SUBSTR (src/irgen.cpp), as a value and as a target. A register is
   a 64-bit word and `<` compares without sign. -/
namespace PliSubstr
open CheckedCells

def Buffer.word (b : Buffer) : BitVec 64 := BitVec.ofNat 64 b.bytes.length

def umin (a b : BitVec 64) : BitVec 64 := if a < b then a else b

def emitSubstrLLVM (dst src : Buffer) (start len : BitVec 64) : Option (List UInt8) :=
  let start0 := start - 1
  let nClipped := umin dst.word len
  let avail := if src.word < start0 then 0 else src.word - start0
  let take := umin avail nClipped
  let take := if 1 ≤ start then take else 0
  (move dst.bytes 0 src.bytes start0.toNat take.toNat).bind fun out =>
    fill out take.toNat blank (nClipped - take).toNat

theorem Buffer.word_toNat (b : Buffer) : b.word.toNat = b.bytes.length := by
  rw [Buffer.word, BitVec.toNat_ofNat, Nat.mod_eq_of_lt (Nat.lt_of_lt_of_le b.small (by decide))]

theorem toInt_cases (w : BitVec 64) :
    (w.toInt = w.toNat ∧ w.toNat < 2 ^ 63) ∨ (w.toInt = w.toNat - 2 ^ 64 ∧ 2 ^ 63 ≤ w.toNat) := by
  have := w.isLt
  rw [BitVec.toInt_eq_toNat_cond]
  split <;> omega

theorem pred_toNat (start : BitVec 64) :
    (1 ≤ start.toInt ∧ (start - 1).toNat = (start.toInt - 1).toNat) ∨
      (start.toInt < 1 ∧ 2 ^ 63 - 1 ≤ (start - 1).toNat) := by
  have one : (start - 1).toNat = (2 ^ 64 - 1 + start.toNat) % 2 ^ 64 := by
    rw [BitVec.toNat_sub]
    rfl
  have := start.isLt
  rcases toInt_cases start with ⟨signed, small⟩ | ⟨signed, large⟩
  · rcases Nat.eq_zero_or_pos start.toNat with zero | positive
    · exact Or.inr ⟨by omega, by omega⟩
    · exact Or.inl ⟨by omega, by omega⟩
  · exact Or.inr ⟨by omega, by omega⟩

def clipped (cap : Nat) (len : BitVec 64) : Nat := min len.toNat cap

theorem clipped_eq (cap : Nat) (small : cap < 2 ^ 63 - 1) (len : BitVec 64) :
    (0 ≤ len.toInt ∧ clipped cap len = (min len.toInt cap).toNat) ∨
      (len.toInt < 0 ∧ clipped cap len = cap) := by
  unfold clipped
  rcases toInt_cases len with ⟨signed, -⟩ | ⟨signed, large⟩
  · exact Or.inl ⟨by omega, by omega⟩
  · have := len.isLt
    exact Or.inr ⟨by omega, by omega⟩

@[simp] theorem umin_toNat (a b : BitVec 64) : (umin a b).toNat = min a.toNat b.toNat := by
  unfold umin
  split
  · rename_i less
    have : a.toNat < b.toNat := less
    omega
  · rename_i less
    have : ¬a.toNat < b.toNat := less
    omega

theorem floor_toNat (a b : BitVec 64) :
    (if a < b then (0 : BitVec 64) else a - b).toNat = a.toNat - b.toNat := by
  split
  · rename_i less
    have : a.toNat < b.toNat := less
    rw [Nat.sub_eq_zero_of_le (by omega)]
    rfl
  · rename_i less
    have : ¬a.toNat < b.toNat := less
    exact BitVec.toNat_sub_of_le (by show b.toNat ≤ a.toNat; omega)

theorem taken_toNat (src : Buffer) (start n : BitVec 64) :
    (if 1 ≤ start then
      umin (if src.word < start - 1 then 0 else src.word - (start - 1)) n else 0).toNat =
        min (src.bytes.length - (start - 1).toNat) n.toNat := by
  have small := src.small
  by_cases valid : 1 ≤ start
  · rw [if_pos valid, umin_toNat, floor_toNat, src.word_toNat]
  · have zero : start.toNat = 0 := by
      have : ¬1 ≤ start.toNat := valid
      omega
    have low : start.toInt < 1 := by
      rcases toInt_cases start with ⟨signed, -⟩ | ⟨signed, -⟩ <;> omega
    rcases pred_toNat start with ⟨high, -⟩ | ⟨-, far⟩
    · omega
    · rw [if_neg valid, Nat.sub_eq_zero_of_le (by omega), Nat.zero_min]
      rfl

theorem emitSubstrLLVM_field (dst src : Buffer) (start len : BitVec 64) :
    emitSubstrLLVM dst src start len = some (splice dst.bytes 0
      (substrField src (start - 1).toNat (clipped dst.bytes.length len))) := by
  have count : (umin dst.word len).toNat = clipped dst.bytes.length len := by
    rw [umin_toNat, dst.word_toNat, clipped, Nat.min_comm]
  have cap : clipped dst.bytes.length len ≤ dst.bytes.length := Nat.min_le_right _ _
  have taken := taken_toNat src start (umin dst.word len)
  rw [count] at taken
  have pad := BitVec.toNat_sub_of_le (show _ ≤ umin dst.word len by
    rw [BitVec.le_def, taken, count]
    exact Nat.min_le_right _ _)
  simp only [emitSubstrLLVM, pad, taken, count]
  have inside : 0 + min (src.bytes.length - (start - 1).toNat) (clipped dst.bytes.length len) +
      (clipped dst.bytes.length len -
        min (src.bytes.length - (start - 1).toNat) (clipped dst.bytes.length len)) ≤
      dst.bytes.length := by omega
  have written := move_fill blank
    (show (start - 1).toNat + min (src.bytes.length - (start - 1).toNat)
        (clipped dst.bytes.length len) ≤ src.bytes.length ∨ _ by omega) inside
  rw [Nat.zero_add] at written
  exact written

theorem substrField_past {src : Buffer} {start0 : Nat} (past : src.bytes.length ≤ start0)
    (n : Nat) : substrField src start0 n = List.replicate n blank := by
  rw [substrField, Nat.sub_eq_zero_of_le past, Nat.zero_min]
  simp [padded]

theorem substrField_blank_iff (src : Buffer) (n : Nat) :
    substrField src 0 n = List.replicate n blank ↔ ∀ b ∈ src.bytes.take n, b = blank := by
  have whole : substrField src 0 n = src.bytes.take n ++
      List.replicate (n - (src.bytes.take n).length) blank := by
    rw [substrField, padded, List.drop_zero, Nat.sub_zero, List.length_take,
      Nat.min_comm n, Nat.min_comm, ← List.take_eq_take_min]
  rw [whole, List.eq_replicate_iff]
  constructor
  · rintro ⟨-, all⟩ b member
    exact all b (List.mem_append_left _ member)
  · intro all
    have short := List.length_take_le n src.bytes
    refine ⟨?_, fun b member => ?_⟩
    · rw [List.length_append, List.length_replicate]
      omega
    rcases List.mem_append.mp member with inside | behind
    · exact all b inside
    · exact List.eq_of_mem_replicate behind

/-- Both implementations finish, having read only the source, with the same bytes. -/
def SameValue (dst src : Buffer) (start len : BitVec 64) : Prop :=
  ∃ out, emitSubstrLLVM dst src start len = some out ∧
    pliSubstr dst src start.toInt len.toInt = some out

theorem sameValue_counted (dst src : Buffer) {start len : BitVec 64} (counted : 0 ≤ len.toInt) :
    SameValue dst src start len ↔ 1 ≤ start.toInt ∨
      ∀ b ∈ src.bytes.take (min len.toInt dst.bytes.length).toNat, b = blank := by
  have small := src.small
  obtain ⟨-, count⟩ | ⟨negative, -⟩ := clipped_eq dst.bytes.length dst.small len
  · have equal : SameValue dst src start len ↔
        substrField src (start - 1).toNat (min len.toInt dst.bytes.length).toNat =
          substrField src (max start.toInt 1 - 1).toNat (min len.toInt dst.bytes.length).toNat := by
      rw [SameValue, emitSubstrLLVM_field, pliSubstr_field dst src counted, count, Buffer.len,
        ← @splice_inj _ dst.bytes _ _ 0 (by rw [substrField_length, substrField_length])]
      constructor
      · rintro ⟨out, emitted, called⟩
        exact Option.some.inj (emitted.trans called.symm)
      · intro same
        exact ⟨_, rfl, by rw [same]⟩
    rw [equal]
    rcases pred_toNat start with ⟨high, pred⟩ | ⟨low, far⟩
    · rw [pred, show max start.toInt 1 = start.toInt by omega]
      exact ⟨fun _ => Or.inl high, fun _ => rfl⟩
    · rw [substrField_past (by omega), show (max start.toInt 1 - 1).toNat = 0 by omega, eq_comm,
        substrField_blank_iff]
      exact ⟨Or.inr, fun h => h.resolve_left (by omega)⟩
  · omega

theorem sameValue_negative {dst src : Buffer} {start len : BitVec 64} (negative : len.toInt < 0) :
    SameValue dst src start len ↔
      dst.bytes = substrField src (start - 1).toNat dst.bytes.length := by
  obtain ⟨counted, -⟩ | ⟨-, count⟩ := clipped_eq dst.bytes.length dst.small len
  · omega
  · have field : splice dst.bytes 0 (substrField src (start - 1).toNat dst.bytes.length) =
        substrField src (start - 1).toNat dst.bytes.length := by
      simp [splice, substrField_length]
    rw [SameValue, emitSubstrLLVM_field, pliSubstr_negative dst src negative, count, field]
    constructor
    · rintro ⟨out, emitted, called⟩
      exact Option.some.inj (called.trans emitted.symm)
    · intro same
      exact ⟨_, rfl, by rw [← same]⟩

theorem field_not_held {cap : Nat} (room : cap < 2 ^ 63 - 1) (positive : 0 < cap) (src : Buffer)
    (start0 : Nat) : ∃ dst : Buffer, dst.bytes.length = cap ∧
      dst.bytes ≠ substrField src start0 cap := by
  obtain ⟨c, rest, field⟩ := List.exists_cons_of_length_pos
    (show 0 < (substrField src start0 cap).length by rw [substrField_length]; exact positive)
  refine ⟨⟨List.replicate cap (c + 1), by rw [List.length_replicate]; exact room⟩,
    List.length_replicate, fun held => ?_⟩
  obtain ⟨n, rfl⟩ := Nat.exists_eq_succ_of_ne_zero (Nat.pos_iff_ne_zero.mp positive)
  rw [field] at held
  have first := (List.cons.inj (held : List.replicate (n + 1) (c + 1) = c :: rest)).1
  simp at first

/-- SUBSTR as a value. Inline code and runtime agree on a result of any capacity, whatever
    it holds, except on a negative length and on a start below 1, where the runtime takes
    the source from its first byte and the inline code none of it. -/
theorem substr_value_iff {cap : Nat} (room : cap < 2 ^ 63 - 1) (src : Buffer)
    (start len : BitVec 64) :
    (∀ dst : Buffer, dst.bytes.length = cap → (emitSubstrLLVM dst src start len).isSome) ∧
      ((∀ dst : Buffer, dst.bytes.length = cap → SameValue dst src start len) ↔
        (0 ≤ len.toInt ∨ cap = 0) ∧
          (1 ≤ start.toInt ∨ ∀ b ∈ src.bytes.take (min len.toInt cap).toNat, b = blank)) := by
  refine ⟨fun dst _ => by rw [emitSubstrLLVM_field]; rfl, ?_⟩
  rcases Int.lt_or_le len.toInt 0 with negative | counted
  · have none_taken : (min len.toInt cap).toNat = 0 := by omega
    rw [none_taken, List.take_zero]
    constructor
    · intro all
      refine ⟨Or.inr ?_, Or.inr fun b member => by cases member⟩
      rcases Nat.eq_zero_or_pos cap with zero | positive
      · exact zero
      · obtain ⟨dst, size, other⟩ := field_not_held room positive src (start - 1).toNat
        have held := (sameValue_negative negative).mp (all dst size)
        rw [size] at held
        exact absurd held other
    · rintro ⟨empty, -⟩ dst size
      have nothing : dst.bytes.length = 0 := by omega
      rw [sameValue_negative negative, nothing]
      exact (List.length_eq_zero_iff.mp nothing).trans
        (List.length_eq_zero_iff.mp (substrField_length _ _ 0)).symm
  · constructor
    · intro all
      have same := all ⟨List.replicate cap blank, by rw [List.length_replicate]; exact room⟩
        List.length_replicate
      rw [sameValue_counted _ src counted, List.length_replicate] at same
      exact ⟨Or.inl counted, same⟩
    · rintro ⟨-, same⟩ dst size
      rw [sameValue_counted _ src counted, size]
      exact same

theorem substr_value_three :
    SameValue ⟨[0, 0, 0], by decide⟩ ⟨[97, 98, 99, 100], by decide⟩ 2 5 :=
  (substr_value_iff (show 3 < 2 ^ 63 - 1 by decide) ⟨[97, 98, 99, 100], by decide⟩ 2 5).2.mpr
    ⟨Or.inl (by decide), Or.inl (by decide)⟩ ⟨[0, 0, 0], by decide⟩ rfl

/-- SUBSTR('abc', 0, 3) is 'abc' from the runtime and blank from the inline code. -/
theorem start_zero_differs :
    pliSubstr ⟨[0, 0, 0], by decide⟩ ⟨[97, 98, 99], by decide⟩ 0 3 = some [97, 98, 99] ∧
      emitSubstrLLVM ⟨[0, 0, 0], by decide⟩ ⟨[97, 98, 99], by decide⟩ 0 3 = some [32, 32, 32] ∧
      ¬SameValue ⟨[0, 0, 0], by decide⟩ ⟨[97, 98, 99], by decide⟩ 0 3 := by
  have called : pliSubstr ⟨[0, 0, 0], by decide⟩ ⟨[97, 98, 99], by decide⟩ 0 3 =
      some [97, 98, 99] := by decide
  have emitted : emitSubstrLLVM ⟨[0, 0, 0], by decide⟩ ⟨[97, 98, 99], by decide⟩ 0 3 =
      some [32, 32, 32] := by decide
  refine ⟨called, emitted, fun same => ?_⟩
  obtain ⟨out, inline, runtime⟩ := same
  have equal := Option.some.inj (inline.symm.trans emitted)
  subst equal
  exact absurd (called.symm.trans runtime) (by decide)

end PliSubstr
