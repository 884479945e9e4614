import PliLlvm.Runtime.Strings
import PliLlvm.Runtime.Substr

/- TRANSLATE as the runtime does it (runtime/rt_string.c), as the emitted loops do
   (src/irgen.cpp) and through the table of two constant strings (src/irgen_decisions.cpp).
   The loops load a byte of the source and one of the replacement before they know that it
   is there; memory outside a string holds anything. -/
namespace PliTranslate
open CheckedCells PliStrings PliSubstr

/-- `while (k < inlen && c != in[k]) ++k;` -/
def placeLoop (c : UInt8) (inStr : List UInt8) (k : Nat) : Option Nat :=
  if k < inStr.length then
    (loadByte inStr k).bind fun x => if c ≠ x then placeLoop c inStr (k + 1) else some k
  else some k
termination_by inStr.length - k

def pliTranslate (dst s outStr inStr : List UInt8) : Option (List UInt8) :=
  let n := if s.length < dst.length then s.length else dst.length
  (storeLoop n (fun i =>
    (loadByte s i).bind fun c =>
      (placeLoop c inStr 0).bind fun k =>
        if k < inStr.length then
          if k < outStr.length then loadByte outStr k else some blank
        else some c) dst 0).bind fun out =>
    if n < dst.length then fill out n blank (dst.length - n) else some out

def innerLoop (si : UInt8) (inStr : List UInt8) (k : Nat) : Option Nat :=
  if inStr.length ≤ k then some k
  else (loadByte inStr k).bind fun ik => if si = ik then some k else innerLoop si inStr (k + 1)
termination_by inStr.length - k

def trLoop (dstcap : Nat) {s outStr : List UInt8} (source : Window s) (out : Window outStr)
    (inStr dst : List UInt8) (i : Nat) : Option (List UInt8) :=
  let si := source.load i
  if s.length ≤ i ∨ dstcap ≤ i then some dst
  else
    (innerLoop si inStr 0).bind fun k =>
      let outK := out.load k
      let byteVal := if k < inStr.length then (if k < outStr.length then outK else blank) else si
      (store dst i byteVal).bind fun dst => trLoop dstcap source out inStr dst (i + 1)
termination_by s.length - i

def emitTranslateLLVM (dst : List UInt8) {s outStr : List UInt8} (source : Window s)
    (out : Window outStr) (inStr : List UInt8) : Option (List UInt8) :=
  (trLoop dst.length source out inStr dst 0).bind fun written =>
    let copyLen := if s.length ≤ dst.length then s.length else dst.length
    fill written copyLen blank (dst.length - copyLen)

def tableLoop (n : Nat) (s table dst : List UInt8) (i : Nat) : Option (List UInt8) :=
  (loadByte s i).bind fun code =>
    (loadByte table code.toNat).bind fun mapped =>
      (store dst i mapped).bind fun dst =>
        if i + 1 < n then tableLoop n s table dst (i + 1) else some dst
termination_by n - i

def emitTranslateTable (dst s table : List UInt8) : Option (List UInt8) :=
  let n := if s.length ≤ dst.length then s.length else dst.length
  (if n ≤ 0 then some dst else tableLoop n s table dst 0).bind fun out =>
    fill out n blank (dst.length - n)

def tableEntries (outStr : List UInt8) :
    List UInt8 → Nat → List Bool → List UInt8 → List UInt8
  | [], _, _, bytes => bytes
  | c :: rest, j, mapped, bytes =>
    if mapped.getD c.toNat false then tableEntries outStr rest (j + 1) mapped bytes
    else tableEntries outStr rest (j + 1) (mapped.set c.toNat true)
      (bytes.set c.toNat (if j < outStr.length then outStr.getD j 0 else blank))

def translateTableBytes (outStr inStr : List UInt8) : List UInt8 :=
  tableEntries outStr inStr 0 (List.replicate 256 false) ((List.range 256).map UInt8.ofNat)

def translateByte (outStr inStr : List UInt8) (c : UInt8) : UInt8 :=
  if inStr.idxOf c < inStr.length then outStr.getD (inStr.idxOf c) blank else c

def translated (outStr inStr s : List UInt8) (cap : Nat) : List UInt8 :=
  (s.take cap).map (translateByte outStr inStr) ++ List.replicate (cap - s.length) blank

theorem translated_length (outStr inStr s : List UInt8) (cap : Nat) :
    (translated outStr inStr s cap).length = cap := by
  simp [translated]
  omega

theorem translated_get {outStr inStr s : List UInt8} {cap i : Nat} (inside : i < cap)
    (within : i < s.length) :
    (translated outStr inStr s cap)[i]? = some (translateByte outStr inStr s[i]) := by
  rw [translated, List.getElem?_append_left (by simp; omega), List.getElem?_map,
    List.getElem?_take_of_lt inside, List.getElem?_eq_getElem within, Option.map_some]

theorem translated_blank {outStr inStr s : List UInt8} {cap i : Nat} (inside : i < cap)
    (behind : s.length ≤ i) : (translated outStr inStr s cap)[i]? = some blank := by
  rw [translated, List.getElem?_append_right (by simp; omega), List.getElem?_replicate, if_pos]
  simp
  omega

theorem translated_filled {outStr inStr s out : List UInt8} {cap : Nat}
    (upto : Upto (translated outStr inStr s cap) out (min s.length cap)) :
    fill out (min s.length cap) blank (cap - min s.length cap) =
      some (translated outStr inStr s cap) := by
  have size := translated_length outStr inStr s cap
  obtain ⟨last, filled, whole⟩ := @upto_fill _ _ _ _ (cap - min s.length cap) blank upto (by omega)
    fun i low high => translated_blank (by omega) (by omega)
  rw [show min s.length cap + (cap - min s.length cap) =
    (translated outStr inStr s cap).length by omega] at whole
  rw [filled, upto_whole whole]

theorem idxOf_drop {c : UInt8} {t : List UInt8} {k : Nat} (more : k < t.length) :
    (t.drop k).idxOf c = if c = t[k] then 0 else (t.drop (k + 1)).idxOf c + 1 := by
  rw [List.drop_eq_getElem_cons more, List.idxOf_cons]
  by_cases same : c = t[k]
  · simp [same]
  · rw [if_neg same, show (t[k] == c) = false by simpa using Ne.symm same, cond_false]

theorem placeLoop_spec (c : UInt8) {t : List UInt8} {k : Nat} (part : k ≤ t.length) :
    placeLoop c t k = some (k + (t.drop k).idxOf c) := by
  induction left : t.length - k generalizing k with
  | zero =>
    rw [placeLoop, if_neg (by omega), List.drop_eq_nil_of_le (by omega)]
    rfl
  | succ m ih =>
    have more : k < t.length := by omega
    have load : loadByte t k = some t[k] := List.getElem?_eq_getElem more
    rw [placeLoop, if_pos more, load, Option.bind_some, idxOf_drop more]
    by_cases same : c = t[k]
    · rw [if_neg (not_not.mpr same), if_pos same, Nat.add_zero]
    · rw [if_pos same, if_neg same, ih (by omega) (by omega)]
      congr 1
      omega

theorem innerLoop_eq_placeLoop (c : UInt8) (t : List UInt8) (k : Nat) :
    innerLoop c t k = placeLoop c t k := by
  induction left : t.length - k generalizing k with
  | zero => rw [innerLoop, placeLoop, if_pos (by omega), if_neg (by omega)]
  | succ m ih =>
    have load : loadByte t k = some t[k] := List.getElem?_eq_getElem (by omega)
    rw [innerLoop, placeLoop, if_neg (by omega), if_pos (by omega), load, Option.bind_some,
      Option.bind_some, ih (k + 1) (by omega)]
    by_cases same : c = t[k]
    · rw [if_pos same, if_neg (not_not.mpr same)]
    · rw [if_neg same, if_pos same]

theorem placeLoop_start (c : UInt8) (t : List UInt8) : placeLoop c t 0 = some (t.idxOf c) := by
  rw [placeLoop_spec c (Nat.zero_le _), List.drop_zero, Nat.zero_add]

theorem pliTranslate_spec (dst s outStr inStr : List UInt8) :
    pliTranslate dst s outStr inStr = some (translated outStr inStr s dst.length) := by
  have size := (translated_length outStr inStr s dst.length).symm
  have value : ∀ i, 0 ≤ i → i < min s.length dst.length → ∃ x,
      ((loadByte s i).bind fun c => (placeLoop c inStr 0).bind fun k =>
        if k < inStr.length then if k < outStr.length then loadByte outStr k else some blank
        else some c) = some x ∧ (translated outStr inStr s dst.length)[i]? = some x := by
    intro i _ more
    have load : loadByte s i = some s[i] := List.getElem?_eq_getElem (by omega)
    refine ⟨_, ?_, translated_get (by omega) (by omega)⟩
    rw [load, Option.bind_some, placeLoop_start, Option.bind_some, translateByte]
    split
    · rw [List.getD_eq_getElem?_getD]
      split
      · rename_i held
        rw [loadByte, List.getElem?_eq_getElem held, Option.getD_some]
      · rename_i short
        rw [List.getElem?_eq_none (by omega), Option.getD_none]
    · rfl
  obtain ⟨out, copied, upto⟩ := storeLoop_upto (upto_nothing size) value
  rw [Nat.zero_max] at upto
  have filled := translated_filled upto
  have count : (if s.length < dst.length then s.length else dst.length) =
      min s.length dst.length := by split <;> omega
  simp only [pliTranslate, count]
  rw [copied, Option.bind_some]
  by_cases room : min s.length dst.length < dst.length
  · rw [if_pos room, filled]
  · rw [if_neg room, ← filled, show dst.length - min s.length dst.length = 0 by omega,
      fill_nothing]

theorem trLoop_upto {s outStr inStr dst : List UInt8} {cap i : Nat} (source : Window s)
    (out : Window outStr) (upto : Upto (translated outStr inStr s cap) dst i)
    (part : i ≤ min s.length cap) :
    ∃ last, trLoop cap source out inStr dst i = some last ∧
      Upto (translated outStr inStr s cap) last (min s.length cap) := by
  induction left : min s.length cap - i generalizing dst i with
  | zero =>
    have ended : i = min s.length cap := by omega
    rw [trLoop, if_pos (by omega), ← ended]
    exact ⟨dst, rfl, upto⟩
  | succ m ih =>
    have within : i < s.length := by omega
    have cell := @translated_get outStr inStr s cap i (by omega) within
    obtain ⟨written, stored, later⟩ := upto_store upto cell
    obtain ⟨last, done, whole⟩ := ih later (by omega) (by omega)
    refine ⟨last, ?_, whole⟩
    have value : (if inStr.idxOf s[i] < inStr.length then
        (if inStr.idxOf s[i] < outStr.length then out.load (inStr.idxOf s[i] : Nat) else blank)
        else s[i]) = translateByte outStr inStr s[i] := by
      rw [translateByte, List.getD_eq_getElem?_getD]
      split
      · split
        · rename_i held
          rw [out.inside _ held, List.getElem?_eq_getElem held, Option.getD_some]
        · rename_i short
          rw [List.getElem?_eq_none (by omega), Option.getD_none]
      · rfl
    rw [trLoop, if_neg (by omega), source.inside i within, innerLoop_eq_placeLoop,
      placeLoop_start, Option.bind_some]
    simp only [value]
    rw [stored, Option.bind_some, done]

theorem emitTranslateLLVM_spec (dst : List UInt8) {s outStr : List UInt8} (source : Window s)
    (out : Window outStr) (inStr : List UInt8) :
    emitTranslateLLVM dst source out inStr = some (translated outStr inStr s dst.length) := by
  have size := (translated_length outStr inStr s dst.length).symm
  obtain ⟨written, copied, upto⟩ :=
    @trLoop_upto s outStr inStr dst dst.length 0 source out (upto_nothing size) (Nat.zero_le _)
  simp only [emitTranslateLLVM, ← Nat.min_def]
  rw [copied, Option.bind_some, translated_filled upto]

theorem tableEntries_get (outStr : List UInt8) {rest : List UInt8} {j : Nat} {mapped : List Bool}
    {bytes : List UInt8} (flags : mapped.length = 256) (whole : bytes.length = 256) (c : UInt8) :
    (tableEntries outStr rest j mapped bytes)[c.toNat]? =
      if mapped.getD c.toNat false = false ∧ rest.idxOf c < rest.length then
        some (outStr.getD (j + rest.idxOf c) blank)
      else bytes[c.toNat]? := by
  have bound := c.toNat_lt
  induction rest generalizing j mapped bytes with
  | nil => simp [tableEntries]
  | cons d rest ih =>
    rw [tableEntries, List.idxOf_cons]
    by_cases same : d = c
    · subst same
      simp only [beq_self_eq_true, cond_true, List.length_cons, Nat.zero_lt_succ, and_true,
        Nat.add_zero]
      by_cases known : mapped.getD d.toNat false = true
      · have held : ¬mapped.getD d.toNat false = false := by rw [known]; decide
        rw [if_pos known, if_neg held, ih flags whole, if_neg fun h => held h.1]
      · have fresh : mapped.getD d.toNat false = false := by simpa using known
        have marked : (mapped.set d.toNat true).getD d.toNat false = true := by
          rw [List.getD_eq_getElem?_getD, List.getElem?_set_self (by omega), Option.getD_some]
        rw [if_neg known, if_pos fresh, ih (by rw [List.length_set, flags])
          (by rw [List.length_set, whole]), if_neg (by rw [marked]; simp),
          List.getElem?_set_self (by omega), List.getD_eq_getElem?_getD,
          List.getD_eq_getElem?_getD]
        split
        · rename_i held
          rw [List.getElem?_eq_getElem held, Option.getD_some, Option.getD_some]
        · rename_i short
          rw [List.getElem?_eq_none (by omega), Option.getD_none]
    · have apart : d.toNat ≠ c.toNat := fun h => same (UInt8.toNat_inj.mp h)
      have other : (d == c) = false := by simpa using same
      have later : j + 1 + rest.idxOf c = j + (rest.idxOf c + 1) := by omega
      have kept : (mapped.set d.toNat true).getD c.toNat false = mapped.getD c.toNat false := by
        rw [List.getD_eq_getElem?_getD, List.getElem?_set_ne apart, ← List.getD_eq_getElem?_getD]
      rw [other, cond_false, List.length_cons]
      split
      · rw [ih flags whole, later]
        simp only [Nat.add_lt_add_iff_right]
      · rw [ih (by rw [List.length_set, flags]) (by rw [List.length_set, whole]), kept, later,
          List.getElem?_set_ne apart]
        simp only [Nat.add_lt_add_iff_right]

theorem translateTableBytes_entry (outStr inStr : List UInt8) (c : UInt8) :
    loadByte (translateTableBytes outStr inStr) c.toNat =
      some (translateByte outStr inStr c) := by
  have bound := c.toNat_lt
  have fresh : (List.replicate 256 false).getD c.toNat false = false := by
    rw [List.getD_eq_getElem?_getD, List.getElem?_replicate, if_pos bound, Option.getD_some]
  have identity : ((List.range 256).map UInt8.ofNat)[c.toNat]? = some c := by
    rw [List.getElem?_map, List.getElem?_range bound, Option.map_some, UInt8.ofNat_toNat]
  rw [loadByte, translateTableBytes,
    tableEntries_get outStr List.length_replicate (by rw [List.length_map, List.length_range]),
    fresh, identity, translateByte, Nat.zero_add]
  simp only [true_and]
  split <;> rfl

theorem tableLoop_upto {s outStr inStr dst : List UInt8} {cap i : Nat}
    (upto : Upto (translated outStr inStr s cap) dst i) (more : i < min s.length cap) :
    ∃ last, tableLoop (min s.length cap) s (translateTableBytes outStr inStr) dst i = some last ∧
      Upto (translated outStr inStr s cap) last (min s.length cap) := by
  induction left : min s.length cap - i generalizing dst i with
  | zero => omega
  | succ m ih =>
    have load : loadByte s i = some s[i] := List.getElem?_eq_getElem (by omega)
    have cell := @translated_get outStr inStr s cap i (by omega) (by omega)
    obtain ⟨written, stored, later⟩ := upto_store upto cell
    rw [tableLoop, load, Option.bind_some, translateTableBytes_entry, Option.bind_some, stored,
      Option.bind_some]
    by_cases again : i + 1 < min s.length cap
    · rw [if_pos again]
      exact ih later again (by omega)
    · rw [if_neg again, show min s.length cap = i + 1 by omega]
      exact ⟨written, rfl, later⟩

theorem emitTranslateTable_spec (dst s outStr inStr : List UInt8) :
    emitTranslateTable dst s (translateTableBytes outStr inStr) =
      some (translated outStr inStr s dst.length) := by
  have size := (translated_length outStr inStr s dst.length).symm
  have looped : ∃ out, (if min s.length dst.length ≤ 0 then some dst
      else tableLoop (min s.length dst.length) s (translateTableBytes outStr inStr) dst 0) =
        some out ∧ Upto (translated outStr inStr s dst.length) out (min s.length dst.length) := by
    split
    · rename_i empty
      rw [Nat.le_zero.mp empty]
      exact ⟨dst, rfl, upto_nothing size⟩
    · exact tableLoop_upto (upto_nothing size) (by omega)
  obtain ⟨written, copied, upto⟩ := looped
  simp only [emitTranslateTable, ← Nat.min_def]
  rw [copied, Option.bind_some, translated_filled upto]

/-- The runtime, the emitted loops and the table make the same field of any three strings,
    whatever memory holds around them. -/
theorem translate_lowerings_agree (dst : List UInt8) {s outStr : List UInt8} (source : Window s)
    (out : Window outStr) (inStr : List UInt8) :
    pliTranslate dst s outStr inStr = some (translated outStr inStr s dst.length) ∧
      emitTranslateLLVM dst source out inStr = pliTranslate dst s outStr inStr ∧
      emitTranslateTable dst s (translateTableBytes outStr inStr) =
        pliTranslate dst s outStr inStr := by
  rw [pliTranslate_spec, emitTranslateLLVM_spec, emitTranslateTable_spec]
  exact ⟨rfl, rfl, rfl⟩

end PliTranslate
