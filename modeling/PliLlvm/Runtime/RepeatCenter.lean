import PliLlvm.Runtime.Strings
import PliLlvm.Runtime.Substr

/- REPEAT and CENTER of the runtime (runtime/rt_string.c). COPY is REPEAT under another name. -/
namespace PliRepeat
open CheckedCells PliStrings PliSubstr

/-- `for (i = 0; i < srclen && out < dstcap; ++i) dst[out++] = src[i];` -/
def repeatInner (cap : Nat) (src : List UInt8) (dst : List UInt8) (i out : Nat) :
    Option (List UInt8 × Nat) :=
  if i < src.length ∧ out < cap then
    (loadByte src i).bind fun c =>
      (store dst out c).bind fun dst => repeatInner cap src dst (i + 1) (out + 1)
  else some (dst, out)
termination_by src.length - i

def repeatOuter (cap : Nat) (src : List UInt8) (n : Int) (dst : List UInt8) (k out : Nat) :
    Option (List UInt8 × Nat) :=
  if (k : Int) < n then
    (repeatInner cap src dst 0 out).bind fun (dst, out) => repeatOuter cap src n dst (k + 1) out
  else some (dst, out)
termination_by (n - k).toNat

/-- `while (out < dstcap) dst[out++] = ' ';` -/
def blankRest (cap : Nat) (dst : List UInt8) (out : Nat) : Option (List UInt8) :=
  if out < cap then (store dst out blank).bind fun dst => blankRest cap dst (out + 1)
  else some dst
termination_by cap - out

def pliRepeat (dst src : Buffer) (n : Int) : Option (List UInt8) :=
  (repeatOuter dst.bytes.length src.bytes n dst.bytes 0 0).bind fun (out, pos) =>
    blankRest dst.bytes.length out pos

/-- `for (k = 0; k < take; ++k) dst[i++] = s[k];` -/
def copyLoop (src : List UInt8) (take : Int) (dst : List UInt8) (k i : Nat) :
    Option (List UInt8 × Nat) :=
  if (k : Int) < take then
    (loadByte src k).bind fun c =>
      (store dst i c).bind fun dst => copyLoop src take dst (k + 1) (i + 1)
  else some (dst, i)
termination_by (take - k).toNat

def pliCenter (dst src : Buffer) (w : Int) : Option (List UInt8) :=
  let w := if w < 0 then 0 else w
  let field := if w < dst.len then w else dst.len
  let take := if src.len < field then src.len else field
  let left := (field - take).tdiv 2
  (blankRest left.toNat dst.bytes 0).bind fun out =>
    (copyLoop src.bytes take out 0 left.toNat).bind fun (out, i) =>
      (blankRest field.toNat out i).bind fun out =>
        blankRest dst.bytes.length out (max i field.toNat)

def repeated (src : List UInt8) (n cap : Nat) : List UInt8 :=
  (List.range cap).map fun i => if i < n * src.length then src.getD
    (i % src.length) blank else blank

/-- The source behind half the room its field leaves, then blanks. -/
def centered (src : List UInt8) (field cap : Nat) : List UInt8 :=
  let take := min src.length field
  List.replicate ((field - take) / 2) blank ++ src.take take ++
    List.replicate (cap - ((field - take) / 2 + take)) blank

theorem repeated_length (src : List UInt8) (n cap : Nat) : (repeated src n cap).length = cap := by
  simp [repeated]

variable {src : List UInt8} {cap : Nat}

theorem repeated_get {n i : Nat} (inside : i < cap) : (repeated src n cap)[i]? =
      some (if i < n * src.length then src.getD (i % src.length) blank else blank) := by
  simp [repeated, inside]

theorem blankRest_upto {field cells : List UInt8} {cap k : Nat} (upto : Upto field cells k)
    (blanks : ∀ i, k ≤ i → i < cap → field[i]? = some blank) :
    ∃ out, blankRest cap cells k = some out ∧ Upto field out (max k cap) := by
  induction left : cap - k generalizing cells k with
  | zero =>
    have ended : max k cap = k := by omega
    exact ⟨cells, by rw [blankRest, if_neg (by omega)], by rw [ended]; exact upto⟩
  | succ m ih =>
    obtain ⟨out, stored, later⟩ := upto_store upto (blanks k (Nat.le_refl k) (by omega))
    obtain ⟨last, done, whole⟩ := ih later (fun i low high => blanks i (by omega) high) (by omega)
    have same : max (k + 1) cap = max k cap := by omega
    rw [same] at whole
    exact ⟨last, by rw [blankRest, if_pos (by omega), stored, Option.bind_some, done], whole⟩

theorem repeatInner_upto {src cells : List UInt8} {n cap k i : Nat} (within : k < n)
    (part : i ≤ src.length)
    (upto : Upto (repeated src n cap) cells (min (k * src.length + i) cap)) :
    ∃ out, repeatInner cap src cells i (min (k * src.length + i) cap) =
        some (out, min ((k + 1) * src.length) cap) ∧
      Upto (repeated src n cap) out (min ((k + 1) * src.length) cap) := by
  have next : (k + 1) * src.length = k * src.length + src.length := Nat.succ_mul _ _
  induction left : src.length - i generalizing cells i with
  | zero =>
    have ended : i = src.length := by omega
    subst ended
    rw [← next] at upto ⊢
    exact ⟨cells, by rw [repeatInner, if_neg (by omega)], upto⟩
  | succ m ih =>
    by_cases room : k * src.length + i < cap
    · have here : min (k * src.length + i) cap = k * src.length + i := by omega
      have rows : (k + 1) * src.length ≤ n * src.length := Nat.mul_le_mul_right _ within
      have column : (k * src.length + i) % src.length = i := by
        rw [Nat.mul_comm, Nat.mul_add_mod]
        exact Nat.mod_eq_of_lt (by omega)
      have load : loadByte src i = some src[i] := List.getElem?_eq_getElem (by omega)
      have cell : (repeated src n cap)[k * src.length + i]? = some src[i] := by
        rw [repeated_get room, if_pos (by omega), column, List.getD_eq_getElem?_getD,
          List.getElem?_eq_getElem (by omega), Option.getD_some]
      rw [here] at upto ⊢
      obtain ⟨out, stored, later⟩ := upto_store upto cell
      have step : k * src.length + i + 1 = min (k * src.length + (i + 1)) cap := by omega
      rw [step] at later
      obtain ⟨last, done, whole⟩ := ih (by omega) later (by omega)
      rw [← step] at done
      exact ⟨last, by rw [repeatInner, if_pos ⟨by omega, room⟩, load, Option.bind_some, stored,
        Option.bind_some, done], whole⟩
    · have full : min (k * src.length + i) cap = min ((k + 1) * src.length) cap := by omega
      have at_cap : min ((k + 1) * src.length) cap = cap := by omega
      rw [full] at upto ⊢
      exact ⟨cells, by rw [repeatInner, if_neg (by omega)], upto⟩

theorem repeatOuter_upto {cells : List UInt8} {n : Int} {k : Nat} (part : k ≤ n.toNat)
    (upto : Upto (repeated src n.toNat cap) cells (min (k * src.length) cap)) :
    ∃ out, repeatOuter cap src n cells k (min (k * src.length) cap) =
        some (out, min (n.toNat * src.length) cap) ∧
      Upto (repeated src n.toNat cap) out (min (n.toNat * src.length) cap) := by
  induction left : n.toNat - k generalizing cells k with
  | zero =>
    have ended : k = n.toNat := by omega
    subst ended
    exact ⟨cells, by rw [repeatOuter, if_neg (by omega)], upto⟩
  | succ m ih =>
    obtain ⟨out, inner, later⟩ :=
      @repeatInner_upto src cells n.toNat cap k 0 (by omega) (Nat.zero_le _) upto
    rw [Nat.add_zero] at inner
    obtain ⟨last, done, whole⟩ := ih (by omega) later (by omega)
    refine ⟨last, ?_, whole⟩
    rw [repeatOuter, if_pos (by omega), inner]
    exact done

theorem pliRepeat_spec (dst src : Buffer) (n : Int) :
    pliRepeat dst src n = some (repeated src.bytes n.toNat dst.bytes.length) := by
  have size : dst.bytes.length = (repeated src.bytes n.toNat dst.bytes.length).length :=
    (repeated_length _ _ _).symm
  have start : Upto (repeated src.bytes n.toNat dst.bytes.length) dst.bytes
      (min (0 * src.bytes.length) dst.bytes.length) := by
    rw [Nat.zero_mul, Nat.zero_min]
    exact upto_nothing size
  obtain ⟨out, copied, upto⟩ := repeatOuter_upto (Nat.zero_le n.toNat) start
  rw [Nat.zero_mul, Nat.zero_min] at copied
  obtain ⟨last, filled, whole⟩ := @blankRest_upto _ out dst.bytes.length _ upto fun i low high => by
    rw [repeated_get high, if_neg (by omega)]
  have all : max (min (n.toNat * src.bytes.length) dst.bytes.length) dst.bytes.length =
      (repeated src.bytes n.toNat dst.bytes.length).length := by
    rw [← size]
    omega
  rw [all] at whole
  rw [pliRepeat, copied, ← upto_whole whole]
  exact filled

theorem centered_length {field : Nat} (within : field ≤ cap) :
    (centered src field cap).length = cap := by
  simp [centered]
  omega

theorem centered_get {field i : Nat} (inside : i < cap) : (centered src field cap)[i]? =
      some (if (field - min src.length field) / 2 ≤ i ∧
          i < (field - min src.length field) / 2 + min src.length field then
        src.getD (i - (field - min src.length field) / 2) blank else blank) := by
  have front : (List.replicate ((field - min src.length field) / 2) blank).length =
      (field - min src.length field) / 2 := List.length_replicate
  have middle : (src.take (min src.length field)).length = min src.length field := by
    rw [List.length_take]
    omega
  simp only [centered, List.append_assoc]
  by_cases before : i < (field - min src.length field) / 2
  · rw [List.getElem?_append_left (by omega), List.getElem?_replicate, if_pos before,
      if_neg (by omega)]
  · rw [List.getElem?_append_right (by omega), front]
    by_cases held : i < (field - min src.length field) / 2 + min src.length field
    · rw [List.getElem?_append_left (by omega), List.getElem?_take_of_lt (by omega),
        if_pos ⟨by omega, held⟩, List.getD_eq_getElem?_getD, List.getElem?_eq_getElem (by omega),
        Option.getD_some]
    · rw [List.getElem?_append_right (by omega), middle, List.getElem?_replicate,
        if_pos (by omega), if_neg (by omega)]

theorem copyLoop_upto {field src cells : List UInt8} {take : Int} {k i : Nat}
    (part : k ≤ take.toNat) (source : take.toNat ≤ src.length)
    (placed : ∀ j, k ≤ j → j < take.toNat → field[i - k + j]? = src[j]?) (later : k ≤ i)
    (upto : Upto field cells i) :
    ∃ out, copyLoop src take cells k i = some (out, i - k + take.toNat) ∧
      Upto field out (i - k + take.toNat) := by
  induction left : take.toNat - k generalizing cells k i with
  | zero =>
    have ended : i - k + take.toNat = i := by omega
    rw [ended]
    exact ⟨cells, by rw [copyLoop, if_neg (by omega)], upto⟩
  | succ m ih =>
    have load : loadByte src k = some src[k] := List.getElem?_eq_getElem (by omega)
    have cell : field[i]? = some src[k] := by
      have here := placed k (Nat.le_refl k) (by omega)
      rwa [Nat.sub_add_cancel later, List.getElem?_eq_getElem
        (show k < src.length by omega)] at here
    obtain ⟨out, stored, written⟩ := upto_store upto cell
    have shift : i + 1 - (k + 1) = i - k := by omega
    obtain ⟨last, done, whole⟩ := @ih out (k + 1) (i + 1) (by omega)
      (fun j low high => by rw [shift]; exact placed j (by omega) high)
        (by omega) written (by omega)
    rw [shift] at done whole
    exact ⟨last, by rw [copyLoop, if_pos (by omega), load, Option.bind_some, stored,
      Option.bind_some, done], whole⟩

theorem pliCenter_spec (dst src : Buffer) (w : Int) :
    pliCenter dst src w =
      some (centered src.bytes (min w.toNat dst.bytes.length) dst.bytes.length) := by
  have within : min w.toNat dst.bytes.length ≤ dst.bytes.length := Nat.min_le_right _ _
  have clamped : (if w < 0 then (0 : Int) else w) = w.toNat := by omega
  have field_eq : (if (w.toNat : Int) < dst.len then (w.toNat : Int) else dst.len) =
      (min w.toNat dst.bytes.length : Nat) := by
    unfold Buffer.len
    omega
  generalize min w.toNat dst.bytes.length = field at within field_eq ⊢
  have take_eq : (if src.len < (field : Int) then src.len else (field : Int)) =
      (min src.bytes.length field : Nat) := by
    unfold Buffer.len
    omega
  have left_eq : (((field : Int) - (min src.bytes.length field : Nat)).tdiv 2).toNat =
      (field - min src.bytes.length field) / 2 := by
    rw [Int.tdiv_eq_ediv_of_nonneg (by omega)]
    omega
  have size : dst.bytes.length = (centered src.bytes field dst.bytes.length).length :=
    (centered_length within).symm
  obtain ⟨lead, blanked, upto⟩ := @blankRest_upto _ _ ((field - min src.bytes.length field) / 2) 0
    (upto_nothing size) fun i _ high => by
      rw [centered_get (by omega), if_neg (by omega)]
  rw [Nat.zero_max] at upto
  obtain ⟨mid, copied, upto⟩ := @copyLoop_upto _ src.bytes lead (min src.bytes.length field : Nat) 0
    ((field - min src.bytes.length field) / 2) (Nat.zero_le _) (by omega) (fun j _ high => by
      rw [Nat.sub_zero, centered_get (by omega), if_pos (by omega), Nat.add_sub_cancel_left,
        List.getD_eq_getElem?_getD, List.getElem?_eq_getElem (by omega), Option.getD_some])
    (Nat.zero_le _) upto
  rw [Nat.sub_zero, Int.toNat_natCast] at copied upto
  obtain ⟨tail, padded, upto⟩ := @blankRest_upto _ mid field _ upto fun i low high => by
    rw [centered_get (by omega), if_neg (by omega)]
  obtain ⟨last, filled, whole⟩ :=
    @blankRest_upto _ tail dst.bytes.length _ upto fun i low high => by
    rw [centered_get (by omega), if_neg (by omega)]
  rw [show max (max ((field - min src.bytes.length field) / 2 + min src.bytes.length field) field)
    dst.bytes.length = (centered src.bytes field dst.bytes.length).length by rw [← size]; omega]
    at whole
  simp only [pliCenter, clamped, field_eq, take_eq, left_eq, Int.toNat_natCast]
  rw [blanked, Option.bind_some, copied, Option.bind_some]
  show (blankRest field mid _).bind _ = _
  rw [padded, Option.bind_some, filled, upto_whole whole]

end PliRepeat
