import PliLlvm.Lib.Search

/- Byte strings and the string search of the runtime (runtime/rt_string.c). A string is
   the list of its bytes; a read outside it has no result. Strings are far shorter than
   2^63 bytes, so positions and lengths are natural numbers. -/
namespace PliStrings
open Searches

def loadByte (s : List UInt8) (i : Nat) : Option UInt8 := s[i]?

def memchr (s : List UInt8) (c : UInt8) : Option Nat := s.findIdx? (· == c)

/-- Whether memcmp finds `len` bytes at a position of one string equal to the start of
    another. -/
def memcmpEq (s : List UInt8) (pos : Nat) (t : List UInt8) (len : Nat) : Option Bool :=
  if pos + len ≤ s.length ∧ len ≤ t.length then
    some (decide ((s.drop pos).take len = t.take len))
  else none

def matchFrom (hay : List UInt8) (i : Nat) : Nat → List UInt8 → Option Nat
  | j, [] => some j
  | j, c :: rest =>
    match loadByte hay (i + j) with
    | none => none
    | some x => if x = c then matchFrom hay i (j + 1) rest else some j

def indexFrom (hay needle : List UInt8) (i : Nat) : Option Nat :=
  if i + needle.length ≤ hay.length then
    match matchFrom hay i 0 needle with
    | none => none
    | some j => if j = needle.length then some (i + 1) else indexFrom hay needle (i + 1)
  else some 0
termination_by hay.length + 1 - i

def pliIndex (hay needle : List UInt8) : Option Nat :=
  if needle.length = 0 then some 1
  else if hay.length < needle.length then some 0
  else indexFrom hay needle 0

/-- `while (j < tlen && s[i] != t[j]) ++j;` and where it stopped. -/
def setPlace (s t : List UInt8) (i j : Nat) : Option Nat :=
  if t.length ≤ j then some j
  else
    match loadByte s i, loadByte t j with
    | some si, some tj => if si = tj then some j else setPlace s t i (j + 1)
    | _, _ => none
termination_by t.length - j

def verifyLoop (s t : List UInt8) (i : Nat) : Option Nat :=
  if s.length ≤ i then some 0
  else
    match setPlace s t i 0 with
    | none => none
    | some j => if j = t.length then some (i + 1) else verifyLoop s t (i + 1)
termination_by s.length - i

def searchLoop (s t : List UInt8) (i : Nat) : Option Nat :=
  if s.length ≤ i then some 0
  else
    match setPlace s t i 0 with
    | none => none
    | some j => if j < t.length then some (i + 1) else searchLoop s t (i + 1)
termination_by s.length - i

def pliVerify (s t : List UInt8) : Option Nat := verifyLoop s t 0

def pliVerifyFrom (s t : List UInt8) (start : Int) : Option Nat :=
  verifyLoop s t ((if start < 1 then 1 else start) - 1).toNat

def pliSearch (s t : List UInt8) (start : Int) : Option Nat :=
  searchLoop s t ((if start < 1 then 1 else start) - 1).toNat

variable {s : List UInt8}

theorem memchr_none {c : UInt8} (h : memchr s c = none) : ∀ i : Nat, s[i]? ≠ some c := by
  intro i here
  have := List.findIdx?_eq_none_iff.mp h c (List.mem_of_getElem? here)
  simp at this

theorem memchr_some {c : UInt8} {k : Nat} (h : memchr s c = some k) :
    s[k]? = some c ∧ ∀ i, i < k → s[i]? ≠ some c := by
  obtain ⟨bound, here, before⟩ := List.findIdx?_eq_some_iff_getElem.mp h
  refine ⟨by rw [List.getElem?_eq_getElem bound]; simpa using here, ?_⟩
  intro i lt same
  have := before i lt
  rw [List.getElem?_eq_getElem (by omega)] at same
  simp [Option.some.inj same] at this

theorem memcmpEq_occurs {hay needle : List UInt8} {pos : Nat}
    (fits : pos + needle.length ≤ hay.length) :
    memcmpEq hay pos needle needle.length = some (occursAt hay needle pos) := by
  simp [memcmpEq, fits, occursAt]

theorem matchFrom_spec {hay : List UInt8} {i j : Nat} {rest : List UInt8}
    (fits : i + j + rest.length ≤ hay.length) :
    ∃ k, matchFrom hay i j rest = some k ∧ k ≤ j + rest.length ∧
      (k = j + rest.length ↔ (hay.drop (i + j)).take rest.length = rest) := by
  induction rest generalizing j with
  | nil => exact ⟨j, rfl, by simp, by simp⟩
  | cons c rest ih =>
    simp only [List.length_cons] at fits ⊢
    have bound : i + j < hay.length := by omega
    have byte : loadByte hay (i + j) = some hay[i + j] := List.getElem?_eq_getElem bound
    have front : (hay.drop (i + j)).take (rest.length + 1) =
        hay[i + j] :: (hay.drop (i + (j + 1))).take rest.length := by
      rw [List.drop_eq_getElem_cons bound, List.take_succ_cons]
      rfl
    by_cases same : hay[i + j] = c
    · obtain ⟨k, run, le, whole⟩ := @ih (j + 1) (by omega)
      refine ⟨k, by simp [matchFrom, byte, same, run], by omega, ?_⟩
      rw [front, same, show j + (rest.length + 1) = j + 1 + rest.length by omega, whole]
      simp
    · refine ⟨j, by simp [matchFrom, byte, same], by omega, ?_⟩
      rw [front]
      simp [same]

theorem indexFrom_finds {hay needle : List UInt8} {i : Nat} (some_needle : needle ≠ [])
    (before : NoneBefore hay needle i) :
    indexFrom hay needle i = some (firstPosition hay needle) := by
  induction left : hay.length + 1 - i using Nat.strongRecOn generalizing i with
  | ind n ih =>
    rw [indexFrom]
    by_cases fits : i + needle.length ≤ hay.length
    · obtain ⟨k, run, -, whole⟩ := @matchFrom_spec hay i 0 needle (by omega)
      rw [if_pos fits, run]
      simp only [Nat.zero_add, Nat.add_zero] at whole
      by_cases here : occursAt hay needle i = true
      · have all : k = needle.length := whole.mpr (by simpa [occursAt] using here)
        simp only [all, ↓reduceIte]
        rw [firstPosition_found before here]
      · have miss : occursAt hay needle i = false := by simpa using here
        have part : k ≠ needle.length := by
          intro all
          exact here (by simpa [occursAt] using whole.mp all)
        simp only [part, ↓reduceIte]
        exact ih _ (by omega) (noneBefore_next before miss) rfl
    · rw [if_neg fits, firstPosition_exhausted some_needle before (by omega)]

theorem pliIndex_finds (hay needle : List UInt8) :
    pliIndex hay needle = some (firstPosition hay needle) := by
  unfold pliIndex
  cases needle with
  | nil => simp [firstPosition_nil]
  | cons c rest =>
    rw [if_neg (by simp)]
    split
    · rename_i longer
      rw [firstPosition_exhausted (by simp) (noneBefore_zero hay _) (by omega)]
    · exact indexFrom_finds (by simp) (noneBefore_zero hay _)

theorem setPlace_spec {t : List UInt8} {i j : Nat} (inside : i < s.length) (part : j ≤ t.length) :
    ∃ k, setPlace s t i j = some k ∧ k ≤ t.length ∧
      (k < t.length ↔ s[i] ∈ t.drop j) := by
  induction left : t.length - j generalizing j with
  | zero =>
    refine ⟨j, ?_, part, ?_⟩
    · rw [setPlace, if_pos (by omega)]
    · rw [List.drop_eq_nil_of_le (by omega)]
      simp
      omega
  | succ n ih =>
    have more : j < t.length := by omega
    have loads : loadByte s i = some s[i] ∧ loadByte t j = some t[j] :=
      ⟨List.getElem?_eq_getElem inside, List.getElem?_eq_getElem more⟩
    have member : s[i] ∈ t.drop j ↔ s[i] = t[j] ∨ s[i] ∈ t.drop (j + 1) := by
      rw [List.drop_eq_getElem_cons more, List.mem_cons]
    rw [setPlace, if_neg (by omega), loads.1, loads.2, member]
    by_cases same : s[i] = t[j]
    · exact ⟨j, if_pos same, part, ⟨fun _ => Or.inl same, fun _ => more⟩⟩
    · obtain ⟨k, run, le, found⟩ := @ih (j + 1) (by omega) (by omega)
      refine ⟨k, (if_neg same).trans run, le, found.trans ?_⟩
      exact ⟨Or.inr, fun h => h.resolve_left same⟩

theorem verifyLoop_finds (s t : List UInt8) (i : Nat) :
    verifyLoop s t i = some (firstWhere (fun c => decide (c ∉ t)) s i) := by
  induction left : s.length - i generalizing i with
  | zero => rw [verifyLoop, if_pos (by omega), firstWhere_end (by omega)]
  | succ n ih =>
    have inside : i < s.length := by omega
    obtain ⟨k, run, le, found⟩ := setPlace_spec inside (Nat.zero_le t.length)
    rw [List.drop_zero] at found
    rw [verifyLoop, if_neg (by omega), run]
    by_cases member : s[i] ∈ t
    · rw [firstWhere_next inside (by simp [member]), ← ih (i + 1) (by omega)]
      exact if_neg (by have := found.mpr member; omega)
    · rw [firstWhere_here inside (by simp [member])]
      exact if_pos (by have := mt found.mp member; omega)

theorem searchLoop_finds (s t : List UInt8) (i : Nat) :
    searchLoop s t i = some (firstWhere (fun c => decide (c ∈ t)) s i) := by
  induction left : s.length - i generalizing i with
  | zero => rw [searchLoop, if_pos (by omega), firstWhere_end (by omega)]
  | succ n ih =>
    have inside : i < s.length := by omega
    obtain ⟨k, run, le, found⟩ := setPlace_spec inside (Nat.zero_le t.length)
    rw [List.drop_zero] at found
    rw [searchLoop, if_neg (by omega), run]
    by_cases member : s[i] ∈ t
    · rw [firstWhere_here inside (by simp [member])]
      exact if_pos (found.mpr member)
    · rw [firstWhere_next inside (by simp [member]), ← ih (i + 1) (by omega)]
      exact if_neg (mt found.mp member)

end PliStrings
