import PliLlvm.Runtime.Strings
import PliLlvm.Compiler.SubstrLowering

/- The code emitted for VERIFY and SEARCH (src/irgen.cpp): loops over the set, and loops
   over the 256-byte table of a constant set. Lengths and positions compare without sign.
   A result of none is a read outside the two strings or the table. -/
namespace PliScanLowering
open Searches PliStrings PliSubstr

/-- The blocks inner, check_byte and inner.latch: whether the set has the byte. -/
def innerLoop (s t : List UInt8) (i j : Nat) : Option Bool :=
  if t.length ≤ j then some false
  else
    match loadByte s i, loadByte t j with
    | some si, some tj => if si = tj then some true else innerLoop s t i (j + 1)
    | _, _ => none
termination_by t.length - j

/-- The block check_byte of a table form. -/
def inSet (s table : List UInt8) (i : Nat) : Option Bool :=
  match loadByte s i with
  | none => none
  | some code => (loadByte table code.toNat).map (· != 0)

/-- The blocks outer and outer.latch: the scan ends at the first byte `stop` is true of. -/
def outerLoop (s : List UInt8) (stop : Nat → Option Bool) (i : Nat) : Option Nat :=
  if s.length ≤ i then some 0
  else
    match stop i with
    | none => none
    | some true => some (i + 1)
    | some false => outerLoop s stop (i + 1)
termination_by s.length - i

def emitScan (s : List UInt8) (stop : Nat → Option Bool) (i : Nat) : Option Nat :=
  if s.length = 0 then some 0 else outerLoop s stop i

def iStart (start : BitVec 64) : Nat := ((if start < 1 then 1 else start) - 1).toNat

def emitVerifyLLVM (s t : List UInt8) : Option Nat :=
  emitScan s (fun i => (innerLoop s t i 0).map not) 0

def emitVerifyFromLLVM (s t : List UInt8) (start : BitVec 64) : Option Nat :=
  emitScan s (fun i => (innerLoop s t i 0).map not) (iStart start)

def emitSearchLLVM (s t : List UInt8) (start : BitVec 64) : Option Nat :=
  emitScan s (fun i => innerLoop s t i 0) (iStart start)

def emitVerifyTable (s table : List UInt8) : Option Nat :=
  emitScan s (fun i => (inSet s table i).map not) 0

def emitVerifyFromTable (s table : List UInt8) (start : BitVec 64) : Option Nat :=
  emitScan s (fun i => (inSet s table i).map not) (iStart start)

def emitSearchTable (s table : List UInt8) (start : BitVec 64) : Option Nat :=
  emitScan s (inSet s table) (iStart start)

def searchTableBytes (alphabet : List UInt8) : List UInt8 :=
  alphabet.foldl (fun bytes c => bytes.set c.toNat 1) (List.replicate 256 0)

variable {s : List UInt8}

theorem innerLoop_spec {t : List UInt8} {i j : Nat} (inside : i < s.length) :
    innerLoop s t i j = some (decide (s[i] ∈ t.drop j)) := by
  induction left : t.length - j generalizing j with
  | zero =>
    rw [innerLoop, if_pos (by omega), List.drop_eq_nil_of_le (by omega)]
    simp
  | succ n ih =>
    have more : j < t.length := by omega
    have loads : loadByte s i = some s[i] ∧ loadByte t j = some t[j] :=
      ⟨List.getElem?_eq_getElem inside, List.getElem?_eq_getElem more⟩
    have member : s[i] ∈ t.drop j ↔ s[i] = t[j] ∨ s[i] ∈ t.drop (j + 1) := by
      rw [List.drop_eq_getElem_cons more, List.mem_cons]
    rw [innerLoop, if_neg (by omega), loads.1, loads.2, decide_eq_decide.mpr member]
    by_cases same : s[i] = t[j]
    · rw [decide_eq_true (Or.inl same)]
      exact if_pos same
    · refine (if_neg same).trans ((ih (by omega)).trans ?_)
      simp [same]

theorem foldl_table (alphabet table : List UInt8) (whole : table.length = 256) (c : UInt8) :
    (alphabet.foldl (fun bytes c => bytes.set c.toNat 1) table)[c.toNat]? =
      if c ∈ alphabet then some 1 else table[c.toNat]? := by
  have bound := c.toNat_lt
  induction alphabet generalizing table with
  | nil => simp
  | cons d rest ih =>
    rw [List.foldl_cons, ih _ (by rw [List.length_set]; exact whole)]
    by_cases same : d = c
    · subst same
      simp [whole, bound]
    · have apart : d.toNat ≠ c.toNat := fun h => same (UInt8.toNat_inj.mp h)
      rw [List.getElem?_set_ne apart]
      simp [Ne.symm same]

theorem searchTableBytes_entry (alphabet : List UInt8) (c : UInt8) :
    loadByte (searchTableBytes alphabet) c.toNat =
      some (if c ∈ alphabet then 1 else 0) := by
  have bound := c.toNat_lt
  rw [loadByte, searchTableBytes, foldl_table _ _ List.length_replicate]
  split
  · rfl
  · rw [List.getElem?_replicate, if_pos bound]

theorem inSet_spec (t : List UInt8) {i : Nat} (inside : i < s.length) :
    inSet s (searchTableBytes t) i = some (decide (s[i] ∈ t)) := by
  rw [inSet, show loadByte s i = some s[i] from List.getElem?_eq_getElem inside]
  simp only [searchTableBytes_entry, Option.map_some]
  by_cases member : s[i] ∈ t <;> simp [member]

theorem outerLoop_finds {p : UInt8 → Bool} {stop : Nat → Option Bool}
    (stops : ∀ i (inside : i < s.length), stop i = some (p s[i])) (i : Nat) :
    outerLoop s stop i = some (firstWhere p s i) := by
  induction left : s.length - i generalizing i with
  | zero => rw [outerLoop, if_pos (by omega), firstWhere_end (by omega)]
  | succ n ih =>
    have inside : i < s.length := by omega
    rw [outerLoop, if_neg (by omega), stops i inside]
    cases here : p s[i] with
    | true => rw [firstWhere_here inside here]
    | false => rw [firstWhere_next inside here, ← ih (i + 1) (by omega)]

theorem emitScan_finds {s : List UInt8} {p : UInt8 → Bool} {stop : Nat → Option Bool}
    (stops : ∀ i (inside : i < s.length), stop i = some (p s[i])) (i : Nat) :
    emitScan s stop i = some (firstWhere p s i) := by
  unfold emitScan
  split
  · rename_i empty
    rw [firstWhere_end (by omega)]
  · exact outerLoop_finds stops i

theorem verify_stops (s t : List UInt8) (i : Nat) (inside : i < s.length) :
    (innerLoop s t i 0).map not = some (decide (s[i] ∉ t)) ∧
      (inSet s (searchTableBytes t) i).map not = some (decide (s[i] ∉ t)) := by
  rw [innerLoop_spec inside, inSet_spec t inside, List.drop_zero]
  simp

theorem search_stops (s t : List UInt8) (i : Nat) (inside : i < s.length) :
    innerLoop s t i 0 = some (decide (s[i] ∈ t)) := by
  rw [innerLoop_spec inside, List.drop_zero]

theorem iStart_cases (start : BitVec 64) :
    (0 ≤ start.toInt ∧
        iStart start = ((if start.toInt < 1 then 1 else start.toInt) - 1).toNat) ∨
      (start.toInt < 0 ∧ 2 ^ 63 - 1 ≤ iStart start) := by
  unfold iStart
  by_cases zero : start < 1
  · have none : start.toNat = 0 := by
      have : start.toNat < 1 := zero
      omega
    have signed : start.toInt = 0 := by
      rcases toInt_cases start with ⟨signed, -⟩ | ⟨-, large⟩ <;> omega
    rw [if_pos zero, signed]
    exact Or.inl ⟨Int.le_refl 0, rfl⟩
  · rw [if_neg zero]
    have some_ : ¬start.toNat < 1 := zero
    rcases pred_toNat start with ⟨high, pred⟩ | ⟨low, far⟩
    · exact Or.inl ⟨by omega, by rw [if_neg (by omega), pred]⟩
    · refine Or.inr ⟨?_, far⟩
      rcases toInt_cases start with ⟨signed, -⟩ | ⟨signed, -⟩
      · omega
      · have := start.isLt
        omega

theorem start_agrees_iff (s : Buffer) (p : UInt8 → Bool) (start : BitVec 64) :
    some (firstWhere p s.bytes (iStart start)) =
        some (firstWhere p s.bytes ((if start.toInt < 1 then 1 else start.toInt) - 1).toNat) ↔
      0 ≤ start.toInt ∨ ∀ b ∈ s.bytes, p b = false := by
  have small := s.small
  rcases iStart_cases start with ⟨counted, same⟩ | ⟨negative, far⟩
  · rw [same]
    exact ⟨fun _ => Or.inl counted, fun _ => rfl⟩
  · rw [firstWhere_end (by omega), if_pos (by omega), Option.some.injEq, eq_comm,
      show ((1 : Int) - 1).toNat = 0 from rfl, firstWhere_zero_iff, List.drop_zero]
    exact ⟨Or.inr, fun h => h.resolve_left (by omega)⟩

/-- VERIFY and SEARCH. Without a start every lowering agrees with the runtime; with one
    they agree except on a negative start, which the inline code takes for a position past
    the end, in a string where the runtime finds something. -/
theorem scan_lowering_iff (s : Buffer) (t : List UInt8) (start : BitVec 64) :
    (emitVerifyLLVM s.bytes t = pliVerify s.bytes t ∧
      emitVerifyTable s.bytes (searchTableBytes t) = pliVerify s.bytes t) ∧
    ((emitVerifyFromLLVM s.bytes t start = pliVerifyFrom s.bytes t start.toInt ∧
        emitVerifyFromTable s.bytes (searchTableBytes t) start =
          pliVerifyFrom s.bytes t start.toInt) ↔
      0 ≤ start.toInt ∨ ∀ b ∈ s.bytes, b ∈ t) ∧
    ((emitSearchLLVM s.bytes t start = pliSearch s.bytes t start.toInt ∧
        emitSearchTable s.bytes (searchTableBytes t) start = pliSearch s.bytes t start.toInt) ↔
      0 ≤ start.toInt ∨ ∀ b ∈ s.bytes, b ∉ t) := by
  have scans : ∀ i, emitScan s.bytes (fun i => (innerLoop s.bytes t i 0).map not) i =
      some (firstWhere (fun c => decide (c ∉ t)) s.bytes i) :=
    emitScan_finds fun i inside => (verify_stops s.bytes t i inside).1
  have tables : ∀ i, emitScan s.bytes (fun i => (inSet s.bytes (searchTableBytes t) i).map not) i =
      some (firstWhere (fun c => decide (c ∉ t)) s.bytes i) :=
    emitScan_finds fun i inside => (verify_stops s.bytes t i inside).2
  refine ⟨⟨?_, ?_⟩, ?_, ?_⟩
  · rw [emitVerifyLLVM, scans, pliVerify, verifyLoop_finds]
  · rw [emitVerifyTable, tables, pliVerify, verifyLoop_finds]
  · rw [emitVerifyFromLLVM, emitVerifyFromTable, scans, tables, pliVerifyFrom, verifyLoop_finds,
      and_self, start_agrees_iff]
    simp
  · rw [emitSearchLLVM, emitSearchTable,
      @emitScan_finds _ (fun c => decide (c ∈ t)) _ (search_stops s.bytes t),
      @emitScan_finds _ (fun c => decide (c ∈ t)) _ (fun i inside => inSet_spec t inside),
      pliSearch, searchLoop_finds, and_self, start_agrees_iff]
    simp

/-- SEARCH('hello', 'lo', -1): the runtime clamps the start to 1 and finds the third
    byte, the inline code finds none. -/
theorem negative_start_differs :
    pliSearch [104, 101, 108, 108, 111] [108, 111] (-1 : BitVec 64).toInt = some 3 ∧
      emitSearchLLVM [104, 101, 108, 108, 111] [108, 111] (-1) = some 0 ∧
      emitSearchTable [104, 101, 108, 108, 111] (searchTableBytes [108, 111]) (-1) = some 0 := by
  refine ⟨by decide +kernel, ?_, ?_⟩ <;> decide +kernel

end PliScanLowering
