import PliLlvm.Runtime.Strings
import PliLlvm.Runtime.Substr
import Mathlib.Data.List.DropRight

/- Comparison of character data (runtime/rt_string.c, src/irgen.cpp). The shorter operand
   goes on with blanks. The emitted loop loads a byte of either operand at every step, also
   past its end, where memory holds anything. -/
namespace PliCharOrder
open CheckedCells PliStrings PliSubstr

def cmpLoop (a b : List UInt8) (n i : Nat) : Option Int :=
  if i < n then
    (if i < a.length then loadByte a i else some blank).bind fun ca =>
      (if i < b.length then loadByte b i else some blank).bind fun cb =>
        if ca ≠ cb then some (if ca < cb then -1 else 1) else cmpLoop a b n (i + 1)
  else some 0
termination_by n - i

def pliCmpChar (a b : List UInt8) : Option Int :=
  let n := if b.length < a.length then a.length else b.length
  cmpLoop a b n 0

def emitResult (aVal bVal : UInt8) : BitVec 64 :=
  let diff := aVal.toBitVec.setWidth 64 - bVal.toBitVec.setWidth 64
  let lt := diff.slt 0
  let gt := (0 : BitVec 64).slt diff
  let pos : BitVec 64 := if gt then 1 else 0
  if lt then -1 else pos

def scLoop {a b : List UInt8} (aMem : Window a) (bMem : Window b) (n i : Nat) : BitVec 64 :=
  if n ≤ i then 0
  else
    let ai := aMem.load i
    let bi := bMem.load i
    let aVal := if i < a.length then ai else blank
    let bVal := if i < b.length then bi else blank
    if aVal ≠ bVal then emitResult aVal bVal else scLoop aMem bMem n (i + 1)
termination_by n - i

def emitCmpCharLLVM {a b : List UInt8} (aMem : Window a) (bMem : Window b) : BitVec 32 :=
  let n := if a.length < b.length then b.length else a.length
  (scLoop aMem bMem n 0).setWidth 32

def extended (n : Nat) (s : List UInt8) : List UInt8 := s ++ List.replicate (n - s.length) blank

def extendedOrder (a b : List UInt8) : Ordering :=
  compare (extended (max a.length b.length) a) (extended (max a.length b.length) b)

def orderSign : Ordering → Int
  | .lt => -1
  | .eq => 0
  | .gt => 1

def stripped (s : List UInt8) : List UInt8 := s.rdropWhile (· == blank)

variable {n : Nat} {s : List UInt8}

theorem extended_length (fits : s.length ≤ n) : (extended n s).length = n := by
  simp [extended]
  omega

theorem extended_cons {i : Nat} (fits : s.length ≤ n) (inside : i < n) : (extended n s).drop i =
      (if h : i < s.length then s[i] else blank) :: (extended n s).drop (i + 1) := by
  have within : i < (extended n s).length := by rw [extended_length fits]; exact inside
  rw [List.drop_eq_getElem_cons within]
  congr 1
  split
  · rename_i held
    exact List.getElem_append_left held
  · rename_i behind
    rw [← Option.some.injEq, ← List.getElem?_eq_getElem, extended,
      List.getElem?_append_right (by omega), List.getElem?_replicate, if_pos (by omega)]

variable {a b : List UInt8}

theorem cmpLoop_spec {i : Nat} (left : a.length ≤ n) (right : b.length ≤ n) (part : i ≤ n) :
    cmpLoop a b n i =
      some (orderSign (compare ((extended n a).drop i) ((extended n b).drop i))) := by
  induction more : n - i generalizing i with
  | zero =>
    rw [cmpLoop, if_neg (by omega), List.drop_eq_nil_of_le (by rw [extended_length left]; omega),
      List.drop_eq_nil_of_le (by rw [extended_length right]; omega)]
    rfl
  | succ m ih =>
    have first (s : List UInt8) : (if i < s.length then loadByte s i else some blank) =
        some (if h : i < s.length then s[i] else blank) := by
      split
      · rename_i held
        exact List.getElem?_eq_getElem held
      · rfl
    rw [cmpLoop, if_pos (by omega), first a, first b, Option.bind_some, Option.bind_some,
      extended_cons left (by omega), extended_cons right (by omega), List.compare_cons_cons]
    generalize (if h : i < a.length then a[i] else blank) = ca
    generalize (if h : i < b.length then b[i] else blank) = cb
    by_cases same : ca = cb
    · rw [if_neg (not_not.mpr same), same, Std.compare_self, Ordering.eq_then]
      exact ih (by omega) (by omega)
    · rw [if_pos same]
      by_cases less : ca < cb
      · rw [if_pos less, show compare ca cb = .lt from Std.compare_eq_lt.mpr less]
        rfl
      · have greater : cb < ca := UInt8.lt_of_le_of_ne (UInt8.not_lt.mp less) (Ne.symm same)
        rw [if_neg less, show compare ca cb = .gt from Std.compare_eq_gt.mpr greater]
        rfl

theorem pliCmpChar_spec (a b : List UInt8) :
    pliCmpChar a b = some (orderSign (extendedOrder a b)) := by
  have count : (if b.length < a.length then a.length else b.length) = max a.length b.length := by
    split <;> omega
  simp only [pliCmpChar, count]
  rw [cmpLoop_spec (Nat.le_max_left _ _) (Nat.le_max_right _ _) (Nat.zero_le _), List.drop_zero,
    List.drop_zero]
  rfl

theorem emitResult_spec {ca cb : UInt8} (apart : ca ≠ cb) :
    emitResult ca cb = if ca < cb then -1 else 1 := by
  have wide (c : UInt8) : (c.toBitVec.setWidth 64).toInt = c.toNat := by
    have := c.toNat_lt
    rw [BitVec.toInt_setWidth, Int.bmod_eq_of_le] <;> simp
    omega
  have difference : (ca.toBitVec.setWidth 64 - cb.toBitVec.setWidth 64).toInt =
      (ca.toNat : Int) - cb.toNat := by
    have := ca.toNat_lt
    have := cb.toNat_lt
    rw [BitVec.toInt_sub, wide, wide, Int.bmod_eq_of_le] <;> omega
  have zero : (0 : BitVec 64).toInt = 0 := rfl
  have distinct : ca.toNat ≠ cb.toNat := fun h => apart (UInt8.toNat_inj.mp h)
  simp only [emitResult, BitVec.slt, difference, zero, decide_eq_true_eq]
  by_cases less : ca < cb
  · have := UInt8.lt_iff_toNat_lt.mp less
    rw [if_pos less, if_pos (by omega)]
  · have := mt UInt8.lt_iff_toNat_lt.mpr less
    rw [if_neg less, if_neg (by omega), if_pos (by omega)]

theorem scLoop_eq (aMem : Window a) (bMem : Window b) (n i : Nat) :
    cmpLoop a b n i = some ((scLoop aMem bMem n i).setWidth 32).toInt := by
  induction more : n - i generalizing i with
  | zero =>
    rw [cmpLoop, scLoop, if_neg (by omega), if_pos (by omega)]
    rfl
  | succ m ih =>
    have first {s : List UInt8} (memory : Window s) :
        (if i < s.length then loadByte s i else some blank) =
          some (if i < s.length then memory.load i else blank) := by
      split
      · rename_i held
        exact memory.read held
      · rfl
    rw [cmpLoop, scLoop, if_pos (show i < n by omega), if_neg (show ¬n ≤ i by omega), first aMem,
      first bMem, Option.bind_some, Option.bind_some]
    simp only
    generalize (if i < a.length then aMem.load i else blank) = ca
    generalize (if i < b.length then bMem.load i else blank) = cb
    by_cases same : ca = cb
    · rw [if_neg (not_not.mpr same), if_neg (not_not.mpr same), ih (i + 1) (by omega)]
    · rw [if_pos same, if_pos same, emitResult_spec same]
      split <;> rfl

theorem emitCmpCharLLVM_spec (aMem : Window a) (bMem : Window b) :
    (emitCmpCharLLVM aMem bMem).toInt = orderSign (extendedOrder a b) := by
  have count : (if a.length < b.length then b.length else a.length) =
      if b.length < a.length then a.length else b.length := by
    split <;> split <;> omega
  have equal := scLoop_eq aMem bMem (if b.length < a.length then a.length else b.length) 0
  have called := pliCmpChar_spec a b
  simp only [pliCmpChar] at called
  rw [equal, Option.some.injEq] at called
  simp only [emitCmpCharLLVM, count]
  exact called

theorem compare_append_same {l l' : List UInt8} (r : List UInt8) (sizes : l.length = l'.length) :
    compare (l ++ r) (l' ++ r) = compare l l' := by
  induction l generalizing l' with
  | nil =>
    rw [List.length_eq_zero_iff.mp sizes.symm]
    exact Std.compare_self
  | cons c l ih =>
    obtain ⟨c', rest, rfl⟩ := List.exists_cons_of_length_eq_add_one sizes.symm
    rw [List.cons_append, List.cons_append, List.compare_cons_cons, List.compare_cons_cons,
      ih (Nat.succ.inj sizes)]

theorem extendedOrder_eq (left : a.length ≤ n)
    (right : b.length ≤ n) : compare (extended n a) (extended n b) = extendedOrder a b := by
  have longer {s : List UInt8} {m : Nat} (fits : s.length ≤ m) (more : m ≤ n) :
      extended n s = extended m s ++ List.replicate (n - m) blank := by
    rw [extended, extended, List.append_assoc, List.replicate_append_replicate]
    congr 2
    omega
  rw [extendedOrder, longer (Nat.le_max_left a.length b.length) (Nat.max_le.mpr ⟨left, right⟩),
    longer (Nat.le_max_right a.length b.length) (Nat.max_le.mpr ⟨left, right⟩),
    compare_append_same _ (by
      rw [extended_length (Nat.le_max_left _ _), extended_length (Nat.le_max_right _ _)])]

/-- The comparison says that `a` is not greater than `b`. -/
def CharLe (a b : List UInt8) : Prop := ∃ r, pliCmpChar a b = some r ∧ r ≤ 0

theorem charLe_iff : CharLe a b ↔ (extendedOrder a b).isLE := by
  rw [CharLe, pliCmpChar_spec]
  cases extendedOrder a b with
  | lt => exact ⟨fun _ => rfl, fun _ => ⟨-1, rfl, by decide⟩⟩
  | eq => exact ⟨fun _ => rfl, fun _ => ⟨0, rfl, by decide⟩⟩
  | gt =>
    constructor
    · rintro ⟨r, value, low⟩
      rw [← Option.some.inj value] at low
      exact absurd low (by decide)
    · intro le
      cases le

theorem extendedOrder_swap (a b : List UInt8) : extendedOrder a b = (extendedOrder b a).swap := by
  rw [extendedOrder, extendedOrder, Nat.max_comm]
  exact Std.OrientedOrd.eq_swap

theorem charLe_trans {c : List UInt8} (first : CharLe a b) (second : CharLe b c) : CharLe a c := by
  have left : a.length ≤ max (max a.length b.length) c.length := by omega
  have middle : b.length ≤ max (max a.length b.length) c.length := by omega
  have right : c.length ≤ max (max a.length b.length) c.length := by omega
  rw [charLe_iff] at first second ⊢
  rw [← extendedOrder_eq left middle] at first
  rw [← extendedOrder_eq middle right] at second
  rw [← extendedOrder_eq left right]
  exact Std.TransOrd.isLE_trans first second

theorem extended_stripped (fits : s.length ≤ n) :
    extended n s = stripped s ++ List.replicate (n - (stripped s).length) blank := by
  have tail : s.rtakeWhile (· == blank) =
      List.replicate (s.rtakeWhile (· == blank)).length blank :=
    List.eq_replicate_of_mem fun c member => by simpa using List.mem_rtakeWhile_imp member
  have parts : stripped s ++ s.rtakeWhile (· == blank) = s := List.rdropWhile_append_rtakeWhile
  have sizes := congrArg List.length parts
  rw [List.length_append] at sizes
  rw [extended]
  nth_rewrite 1 [← parts]
  rw [tail, List.append_assoc, List.replicate_append_replicate]
  congr 2
  omega

theorem stripped_append (s : List UInt8) (k : Nat) :
    stripped (s ++ List.replicate k blank) = stripped s := by
  induction k with
  | zero => rw [List.replicate_zero, List.append_nil]
  | succ k ih =>
    rw [List.replicate_succ', ← List.append_assoc, stripped,
      List.rdropWhile_concat_pos _ _ _ (by rfl)]
    exact ih

theorem equal_iff_stripped (a b : List UInt8) :
    CharLe a b ∧ CharLe b a ↔ stripped a = stripped b := by
  have equal : CharLe a b ∧ CharLe b a ↔ extendedOrder a b = .eq := by
    rw [charLe_iff, charLe_iff, extendedOrder_swap b a]
    cases extendedOrder a b <;> decide
  rw [equal, extendedOrder, Std.LawfulEqOrd.compare_eq_iff_eq]
  constructor
  · intro same
    have cut := congrArg stripped same
    rwa [extended, extended, stripped_append, stripped_append] at cut
  · intro same
    rw [extended_stripped (Nat.le_max_left _ _), extended_stripped (Nat.le_max_right _ _), same]

/-- The emitted comparison and the runtime's have one result, the order of the operands
    with the shorter one extended; it is a total preorder, and two strings are equal in it
    when they differ in blanks at the end only. -/
theorem char_order :
    (∀ (a b : List UInt8) (aMem : Window a) (bMem : Window b), ∃ r,
      pliCmpChar a b = some r ∧ (emitCmpCharLLVM aMem bMem).toInt = r ∧
        r = orderSign (extendedOrder a b)) ∧
      IsPreorder (List UInt8) CharLe ∧ Std.Total CharLe ∧
      ∀ a b, CharLe a b ∧ CharLe b a ↔ stripped a = stripped b := by
  refine ⟨fun a b aMem bMem => ⟨_, pliCmpChar_spec a b, emitCmpCharLLVM_spec aMem bMem, rfl⟩,
    ?_, ?_, equal_iff_stripped⟩
  · exact { refl := fun a => charLe_iff.mpr (by rw [extendedOrder, Std.compare_self]; rfl)
            trans := fun a b c => charLe_trans }
  · refine ⟨fun a b => ?_⟩
    rw [charLe_iff, charLe_iff, extendedOrder_swap b a]
    cases extendedOrder a b <;> decide

end PliCharOrder
