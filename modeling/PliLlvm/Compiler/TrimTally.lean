import PliLlvm.Runtime.RepeatCenter
import Mathlib.Data.List.DropRight

/- TRIM and TALLY of the runtime (runtime/rt_string.c) and the loops emitted for them
   (src/irgen.cpp). An emitted TRIM scan loads a byte before it knows that one is left, and
   memory outside the subject holds anything. -/
namespace PliTrimTally
open CheckedCells Searches PliStrings PliSubstr PliRepeat

def padTest (pad : Option (List UInt8)) (c : UInt8) : Bool :=
  pad.elim (c == blank) fun set => (memchr set c).isSome

/-- `while (lo < hi && pad(s[lo])) ++lo;` -/
def trimLo (s : List UInt8) (test : UInt8 → Bool) (lo hi : Nat) : Option Nat :=
  if lo < hi then
    (loadByte s lo).bind fun c => if test c then trimLo s test (lo + 1) hi else some lo
  else some lo
termination_by hi - lo

/-- `while (hi > lo && pad(s[hi - 1])) --hi;` -/
def trimHi (s : List UInt8) (test : UInt8 → Bool) (lo hi : Nat) : Option Nat :=
  if lo < hi then
    (loadByte s (hi - 1)).bind fun c => if test c then trimHi s test lo (hi - 1) else some hi
  else some hi
termination_by hi - lo

/-- `for (i = lo; i < hi && out < dstcap; ++i) dst[out++] = s[i];` -/
def trimCopy (byte : Nat → Option UInt8) (hi cap : Nat) (dst : List UInt8) (i out : Nat) :
    Option (List UInt8 × Nat) :=
  if i < hi ∧ out < cap then
    (byte i).bind fun c =>
      (store dst out c).bind fun dst => trimCopy byte hi cap dst (i + 1) (out + 1)
  else some (dst, out)
termination_by hi - i

def pliTrimBounds (s : List UInt8) (pad : Option (List UInt8)) : Option (Nat × Nat) :=
  (trimLo s (padTest pad) 0 s.length).bind fun lo =>
    (trimHi s (padTest pad) lo s.length).map fun hi => (lo, hi)

def pliTrim (dst s : List UInt8) (pad : Option (List UInt8)) : Option (List UInt8) :=
  (pliTrimBounds s pad).bind fun (lo, hi) =>
    (trimCopy (loadByte s) hi dst.length dst lo 0).bind fun (written, out) =>
      blankRest dst.length written out

def emitIsPad (pad : Option (List UInt8)) (c : UInt8) : Bool :=
  let isBlank := c == blank
  let inSet := (memchr (pad.getD []) c).isSome
  if pad.isSome then inSet else isBlank

/-- The blocks trim.lo and trim.lo_body. -/
def loLoop {s : List UInt8} (memory : Window s) (pad : Option (List UInt8)) (lo hi : Nat) : Nat :=
  let isPad := emitIsPad pad (memory.load lo)
  if lo < hi ∧ isPad then loLoop memory pad (lo + 1) hi else lo
termination_by hi - lo

/-- The blocks trim.hi and trim.hi_body. -/
def hiLoop {s : List UInt8} (memory : Window s) (pad : Option (List UInt8)) (lo hi : Nat) : Nat :=
  let isPad := emitIsPad pad (memory.load ((hi : Int) - 1))
  if lo < hi ∧ isPad then hiLoop memory pad lo (hi - 1) else hi
termination_by hi - lo

def emitTrimBounds {s : List UInt8} (memory : Window s) (pad : Option (List UInt8)) : Nat × Nat :=
  let lo := loLoop memory pad 0 s.length
  (lo, hiLoop memory pad lo s.length)

def emitTrimLLVM (dst : List UInt8) {s : List UInt8} (memory : Window s)
    (pad : Option (List UInt8)) : Option (List UInt8) :=
  let (lo, hi) := emitTrimBounds memory pad
  (trimCopy (fun i => some (memory.load i)) hi dst.length dst lo 0).bind fun (written, out) =>
    blankRest dst.length written out

def tallyLoop (x y : List UInt8) (positive : 0 < y.length) (i n : Nat) : Option Nat :=
  if i + y.length ≤ x.length then
    (memcmpEq x i y y.length).bind fun same =>
      if same then tallyLoop x y positive (i + y.length) (n + 1)
      else tallyLoop x y positive (i + 1) n
  else some n
termination_by x.length + 1 - i

def pliTally (x y : List UInt8) : Option Nat :=
  if short : y.length ≤ 0 ∨ x.length < y.length then some 0
  else tallyLoop x y (by omega) 0 0

/-- The blocks tally.inner, check_byte and inner.latch: whether the needle is here. -/
def tallyInner (x y : List UInt8) (i j : Nat) : Option Bool :=
  if y.length ≤ j then some true
  else
    (loadByte x (i + j)).bind fun xij =>
      (loadByte y j).bind fun yj => if xij ≠ yj then some false else tallyInner x y i (j + 1)
termination_by y.length - j

def tallyOuter (x y : List UInt8) (positive : 0 < y.length) (i n : Nat) : Option Nat :=
  if x.length < i + y.length then some n
  else
    (tallyInner x y i 0).bind fun same =>
      if same then tallyOuter x y positive (i + y.length) (n + 1)
      else tallyOuter x y positive (i + 1) n
termination_by x.length + 1 - i

def emitTallyLLVM (x y : List UInt8) : Option Nat :=
  if short : y.length ≤ 0 ∨ x.length < y.length then some 0
  else tallyOuter x y (by omega) 0 0

theorem emitIsPad_eq (pad : Option (List UInt8)) (c : UInt8) : emitIsPad pad c = padTest pad c := by
  cases pad with
  | none | some set => rfl

variable {s : List UInt8}

theorem trimLo_spec (test : UInt8 → Bool) {lo hi : Nat} (part : lo ≤ hi) (inside : hi ≤ s.length) :
    trimLo s test lo hi = some (lo + (((s.take hi).drop lo).takeWhile test).length) := by
  induction left : hi - lo generalizing lo with
  | zero =>
    rw [trimLo, if_neg (by omega), List.drop_eq_nil_of_le (by rw [List.length_take]; omega)]
    rfl
  | succ m ih =>
    have within : lo < (s.take hi).length := by
      rw [List.length_take]
      omega
    have load : loadByte s lo = some s[lo] := List.getElem?_eq_getElem (by omega)
    rw [trimLo, if_pos (by omega), load, Option.bind_some, List.drop_eq_getElem_cons within,
      List.getElem_take, List.takeWhile_cons]
    split
    · rw [ih (by omega) (by omega), List.length_cons]
      congr 1
      omega
    · rfl

theorem loLoop_eq {s : List UInt8} (memory : Window s) (pad : Option (List UInt8)) {lo hi : Nat}
    (inside : hi ≤ s.length) :
    trimLo s (padTest pad) lo hi = some (loLoop memory pad lo hi) := by
  induction left : hi - lo generalizing lo with
  | zero => rw [trimLo, loLoop, if_neg (by omega), if_neg (by omega)]
  | succ m ih =>
    have load : loadByte s lo = some (memory.load lo) := memory.read (by omega)
    rw [trimLo, loLoop, if_pos (by omega), load, Option.bind_some, emitIsPad_eq]
    by_cases padding : padTest pad (memory.load lo) = true
    · rw [if_pos padding, if_pos ⟨by omega, padding⟩, ih (by omega)]
    · rw [if_neg padding, if_neg fun h => padding h.2]

theorem hiLoop_eq (memory : Window s) (pad : Option (List UInt8)) {lo hi : Nat}
    (inside : hi ≤ s.length) :
    trimHi s (padTest pad) lo hi = some (hiLoop memory pad lo hi) := by
  induction left : hi - lo generalizing hi with
  | zero => rw [trimHi, hiLoop, if_neg (by omega), if_neg (by omega)]
  | succ m ih =>
    have load : loadByte s (hi - 1) = some (memory.load ((hi : Int) - 1)) := by
      rw [show (hi : Int) - 1 = (hi - 1 : Nat) by omega]
      exact memory.read (by omega)
    rw [trimHi, hiLoop, if_pos (by omega), load, Option.bind_some, emitIsPad_eq]
    by_cases padding : padTest pad (memory.load ((hi : Int) - 1)) = true
    · rw [if_pos padding, if_pos ⟨by omega, padding⟩, ih (by omega) (by omega)]
    · rw [if_neg padding, if_neg fun h => padding h.2]

theorem hiLoop_spec (memory : Window s) (pad : Option (List UInt8)) {lo hi : Nat}
    (part : lo ≤ hi) (inside : hi ≤ s.length) :
    lo ≤ hiLoop memory pad lo hi ∧ hiLoop memory pad lo hi ≤ hi ∧
      (s.take (hiLoop memory pad lo hi)).drop lo =
        ((s.take hi).drop lo).rdropWhile (padTest pad) := by
  induction left : hi - lo generalizing hi with
  | zero =>
    have nothing : (s.take hi).drop lo = [] :=
      List.drop_eq_nil_of_le (by rw [List.length_take]; omega)
    rw [hiLoop, if_neg (by omega), nothing]
    exact ⟨part, Nat.le_refl hi, (List.rdropWhile_nil _).symm⟩
  | succ m ih =>
    obtain ⟨last, rfl⟩ : ∃ last, hi = last + 1 := ⟨hi - 1, by omega⟩
    have within : last < s.length := by omega
    have final : (s.take (last + 1)).drop lo = (s.take last).drop lo ++ [s[last]] := by
      rw [List.take_succ_eq_append_getElem within,
        List.drop_append_of_le_length (by rw [List.length_take]; omega)]
    have load : memory.load (((last + 1 : Nat) : Int) - 1) = s[last] := by
      rw [show ((last + 1 : Nat) : Int) - 1 = (last : Nat) by omega]
      exact memory.inside last within
    rw [hiLoop, load, emitIsPad_eq, final]
    by_cases padding : padTest pad s[last] = true
    · rw [if_pos ⟨by omega, padding⟩, Nat.add_sub_cancel, List.rdropWhile_concat_pos _ _ _ padding]
      obtain ⟨low, high, kept⟩ := @ih last (by omega) (by omega) (by omega)
      exact ⟨low, by omega, kept⟩
    · rw [if_neg fun h => padding h.2, List.rdropWhile_concat_neg _ _ _ padding]
      exact ⟨part, Nat.le_refl _, final⟩

def trimmed (pad : Option (List UInt8)) (s : List UInt8) : List UInt8 :=
  (s.dropWhile (padTest pad)).rdropWhile (padTest pad)

theorem emitTrimBounds_spec (memory : Window s) (pad : Option (List UInt8)) :
    (emitTrimBounds memory pad).1 ≤ (emitTrimBounds memory pad).2 ∧
      (emitTrimBounds memory pad).2 ≤ s.length ∧
      (s.take (emitTrimBounds memory pad).2).drop (emitTrimBounds memory pad).1 =
        trimmed pad s := by
  have low := @loLoop_eq s memory pad 0 s.length (Nat.le_refl _)
  rw [trimLo_spec _ (Nat.zero_le _) (Nat.le_refl _), List.take_length, List.drop_zero, Nat.zero_add,
    Option.some.injEq] at low
  have part : loLoop memory pad 0 s.length ≤ s.length := by
    rw [← low]
    exact (List.takeWhile_sublist _).length_le
  obtain ⟨within, inside, kept⟩ := hiLoop_spec memory pad part (Nat.le_refl _)
  have front : s.drop (loLoop memory pad 0 s.length) = s.dropWhile (padTest pad) := by
    have parts := @List.takeWhile_append_dropWhile _ (padTest pad) s
    rw [← low]
    nth_rewrite 2 [← parts]
    exact List.drop_left
  rw [List.take_length, front] at kept
  exact ⟨within, inside, kept⟩

theorem trimCopy_congr {byte byte' : Nat → Option UInt8} {hi cap : Nat} (dst : List UInt8)
    {i : Nat} (out : Nat) (same : ∀ j, i ≤ j → j < hi → byte j = byte' j) :
    trimCopy byte hi cap dst i out = trimCopy byte' hi cap dst i out := by
  induction left : hi - i generalizing dst i out with
  | zero => rw [trimCopy, trimCopy, if_neg (by omega), if_neg (by omega)]
  | succ m ih =>
    rw [trimCopy, trimCopy, same i (Nat.le_refl i) (by omega)]
    congr 2
    funext c
    congr 1
    funext dst
    exact ih dst (out + 1) (fun j low high => same j (by omega) high) (by omega)

def trimField (s : List UInt8) (cap : Nat) : List UInt8 :=
  s.take cap ++ List.replicate (cap - s.length) blank

theorem trimField_length (s : List UInt8) (cap : Nat) : (trimField s cap).length = cap := by
  simp [trimField]
  omega

theorem trimCopy_upto {dst : List UInt8} {lo hi cap i out : Nat} (inside : hi ≤ s.length)
    (from_lo : i = lo + out) (part : i ≤ hi) (room : out ≤ cap)
    (upto : Upto (trimField ((s.take hi).drop lo) cap) dst out) :
    ∃ written, trimCopy (loadByte s) hi cap dst i out = some (written, min (hi - lo) cap) ∧
      Upto (trimField ((s.take hi).drop lo) cap) written (min (hi - lo) cap) := by
  induction left : hi - i generalizing dst i out with
  | zero =>
    have ended : out = min (hi - lo) cap := by omega
    rw [trimCopy, if_neg (by omega), ← ended]
    exact ⟨dst, rfl, upto⟩
  | succ m ih =>
    by_cases more : out < cap
    · have load : loadByte s i = some s[i] := List.getElem?_eq_getElem (by omega)
      have cell : (trimField ((s.take hi).drop lo) cap)[out]? = some s[i] := by
        rw [trimField, List.getElem?_append_left (by simp; omega), List.getElem?_take_of_lt more,
          List.getElem?_drop, ← from_lo, List.getElem?_take_of_lt (show i < hi by omega),
          List.getElem?_eq_getElem (show i < s.length by omega)]
      obtain ⟨next, stored, later⟩ := upto_store upto cell
      obtain ⟨written, done, whole⟩ :=
        @ih next (i + 1) (out + 1) (by omega) (by omega) (by omega) later (by omega)
      exact ⟨written, by rw [trimCopy, if_pos ⟨by omega, more⟩, load, Option.bind_some, stored,
        Option.bind_some, done], whole⟩
    · have full : out = min (hi - lo) cap := by omega
      rw [trimCopy, if_neg (by omega), ← full]
      exact ⟨dst, rfl, upto⟩

theorem pliTrimBounds_eq (memory : Window s) (pad : Option (List UInt8)) :
    pliTrimBounds s pad = some (emitTrimBounds memory pad) := by
  rw [pliTrimBounds, loLoop_eq memory pad (Nat.le_refl _), Option.bind_some,
    hiLoop_eq memory pad (Nat.le_refl _)]
  rfl

theorem pliTrim_spec (dst : List UInt8) {s : List UInt8} (memory : Window s)
    (pad : Option (List UInt8)) :
    pliTrim dst s pad = some (trimField (trimmed pad s) dst.length) := by
  obtain ⟨part, inside, kept⟩ := emitTrimBounds_spec memory pad
  rw [pliTrim, pliTrimBounds_eq memory, Option.bind_some]
  generalize emitTrimBounds memory pad = bounds at part inside kept ⊢
  obtain ⟨lo, hi⟩ := bounds
  simp only at part inside kept ⊢
  have count : (trimmed pad s).length = hi - lo := by
    rw [← kept, List.length_drop, List.length_take]
    omega
  have size := (trimField_length (trimmed pad s) dst.length).symm
  have start := upto_nothing size
  rw [← kept] at start
  obtain ⟨written, copied, upto⟩ :=
    trimCopy_upto inside (Nat.add_zero _).symm part (Nat.zero_le _) start
  rw [kept, ← count] at upto
  rw [← count] at copied
  obtain ⟨last, filled, whole⟩ := @blankRest_upto _ written dst.length _ upto fun i low high => by
    rw [trimField, List.getElem?_append_right (by simp; omega), List.getElem?_replicate, if_pos]
    simp
    omega
  rw [show max (min (trimmed pad s).length dst.length) dst.length =
    (trimField (trimmed pad s) dst.length).length by omega] at whole
  rw [copied, ← upto_whole whole]
  exact filled

theorem emitTrimLLVM_eq (dst : List UInt8) {s : List UInt8} (memory : Window s)
    (pad : Option (List UInt8)) : emitTrimLLVM dst memory pad = pliTrim dst s pad := by
  obtain ⟨-, inside, -⟩ := emitTrimBounds_spec memory pad
  rw [pliTrim, pliTrimBounds_eq memory, Option.bind_some, emitTrimLLVM]
  generalize emitTrimBounds memory pad = bounds at inside ⊢
  obtain ⟨lo, hi⟩ := bounds
  simp only at inside ⊢
  rw [trimCopy_congr dst 0 fun j _ high => (memory.read (show j < s.length by omega)).symm]
  rfl

variable {x y : List UInt8}

theorem tallyInner_spec {i j : Nat} (fits : i + y.length ≤ x.length)
    (matched : ∀ k, k < j → x[i + k]? = y[k]?) :
    tallyInner x y i j = some (occursAt x y i) := by
  induction left : y.length - j generalizing j with
  | zero =>
    rw [tallyInner, if_pos (by omega), occursAt_iff.mpr fun k inside => matched k (by omega)]
  | succ m ih =>
    have loads : loadByte x (i + j) = some x[i + j] ∧ loadByte y j = some y[j] :=
      ⟨List.getElem?_eq_getElem (by omega), List.getElem?_eq_getElem (by omega)⟩
    rw [tallyInner, if_neg (by omega), loads.1, Option.bind_some, loads.2, Option.bind_some]
    by_cases same : x[i + j] = y[j]
    · rw [if_neg (not_not.mpr same)]
      refine ih (fun k before => ?_) (by omega)
      rcases Nat.lt_succ_iff_lt_or_eq.mp before with earlier | rfl
      · exact matched k earlier
      · exact loads.1.trans ((congrArg some same).trans loads.2.symm)
    · rw [if_pos same]
      congr 1
      cases found : occursAt x y i with
      | false => rfl
      | true =>
        have here := occursAt_iff.mp found j (by omega)
        exact absurd (Option.some.inj (loads.1.symm.trans (here.trans loads.2))) same

theorem tallyLoop_spec (positive : 0 < y.length) (i n : Nat) :
    tallyLoop x y positive i n = some (n + countApart x y i) := by
  have some_needle : y ≠ [] := List.length_pos_iff.mp positive
  induction left : x.length + 1 - i using Nat.strongRecOn generalizing i n with
  | ind m ih =>
    rw [tallyLoop]
    split
    · rename_i fits
      rw [memcmpEq_occurs fits, Option.bind_some]
      cases here : occursAt x y i with
      | true =>
        rw [if_pos rfl, ih _ (by omega) _ _ rfl, countApart_here some_needle here]
        congr 1
        omega
      | false =>
        rw [if_neg (by decide), ih _ (by omega) _ _ rfl, countApart_next some_needle here]
    · rename_i short
      rw [countApart_end (by omega), Nat.add_zero]

theorem tallyOuter_eq (positive : 0 < y.length) (i n : Nat) :
    tallyOuter x y positive i n = tallyLoop x y positive i n := by
  induction left : x.length + 1 - i using Nat.strongRecOn generalizing i n with
  | ind m ih =>
    rw [tallyOuter, tallyLoop]
    by_cases fits : i + y.length ≤ x.length
    · rw [if_neg (by omega), if_pos fits, memcmpEq_occurs fits, Option.bind_some,
        tallyInner_spec fits fun k before => absurd before (Nat.not_lt_zero k), Option.bind_some,
        ih _ (by omega) _ _ rfl, ih _ (by omega) _ _ rfl]
    · rw [if_pos (by omega), if_neg fits]

theorem pliTally_spec (x y : List UInt8) : pliTally x y = some (countApart x y 0) := by
  rw [pliTally]
  split
  · rename_i short
    rcases short with empty | short
    · have nothing : y = [] := List.length_eq_zero_iff.mp (Nat.le_zero.mp empty)
      rw [countApart, if_pos (Or.inl nothing)]
    · rw [countApart_end (by omega)]
  · rw [tallyLoop_spec, Nat.zero_add]

/-- TRIM finds the same bounds and writes the same field either way, and TALLY counts the
    same. What TRIM leaves is the subject without the set's characters at its ends; what
    TALLY counts is the most occurrences that do not overlap. -/
theorem trim_tally_agree (dst : List UInt8) {s : List UInt8} (memory : Window s)
    (pad : Option (List UInt8)) (x y : List UInt8) :
    (pliTrimBounds s pad = some (emitTrimBounds memory pad) ∧
        (s.take (emitTrimBounds memory pad).2).drop (emitTrimBounds memory pad).1 =
          trimmed pad s) ∧
      (emitTrimLLVM dst memory pad = pliTrim dst s pad ∧
        pliTrim dst s pad = some (trimField (trimmed pad s) dst.length)) ∧
      emitTallyLLVM x y = pliTally x y ∧ ∃ n, pliTally x y = some n ∧ (y = [] → n = 0) ∧
        (y ≠ [] →
          (∃ places, Apart y.length 0 places ∧ (∀ p ∈ places, occursAt x y p = true) ∧
            places.length = n) ∧
          ∀ places, Apart y.length 0 places → (∀ p ∈ places, occursAt x y p = true) →
            places.length ≤ n) := by
  refine ⟨⟨pliTrimBounds_eq memory pad, (emitTrimBounds_spec memory pad).2.2⟩,
    ⟨emitTrimLLVM_eq dst memory pad, pliTrim_spec dst memory pad⟩, ?_,
    _, pliTally_spec x y, fun empty => by rw [countApart, if_pos (Or.inl empty)],
    fun some_needle => ⟨countApart_places some_needle 0, fun places apart occur =>
      countApart_most some_needle apart occur⟩⟩
  rw [emitTallyLLVM, pliTally]
  split
  · rfl
  · rw [tallyOuter_eq]

end PliTrimTally
