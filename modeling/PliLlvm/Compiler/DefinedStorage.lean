import PliLlvm.Compiler.DefinedItems
import Mathlib.Data.List.Forall2

/- When a DEFINED item stays inside its base. -/
namespace PliDefined
open RowMajor
variable {M : Type}

section Bounds

def declared (t : Ty M) : Bounds := t.dims.map fun d => (d.lb, d.ub)

theorem current_declared {t : Ty M} {bounds : Bounds} (constant : hasRuntimeExtent t = false)
    (current : List.Forall₂ (Current false) t.dims bounds) : bounds = declared t := by
  rw [hasRuntimeExtent] at constant
  rw [declared]
  generalize t.dims = dims at constant current
  induction current with
  | nil => rfl
  | cons own later ih =>
    rw [List.any_cons, Bool.or_eq_false_iff, Bool.or_eq_false_iff, Bool.or_eq_false_iff] at constant
    rw [List.map_cons, ← ih constant.2]
    exact congrArg (· :: _) (Prod.ext (own.lower constant.1.1.2) (own.upper rfl constant.1.1.1))

theorem flat_loop {dims : List Dim} {idx : List Int} (each : idx.length = dims.length) :
    (dims.zip idx).foldr (fun (d, i) (flat, stride) =>
        (flat + (i - d.lb) * stride, stride * (d.ub - d.lb + 1))) ((0 : Int), (1 : Int)) =
      (place (dims.map fun d => (d.lb, d.ub)) idx, count (dims.map fun d => (d.lb, d.ub))) := by
  induction dims generalizing idx with
  | nil =>
    rw [List.length_nil, List.length_eq_zero_iff] at each
    rw [each]
    rfl
  | cons d dims ih =>
    cases idx with
    | nil => cases each
    | cons i idx =>
      rw [List.zip_cons_cons, List.foldr_cons, ih (by simpa using each)]
      simp only [List.map_cons, place, count, extent, Prod.mk.injEq]
      exact ⟨Int.add_comm _ _, Int.mul_comm _ _⟩

theorem flat_place (t : Ty M) {idx : List Int} (each : idx.length = t.dims.length) :
    flatIndex t.dims idx = place (declared t) idx := by
  rw [flatIndex, flat_loop each]
  rfl

theorem clampIndex_range {i lb ub : Int} (elements : lb ≤ ub) :
    lb ≤ clampIndex i lb ub ∧ clampIndex i lb ub ≤ ub := by
  simp only [clampIndex]
  split <;> split <;> omega

theorem baseIndex_inside (checks : Bool) {d : Dim} {i : Int} (inside : d.lb ≤ i ∧ i ≤ d.ub) :
    baseIndex checks d i = i := by
  cases checks with
  | false => rfl
  | true =>
    simp only [baseIndex, clampIndex, if_true]
    rw [if_neg (by omega), if_neg (by omega)]

theorem indices_inside (checks : Bool) {dims : List Dim} {idx : List Int}
    (within : Within (dims.map fun d => (d.lb, d.ub)) idx) :
    List.zipWith (fun (d : Dim) i => baseIndex checks d i) dims idx = idx := by
  induction dims generalizing idx with
  | nil =>
    cases idx with
    | nil => rfl
    | cons i idx => exact within.elim
  | cons d dims ih =>
    cases idx with
    | nil => exact within.elim
    | cons i idx => rw [List.zipWith_cons_cons, baseIndex_inside checks within.1, ih within.2]

theorem declared_length (t : Ty M) : (declared t).length = t.dims.length := List.length_map _

end Bounds

section Sizes

theorem elemBytes_nonneg (structSize : M → Nat) (t : Ty M) : 0 ≤ elemBytes structSize t := by
  simp only [elemBytes]
  split
  · simp only [Ty.intBits]
    split <;> (try split) <;> (try split) <;> omega
  · simp only [Ty.intBits]
    split <;> (try split) <;> (try split) <;> omega
  all_goals (try split) <;> omega

theorem definedScalarBytes_elem (structSize : M → Nat) {t : Ty M}
    (fixed : 0 < definedScalarBytes t) : definedScalarBytes t = elemBytes structSize t := by
  simp only [definedScalarBytes] at fixed ⊢
  by_cases none : (t.isArray || t.k = .struct || t.varying || t.starLen) = true
  · rw [if_pos none] at fixed
    omega
  · rw [if_neg none] at fixed ⊢
    simp only [Bool.or_eq_true, not_or, Bool.not_eq_true] at none
    simp only [elemBytes]
    cases kind : t.k <;> simp_all

theorem foldl_count (dims : List Dim) (n : Int) :
    (dims.map fun d => d.ub - d.lb + 1).foldl (· * ·) n =
      n * count (dims.map fun d => (d.lb, d.ub)) := by
  induction dims generalizing n with
  | nil => simp [count]
  | cons d dims ih =>
    rw [List.map_cons, List.foldl_cons, ih, List.map_cons, count, extent, Int.mul_assoc]

theorem any_extent {t : Ty M}
    (none : (t.dims.any fun d => d.dyn || d.lbDyn || d.adj || d.ub < d.lb) = false) :
    hasRuntimeExtent t = false ∧ HasElements (declared t) := by
  rw [List.any_eq_false] at none
  constructor
  · rw [hasRuntimeExtent, List.any_eq_false]
    intro d member
    have each := none d member
    simp only [Bool.or_eq_true, not_or] at each ⊢
    exact each.1
  · intro axis member
    obtain ⟨d, inside, rfl⟩ := List.mem_map.mp member
    have each := none d inside
    simp only [Bool.or_eq_true, decide_eq_true_eq, not_or] at each
    exact Int.not_lt.mp each.2

theorem fixedElemCount_count {t : Ty M} (fixed : 0 ≤ fixedElemCount t) :
    hasRuntimeExtent t = false ∧ HasElements (declared t) ∧
      fixedElemCount t = count (declared t) := by
  simp only [fixedElemCount] at fixed ⊢
  cases none : t.dims.any fun d => d.dyn || d.lbDyn || d.adj || d.ub < d.lb with
  | true =>
    rw [none, if_pos rfl] at fixed
    omega
  | false =>
    obtain ⟨constant, elements⟩ := any_extent none
    refine ⟨constant, elements, ?_⟩
    rw [if_neg (by simp), foldl_count, Int.one_mul]
    rfl

theorem definedCharUnits_count (structSize : M → Nat) {t : Ty M} (fixed : 0 ≤ definedCharUnits t) :
    hasRuntimeExtent t = false ∧ HasElements (declared t) ∧
      definedCharUnits t = count (declared t) * elemBytes structSize t := by
  simp only [definedCharUnits] at fixed ⊢
  by_cases other : (t.k ≠ .char || t.varying || t.starLen) = true
  · rw [if_pos other] at fixed
    omega
  · rw [if_neg other] at fixed ⊢
    cases none : t.dims.any fun d => d.dyn || d.lbDyn || d.adj || d.ub < d.lb with
    | true =>
      rw [none, if_pos rfl] at fixed
      omega
    | false =>
      obtain ⟨constant, elements⟩ := any_extent none
      simp only [Bool.or_eq_true, decide_eq_true_eq, not_or, ne_eq, not_not,
        Bool.not_eq_true] at other
      refine ⟨constant, elements, ?_⟩
      have bytes : elemBytes structSize t = t.len := by simp [elemBytes, other]
      rw [if_neg (by simp), foldl_count, Int.one_mul, bytes]
      rfl

end Sizes

section Collected
variable [DecidableEq M]

inductive Collected (item : DeclItem M) (base : Ty M) : Defined → Prop where
  | scalar (itemScalar : item.ty.dims = []) (baseScalar : base.dims = [])
      (view : item.ty = base ∨ (0 < definedScalarBytes item.ty ∧
        definedScalarBytes item.ty = definedScalarBytes base)) : Collected item base ⟨[], 0⟩
  | array (itemFixed : 0 ≤ fixedElemCount item.ty) (baseFixed : 0 ≤ fixedElemCount base)
      (elem : 0 < definedScalarBytes item.ty.elementType)
      (same : definedScalarBytes item.ty.elementType = definedScalarBytes base.elementType)
      (fits : fixedElemCount item.ty ≤ fixedElemCount base) : Collected item base ⟨[], 0⟩
  | position (itemScalar : item.ty.dims = []) (itemUnits : 0 ≤ definedCharUnits item.ty)
      (baseUnits : 0 ≤ definedCharUnits base)
      (fits : definedPosFits item.pos (definedCharUnits item.ty) (definedCharUnits base) = true) :
      Collected item base ⟨[], item.pos - 1⟩
  | isub {slots : List Slot} (constant : hasRuntimeExtent base = false)
      (collected : collectSlots item.ty base.dims item.definedSubs = some slots)
      (isub : slots.any Slot.isIsub = true) (noRuntime : Slot.runtime ∉ slots)
      (same : item.ty.elementType = base.elementType)
      (fits : ∀ p ∈ base.dims.zip slots, slotFits item.ty p.1 p.2 = true) :
      Collected item base ⟨slots, 0⟩
  | elementPosition {slots : List Slot} (baseArray : base.dims ≠ [])
      (constant : hasRuntimeExtent base = false)
      (collected : collectSlots item.ty base.dims item.definedSubs = some slots)
      (noIsub : slots.any Slot.isIsub = false)
      (itemScalar : item.ty.dims = []) (itemUnits : 0 ≤ definedCharUnits item.ty)
      (elUnits : 0 ≤ definedCharUnits base.elementType)
      (fits : definedPosFits item.pos (definedCharUnits item.ty)
        (definedCharUnits base.elementType) = true) : Collected item base ⟨slots, item.pos - 1⟩
  | element {slots : List Slot} (baseArray : base.dims ≠ [])
      (constant : hasRuntimeExtent base = false)
      (collected : collectSlots item.ty base.dims item.definedSubs = some slots)
      (noIsub : slots.any Slot.isIsub = false)
      (same : item.ty = base.elementType) : Collected item base ⟨slots, 0⟩

omit [DecidableEq M] in
theorem scalar_units {t : Ty M} (units : ¬ itemUnits t < 0) :
    t.dims = [] ∧ 0 ≤ definedCharUnits t ∧ itemUnits t = definedCharUnits t := by
  rw [itemUnits] at units ⊢
  cases array : t.isArray with
  | true => simp [array] at units
  | false =>
    rw [array] at units
    refine ⟨by simpa [Ty.isArray] using array, ?_, rfl⟩
    simpa using units

theorem subscripted_collected {item : DeclItem M} {base : Ty M} {record : Defined}
    (accepted : collectSubscripted item base = some record) : Collected item base record := by
  rw [collectSubscripted] at accepted
  split at accepted
  · cases accepted
  rename_i shape
  simp only [Bool.or_eq_true, Bool.not_eq_true', not_or, Bool.not_eq_true] at shape
  obtain ⟨array, constant⟩ := shape
  have baseArray : base.dims ≠ [] := by simpa [Ty.isArray] using array
  obtain ⟨slots, collected, recorded⟩ := Option.bind_eq_some_iff.mp accepted
  split at recorded
  · rename_i isub
    split at recorded
    · cases recorded
    rename_i allowed
    simp only [Bool.or_eq_true, not_or, Bool.not_eq_true, List.any_eq_false,
      decide_eq_true_eq] at allowed
    obtain ⟨fits, ⟨⟩⟩ := Option.ite_none_right_eq_some.mp recorded
    simp only [Bool.and_eq_true, decide_eq_true_eq, List.all_eq_true] at fits
    exact .isub constant collected isub (fun member => allowed.1 _ member rfl) fits.1.1.2
      fits.2
  · rename_i noIsub
    rw [Bool.not_eq_true] at noIsub
    split at recorded
    · split at recorded
      · cases recorded
      rename_i units
      obtain ⟨itemFixed, elUnits⟩ := not_or.mp units
      obtain ⟨itemScalar, nonneg, same⟩ := scalar_units itemFixed
      rw [same] at recorded
      obtain ⟨fits, ⟨⟩⟩ := Option.ite_none_right_eq_some.mp recorded
      exact .elementPosition baseArray constant collected noIsub itemScalar nonneg
        (Int.not_lt.mp elUnits) fits
    · obtain ⟨same, ⟨⟩⟩ := Option.ite_none_right_eq_some.mp recorded
      exact .element baseArray constant collected noIsub same

theorem collected {item : DeclItem M} {base : Ty M} {record : Defined}
    (accepted : collectDefined item base = some record) : Collected item base record := by
  rw [collectDefined] at accepted
  split at accepted
  · cases accepted
  split at accepted
  · exact subscripted_collected accepted
  split at accepted
  · split at accepted
    · cases accepted
    rename_i units
    obtain ⟨itemFixed, baseUnits⟩ := not_or.mp units
    obtain ⟨itemScalar, nonneg, same⟩ := scalar_units itemFixed
    rw [same] at accepted
    obtain ⟨fits, ⟨⟩⟩ := Option.ite_none_right_eq_some.mp accepted
    exact .position itemScalar nonneg (Int.not_lt.mp baseUnits) fits
  split at accepted
  · cases accepted
  split at accepted
  · split at accepted
    · cases accepted
    split at accepted
    · cases accepted
    rename_i fixed
    split at accepted
    · cases accepted
    rename_i elems
    split at accepted
    · cases accepted
    rename_i fits
    cases accepted
    simp only [not_or, Int.not_lt, Int.not_le, ne_eq, not_not] at fixed elems
    exact .array fixed.1 fixed.2 elems.1 elems.2.2 (Int.not_lt.mp fits)
  · rename_i shape
    obtain ⟨itemScalar, baseScalar⟩ := not_or.mp shape
    obtain ⟨view, ⟨⟩⟩ := Option.ite_none_right_eq_some.mp accepted
    exact .scalar (by simpa [Ty.isArray] using itemScalar)
      (by simpa [Ty.isArray] using baseScalar) view

end Collected

section Slots

def SlotOk (item : Ty M) (d : Dim) : Slot → Prop
  | .const c => d.lb ≤ c ∧ c ≤ d.ub
  | .isub axis _ _ => axis < item.dims.length
  | .runtime => True

theorem collectSlot_ok {item : Ty M} {d : Dim} {ds : DefinedSub} {slot : Slot}
    (recorded : collectSlot item d ds = some slot) : SlotOk item d slot := by
  cases ds with
  | isub axis mult add =>
    simp only [collectSlot] at recorded
    obtain ⟨range, ⟨⟩⟩ := Option.ite_none_right_eq_some.mp recorded
    change axis.toNat < item.dims.length
    omega
  | lit ival =>
    simp only [collectSlot] at recorded
    obtain ⟨range, ⟨⟩⟩ := Option.ite_none_right_eq_some.mp recorded
    exact range
  | expr integer =>
    simp only [collectSlot] at recorded
    split at recorded
    · cases recorded
      trivial
    · cases recorded
  | missing => cases recorded

variable {dims : List Dim} {slots : List Slot}

theorem collectSlots_ok {item : Ty M} {subs : List DefinedSub}
    (recorded : collectSlots item dims subs = some slots) :
    List.Forall₂ (SlotOk item) dims slots := by
  induction dims generalizing subs slots with
  | nil =>
    cases subs with
    | nil =>
      cases recorded
      exact .nil
    | cons ds subs => cases recorded
  | cons d dims ih =>
    cases subs with
    | nil => cases recorded
    | cons ds subs =>
      obtain ⟨slot, first, more⟩ := Option.bind_eq_some_iff.mp recorded
      obtain ⟨rest, later, rfl⟩ := Option.map_eq_some_iff.mp more
      exact .cons (collectSlot_ok first) (ih later)

variable {checks : Bool} {item : Ty M}

theorem constIndices_within {subs : List Int}
    (ok : List.Forall₂ (SlotOk item) dims slots) (noIsub : slots.any Slot.isIsub = false)
    (each : subs.length = slots.length) (inRange : SubsInRange checks dims slots subs)
    (elements : HasElements (dims.map fun d => (d.lb, d.ub))) :
    Within (dims.map fun d => (d.lb, d.ub)) (constIndices checks dims slots subs) := by
  induction ok generalizing subs with
  | nil => trivial
  | @cons d slot dims slots own later ih =>
    cases subs with
    | nil => cases each
    | cons v subs =>
      rw [List.any_cons, Bool.or_eq_false_iff] at noIsub
      obtain ⟨first, more⟩ := hasElements_cons.mp elements
      refine ⟨?_, ih noIsub.2 (by simpa using each) inRange.2 more⟩
      cases slot with
      | const c => exact own
      | runtime =>
        cases checks with
        | true => exact clampIndex_range first
        | false => exact inRange.1 rfl rfl
      | isub axis mult add => cases noIsub.1

theorem consts_hasElements
    (ok : List.Forall₂ (SlotOk item) dims slots) (noIsub : slots.any Slot.isIsub = false)
    (noRuntime : Slot.runtime ∉ slots) : HasElements (dims.map fun d => (d.lb, d.ub)) := by
  induction ok with
  | nil =>
    intro axis member
    cases member
  | @cons d slot dims slots own later ih =>
    rw [List.any_cons, Bool.or_eq_false_iff] at noIsub
    rw [List.mem_cons, not_or] at noRuntime
    refine hasElements_cons.mpr ⟨?_, ih noIsub.2 noRuntime.2⟩
    cases slot with
    | const c => exact Int.le_trans own.1 own.2
    | runtime => exact absurd rfl noRuntime.1
    | isub axis mult add => cases noIsub.1

theorem constIndices_length {subs : List Int}
    (ok : List.Forall₂ (SlotOk item) dims slots) (each : subs.length = slots.length) :
    (constIndices checks dims slots subs).length = dims.length := by
  induction ok generalizing subs with
  | nil => rfl
  | cons own later ih =>
    cases subs with
    | nil => cases each
    | cons v subs => exact congrArg (· + 1) (ih (by simpa using each))

/-- The image of an axis of the item between its current bounds, without overflow, is inside an axis
    of the base. -/
def ImageInside (bounds : Bounds) (d : Dim) : Slot → Prop
  | .isub axis mult add => ∀ yd ∈ bounds[axis]?,
      (d.lb ≤ mult * yd.1 + add ∧ mult * yd.1 + add ≤ d.ub) ∧
        (d.lb ≤ mult * yd.2 + add ∧ mult * yd.2 + add ≤ d.ub)
  | _ => True

variable {bounds : Bounds}

theorem within_get {idxs : List Int} (within : Within bounds idxs) {axis : Nat}
    {yd : Int × Int} (found : bounds[axis]? = some yd) :
    yd.1 ≤ idxs.getD axis 0 ∧ idxs.getD axis 0 ≤ yd.2 := by
  induction bounds generalizing idxs axis with
  | nil => cases found
  | cons first bounds ih =>
    cases idxs with
    | nil => exact within.elim
    | cons i idxs =>
      cases axis with
      | zero =>
        cases found
        exact within.1
      | succ axis => exact ih within.2 found

theorem affine_between {mult add lo hi i lb ub : Int} (low : lo ≤ i) (high : i ≤ hi)
    (first : lb ≤ mult * lo + add ∧ mult * lo + add ≤ ub)
    (last : lb ≤ mult * hi + add ∧ mult * hi + add ≤ ub) :
    lb ≤ mult * i + add ∧ mult * i + add ≤ ub := by
  rcases Int.le_total 0 mult with nonneg | nonpos
  · have left := Int.mul_le_mul_of_nonneg_left low nonneg
    have right := Int.mul_le_mul_of_nonneg_left high nonneg
    omega
  · have left := Int.mul_le_mul_of_nonpos_left nonpos low
    have right := Int.mul_le_mul_of_nonpos_left nonpos high
    omega

theorem wrap64_small {n : Int} (low : -2 ^ 63 ≤ n) (high : n < 2 ^ 63) : wrap64 n = n := by
  rw [wrap64, Int.bmod_eq_of_le (by omega) (by omega)]

theorem isub_within (checks : Bool) {bounds : Bounds} {dims : List Dim}
    {slots : List Slot} {idxs : List Int}
    (rank : bounds.length = item.dims.length) (ok : List.Forall₂ (SlotOk item) dims slots)
    (noRuntime : Slot.runtime ∉ slots) (image : List.Forall₂ (ImageInside bounds) dims slots)
    (small : ∀ d ∈ dims, dimBoundFits d.lb ∧ dimBoundFits d.ub) (within : Within bounds idxs) :
    Within (dims.map fun d => (d.lb, d.ub)) (selected idxs slots) ∧
      isubIndices checks idxs dims slots = selected idxs slots := by
  induction ok with
  | nil => exact ⟨trivial, rfl⟩
  | @cons d slot dims slots own later ih =>
    rw [List.mem_cons, not_or] at noRuntime
    cases image with
    | cons inside more =>
      obtain ⟨within_rest, same_rest⟩ :=
        ih noRuntime.2 more fun d member => small d (List.mem_cons_of_mem _ member)
      cases slot with
      | const c =>
        refine ⟨⟨own, within_rest⟩, ?_⟩
        rw [isubIndices, same_rest]
        rfl
      | runtime => exact absurd rfl noRuntime.1
      | isub axis mult add =>
        have exists_axis : axis < bounds.length := by
          rw [rank]
          exact own
        have found : bounds[axis]? = some bounds[axis] := List.getElem?_eq_getElem exists_axis
        obtain ⟨low, high⟩ := within_get within found
        obtain ⟨first, last⟩ := inside bounds[axis] found
        have between := affine_between low high first last
        obtain ⟨smallLower, smallUpper⟩ := small d List.mem_cons_self
        simp only [dimBoundFits, Bool.and_eq_true, decide_eq_true_eq] at smallLower smallUpper
        refine ⟨⟨between, within_rest⟩, ?_⟩
        have raw : wrap64 (idxs.getD axis 0 * mult + add) = mult * idxs.getD axis 0 + add := by
          rw [Int.mul_comm]
          exact wrap64_small (by omega) (by omega)
        rw [isubIndices, same_rest]
        simp only [raw, baseIndex_inside checks between]
        rfl

theorem getD_map_lower {axis : Nat} {yd : Int × Int} (f : Int × Int → Int)
    (found : bounds[axis]? = some yd) : (bounds.map f).getD axis 0 = f yd := by
  simp [List.getD, found]

theorem image_of_ends (each : dims.length = slots.length)
    (lower : Within (dims.map fun d => (d.lb, d.ub)) (selected (bounds.map Prod.fst) slots))
    (upper : Within (dims.map fun d => (d.lb, d.ub)) (selected (bounds.map Prod.snd) slots)) :
    List.Forall₂ (ImageInside bounds) dims slots := by
  induction dims generalizing slots with
  | nil =>
    cases slots with
    | nil => exact .nil
    | cons slot slots => cases each
  | cons d dims ih =>
    cases slots with
    | nil => cases each
    | cons slot slots =>
      refine .cons ?_ (ih (by simpa using each) lower.2 upper.2)
      cases slot with
      | const c | runtime => trivial
      | isub axis mult add =>
        intro yd found
        have first := lower.1
        have last := upper.1
        simp only [selectedIndex, getD_map_lower _ found] at first last
        exact ⟨first, last⟩

end Slots

section Storage
variable (structSize : M → Nat) (checks : Bool)

def plain : Var M → Bool
  | .own _ allocated _ _ => !allocated
  | .defined _ record _ _ _ => !record.hasIsubOverlay

/-- The references to an item address bytes of its base only, and an element of an iSUB item is the
    element of the base that the subscripts select. -/
def Inside (item : DeclItem M) (record : Defined) (bounds : Bounds) (subs : List Int)
    (base : Var M) : Prop :=
  ∀ k, Within bounds k →
    (∀ b, elementAddr structSize checks (.defined item record bounds subs base) k ≤ b →
      b < elementAddr structSize checks (.defined item record bounds subs base) k +
        elemBytes structSize item.ty → Occupies structSize checks base b) ∧
    (record.hasIsubOverlay = true → Within base.bounds (selected k record.slots) ∧
      elementAddr structSize checks (.defined item record bounds subs base) k =
        elementAddr structSize checks base (selected k record.slots))

def Fits (item : DeclItem M) (record : Defined) (bounds : Bounds) (subs : List Int)
    (base : Var M) : Prop :=
  if record.hasIsubOverlay then
    HasElements bounds →
      if plain base then List.Forall₂ (ImageInside bounds) base.ty.dims record.slots
      else
        ∀ k, Within bounds k → Within base.bounds (selected k record.slots) ∧
          addressOf structSize checks base +
              flatIndex base.ty.dims (isubIndices checks k base.ty.dims record.slots) *
                elemBytes structSize base.ty =
            elementAddr structSize checks base (selected k record.slots)
  else
    0 < count bounds * elemBytes structSize item.ty →
      if plain base then
        record.definedPos + count bounds * elemBytes structSize item.ty < 2 ^ 63 ∧
          (.runtime ∈ record.slots → HasElements base.bounds)
      else
        ∀ b, addressOf structSize checks (.defined item record bounds subs base) ≤ b →
          b < addressOf structSize checks (.defined item record bounds subs base) +
            count bounds * elemBytes structSize item.ty → Occupies structSize checks base b

variable {structSize checks} {item : DeclItem M} {record : Defined} {bounds : Bounds}
  {subs : List Int} {base : Var M}

theorem scalar_bounds {t : Ty M} (scalar : t.dims = []) {bounds : Bounds}
    (current : List.Forall₂ (Current false) t.dims bounds) : bounds = [] := by
  rw [scalar] at current
  cases current
  rfl

theorem scalar_declared {t : Ty M} (scalar : t.dims = []) : declared t = [] := by
  rw [declared, scalar]
  rfl

theorem collected_constant [DecidableEq M] {baseTy : Ty M} (accepted : Collected item baseTy record)
    (noIsub : record.hasIsubOverlay = false)
    (current : List.Forall₂ (Current false) item.ty.dims bounds) :
    bounds = declared item.ty ∧ HasElements bounds := by
  have of_scalar : item.ty.dims = [] → bounds = declared item.ty ∧ HasElements bounds := by
    intro scalar
    rw [scalar_bounds scalar current, scalar_declared scalar]
    refine ⟨rfl, ?_⟩
    intro axis member
    cases member
  cases accepted with
  | scalar itemScalar baseScalar view => exact of_scalar itemScalar
  | array itemFixed baseFixed elem same fits =>
    obtain ⟨constant, elements, _⟩ := fixedElemCount_count itemFixed
    obtain rfl := current_declared constant current
    exact ⟨rfl, elements⟩
  | position itemScalar itemUnits baseUnits fits => exact of_scalar itemScalar
  | isub constant collected isub noRuntime same fits =>
    rw [Defined.hasIsubOverlay, isub] at noIsub
    cases noIsub
  | elementPosition baseArray constant collected noIsub itemScalar itemUnits elUnits fits =>
    exact of_scalar itemScalar
  | element baseArray constant collected noIsub same =>
    refine of_scalar ?_
    rw [same]
    rfl

theorem element_place (noIsub : record.hasIsubOverlay = false)
    (constant : bounds = declared item.ty) {k : List Int} (within : Within bounds k) :
    elementAddr structSize checks (.defined item record bounds subs base) k =
      addressOf structSize checks (.defined item record bounds subs base) +
        place bounds k * elemBytes structSize item.ty := by
  have within' := within
  rw [constant] at within'
  have each : k.length = item.ty.dims.length := by
    rw [within_length within', declared_length]
  rw [elementAddr, noIsub, if_neg (by simp), indices_inside checks within', flat_place _ each,
    constant]

theorem occupies_defined (subs : List Int) (base : Var M)
    (noIsub : record.hasIsubOverlay = false)
    (constant : bounds = declared item.ty) (b : Int) :
    Occupies structSize checks (.defined item record bounds subs base) b ↔
      HasElements bounds ∧
        addressOf structSize checks (.defined item record bounds subs base) ≤ b ∧
        b < addressOf structSize checks (.defined item record bounds subs base) +
          count bounds * elemBytes structSize item.ty := by
  rw [← covered_iff (elemBytes_nonneg structSize item.ty), Occupies]
  refine exists_congr fun k => and_congr_right fun within => ?_
  rw [element_place noIsub constant within]

theorem occupies_plain [DecidableEq M] {v : Var M} (known : v.Declared structSize)
    (isPlain : plain v = true) (b : Int) :
    Occupies structSize checks v b ↔ HasElements v.bounds ∧
      addressOf structSize checks v ≤ b ∧
        b < addressOf structSize checks v + count v.bounds * elemBytes structSize v.ty := by
  cases v with
  | own ty allocated bounds bytes =>
    have unallocated : allocated = false := by simpa [plain] using isPlain
    have size := known.2.2.1 (Or.inl unallocated)
    rw [Occupies, size]
    simp [Var.bounds, Var.ty, addressOf]
  | defined item record bounds subs base =>
    have noIsub : record.hasIsubOverlay = false := by simpa [plain] using isPlain
    obtain ⟨current, _, _, accepted, _, _⟩ := known
    exact occupies_defined subs base noIsub
      (collected_constant (collected accepted) noIsub current).1 b

theorem inside_bytes (noIsub : record.hasIsubOverlay = false)
    (constant : bounds = declared item.ty) (elements : HasElements bounds) :
    Inside structSize checks item record bounds subs base ↔
      ∀ b, addressOf structSize checks (.defined item record bounds subs base) ≤ b →
        b < addressOf structSize checks (.defined item record bounds subs base) +
          count bounds * elemBytes structSize item.ty → Occupies structSize checks base b := by
  constructor
  · intro inside b low high
    obtain ⟨k, within, first, last⟩ :=
      (occupies_defined subs base noIsub constant b).mpr ⟨elements, low, high⟩
    exact (inside k within).1 b first last
  · intro bytes k within
    refine ⟨fun b first last => ?_, fun isub => ?_⟩
    · obtain ⟨_, low, high⟩ :=
        (occupies_defined subs base noIsub constant b).mp
          ⟨k, within, first, last⟩
      exact bytes b low high
    · rw [noIsub] at isub
      cases isub

theorem addressOf_whole {pos : Int} (nonneg : 0 ≤ pos) :
    addressOf structSize checks (.defined item ⟨[], pos⟩ bounds subs base) =
      addressOf structSize checks base + pos := by
  rw [addressOf]
  simp only [ne_eq, not_true_eq_false, false_and, if_false]
  split <;> omega

section Element
variable {slots : List Slot} (ok : List.Forall₂ (SlotOk item.ty) base.ty.dims slots)
  (noIsub : slots.any Slot.isIsub = false)
include ok noIsub

theorem addressOf_element {pos : Int} (nonneg : 0 ≤ pos) (baseArray : base.ty.dims ≠ [])
    (each : subs.length = slots.length) :
    addressOf structSize checks (.defined item ⟨slots, pos⟩ bounds subs base) =
      addressOf structSize checks base +
        place (declared base.ty) (constIndices checks base.ty.dims slots subs) *
          elemBytes structSize base.ty + pos := by
  have some_slot : slots ≠ [] := by
    intro none
    rw [none] at ok
    cases dims : base.ty.dims with
    | nil => exact baseArray dims
    | cons d dims =>
      rw [dims] at ok
      cases ok
  have element : (⟨slots, pos⟩ : Defined).slots ≠ [] ∧
      (⟨slots, pos⟩ : Defined).hasIsubOverlay = false := ⟨some_slot, noIsub⟩
  rw [addressOf, flat_place _ (constIndices_length ok each)]
  simp only [if_pos element]
  split <;> omega

theorem slots_place (structSize : M → Nat) (each : subs.length = slots.length)
    (inRange : SubsInRange checks base.ty.dims slots subs)
    (baseElements : HasElements (declared base.ty)) :
    0 ≤ place (declared base.ty) (constIndices checks base.ty.dims slots subs) *
        elemBytes structSize base.ty ∧
      place (declared base.ty) (constIndices checks base.ty.dims slots subs) *
          elemBytes structSize base.ty + elemBytes structSize base.ty ≤
        count (declared base.ty) * elemBytes structSize base.ty := by
  obtain ⟨nonneg, less⟩ := place_range (constIndices_within ok noIsub each inRange baseElements)
  have size := elemBytes_nonneg structSize base.ty
  have last := Int.mul_le_mul_of_nonneg_right (Int.add_one_le_of_lt less) size
  rw [Int.add_mul, Int.one_mul] at last
  exact ⟨Int.mul_nonneg nonneg size, last⟩

theorem slots_hasElements (runtime : .runtime ∈ slots → HasElements (declared base.ty)) :
    HasElements (declared base.ty) := by
  by_cases someRuntime : Slot.runtime ∈ slots
  · exact runtime someRuntime
  · exact consts_hasElements ok noIsub someRuntime

end Element

theorem plain_current [DecidableEq M] (known : base.Declared structSize)
    (isPlain : plain base = true) : List.Forall₂ (Current false) base.ty.dims base.bounds := by
  cases base with
  | own ty allocated bounds bytes =>
    obtain rfl : allocated = false := by simpa [plain] using isPlain
    exact known.1
  | defined item record bounds subs base => exact known.1

theorem plain_small [DecidableEq M] (known : base.Declared structSize)
    (isPlain : plain base = true) :
    count base.bounds * elemBytes structSize base.ty < 2 ^ 63 := by
  cases base with
  | own ty allocated bounds bytes =>
    obtain rfl : allocated = false := by simpa [plain] using isPlain
    have size := known.2.2.1 (Or.inl rfl)
    have small := known.2.2.2
    rw [size] at small
    exact small
  | defined item record bounds subs base => exact known.2.2.1

theorem interval_iff {P : Prop} {lo n address size : Int} (positive : 0 < n) :
    (∀ b, lo ≤ b → b < lo + n → P ∧ address ≤ b ∧ b < address + size) ↔
      P ∧ address ≤ lo ∧ lo + n ≤ address + size := by
  constructor
  · intro all
    obtain ⟨holds, low, _⟩ := all lo (Int.le_refl _) (by omega)
    obtain ⟨_, _, high⟩ := all (lo + n - 1) (by omega) (by omega)
    exact ⟨holds, low, by omega⟩
  · rintro ⟨holds, low, high⟩ b first last
    exact ⟨holds, by omega, by omega⟩

theorem pos_of_fits {pos units baseUnits : Int} (fits : definedPosFits pos units baseUnits = true) :
    0 ≤ pos - 1 ∧ wrap64 (pos - 1 + units) ≤ baseUnits := by
  simp only [definedPosFits, Bool.and_eq_true, decide_eq_true_eq] at fits
  exact ⟨by omega, fits.2⟩

theorem scalar_total (structSize : M → Nat) {t : Ty M} (scalar : t.dims = [])
    (units : 0 ≤ definedCharUnits t) :
    definedCharUnits t = elemBytes structSize t := by
  obtain ⟨_, _, size⟩ := definedCharUnits_count structSize units
  rw [size, scalar_declared scalar, count, Int.one_mul]

theorem plain_inside_iff [DecidableEq M]
    (known : (Var.defined item record bounds subs base).Declared structSize)
    (inRange : SubsInRange checks base.ty.dims record.slots subs)
    (noIsub : record.hasIsubOverlay = false) (isPlain : plain base = true)
    (positive : 0 < count bounds * elemBytes structSize item.ty) :
    Inside structSize checks item record bounds subs base ↔
      record.definedPos + count bounds * elemBytes structSize item.ty < 2 ^ 63 ∧
        (.runtime ∈ record.slots → HasElements base.bounds) := by
  obtain ⟨current, _, itemSmall, accepted, each, baseKnown⟩ := known
  have recorded := collected accepted
  obtain ⟨constant, elements⟩ := collected_constant recorded noIsub current
  have baseCurrent := plain_current baseKnown isPlain
  have baseSmall := plain_small baseKnown isPlain
  rw [inside_bytes noIsub constant elements]
  simp only [occupies_plain baseKnown isPlain]
  rw [interval_iff positive]
  cases recorded with
  | scalar itemScalar baseScalar view =>
    have itemBounds := scalar_bounds itemScalar current
    have baseBounds := scalar_bounds baseScalar baseCurrent
    have same : elemBytes structSize item.ty = elemBytes structSize base.ty := by
      rcases view with same | ⟨fixed, same⟩
      · rw [same]
      · rw [← definedScalarBytes_elem structSize fixed, same,
          definedScalarBytes_elem structSize (same ▸ fixed)]
    have noElements : HasElements ([] : Bounds) := fun _ member => by cases member
    rw [addressOf_whole (Int.le_refl 0), itemBounds, baseBounds, same]
    rw [itemBounds, same] at itemSmall
    exact ⟨fun _ => ⟨by simpa using itemSmall, fun _ => noElements⟩,
      fun _ => ⟨noElements, by simp, by simp⟩⟩
  | array itemFixed baseFixed elem same fits =>
    obtain ⟨_, _, itemCount⟩ := fixedElemCount_count itemFixed
    obtain ⟨baseConstant, baseElements, baseCount⟩ := fixedElemCount_count baseFixed
    obtain baseDeclared := current_declared baseConstant baseCurrent
    have sameBytes : elemBytes structSize item.ty = elemBytes structSize base.ty := by
      have first := definedScalarBytes_elem structSize elem
      have second := definedScalarBytes_elem structSize (same ▸ elem)
      exact (first.symm.trans same).trans second
    rw [itemCount, baseCount] at fits
    have total := Int.mul_le_mul_of_nonneg_right fits (elemBytes_nonneg structSize base.ty)
    rw [addressOf_whole (Int.le_refl 0), constant, baseDeclared, sameBytes]
    rw [constant, sameBytes] at itemSmall
    exact ⟨fun _ => ⟨by simpa using itemSmall, fun _ => baseElements⟩,
      fun _ => ⟨baseElements, by simp, by simpa using total⟩⟩
  | position itemScalar itemUnits baseUnits fits =>
    obtain ⟨baseConstant, baseElements, baseSize⟩ := definedCharUnits_count structSize baseUnits
    obtain baseDeclared := current_declared baseConstant baseCurrent
    obtain ⟨nonneg, inBase⟩ := pos_of_fits fits
    rw [scalar_total structSize itemScalar itemUnits, baseSize,
      ← baseDeclared] at inBase
    have itemBounds := scalar_bounds itemScalar current
    rw [addressOf_whole nonneg]
    rw [itemBounds, count, Int.one_mul] at positive ⊢
    simp only
    constructor
    · rintro ⟨_, _, high⟩
      exact ⟨by omega, fun _ => baseDeclared ▸ baseElements⟩
    · rintro ⟨noOverflow, _⟩
      rw [wrap64_small (by omega) noOverflow] at inBase
      exact ⟨baseDeclared ▸ baseElements, by omega, by omega⟩
  | isub constant collected isub noRuntime same fits =>
    rw [Defined.hasIsubOverlay, isub] at noIsub
    cases noIsub
  | @elementPosition slots baseArray baseConstant collected noIsub' itemScalar itemUnits elUnits
      fits =>
    have ok := collectSlots_ok collected
    obtain baseDeclared := current_declared baseConstant baseCurrent
    obtain ⟨nonneg, inElement⟩ := pos_of_fits fits
    have element : definedCharUnits base.ty.elementType = elemBytes structSize base.ty :=
      scalar_total structSize rfl elUnits
    rw [scalar_total structSize itemScalar itemUnits, element] at inElement
    have itemBounds := scalar_bounds itemScalar current
    rw [itemBounds, count, Int.one_mul] at positive
    rw [baseDeclared] at baseSmall ⊢
    rw [addressOf_element ok noIsub' nonneg baseArray each, itemBounds, count, Int.one_mul]
    simp only
    constructor
    · rintro ⟨baseElements, low, high⟩
      have placed := slots_place ok noIsub' structSize each inRange baseElements
      exact ⟨by omega, fun _ => baseElements⟩
    · rintro ⟨noOverflow, runtime⟩
      have baseElements := slots_hasElements ok noIsub' runtime
      have placed := slots_place ok noIsub' structSize each inRange baseElements
      rw [wrap64_small (by omega) noOverflow] at inElement
      exact ⟨baseElements, by omega, by omega⟩
  | @element slots baseArray baseConstant collected noIsub' same =>
    have ok := collectSlots_ok collected
    obtain baseDeclared := current_declared baseConstant baseCurrent
    have itemScalar : item.ty.dims = [] := by rw [same]; rfl
    have itemBounds := scalar_bounds itemScalar current
    have sameBytes : elemBytes structSize item.ty = elemBytes structSize base.ty := by
      rw [same]
      rfl
    rw [itemBounds, sameBytes, count, Int.one_mul] at itemSmall
    rw [baseDeclared, addressOf_element ok noIsub' (Int.le_refl 0) baseArray each, itemBounds,
      sameBytes, count, Int.one_mul]
    simp only
    constructor
    · rintro ⟨baseElements, _, _⟩
      exact ⟨by omega, fun _ => baseElements⟩
    · rintro ⟨_, runtime⟩
      have baseElements := slots_hasElements ok noIsub' runtime
      have placed := slots_place ok noIsub' structSize each inRange baseElements
      exact ⟨baseElements, by omega, by omega⟩

theorem declared_dims [DecidableEq M] (known : base.Declared structSize) :
    ∀ d ∈ base.ty.dims, dimBoundFits d.lb ∧ dimBoundFits d.ub := by
  cases base with
  | own ty allocated bounds bytes | defined item record bounds subs base => exact known.2.1

theorem element_occupies [DecidableEq M] (known : base.Declared structSize)
    (array : base.ty.dims ≠ []) {i : List Int} (within : Within base.bounds i) {b : Int}
    (low : elementAddr structSize checks base i ≤ b)
    (high : b < elementAddr structSize checks base i + elemBytes structSize base.ty) :
    Occupies structSize checks base b := by
  cases base with
  | own ty allocated bounds bytes =>
    have size := known.2.2.1 (Or.inr array)
    have covered : HasElements bounds ∧ 0 ≤ b ∧ b < 0 + count bounds * elemBytes structSize ty :=
      (covered_iff (elemBytes_nonneg structSize ty)).mp
        ⟨i, within, by simpa [elementAddr] using low, by simpa [elementAddr, Var.ty] using high⟩
    rw [Occupies, size]
    exact ⟨covered.1, covered.2.1, by simpa using covered.2.2⟩
  | defined item record bounds subs base => exact ⟨i, within, low, high⟩

theorem plain_element [DecidableEq M] (known : base.Declared structSize)
    (isPlain : plain base = true) {i : List Int} (within : Within base.bounds i) :
    elementAddr structSize checks base i =
      addressOf structSize checks base + place base.bounds i * elemBytes structSize base.ty := by
  cases base with
  | own ty allocated bounds bytes => exact (Int.zero_add _).symm
  | defined item record bounds subs base =>
    have noIsub : record.hasIsubOverlay = false := by simpa [plain] using isPlain
    obtain ⟨current, _, _, accepted, _, _⟩ := known
    exact element_place noIsub (collected_constant (collected accepted) noIsub current).1 within

theorem isub_inside_elements [DecidableEq M] (known : base.Declared structSize)
    (array : base.ty.dims ≠ []) (isub : record.hasIsubOverlay = true)
    (same : elemBytes structSize item.ty = elemBytes structSize base.ty) :
    Inside structSize checks item record bounds subs base ↔
      ∀ k, Within bounds k → Within base.bounds (selected k record.slots) ∧
        addressOf structSize checks base +
            flatIndex base.ty.dims (isubIndices checks k base.ty.dims record.slots) *
              elemBytes structSize base.ty =
          elementAddr structSize checks base (selected k record.slots) := by
  have address : ∀ k, elementAddr structSize checks (.defined item record bounds subs base) k =
      addressOf structSize checks base +
        flatIndex base.ty.dims (isubIndices checks k base.ty.dims record.slots) *
          elemBytes structSize base.ty := by
    intro k
    rw [elementAddr, if_pos isub]
  refine forall_congr' fun k => imp_congr_right fun within => ?_
  rw [address]
  constructor
  · exact fun inside => inside.2 isub
  · rintro ⟨inBase, here⟩
    rw [here, same]
    exact ⟨fun b low high => element_occupies known array inBase low high,
      fun _ => ⟨inBase, rfl⟩⟩

theorem isub_inside_iff [DecidableEq M]
    (known : (Var.defined item record bounds subs base).Declared structSize)
    (isub : record.hasIsubOverlay = true) :
    Inside structSize checks item record bounds subs base ↔
      Fits structSize checks item record bounds subs base := by
  obtain ⟨current, _, _, accepted, _, baseKnown⟩ := known
  cases collected accepted with
  | scalar itemScalar baseScalar view | array itemFixed baseFixed elem same fits
  | position itemScalar itemUnits baseUnits fits => cases isub
  | elementPosition baseArray constant recorded noIsub itemScalar itemUnits elUnits fits
  | element baseArray constant recorded noIsub same =>
    rw [Defined.hasIsubOverlay, noIsub] at isub
    cases isub
  | @isub slots constant recorded someIsub noRuntime same fits =>
    have ok := collectSlots_ok recorded
    have each := ok.length_eq
    have array : base.ty.dims ≠ [] := by
      intro none
      rw [none] at ok
      cases ok
      cases someIsub
    have sameBytes : elemBytes structSize item.ty = elemBytes structSize base.ty := by
      change elemBytes structSize item.ty.elementType = _
      rw [same]
      rfl
    rw [isub_inside_elements baseKnown array isub sameBytes, Fits, if_pos isub]
    by_cases isPlain : plain base = true
    · have baseDeclared := current_declared constant (plain_current baseKnown isPlain)
      rw [if_pos isPlain, baseDeclared]
      constructor
      · intro inside elements
        exact image_of_ends each (inside _ (lower_within elements)).1
          (inside _ (upper_within elements)).1
      · intro image k within
        have rank : bounds.length = item.ty.dims.length := current.length_eq.symm
        obtain ⟨inBase, taken⟩ := isub_within checks rank ok noRuntime
          (image (within_hasElements within)) (declared_dims baseKnown) within
        refine ⟨inBase, ?_⟩
        have length : (selected k slots).length = base.ty.dims.length := by
          rw [within_length inBase, List.length_map]
        rw [taken, flat_place _ length, plain_element baseKnown isPlain (baseDeclared ▸ inBase),
          baseDeclared]
    · rw [if_neg isPlain]
      constructor
      · exact fun inside _ => inside
      · exact fun fits k within => fits (within_hasElements within) k within

end Storage

section Declarations

def fixedBin31 (dims : List Dim) : Ty Unit :=
  ⟨.fixedBin, 31, 0, 1, false, false, false, (), dims⟩

def upTo (ub : Int) : Dim := ⟨1, ub, false, false, false⟩

end Declarations

end PliDefined
