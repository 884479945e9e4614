import PliLlvm.Compiler.CrossSection

/- What an assignment between slices leaves in memory. -/
namespace PliCrossSection
open RowMajor Sections CellWrites BigEndian
open PliDefined (Dim TK)
open PliFixedConvert (trap_inside)

section Elements
variable {subChecks : Bool} {size : Nat} {t r : Ref} {tl rl : Storage}

variable {a : Storage} {sel : Selection}

theorem element_apart {c d : List Int} (fixed : Fixed a.bounds sel)
    (first : Coordinates a sel c) (second : Coordinates a sel d) (different : c ≠ d) :
    Apart size (a.element size sel c) (a.element size sel d) := by
  have lengths {c : List Int} (within : Coordinates a sel c) :
      c.length = (reduced a.bounds sel).length := by
    rw [within_length within, zeroed, List.length_map]
  have places : place a.bounds (fill a.bounds sel c) ≠ place a.bounds (fill a.bounds sel d) := by
    intro same
    have vectors := place_injective (fill_within fixed first) (fill_within fixed second) same
    exact different (fill_injective fixed (lengths first) (lengths second) vectors)
  unfold Apart Storage.element
  generalize place a.bounds (fill a.bounds sel c) = p at places
  generalize place a.bounds (fill a.bounds sel d) = q at places
  rcases Int.lt_or_gt_of_ne places with less | more
  · have rows : (p + 1) * size ≤ q * size := Int.mul_le_mul_of_nonneg_right less (by omega)
    rw [Int.add_mul] at rows
    omega
  · have rows : (q + 1) * size ≤ p * size := Int.mul_le_mul_of_nonneg_right more (by omega)
    rw [Int.add_mul] at rows
    omega

def coordinates (a : Storage) (sel : Selection) (ti : Nat) : List Int :=
  digits (strides (reduced a.bounds sel)) ti

def elements (a : Storage) (sel : Selection) : Nat := (count (reduced a.bounds sel)).toNat

theorem slice_extents (a : Storage) (sel : Selection) :
    ∀ axis ∈ reduced a.bounds sel, 0 ≤ extent axis := fun axis member =>
  a.extents axis (reduced_mem member)

theorem slice_elements {ti : Nat} (inside : ti < elements a sel) :
    HasElements (reduced a.bounds sel) ∧ (ti : Int) < count (reduced a.bounds sel) := by
  unfold elements at inside
  exact ⟨hasElements_of_count (slice_extents a sel) (by omega), by omega⟩

theorem coordinates_within {a : Storage} {sel : Selection} {ti : Nat}
    (inside : ti < elements a sel) :
    Coordinates a sel (coordinates a sel ti) := by
  obtain ⟨some_element, less⟩ := slice_elements inside
  exact digits_within some_element (by omega) less

theorem coordinates_all {c : List Int} (within : Coordinates a sel c) :
    ∃ ti, ti < elements a sel ∧ coordinates a sel ti = c := by
  obtain ⟨⟨low, high⟩, same⟩ := digits_place within
  refine ⟨(place (zeroed (reduced a.bounds sel)) c).toNat, ?_, ?_⟩
  · unfold elements
    omega
  · unfold coordinates
    rw [Int.toNat_of_nonneg low, same]

theorem coordinates_ne {ti tj : Nat} (first : ti < elements a sel)
    (second : tj < elements a sel) (different : ti ≠ tj) :
    coordinates a sel ti ≠ coordinates a sel tj := by
  intro same
  obtain ⟨some_element, less⟩ := slice_elements first
  have other := (slice_elements second).2
  have equal := digits_injective some_element ⟨by omega, less⟩ ⟨by omega, other⟩ same
  exact different (by exact_mod_cast equal)

theorem coordinates_congr {b : Storage} {sel' : Selection}
    (shape : (reduced a.bounds sel).map extent = (reduced b.bounds sel').map extent)
    (c : List Int) :
    Coordinates a sel c ↔ Coordinates b sel' c := by
  unfold Coordinates
  rw [zeroed_congr shape]

theorem Agrees.build (agrees : Agrees subChecks r rl) (fixed : Fixed rl.bounds r.sel) :
    build subChecks r = ⟨starsFrom 0 r.sel, anchor rl.bounds r.sel,
      count (reduced rl.bounds r.sel), false⟩ := by
  obtain ⟨first, quiet⟩ := axes_anchor agrees.axes fixed agrees.later
  rw [build_eq (axes_length agrees.axes), first, quiet, count_congr (axes_reduced agrees.axes)]

theorem elementAt_eq (target : Agrees subChecks t tl) (agrees : Agrees subChecks r rl)
    (fixed : Fixed rl.bounds r.sel)
    (shape : (reduced tl.bounds t.sel).map extent = (reduced rl.bounds r.sel).map extent)
    (ti : Nat) :
    elementAt subChecks size t r ti = rl.element size r.sel (coordinates tl t.sel ti) := by
  have full : starStride subChecks r = reducedStrides rl.bounds r.sel := by
    rw [starStride_eq (axes_length agrees.axes), axes_strides agrees.axes agrees.later]
  have slice : reducedStride subChecks t = strides (reduced tl.bounds t.sel) := by
    rw [reducedStride_eq (axes_length target.axes), strides_congr (axes_reduced target.axes)]
  have each : (coordinates tl t.sel ti).length = (reduced rl.bounds r.sel).length := by
    have lengths := congrArg List.length shape
    rw [List.length_map, List.length_map] at lengths
    rw [coordinates, digits_length, strides_length, lengths]
  rw [elementAt, full, slice, flatLoop_eq, agrees.build fixed, agrees.base, Storage.element,
    place_fill fixed each]
  rfl

end Elements

theorem recode_holds {sizeChecks : Bool} {el : Elem} {bytes : List (BitVec 8)}
    (holds : Holds sizeChecks el bytes) : recode sizeChecks el bytes = ⟨bytes, false⟩ := by
  unfold recode
  unfold Holds at holds
  split at holds
  · split
    · rename_i single
      have kept : bytes.map (· &&& 1) = bytes := by
        refine (List.map_congr_left fun b member => ?_).trans (List.map_id bytes)
        rcases holds single b member with rfl | rfl <;> decide
      rw [kept]
    · rfl
  · cases sizeChecks with
    | false => rfl
    | true =>
      dsimp only
      rw [trap_inside (8 * bytes.length) (holds rfl).1 (holds rfl).2, Bool.and_false]
      rfl
  · rfl

section Loop
variable {subChecks sizeChecks : Bool} {size : Nat} {t x : Ref} {ks : List Nat} {st : Outcome}

theorem loop_scalar (k : TK) (bytes : List (BitVec 8)) :
    ks.foldl (turn subChecks sizeChecks size t (.scalar k bytes)) st =
      ⟨writeAll (elementAt subChecks size t t) (fun _ => bytes) ks st.mem, st.raised⟩ := by
  induction ks generalizing st with
  | nil => rfl
  | cons k ks ih =>
    rw [List.foldl_cons, ih]
    simp [turn, writeAll]

theorem loop_view {orig : Nat → List (BitVec 8)}
    (loads : ∀ k ∈ ks, read st.mem (elementAt subChecks size t x k) size = orig k)
    (apart : ∀ j ∈ ks, ∀ k ∈ ks,
      Apart size (elementAt subChecks size t t j) (elementAt subChecks size t x k))
    (values : ∀ k ∈ ks, Holds sizeChecks t.el (orig k)) :
    ks.foldl (turn subChecks sizeChecks size t (.view x)) st =
      ⟨writeAll (elementAt subChecks size t t) orig ks st.mem, st.raised⟩ := by
  induction ks generalizing st with
  | nil => rfl
  | cons k ks ih =>
    obtain ⟨own, rest⟩ := List.forall_mem_cons.mp loads
    obtain ⟨value, later⟩ := List.forall_mem_cons.mp values
    have size_k : (orig k).length = size := by rw [← own, read_length]
    have first : turn subChecks sizeChecks size t (.view x) st k =
        ⟨write st.mem (elementAt subChecks size t t k) (orig k), st.raised⟩ := by
      simp [turn, own, recode_holds value]
    rw [List.foldl_cons, first]
    refine ih ?_ ?_ later
    · intro j member
      have far := apart k List.mem_cons_self j (List.mem_cons_of_mem _ member)
      rw [← rest j member, ← size_k]
      rw [← size_k] at far
      exact read_write_apart far
    · intro i first j second
      exact apart i (List.mem_cons_of_mem _ first) j (List.mem_cons_of_mem _ second)

end Loop

section Bulk
variable {subChecks : Bool} {size : Nat} {t x : Ref} {tl xl : Storage}

theorem starsFrom_length_le (k : Nat) (sel : Selection) :
    (starsFrom k sel).length ≤ sel.length := by
  induction sel generalizing k with
  | nil => exact Nat.le_refl 0
  | cons a sel ih =>
    cases a with
    | none => exact Nat.succ_le_succ (ih (k + 1))
    | some i => exact Nat.le_succ_of_le (ih (k + 1))

theorem starsFrom_full {k : Nat} {sel : Selection} (full : sel.length ≤ (starsFrom k sel).length) :
    sel = List.replicate sel.length none := by
  induction sel generalizing k with
  | nil => rfl
  | cons a sel ih =>
    cases a with
    | none => exact congrArg (none :: ·) (ih (Nat.le_of_succ_le_succ full))
    | some i =>
      have least := starsFrom_length_le (k + 1) sel
      change sel.length + 1 ≤ (starsFrom (k + 1) sel).length at full
      omega

theorem suffix_shape {sel : Selection}
    (run : starsFrom 0 sel = (List.range (starsFrom 0 sel).length).map
      (sel.length - (starsFrom 0 sel).length + ·)) :
    ∃ front n, sel = List.map some front ++ List.replicate n none := by
  induction sel with
  | nil => exact ⟨[], 0, rfl⟩
  | cons a sel ih =>
    cases a with
    | some i =>
      have inner : starsFrom 0 (some i :: sel) = (starsFrom 0 sel).map (1 + ·) :=
        starsFrom_shift 1 sel
      have same : (starsFrom 0 (some i :: sel)).length = (starsFrom 0 sel).length := by
        rw [inner, List.length_map]
      rw [same, inner] at run
      have few := starsFrom_length_le 0 sel
      obtain ⟨front, n, shape⟩ := ih <| by
        refine List.map_injective_iff.mpr (fun p q (equal : 1 + p = 1 + q) =>
          by omega) (run.trans ?_)
        rw [List.map_map]
        refine List.map_congr_left fun j _ => ?_
        simp only [List.length_cons, Function.comp_apply]
        omega
      exact ⟨i :: front, n, by rw [shape]; rfl⟩
    | none =>
      have first := congrArg (·[0]?) run
      have full : (none :: sel : Selection).length ≤ (starsFrom 0 (none :: sel)).length := by
        simp [starsFrom] at first
        simp [starsFrom]
        omega
      exact ⟨[], (none :: sel : Selection).length, starsFrom_full full⟩

theorem slotBounds_static {dims : List Dim} (still : (dims.any fun d => d.dyn || d.lbDyn) = false)
    (lbs ubs : List (Option Int)) : slotBounds dims lbs ubs = dims.map fun d => (d.lb, d.ub) := by
  induction dims generalizing lbs ubs with
  | nil => rfl
  | cons d dims ih =>
    rw [List.any_cons, Bool.or_eq_false_iff, Bool.or_eq_false_iff] at still
    obtain ⟨⟨upper, lower⟩, later⟩ := still
    rw [slotBounds, upper, lower, ih later]
    rfl

theorem foldl_count (bounds : Bounds) (acc : Int) :
    (bounds.map extent).foldl (· * ·) acc = acc * count bounds := by
  induction bounds generalizing acc with
  | nil => exact (Int.mul_one acc).symm
  | cons axis bounds ih =>
    rw [List.map_cons, List.foldl_cons, ih, count, Int.mul_assoc]

theorem pick_map {α β : Type} (f : α → β) (xs : List α) (sel : Selection) :
    pick (xs.map f) sel = (pick xs sel).map f := by
  induction xs generalizing sel with
  | nil => cases sel <;> rfl
  | cons x xs ih =>
    cases sel with
    | nil => rfl
    | cons a sel =>
      cases a with
      | none => exact congrArg (f x :: ·) (ih sel)
      | some i => exact ih sel

theorem starTotal_eq (agrees : Agrees subChecks x xl) (fixed : Fixed xl.bounds x.sel)
    (still : x.isDynamic = false) : starTotal subChecks x = count (reduced xl.bounds x.sel) := by
  have bounds : x.bounds = x.dims.map fun d => (d.lb, d.ub) := slotBounds_static still _ _
  have each := axes_length agrees.axes
  have extents : ((starsFrom 0 x.sel).map fun k =>
      (x.dims[k]?.map fun d => d.ub - d.lb + 1).getD 1) = (starsFrom 0 x.sel).map fun k =>
        (x.bounds.map extent).getD k 1 := by
    refine List.map_congr_left fun k _ => ?_
    rw [bounds, List.map_map, List.getD_eq_getElem?_getD, List.getElem?_map]
    rfl
  rw [starTotal, agrees.build fixed]
  dsimp only
  rw [extents, starsFrom_pick _ _ (by rw [List.length_map]; exact each), pick_map, pick_bounds,
    foldl_count, Int.one_mul, count_congr (axes_reduced agrees.axes)]

theorem elementAt_run (target : Agrees subChecks t tl) (agrees : Agrees subChecks x xl)
    (fixed : Fixed xl.bounds x.sel)
    (shape : (reduced tl.bounds t.sel).map extent = (reduced xl.bounds x.sel).map extent)
    (suffix : suffixRun x.dims.length (build subChecks x) = true)
    (rank : x.dims.length = x.sel.length) {ti : Nat} (inside : ti < elements tl t.sel) :
    elementAt subChecks size t x ti =
      x.base + (build subChecks x).fixedFlat * size + ti * size := by
  rw [agrees.build fixed, suffixRun] at suffix
  simp only [Bool.and_eq_true, decide_eq_true_eq, rank] at suffix
  obtain ⟨front, n, stars⟩ := suffix_shape suffix.2
  have trailing := reducedStrides_suffix fixed stars
  obtain ⟨some_element, less⟩ := slice_elements inside
  have each : (coordinates tl t.sel ti).length = (reduced xl.bounds x.sel).length := by
    have lengths := congrArg List.length shape
    rw [List.length_map, List.length_map] at lengths
    rw [coordinates, digits_length, strides_length, lengths]
  have distance : dot (coordinates tl t.sel ti) (reducedStrides xl.bounds x.sel) = ti := by
    rw [trailing, ← strides_congr shape, coordinates]
    exact dot_digits some_element (by omega) less
  rw [elementAt_eq target agrees fixed shape, Storage.element, place_fill fixed each, distance,
    agrees.build fixed, agrees.base, Int.add_mul, Int.add_assoc]

end Bulk

/- What the assignment is for. -/

/-- The memory after the assignment: the values in the target's elements, and every other byte as
    it was. -/
def Placed (size : Nat) (a : Storage) (sel : Selection) (values : List Int → List (BitVec 8))
    (mem mem' : Mem) : Prop :=
  (∀ c, Coordinates a sel c → read mem' (a.element size sel c) size = values c) ∧
    ∀ b, (∀ c, Coordinates a sel c → ¬(a.element size sel c ≤ b ∧
      b < a.element size sel c + size)) →
      mem' b = mem b

/-- Each element of the target's slice gets the value of the source's at its coordinates. -/
def Moves (subChecks sizeChecks : Bool) (size : Nat) (t x : Ref) (tl xl : Storage)
    (mem : Mem) : Prop :=
  ∃ out, emitCrossSectionAssign subChecks sizeChecks size t (.view x) mem = some out ∧
    out.raised = false ∧
    Placed size tl t.sel (fun c => read mem (xl.element size x.sel c) size) mem out.mem

/-- Each element of the slice gets the scalar's value. -/
def Broadcasts (subChecks sizeChecks : Bool) (size : Nat) (t : Ref) (k : TK)
    (bytes : List (BitVec 8)) (tl : Storage) (mem : Mem) : Prop :=
  ∃ out, emitCrossSectionAssign subChecks sizeChecks size t (.scalar k bytes) mem = some out ∧
    out.raised = false ∧ Placed size tl t.sel (fun _ => bytes) mem out.mem

structure Pair (size : Nat) (t x : Ref) (tl xl : Storage) : Prop where
  target : Fixed tl.bounds t.sel
  source : Fixed xl.bounds x.sel
  shape : (reduced tl.bounds t.sel).map extent = (reduced xl.bounds x.sel).map extent
  apart : ∀ c d, Coordinates tl t.sel c → Coordinates xl x.sel d →
    Apart size (tl.element size t.sel c) (xl.element size x.sel d)

/-- When the element loop moves the slice: the elements are not structures, and the lowering has
    the bounds and the addresses of the arrays. -/
structure ViewsFit (subChecks : Bool) (t x : Ref) (tl xl : Storage) : Prop where
  register : t.el.k ≠ .struct
  target : Agrees subChecks t tl
  source : Agrees subChecks x xl

def Values (sizeChecks : Bool) (size : Nat) (t x : Ref) (xl : Storage) (mem : Mem) : Prop :=
  ∀ d, Coordinates xl x.sel d → Holds sizeChecks t.el (read mem (xl.element size x.sel d) size)

/-- The elements that are taken one by one are values the loop keeps. -/
structure MoveFits (subChecks sizeChecks : Bool) (size : Nat) (t x : Ref) (tl xl : Storage)
    (mem : Mem) : Prop extends ViewsFit subChecks t x tl xl where
  values : bulk subChecks t x = false → Values sizeChecks size t x xl mem

section Whole
variable {subChecks sizeChecks : Bool} {size : Nat} {t x : Ref} {tl xl : Storage} {mem : Mem}

theorem writeAll_placed (fixed : Fixed tl.bounds t.sel) (agrees : Agrees subChecks t tl)
    {values : List Int → List (BitVec 8)}
    (length : ∀ c, Coordinates tl t.sel c → (values c).length = size) :
    Placed size tl t.sel values mem
      (writeAll (elementAt subChecks size t t) (fun k => values (coordinates tl t.sel k))
        (List.range (elements tl t.sel)) mem) := by
  have places (k : Nat) : elementAt subChecks size t t k =
      tl.element size t.sel (coordinates tl t.sel k) := elementAt_eq agrees agrees fixed rfl k
  have sizes : ∀ k ∈ List.range (elements tl t.sel),
      (values (coordinates tl t.sel k)).length = size := fun k member =>
    length _ (coordinates_within (List.mem_range.mp member))
  have apart : (List.range (elements tl t.sel)).Pairwise fun j k =>
      Apart size (elementAt subChecks size t t j) (elementAt subChecks size t t k) := by
    refine List.nodup_range.imp_of_mem fun {j k} first second different => ?_
    have inside_j := List.mem_range.mp first
    have inside_k := List.mem_range.mp second
    rw [places, places]
    exact element_apart fixed (coordinates_within inside_j) (coordinates_within inside_k)
      (coordinates_ne inside_j inside_k different)
  constructor
  · intro c within
    obtain ⟨k, inside, rfl⟩ := coordinates_all within
    rw [← places k]
    exact writeAll_target mem sizes apart (List.mem_range.mpr inside)
  · intro b outside
    refine writeAll_outside mem fun k member => ?_
    rw [sizes k member, places k]
    exact outside _ (coordinates_within (List.mem_range.mp member))

theorem turns_eq (fixed : Fixed tl.bounds t.sel) (agrees : Agrees subChecks t tl) :
    (build subChecks t).total.toNat = elements tl t.sel := by
  rw [agrees.build fixed]
  rfl

theorem elementLoop_view (pair : Pair size t x tl xl) (fits : ViewsFit subChecks t x tl xl)
    (values : Values sizeChecks size t x xl mem) :
    elementLoop subChecks sizeChecks size t (.view x) ⟨mem, false⟩ =
      some ⟨writeAll (elementAt subChecks size t t)
        (fun k => read mem (xl.element size x.sel (coordinates tl t.sel k)) size)
        (List.range (elements tl t.sel)) mem, false⟩ := by
  have register : hasRegister t (.view x) = true := decide_eq_true fits.register
  have sources (k : Nat) :=
    @elementAt_eq subChecks size t x tl xl fits.target fits.source pair.source
    pair.shape k
  have targets (k : Nat) :=
    @elementAt_eq subChecks size t t tl tl fits.target fits.target pair.target
    rfl k
  have within {k : Nat} (member : k ∈ List.range (elements tl t.sel)) :=
    @coordinates_within tl t.sel k (List.mem_range.mp member)
  rw [elementLoop, if_pos register, turns_eq pair.target fits.target]
  congr 1
  refine loop_view (fun k _ => ?_) (fun j first k second => ?_) (fun k member => ?_)
  · rw [sources k]
  · rw [targets j, sources k]
    exact pair.apart _ _ (within first) ((coordinates_congr pair.shape _).mp (within second))
  · exact values _ ((coordinates_congr pair.shape _).mp (within member))

theorem bulkMove_eq (pair : Pair size t x tl xl) (fits : ViewsFit subChecks t x tl xl)
    (straight : bulk subChecks t x = true) :
    bulkMove subChecks size t x mem = writeAll (elementAt subChecks size t t)
      (fun k => read mem (xl.element size x.sel (coordinates tl t.sel k)) size)
      (List.range (elements tl t.sel)) mem := by
  simp only [bulk, Bool.and_eq_true, Bool.not_eq_true', decide_eq_true_eq] at straight
  obtain ⟨⟨⟨⟨⟨⟨⟨⟨⟨⟨⟨⟨still_t, still_x⟩, -⟩, -⟩, suffix_t⟩, suffix_x⟩, -⟩, -⟩, -⟩, -⟩, -⟩, -⟩, -⟩ :=
    straight
  have rank {r : Ref} {a : Storage} (agrees : Agrees subChecks r a) (still : r.isDynamic = false) :
      r.dims.length = r.sel.length := by
    rw [axes_length agrees.axes, Ref.bounds, slotBounds_static still, List.length_map]
  have total : (starTotal subChecks t).toNat = elements tl t.sel := by
    rw [starTotal_eq fits.target pair.target still_t]
    rfl
  rw [bulkMove, total]
  refine (writeAll_run (fun k inside => ?_) (fun k inside => ?_)).symm
  · exact elementAt_run fits.target fits.target pair.target rfl suffix_t
      (rank fits.target still_t) inside
  · rw [← elementAt_eq fits.target fits.source pair.source pair.shape,
      elementAt_run fits.target fits.source pair.source pair.shape suffix_x
        (rank fits.source still_x) inside]

end Whole

def wordRef (bounds : Bounds) (sel : Selection) (controlled : Bool) : Ref :=
  ⟨⟨.fixedBin, 31, 1⟩, bounds.map fun axis => ⟨axis.1, axis.2, false, false, false⟩, [], [], sel, 0,
    false, controlled⟩

def square : Storage := ⟨0, [(1, 2), (1, 2)], by decide⟩

def firstRow : Ref := wordRef [(1, 2), (1, 2)] [some 1, none] false

def secondRow : Ref := wordRef [(1, 2), (1, 2)] [some 2, none] false

end PliCrossSection
