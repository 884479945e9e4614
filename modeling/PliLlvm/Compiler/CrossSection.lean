import PliLlvm.Lib.BigEndian
import PliLlvm.Lib.CellWrites
import PliLlvm.Lib.Sections
import PliLlvm.Compiler.DefinedItems
import PliLlvm.Compiler.FixedConvert

/- The assignment to a cross-section and from one (src/irgen.cpp, emitCrossSectionAssign, with
   convert and storeScalarTo for the element). Memory is in bytes; the products of the extents of
   an array in storage are i64. An outcome of none is a value without a register, for which no
   store can be made. -/
namespace PliCrossSection
open RowMajor Sections CellWrites BigEndian
open PliDefined (Dim TK clampIndex)
open FixedPoint (word)
open PliFixedConvert (fixedBinPrecTrap)

abbrev Mem := Int → BitVec 8

structure Elem where
  k : TK
  prec : Int
  len : Nat
  deriving DecidableEq

/-- A reference to a whole array or a cross-section, with the dope slots that are recorded for its
    variable and the address the lowering takes. A selection names the fixed indices. -/
structure Ref where
  el : Elem
  dims : List Dim
  lbs : List (Option Int)
  ubs : List (Option Int)
  sel : Selection
  base : Int
  packed : Bool
  controlled : Bool

def slotBounds : List Dim → List (Option Int) → List (Option Int) → Bounds
  | [], _, _ => []
  | d :: dims, lbs, ubs =>
    (if d.lbDyn then lbs.head?.join.getD d.lb else d.lb,
      if d.dyn then ubs.head?.join.getD d.ub else d.ub) :: slotBounds dims lbs.tail ubs.tail

def Ref.bounds (r : Ref) : Bounds := slotBounds r.dims r.lbs r.ubs

def Ref.isDynamic (r : Ref) : Bool := r.dims.any fun d => d.dyn || d.lbDyn

/-- The slots allocaLocals records for one side of the bounds: it takes the expressions, of which
    there is one for each run-time bound, by the number of the axis. -/
def recordSlots (constant : Dim → Int) : List Dim → List Int → List (Option Int)
  | [], _ => []
  | d :: dims, exprs => some (exprs.headD (constant d)) :: recordSlots constant dims exprs.tail

def declaredBounds : List Dim → List Int → List Int → Bounds
  | [], _, _ => []
  | d :: dims, lbs, ubs =>
    (if d.lbDyn then lbs.headD d.lb else d.lb, if d.dyn then ubs.headD d.ub else d.ub) ::
      declaredBounds dims (if d.lbDyn then lbs.tail else lbs) (if d.dyn then ubs.tail else ubs)

structure View where
  stars : List Nat
  fixedFlat : Int
  total : Int
  oob : Bool

def strideLoop : Bounds → List Int × Int
  | [] => ([], 1)
  | axis :: bounds =>
    let (stride, running) := strideLoop bounds
    (running :: stride, running * extent axis)

def axisLoop (subChecks : Bool) : Nat → Bounds → List Int → Selection → View → View
  | k, axis :: bounds, _ :: stride, none :: sel, v =>
    axisLoop subChecks (k + 1) bounds stride sel
      { v with stars := v.stars ++ [k], total := v.total * extent axis }
  | k, axis :: bounds, s :: stride, some iv :: sel, v =>
    let oob := decide (iv < axis.1) || decide (axis.2 < iv)
    let civ := if subChecks then clampIndex iv axis.1 axis.2 else iv
    axisLoop subChecks (k + 1) bounds stride sel
      { v with fixedFlat := v.fixedFlat + (civ - axis.1) * s, oob := v.oob || (subChecks && oob) }
  | _, _, _, _, v => v

def build (subChecks : Bool) (r : Ref) : View :=
  axisLoop subChecks 0 r.bounds (strideLoop r.bounds).1 r.sel ⟨[], 0, 1, false⟩

def suffixRun (n : Nat) (v : View) : Bool :=
  v.stars.length ≤ n && v.stars = (List.range v.stars.length).map (n - v.stars.length + ·)

def flatLoop : List Int → List Int → Int → Int → Int
  | r :: rs, s :: ss, rem, flat => flatLoop rs ss (rem % r) (flat + rem / r * s)
  | _, _, _, flat => flat

def signedOf (bytes : List (BitVec 8)) : Int := word (8 * bytes.length) (ofBytes bytes.reverse)

def bytesOf (n : Nat) (v : Int) : List (BitVec 8) := (toBytes n (v % 2 ^ (8 * n)).toNat).reverse

structure Loaded where
  bytes : List (BitVec 8)
  size : Bool

def recode (sizeChecks : Bool) (el : Elem) (bytes : List (BitVec 8)) : Loaded :=
  match el.k with
  | .bit => ⟨if el.len = 1 then bytes.map (· &&& 1) else bytes, false⟩
  | .fixedBin =>
    let c := fixedBinPrecTrap (8 * bytes.length) (signedOf bytes) el.prec
    if sizeChecks && c.size then ⟨bytesOf bytes.length c.raw, true⟩ else ⟨bytes, false⟩
  | _ => ⟨bytes, false⟩

/-- The right-hand side: a scalar of a kind with the bytes of its value in the element's type, or a
    reference. -/
inductive Value where
  | scalar (k : TK) (bytes : List (BitVec 8))
  | view (r : Ref)

structure Outcome where
  mem : Mem
  raised : Bool

section Code
variable (subChecks sizeChecks : Bool) (size : Nat)

def reducedStride (t : Ref) : List Int :=
  (strideLoop ((build subChecks t).stars.map fun k => t.bounds.getD k (0, 0))).1

def starStride (r : Ref) : List Int :=
  (build subChecks r).stars.map fun k => (strideLoop r.bounds).1.getD k 0

def elementAt (t r : Ref) (ti : Nat) : Int :=
  r.base + flatLoop (reducedStride subChecks t) (starStride subChecks r) ti
    (build subChecks r).fixedFlat * size

def turn (t : Ref) (x : Value) (st : Outcome) (ti : Nat) : Outcome :=
  let loaded : Loaded :=
    match x with
    | .scalar _ bytes => ⟨bytes, false⟩
    | .view r => recode sizeChecks t.el (read st.mem (elementAt subChecks size t r ti) size)
  ⟨write st.mem (elementAt subChecks size t t ti) loaded.bytes, st.raised || loaded.size⟩

/-- A CHARACTER value and the text that a number is edited into for a PICTURE are in memory, and
    the conversion of a structure leaves nothing; a view's element is loaded into a register. -/
def hasRegister (t : Ref) : Value → Bool
  | .scalar k _ => k ≠ .char && t.el.k ≠ .char && t.el.k ≠ .struct
  | .view _ => t.el.k ≠ .struct

def elementLoop (t : Ref) (x : Value) (st : Outcome) : Option Outcome :=
  if hasRegister t x then
    some ((List.range (build subChecks t).total.toNat).foldl
      (turn subChecks sizeChecks size t x) st)
  else none

def starTotal (r : Ref) : Int :=
  ((build subChecks r).stars.map fun k =>
    (r.dims[k]?.map fun d => d.ub - d.lb + 1).getD 1).foldl (· * ·) 1

def bulk (t x : Ref) : Bool :=
  !t.isDynamic && !x.isDynamic && starTotal subChecks t = starTotal subChecks x &&
    (build subChecks t).stars.length = (build subChecks x).stars.length &&
    suffixRun t.dims.length (build subChecks t) && suffixRun x.dims.length (build subChecks x) &&
    x.el = t.el && t.el.k ≠ .char && t.el.k ≠ .struct && !t.packed && !x.packed &&
    !t.controlled && !x.controlled

def bulkMove (t x : Ref) (mem : Mem) : Mem :=
  write mem (t.base + (build subChecks t).fixedFlat * size)
    (read mem (x.base + (build subChecks x).fixedFlat * size)
      ((starTotal subChecks t).toNat * size))

def emitCrossSectionAssign (t : Ref) (x : Value) (mem : Mem) : Option Outcome :=
  let tv := build subChecks t
  match x with
  | .scalar _ _ => elementLoop subChecks sizeChecks size t x ⟨mem, tv.oob⟩
  | .view r =>
    let sv := build subChecks r
    if bulk subChecks t r then some ⟨bulkMove subChecks size t r mem, tv.oob || sv.oob⟩
    else elementLoop subChecks sizeChecks size t x ⟨mem, tv.oob || sv.oob⟩

end Code

/- What a slice is. -/

structure Storage where
  address : Int
  bounds : Bounds
  extents : ∀ axis ∈ bounds, 0 ≤ extent axis

def Coordinates (a : Storage) (sel : Selection) (c : List Int) : Prop :=
  Within (zeroed (reduced a.bounds sel)) c

def Storage.element (a : Storage) (size : Nat) (sel : Selection) (c : List Int) : Int :=
  a.address + place a.bounds (fill a.bounds sel c) * size

/-- The element loop stores the bytes it loads. -/
def Holds (sizeChecks : Bool) (el : Elem) (bytes : List (BitVec 8)) : Prop :=
  match el.k with
  | .bit => el.len = 1 → ∀ b ∈ bytes, b = 0 ∨ b = 1
  | .fixedBin =>
    sizeChecks = true → -2 ^ el.prec.toNat ≤ signedOf bytes ∧ signedOf bytes < 2 ^ el.prec.toNat
  | _ => True

section Views
variable {bounds : Bounds} {sel : Selection}

theorem strideLoop_eq (bounds : Bounds) : strideLoop bounds = (strides bounds, count bounds) := by
  induction bounds with
  | nil => rfl
  | cons axis bounds ih =>
    rw [strideLoop, ih, strides, count, Int.mul_comm]

def starsFrom : Nat → Selection → List Nat
  | _, [] => []
  | k, none :: sel => k :: starsFrom (k + 1) sel
  | k, some _ :: sel => starsFrom (k + 1) sel

def clamped (subChecks : Bool) : Bounds → Selection → Selection
  | _ :: bounds, none :: sel => none :: clamped subChecks bounds sel
  | axis :: bounds, some iv :: sel =>
    some (if subChecks then clampIndex iv axis.1 axis.2 else iv) :: clamped subChecks bounds sel
  | _, sel => sel

def outOfBounds : Bounds → Selection → Bool
  | _ :: bounds, none :: sel => outOfBounds bounds sel
  | axis :: bounds, some iv :: sel =>
    decide (iv < axis.1) || decide (axis.2 < iv) || outOfBounds bounds sel
  | _, _ => false

theorem axisLoop_eq (subChecks : Bool) (k : Nat) (bounds : Bounds) (sel : Selection) (v : View) :
    axisLoop subChecks k bounds (strides bounds) sel v =
      ⟨v.stars ++ starsFrom k (sel.take bounds.length),
        v.fixedFlat + anchor bounds (clamped subChecks bounds sel),
        v.total * count (reduced bounds sel), v.oob || (subChecks && outOfBounds bounds sel)⟩ := by
  induction bounds generalizing k sel v with
  | nil => cases sel <;> simp [axisLoop, starsFrom, anchor, reduced, count, outOfBounds]
  | cons axis bounds ih =>
    cases sel with
    | nil => simp [axisLoop, strides, starsFrom, anchor, clamped, reduced, count, outOfBounds]
    | cons a sel =>
      cases a with
      | none =>
        rw [strides, axisLoop, ih]
        simp [starsFrom, anchor, clamped, reduced, count, outOfBounds, Int.mul_assoc]
      | some iv =>
        rw [strides, axisLoop, ih]
        simp [starsFrom, anchor, clamped, reduced, outOfBounds, Int.add_assoc,
          Bool.and_or_distrib_left,
          Bool.or_assoc]

theorem starsFrom_shift (k : Nat) (sel : Selection) :
    starsFrom k sel = (starsFrom 0 sel).map (k + ·) := by
  induction sel generalizing k with
  | nil => rfl
  | cons a sel ih =>
    cases a with
    | none | some i => rw [starsFrom, starsFrom, ih (k + 1), ih 1]; simp [Nat.add_assoc]

theorem starsFrom_get {α : Type} (x : α) (xs : List α) (d : α) (sel : Selection) :
    (starsFrom 1 sel).map (fun k => (x :: xs).getD k d) =
      (starsFrom 0 sel).map (fun k => xs.getD k d) := by
  rw [starsFrom_shift, List.map_map]
  refine List.map_congr_left fun k _ => ?_
  rw [Function.comp_apply, Nat.add_comm, List.getD_cons_succ]

def pick {α : Type} : List α → Selection → List α
  | x :: xs, none :: sel => x :: pick xs sel
  | _ :: xs, some _ :: sel => pick xs sel
  | _, _ => []

theorem starsFrom_pick {α : Type} (xs : List α) (d : α) {sel : Selection}
    (each : sel.length = xs.length) :
    (starsFrom 0 sel).map (fun k => xs.getD k d) = pick xs sel := by
  induction xs generalizing sel with
  | nil =>
    rw [List.eq_nil_of_length_eq_zero each]
    rfl
  | cons x xs ih =>
    cases sel with
    | nil => cases each
    | cons a sel =>
      have later := ih (Nat.succ.inj each)
      have moved := starsFrom_get x xs d sel
      cases a with
      | none =>
        rw [starsFrom, List.map_cons, pick, ← later, ← moved]
        rfl
      | some i => rw [starsFrom, pick, ← later, ← moved]

theorem pick_bounds (bounds : Bounds) (sel : Selection) : pick bounds sel = reduced bounds sel := by
  fun_induction pick bounds sel <;> simp_all [reduced]

theorem pick_strides (bounds : Bounds) (sel : Selection) :
    pick (strides bounds) sel = reducedStrides bounds sel := by
  induction bounds generalizing sel with
  | nil => cases sel <;> rfl
  | cons axis bounds ih =>
    cases sel with
    | nil => rfl
    | cons a sel =>
      cases a with
      | none => exact congrArg (count bounds :: ·) (ih sel)
      | some i => exact ih sel

theorem flatLoop_eq (rs ss : List Int) (rem flat : Int) :
    flatLoop rs ss rem flat = flat + dot (digits rs rem) ss := by
  induction rs generalizing ss rem flat with
  | nil => simp [flatLoop, digits, dot]
  | cons r rs ih =>
    cases ss with
    | nil => simp [flatLoop, digits, dot]
    | cons s ss => rw [flatLoop, ih, digits, dot, Int.add_assoc]

end Views

/-- An axis as the lowering has it beside the array's: a '*' axis with the extent, a fixed one with
    the lower bound and, where it is checked, an upper bound that is not below the index. -/
def AxesAgree (subChecks : Bool) : Bounds → Bounds → Selection → Prop
  | s :: seen, l :: live, none :: sel => extent s = extent l ∧ AxesAgree subChecks seen live sel
  | s :: seen, l :: live, some i :: sel =>
    (s.1 = l.1 ∧ (subChecks = true → i ≤ s.2)) ∧ AxesAgree subChecks seen live sel
  | [], [], [] => True
  | _, _, _ => False

/-- The lowering has the array's address, the extents of the axes behind the first, and what it
    takes from each axis. -/
structure Agrees (subChecks : Bool) (r : Ref) (a : Storage) : Prop where
  base : r.base = a.address
  later : r.bounds.tail.map extent = a.bounds.tail.map extent
  axes : AxesAgree subChecks r.bounds a.bounds r.sel

section Agreement
variable {subChecks : Bool} {seen live : Bounds} {sel : Selection}

theorem axes_length (axes : AxesAgree subChecks seen live sel) : sel.length = seen.length := by
  fun_induction AxesAgree subChecks seen live sel with
  | case1 s seen l live sel ih | case2 s seen l live i sel ih => exact congrArg (· + 1) (ih axes.2)
  | case3 => rfl
  | case4 => exact axes.elim

theorem axes_reduced (axes : AxesAgree subChecks seen live sel) :
    (reduced seen sel).map extent = (reduced live sel).map extent := by
  fun_induction AxesAgree subChecks seen live sel with
  | case1 s seen l live sel ih =>
    rw [reduced, reduced, List.map_cons, List.map_cons, axes.1, ih axes.2]
  | case2 s seen l live i sel ih => exact ih axes.2
  | case3 => rfl
  | case4 => exact axes.elim

theorem extents_tail (same : seen.map extent = live.map extent) :
    seen.tail.map extent = live.tail.map extent := by
  rw [List.map_tail, List.map_tail, same]

theorem axes_strides (axes : AxesAgree subChecks seen live sel)
    (later : seen.tail.map extent = live.tail.map extent) :
    reducedStrides seen sel = reducedStrides live sel := by
  fun_induction AxesAgree subChecks seen live sel with
  | case1 s seen l live sel ih =>
    have rest : seen.map extent = live.map extent := later
    rw [reducedStrides, reducedStrides, count_congr rest, ih axes.2 (extents_tail rest)]
  | case2 s seen l live i sel ih =>
    have rest : seen.map extent = live.map extent := later
    exact ih axes.2 (extents_tail rest)
  | case3 => rfl
  | case4 => exact axes.elim

theorem axes_anchor (axes : AxesAgree subChecks seen live sel) (fixed : Fixed live sel)
    (later : seen.tail.map extent = live.tail.map extent) :
    anchor seen (clamped subChecks seen sel) = anchor live sel ∧
      (subChecks && outOfBounds seen sel) = false := by
  fun_induction AxesAgree subChecks seen live sel with
  | case1 s seen l live sel ih =>
    have rest : seen.map extent = live.map extent := later
    exact ih axes.2 fixed (extents_tail rest)
  | case2 s seen l live i sel ih =>
    have rest : seen.map extent = live.map extent := later
    obtain ⟨place, quiet⟩ := ih axes.2 fixed.2 (extents_tail rest)
    obtain ⟨⟨low, high⟩, -⟩ := axes
    obtain ⟨⟨above, -⟩, -⟩ := fixed
    have index : (if subChecks then clampIndex i s.1 s.2 else i) = i := by
      split
      · rename_i checked
        have below := high checked
        unfold clampIndex
        dsimp only
        rw [if_neg (by omega), if_neg (by omega)]
      · rfl
    constructor
    · rw [clamped, anchor, anchor, index, count_congr rest, place, low]
    · cases checked : subChecks with
      | false => rfl
      | true =>
        have below := high checked
        rw [checked] at quiet
        have under : decide (i < s.1) = false := decide_eq_false (by omega)
        have above : decide (s.2 < i) = false := decide_eq_false (by omega)
        rw [outOfBounds, under, above]
        exact quiet
  | case3 => exact ⟨rfl, Bool.and_false _⟩
  | case4 => exact axes.elim

end Agreement

section Whole
variable {subChecks : Bool} {r t : Ref} {a : Storage} {size : Nat}

theorem build_eq (each : r.sel.length = r.bounds.length) :
    build subChecks r = ⟨starsFrom 0 r.sel, anchor r.bounds (clamped subChecks r.bounds r.sel),
      count (reduced r.bounds r.sel), subChecks && outOfBounds r.bounds r.sel⟩ := by
  rw [build, strideLoop_eq, axisLoop_eq, ← each, List.take_length]
  simp

theorem starStride_eq (each : r.sel.length = r.bounds.length) :
    starStride subChecks r = reducedStrides r.bounds r.sel := by
  have strides_length : (strides r.bounds).length = r.bounds.length := by
    induction r.bounds with
    | nil => rfl
    | cons axis bounds ih => exact congrArg (· + 1) ih
  rw [starStride, build_eq each, strideLoop_eq, ← pick_strides]
  exact starsFrom_pick _ _ (each.trans strides_length.symm)

theorem reducedStride_eq (each : t.sel.length = t.bounds.length) :
    reducedStride subChecks t = strides (reduced t.bounds t.sel) := by
  rw [reducedStride, build_eq each, strideLoop_eq, ← pick_bounds]
  exact congrArg strides (starsFrom_pick _ _ each)

end Whole

end PliCrossSection
