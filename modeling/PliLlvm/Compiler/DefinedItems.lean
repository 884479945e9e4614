import PliLlvm.Lib.RowMajor
import Mathlib.Algebra.Order.Ring.Int

/- DEFINED items (src/types.h, src/sema.cpp, src/irgen.cpp): what a declaration records and where
   its references are. Addresses are counted from the variable at the end of the chain of bases.
   The members of a structure are a parameter with their size. An item that is DEFINED on itself
   has no value here: the compiler does not come to an end with it. -/
namespace PliDefined
open RowMajor

def wrap64 (n : Int) : Int := Int.bmod n (2 ^ 64)

structure Dim where
  lb : Int
  ub : Int
  dyn : Bool
  lbDyn : Bool
  adj : Bool
  deriving DecidableEq

def dimBoundFits (v : Int) : Bool := decide (-2 ^ 31 ≤ v) && decide (v < 2 ^ 31)

inductive TK where
  | fixedBin | fixedDec | float | char | bit | struct | pointer | entry | area | offset
  | complex | task | event | label | void
  deriving DecidableEq

structure Ty (M : Type) where
  k : TK
  prec : Int
  scale : Int
  len : Nat
  wideDec : Bool
  varying : Bool
  starLen : Bool
  members : M
  dims : List Dim
  deriving DecidableEq

section Types
variable {M : Type}

def Ty.isArray (t : Ty M) : Bool := !t.dims.isEmpty

def Ty.elementType (t : Ty M) : Ty M := { t with dims := [] }

def Ty.intBits (t : Ty M) : Int :=
  match t.k with
  | .fixedBin => if t.prec ≤ 31 then 32 else 64
  | .fixedDec => if t.wideDec then 128 else if t.prec ≤ 9 then 32 else 64
  | _ => 32

def definedScalarBytes (t : Ty M) : Int :=
  if t.isArray || t.k = .struct || t.varying || t.starLen then -1
  else
    match t.k with
    | .fixedBin | .fixedDec => t.intBits / 8
    | .float => 8
    | .complex => 16
    | .char => t.len
    | .bit => (t.len + 7) / 8
    | .task | .event => 4
    | _ => -1

def fixedElemCount (t : Ty M) : Int :=
  if t.dims.any fun d => d.dyn || d.lbDyn || d.adj || d.ub < d.lb then -1
  else (t.dims.map fun d => d.ub - d.lb + 1).foldl (· * ·) 1

def definedCharUnits (t : Ty M) : Int :=
  if t.k ≠ .char || t.varying || t.starLen then -1
  else if t.dims.any fun d => d.dyn || d.lbDyn || d.adj || d.ub < d.lb then -1
  else (t.dims.map fun d => d.ub - d.lb + 1).foldl (· * ·) 1 * t.len

def itemUnits (t : Ty M) : Int := if t.isArray then -1 else definedCharUnits t

def hasRuntimeExtent (t : Ty M) : Bool := t.dims.any fun d => d.dyn || d.lbDyn || d.adj

def definedPosFits (pos units baseUnits : Int) : Bool :=
  decide (1 ≤ pos) && decide (wrap64 (pos - 1 + units) ≤ baseUnits)

end Types

/-- A base subscript: an iSUB dummy in `mult * kSUB + add`, a literal, or an expression that does or
    does not have an integer type. -/
inductive DefinedSub where
  | isub (axis mult add : Int)
  | lit (ival : Int)
  | expr (integer : Bool)
  | missing

structure DeclItem (M : Type) where
  ty : Ty M
  definedSubs : List DefinedSub
  hasPos : Bool
  pos : Int

inductive Slot where
  | const (c : Int)
  | runtime
  | isub (axis : Nat) (mult add : Int)
  deriving DecidableEq

def Slot.isIsub : Slot → Bool
  | .isub .. => true
  | _ => false

structure Defined where
  slots : List Slot
  definedPos : Int
  deriving DecidableEq

def Defined.hasIsubOverlay (record : Defined) : Bool := record.slots.any Slot.isIsub

section Sema
variable {M : Type} [DecidableEq M]

def collectSlot (item : Ty M) (d : Dim) : DefinedSub → Option Slot
  | .isub axis mult add =>
      if 0 ≤ axis ∧ axis < item.dims.length then some (.isub axis.toNat mult add) else none
  | .lit ival => if d.lb ≤ ival ∧ ival ≤ d.ub then some (.const ival) else none
  | .expr integer => if integer then some .runtime else none
  | .missing => none

def collectSlots (item : Ty M) : List Dim → List DefinedSub → Option (List Slot)
  | [], [] => some []
  | d :: dims, ds :: subs =>
      (collectSlot item d ds).bind fun slot => (collectSlots item dims subs).map (slot :: ·)
  | _, _ => none

def slotFits (item : Ty M) (d : Dim) : Slot → Bool
  | .isub axis mult add =>
      match item.dims[axis]? with
      | none => false
      | some yd =>
          let lo := wrap64 (mult * yd.lb + add)
          let hi := wrap64 (mult * yd.ub + add)
          decide (d.lb ≤ min lo hi) && decide (max lo hi ≤ d.ub)
  | _ => true

def axisUsed (slots : List Slot) (axis : Nat) : Bool :=
  slots.any fun
    | .isub j _ _ => j = axis
    | _ => false

def collectSubscripted (item : DeclItem M) (base : Ty M) : Option Defined :=
  if !base.isArray || hasRuntimeExtent base then none
  else
    (collectSlots item.ty base.dims item.definedSubs).bind fun slots =>
      if slots.any Slot.isIsub then
        if slots.any (· = .runtime) || item.hasPos then none
        else if item.ty.isArray && item.ty.elementType = base.elementType &&
            (List.range item.ty.dims.length).all (axisUsed slots) &&
            (base.dims.zip slots).all fun (d, slot) => slotFits item.ty d slot then
          some ⟨slots, 0⟩
        else none
      else if item.hasPos then
        if itemUnits item.ty < 0 ∨ definedCharUnits base.elementType < 0 then none
        else if definedPosFits item.pos (itemUnits item.ty) (definedCharUnits base.elementType) then
          some ⟨slots, item.pos - 1⟩
        else none
      else if item.ty = base.elementType then some ⟨slots, 0⟩
      else none

/-- What is recorded for an item and a base of a type. None stands for a diagnostic, also the one
    for an adjustable length. -/
def collectDefined (item : DeclItem M) (base : Ty M) : Option Defined :=
  if item.ty.starLen then none
  else if item.definedSubs ≠ [] then collectSubscripted item base
  else if item.hasPos then
    if itemUnits item.ty < 0 ∨ definedCharUnits base < 0 then none
    else if definedPosFits item.pos (itemUnits item.ty) (definedCharUnits base) then
      some ⟨[], item.pos - 1⟩
    else none
  else if item.ty.k = .struct ∨ base.k = .struct then none
  else if item.ty.isArray ∨ base.isArray then
    if !item.ty.isArray ∨ !base.isArray then none
    else if fixedElemCount item.ty < 0 ∨ fixedElemCount base < 0 then none
    else if definedScalarBytes item.ty.elementType ≤ 0 ∨ definedScalarBytes base.elementType ≤ 0 ∨
        definedScalarBytes item.ty.elementType ≠ definedScalarBytes base.elementType then none
    else if fixedElemCount base < fixedElemCount item.ty then none
    else some ⟨[], 0⟩
  else if item.ty = base ∨
      (0 < definedScalarBytes item.ty ∧ definedScalarBytes item.ty = definedScalarBytes base) then
    some ⟨[], 0⟩
  else none

end Sema

/-- A variable at a reference, with the current bounds of its axes. One with storage has the bytes
    of it. It is allocated when an ALLOCATE statement gives its extents, which then need not be the
    declared ones: a CONTROLLED variable, or a BASED one that some ALLOCATE gives an extent. A
    DEFINED one has the values of the base subscripts that are expressions. -/
inductive Var (M : Type) where
  | own (ty : Ty M) (allocated : Bool) (bounds : Bounds) (bytes : Int)
  | defined (item : DeclItem M) (record : Defined) (bounds : Bounds) (subs : List Int)
      (base : Var M)

section Addresses
variable {M : Type}

def Var.ty : Var M → Ty M
  | .own ty _ _ _ => ty
  | .defined item _ _ _ _ => item.ty

def Var.bounds : Var M → Bounds
  | .own _ _ bounds _ => bounds
  | .defined _ _ bounds _ _ => bounds

/-- What an element takes in memory (`llvmTy`). -/
def elemBytes (structSize : M → Nat) (t : Ty M) : Int :=
  match t.k with
  | .fixedBin | .fixedDec => t.intBits / 8
  | .float => 8
  | .complex => 16
  | .char => if t.varying then (t.len + 3) / 4 * 4 + 4 else t.len
  | .bit => (t.len + 7) / 8
  | .task | .event => 4
  | .struct => structSize t.members
  | .pointer | .entry | .area | .offset | .label | .void => 8

def clampIndex (i lb ub : Int) : Int :=
  let lo := if i < lb then lb else i
  if ub < lo then ub else lo

def baseIndex (checks : Bool) (d : Dim) (raw : Int) : Int :=
  if checks then clampIndex raw d.lb d.ub else raw

def flatIndex (dims : List Dim) (idx : List Int) : Int :=
  ((dims.zip idx).foldr (fun (d, i) (flat, stride) =>
    (flat + (i - d.lb) * stride, stride * (d.ub - d.lb + 1))) (0, 1)).1

/-- The indices of `definedConstAddr`. -/
def constIndices (checks : Bool) : List Dim → List Slot → List Int → List Int
  | d :: dims, slot :: slots, v :: subs =>
      (match slot with
        | .const c => c
        | .runtime => baseIndex checks d v
        | .isub .. => 0) :: constIndices checks dims slots subs
  | _, _, _ => []

/-- The indices of `definedSubElementAddr`. -/
def isubIndices (checks : Bool) (idxs : List Int) : List Dim → List Slot → List Int
  | d :: dims, slot :: slots =>
      (match slot with
        | .isub axis mult add => baseIndex checks d (wrap64 (idxs.getD axis 0 * mult + add))
        | .const c => c
        | .runtime => 0) :: isubIndices checks idxs dims slots
  | _, _ => []

variable (structSize : M → Nat) (checks : Bool)

def addressOf : Var M → Int
  | .own .. => 0
  | .defined _ record _ subs base =>
      let start :=
        if record.slots ≠ [] ∧ record.hasIsubOverlay = false then
          addressOf base + flatIndex base.ty.dims
            (constIndices checks base.ty.dims record.slots subs) *
            elemBytes structSize base.ty
        else addressOf base
      if 0 < record.definedPos then start + record.definedPos else start

/-- The element with the indices; for a scalar there are none. An element of a variable with storage
    has its row-major place with the current bounds. -/
def elementAddr : Var M → List Int → Int
  | .own ty _ bounds _, idxs => place bounds idxs * elemBytes structSize ty
  | .defined item record bounds subs base, idxs =>
      if record.hasIsubOverlay then
        addressOf structSize checks base +
          flatIndex base.ty.dims (isubIndices checks idxs base.ty.dims record.slots) *
            elemBytes structSize base.ty
      else
        addressOf structSize checks (.defined item record bounds subs base) +
          flatIndex item.ty.dims
            (List.zipWith (fun (d : Dim) i => baseIndex checks d i) item.ty.dims idxs) *
              elemBytes structSize item.ty

/-- The bytes of a variable: its storage, or what its references address. An array without elements
    has none. -/
def Occupies : Var M → Int → Prop
  | .own _ _ bounds bytes, b => HasElements bounds ∧ 0 ≤ b ∧ b < bytes
  | .defined item record bounds subs base, b =>
      ∃ k, Within bounds k ∧
        elementAddr structSize checks (.defined item record bounds subs base) k ≤ b ∧
        b < elementAddr structSize checks (.defined item record bounds subs base) k +
          elemBytes structSize item.ty

def selectedIndex (idxs : List Int) : Slot → Int
  | .isub axis mult add => mult * idxs.getD axis 0 + add
  | .const c => c
  | .runtime => 0

def selected (idxs : List Int) (slots : List Slot) : List Int := slots.map (selectedIndex idxs)

def SlotInRange (d : Dim) (slot : Slot) (v : Int) : Prop :=
  slot = .runtime → checks = false → d.lb ≤ v ∧ v ≤ d.ub

def SubsInRange : List Dim → List Slot → List Int → Prop
  | d :: dims, slot :: slots, v :: subs =>
      SlotInRange checks d slot v ∧ SubsInRange dims slots subs
  | _, _, _ => True

structure Current (allocated : Bool) (d : Dim) (axis : Int × Int) : Prop where
  lower : d.lbDyn = false → axis.1 = d.lb
  upper : allocated = false → d.dyn = false → axis.2 = d.ub

def Var.Declared [DecidableEq M] : Var M → Prop
  | .own ty allocated bounds bytes =>
      List.Forall₂ (Current allocated) ty.dims bounds ∧
        (∀ d ∈ ty.dims, dimBoundFits d.lb ∧ dimBoundFits d.ub) ∧
        (allocated = false ∨ ty.dims ≠ [] → bytes = count bounds * elemBytes structSize ty) ∧
        bytes < 2 ^ 63
  | .defined item record bounds subs base =>
      List.Forall₂ (Current false) item.ty.dims bounds ∧
        (∀ d ∈ item.ty.dims, dimBoundFits d.lb ∧ dimBoundFits d.ub) ∧
        count bounds * elemBytes structSize item.ty < 2 ^ 63 ∧
        collectDefined item base.ty = some record ∧ subs.length = record.slots.length ∧
        Var.Declared base

end Addresses

end PliDefined
