import PliLlvm.Runtime.Controlled

/- Direct addresses of CONTROLLED variables: the test that marks a variable ctlDirect
   (src/sema.cpp) and the runs of one task of a program with such a variable, as
   src/irgen.cpp emits it. An activation of the declaring procedure has a slot that its
   ALLOCATE and FREE statements fill with what the runtime returns. Two counts stand beside
   the slot that the program does not have: the depth of the variable's stack when the slot
   was last filled, and the least depth since. -/
namespace PliCtlAnchors
open PliControlled Runs

inductive TK where
  | fixedBin | fixedDec | float | char | bit | struct | pointer | entry | area | offset | complex
  | task | event | label | void
  deriving DecidableEq

structure Dim where
  lb : Int
  ub : Int
  dyn : Bool
  lbDyn : Bool

structure Ty where
  k : TK
  dims : List Dim

def Ty.isDynamic (ty : Ty) : Bool := ty.dims.any fun d => d.dyn || d.lbDyn

def Ty.isFixed (ty : Ty) : Bool := ty.k == .fixedBin || ty.k == .fixedDec

/-- `bytes` is the size the target's data layout gives the type. -/
structure Symbol where
  id : Nat
  ty : Ty
  controlled : Bool
  isStatic : Bool
  owner : Option Nat
  basedBase : Option Nat
  ctlSlot : Int
  bytes : Int

inductive Expr where
  | intLit (ival : Int)
  | other
  deriving DecidableEq

structure AllocBound where
  star : Bool
  lb : Option Expr
  ub : Option Expr
  deriving DecidableEq

structure Fn where
  proc : Nat
  inUnit : Bool
  deriving DecidableEq

inductive Action where
  | allocate (bounds : List AllocBound)
  | free
  deriving DecidableEq

structure Site where
  fn : Fn
  action : Action
  deriving DecidableEq

structure Program where
  sym : Symbol
  storage : List Symbol
  packages : List Nat
  sites : List Site

structure CtlTouch where
  procs : List Nat
  extentDiffers : Bool
  starReuse : Bool

def boundFlags (ty : Ty) (bounds : List AllocBound) : Bool × Bool :=
  match ty.dims, bounds with
  | _, [] => (false, false)
  | [d], [b] =>
    if b.star then (false, true)
    else match b.lb, b.ub with
      | none, some (.intLit ival) => (ival != d.ub - d.lb + 1, false)
      | _, _ => (true, false)
  | _, _ => (true, false)

def noteCtlTouch (found : Option CtlTouch) (p : Nat) (extentDiffers starReuse : Bool) :
    Option CtlTouch :=
  let t := found.getD ⟨[], false, false⟩
  some ⟨p :: t.procs, t.extentDiffers || extentDiffers, t.starReuse || starReuse⟩

def touchSite (ty : Ty) (found : Option CtlTouch) (site : Site) : Option CtlTouch :=
  match site.action with
  | .allocate bounds =>
    noteCtlTouch found site.fn.proc (boundFlags ty bounds).1 (boundFlags ty bounds).2
  | .free => found

def Program.ctlTouches (prog : Program) : Option CtlTouch :=
  prog.sites.foldl (touchSite prog.sym.ty) none

/-- What `markDirectCtl` decides of the variable; its tests that others of them imply are left
    out. -/
def Program.ctlDirect (prog : Program) : Bool :=
  match prog.ctlTouches, prog.sym.owner with
  | some t, some owner =>
    prog.sym.controlled && !(t.extentDiffers || t.starReuse) && t.procs.all (· == owner) &&
      !(prog.sym.ty.isDynamic || 1 < prog.sym.ty.dims.length) && prog.sym.ty.isFixed &&
      !prog.packages.contains owner &&
      !prog.storage.any fun other => other.basedBase == some prog.sym.id
  | _, _ => false

def Program.ownFn (prog : Program) (fn : Fn) : Bool :=
  some fn.proc == prog.sym.owner && !fn.inUnit

/-- The module is verified before it is written: a store to the slot from another function
    refuses it. -/
def Program.verifies (prog : Program) : Bool :=
  !prog.ctlDirect || prog.sites.all fun site => prog.ownFn site.fn

inductive Phase where
  | entering
  | running
  | freeing
  | leaving
  deriving DecidableEq

structure Frame where
  fn : Fn
  phase : Phase
  slot : Option Nat
  mark : Nat
  low : Nat

/-- The log has, for each address taken from a slot, the pointer read there and the one
    `pli_ctl_addr` would return. -/
structure State where
  rt : Ctl
  frames : List Frame
  log : List (Option Nat × Except Halt (Option Nat))

def State.start : State := ⟨Ctl.start, [], []⟩

inductive Event where
  | enter (fn : Fn)
  | implicit
  | allocate (site : Site)
  | free (site : Site)
  /-- The ON unit for an empty FREE has returned. -/
  | resume
  | address
  /-- Any other call of the runtime, also on this key by another declaration that has it. -/
  | call (op : Op)
  | release
  | leave

def Program.depth (prog : Program) (rt : Ctl) : Nat := (stacksOf rt prog.sym.ctlSlot).length

def Frame.dip (n : Nat) (f : Frame) : Frame := { f with low := min f.low n }

def State.settle (prog : Program) (s : State) (rt : Ctl) (frames : List Frame) : State :=
  { s with rt := rt, frames := frames.map (Frame.dip (prog.depth rt)) }

/-- `ctlNoteAlloc` and `ctlNoteFree`. -/
def Frame.note (prog : Program) (n : Nat) (p : Option Nat) (f : Frame) : Frame :=
  if prog.ctlDirect then { f with slot := p, mark := n, low := n } else f

def State.fill (prog : Program) (s : State) (rt : Ctl) (p : Option Nat) (f : Frame)
    (rest : List Frame) : State :=
  { s with
    rt := rt
    frames := ({ f with phase := .running }.dip (prog.depth rt)).note prog (prog.depth rt) p ::
      rest.map (Frame.dip (prog.depth rt)) }

def allocateIn (prog : Program) (s : State) (f : Frame) (rest : List Frame) : Option State :=
  match pliCtlAlloc s.rt prog.sym.ctlSlot prog.sym.bytes with
  | .error _ => none
  | .ok (rt, b) => some (s.fill prog rt (some b) f rest)

def freeIn (prog : Program) (s : State) (f : Frame) (rest : List Frame) : Option State :=
  match pliCtlFreeAddr s.rt prog.sym.ctlSlot with
  | .error _ => none
  | .ok (rt, .ok top) => some (s.fill prog rt top f rest)
  | .ok (rt, .error _) => some (s.settle prog rt ({ f with phase := .freeing } :: rest))

/-- `emitCtlEpilogue`: the implicit generation is popped and the slot left alone. -/
def releaseIn (prog : Program) (s : State) (f : Frame) (rest : List Frame) : Option State :=
  if prog.sym.isStatic then some { s with frames := { f with phase := .leaving } :: rest }
  else match pliCtlFreeAddr s.rt prog.sym.ctlSlot with
    | .error _ => none
    | .ok (rt, _) => some (s.settle prog rt ({ f with phase := .leaving } :: rest))

def Program.start (prog : Program) (fn : Fn) : Frame :=
  ⟨fn, if prog.ownFn fn then .entering else .running, none, 0, 0⟩

def act (prog : Program) (s : State) (f : Frame) (rest : List Frame) : Event → Option State
  | .implicit =>
    if prog.ownFn f.fn ∧ f.phase = .entering then
      if prog.sym.isStatic then some { s with frames := { f with phase := .running } :: rest }
      else allocateIn prog s f rest
    else none
  | .allocate site =>
    if site ∈ prog.sites ∧ site.action ≠ .free ∧ site.fn = f.fn ∧ f.phase = .running then
      allocateIn prog s f rest
    else none
  | .free site =>
    if site ∈ prog.sites ∧ site.action = .free ∧ site.fn = f.fn ∧ f.phase = .running then
      freeIn prog s f rest
    else none
  | .resume =>
    if f.phase = .freeing then
      some { s with frames := { f with phase := .running }.note prog 0 none :: rest }
    else none
  | .address =>
    if prog.ctlDirect ∧ prog.ownFn f.fn ∧ (f.phase = .entering ∨ f.phase = .running) then
      some { s with log := (f.slot, (pliCtlAddr s.rt prog.sym.ctlSlot).map (·.2)) :: s.log }
    else none
  | .release =>
    if prog.ownFn f.fn ∧ f.phase = .running then releaseIn prog s f rest else none
  | .leave => some { s with frames := rest }
  | .enter _ | .call _ => none

def step (prog : Program) (s : State) (e : Event) : Option State :=
  if prog.verifies then
    match e with
    | .enter fn => some { s with frames := prog.start fn :: s.frames }
    | .call op =>
      match perform s.rt op with
      | .error _ => none
      | .ok (rt, _) => some (s.settle prog rt s.frames)
    | e =>
      match s.frames with
      | [] => none
      | f :: rest => act prog s f rest e
  else none

/-- The slot is read only while the stack is as it was when the slot was filled: no generation
    below that depth has been popped since, and none is left above it. -/
def Undisturbed (prog : Program) (s : State) : Event → Prop
  | .address => ∀ f, s.frames.head? = some f → f.mark ≤ f.low ∧ prog.depth s.rt = f.mark
  | _ => True

instance (prog : Program) (s : State) (e : Event) : Decidable (Undisturbed prog s e) := by
  cases e <;> simp only [Undisturbed] <;> infer_instance

end PliCtlAnchors
