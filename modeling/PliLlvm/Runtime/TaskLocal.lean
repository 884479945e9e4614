import PliLlvm.Runtime.OnStack
import PliLlvm.Runtime.ControlledNumbers

/- The per-task state (runtime/rt_fiber.h: pli_task_local) of the fibers and of the threads of
   the OS model, and what a task inherits from its attacher (rt_sched.c: rt_fiber_prepare;
   rt_cond.c: pli_on_inherit; rt_task.c: pli_spawn_task, pli_os_thread). The handler stacks are
   blocks of one heap, which malloc and a realloc that moves take new; a task's CONTROLLED
   storage is its own. The wait and timer fields of a fiber are the scheduler's. -/
namespace PliTaskLocal
open Runs Blocks PliOnStack PliControlled
open Function (update)

def rtFinishKey : Int := -6

/-- The fields of pli_task_local, of which ctl_vars to ctl_cache_len are `ctl`. -/
structure Local where
  onStack : Option Nat
  onSp : Nat
  onCap : Nat
  oncode : Int
  onSource : Int
  ctl : Ctl
  finishFn : Option Nat

def Local.zero : Local := ⟨none, 0, 0, 0, 0, Ctl.start, none⟩

/-- The calls of rt_cond.c on the state of the running task. -/
inductive OnOp where
  | push (key id : Int) (fn ctx : Option Nat)
  | establish (key id : Int) (fn ctx : Option Nat) (base : Int)
  | revert (key base : Int)
  | pop (key : Int)
  | reset (d : Int)
  | top (key : Int)
  | topFn (key : Int)
  | topCtx (key : Int)
  | topPair (key : Int)
  | topFnPair (key : Int)
  | depth
  | onkey
  | oncode
  | setOncode (c : Int)
  | onSource
  | setOnSource (key : Int)
  | finishTarget (fn : Option Nat)
  | signalFinish (fn : Option Nat)

inductive OnReply where
  | void
  | value (n : Int)
  | addr (p : Option Nat)
  | pair (id : Int) (ctx : Option Nat)
  | fnPair (fn ctx : Option Nat)
  | runs (fn : Nat) (ctx : Option Nat)

structure TaskOn where
  st : OnState
  oncode : Int
  onSource : Int
  finishFn : Option Nat

section Operations
variable (junk : OnFrame) (ok : Bool)

def rtPliOnPop (st : OnState) (key : Int) : OnState :=
  match scanDown (hasKey key) st.onStack 0 st.onSp with
  | some i => onShrink junk ok (closeGap st i)
  | none => st

/-- The pending key, or the source key of the topmost unit. -/
def pliOnSource (t : TaskOn) : Int :=
  if 0 < t.st.onSp then ((t.st.onStack[t.st.onSp - 1]?).map (·.src)).getD 0 else t.onSource

def setSource (st : OnState) (key : Int) : OnState :=
  ⟨st.onStack.modify (st.onSp - 1) fun f => { f with src := key }, st.onSp, st.onCap,
    by rw [List.length_modify, st.sized], st.room⟩

def pliSetOnSource (t : TaskOn) (key : Int) : TaskOn :=
  if 0 < t.st.onSp then { t with st := setSource t.st key } else { t with onSource := key }

def pliSignalFinish (t : TaskOn) (fn : Option Nat) : OnReply :=
  match fn with
  | none => .void
  | some _ =>
    if t.finishFn ≠ fn then .void
    else match pliOnTopFnPair t.st rtFinishKey with
      | (some h, ctx) => .runs h ctx
      | (none, _) => .void

def onCall (t : TaskOn) : OnOp → Option (TaskOn × OnReply)
  | .push key id fn ctx =>
    (rtPliOnPush junk ok t.st key id fn ctx).map fun st => ({ t with st := st }, .void)
  | .establish key id fn ctx base =>
    (pliOnEstablish junk ok t.st key id fn ctx base).map fun st => ({ t with st := st }, .void)
  | .revert key base => some ({ t with st := pliOnRevert junk ok t.st key base }, .void)
  | .pop key => some ({ t with st := rtPliOnPop junk ok t.st key }, .void)
  | .reset d => some ({ t with st := pliOnResetError junk ok t.st d }, .void)
  | .top key => some (t, .value (pliOnTopPair t.st key).1)
  | .topFn key => some (t, .addr (pliOnTopFnPair t.st key).1)
  | .topCtx key => some (t, .addr (pliOnTopPair t.st key).2)
  | .topPair key => some (t, .pair (pliOnTopPair t.st key).1 (pliOnTopPair t.st key).2)
  | .topFnPair key => some (t, .fnPair (pliOnTopFnPair t.st key).1 (pliOnTopFnPair t.st key).2)
  | .depth => some (t, .value (pliOnDepthError t.st))
  | .onkey => some (t, .value (if 0 < t.st.onSp then 1 else 0))
  | .oncode => some (t, .value t.oncode)
  | .setOncode c => some ({ t with oncode := c }, .void)
  | .onSource => some (t, .value (pliOnSource t))
  | .setOnSource key => some (pliSetOnSource t key, .void)
  | .finishTarget fn => some ({ t with finishFn := fn }, .void)
  | .signalFinish fn => some (t, pliSignalFinish t fn)

end Operations

/-- The heap of handler stacks, malloc's counter, every task's state, and what a thread of the
    OS model that is yet to start finds in its pli_os_call. -/
structure Sys where
  mem : Nat → List OnFrame
  nextBlock : Nat
  locals : Nat → Option Local
  calls : Nat → Option (Option Nat × Nat)

def Sys.init : Sys := ⟨fun _ => [], 0, fun _ => none, fun _ => none⟩

def block (mem : Nat → List OnFrame) : Option Nat → List OnFrame
  | none => []
  | some p => mem p

/-- rt_task_local: allocated on first use. -/
def Sys.taskLocal (s : Sys) (t : Nat) : Local := (s.locals t).getD Local.zero

def viewOn (mem : Nat → List OnFrame) (l : Local) : Option TaskOn :=
  if h : (block mem l.onStack).length = l.onCap ∧ l.onSp ≤ l.onCap then
    some ⟨⟨block mem l.onStack, l.onSp, l.onCap, h.1, h.2⟩, l.oncode, l.onSource, l.finishFn⟩
  else none

/-- The state after a call: the block is written where it is, or a realloc has taken a new
    size of it, there or elsewhere. -/
def Sys.store (s : Sys) (t : Nat) (l : Local) (on : TaskOn) (moved : Bool) : Sys :=
  let l := { l with
    onSp := on.st.onSp
    onCap := on.st.onCap
    oncode := on.oncode
    onSource := on.onSource
    finishFn := on.finishFn }
  match l.onStack with
  | some p =>
    if moved then
      { s with
        mem := update s.mem s.nextBlock on.st.onStack
        nextBlock := s.nextBlock + 1
        locals := update s.locals t (some { l with onStack := some s.nextBlock }) }
    else
      { s with
        mem := update s.mem p on.st.onStack
        locals := update s.locals t (some l) }
  | none =>
    if on.st.onCap = 0 then { s with locals := update s.locals t (some l) }
    else
      { s with
        mem := update s.mem s.nextBlock on.st.onStack
        nextBlock := s.nextBlock + 1
        locals := update s.locals t (some { l with onStack := some s.nextBlock }) }

inductive Call where
  | on (op : OnOp)
  | ctl (op : PliControlled.Op)

inductive Answer where
  | on (reply : OnReply)
  | ctl (reply : Reply)

def rtFiberPrepare (l : Local) : Local :=
  { l with
    onSp := 0
    oncode := 0
    onSource := 0
    ctl := { l.ctl with vars := [], last := none }
    finishFn := none }

def inherits (f : OnFrame) : Bool := f.key != rtFinishKey

def copied (junk : OnFrame) (src : List OnFrame) (sp : Nat) : List OnFrame :=
  copyWhere inherits src 0 (List.replicate (countWhere inherits src 0 sp) junk) 0 sp

def Sys.copyUnits (junk : OnFrame) (s : Sys) (a : Nat) : Sys × Option Nat × Nat :=
  let src := s.taskLocal a
  let n := countWhere inherits (block s.mem src.onStack) 0 src.onSp
  if n = 0 then (s, none, 0)
  else
    ({ s with
      mem := update s.mem s.nextBlock (copied junk (block s.mem src.onStack) src.onSp)
      nextBlock := s.nextBlock + 1 }, some s.nextBlock, n)

/-- rt_sched_spawn_ex, up to the state of the task: rt_fiber_prepare, then pli_on_inherit. -/
def Sys.spawn (junk : OnFrame) (s : Sys) (a f : Nat) : Sys :=
  let dst := ((s.locals f).map rtFiberPrepare).getD Local.zero
  let (s, p, n) := s.copyUnits junk a
  { s with
    locals := update s.locals f
      (some { dst with onStack := p, onSp := n, onCap := n }) }

/-- pli_spawn_task: what the new thread is given. -/
def Sys.osSpawn (junk : OnFrame) (s : Sys) (a t : Nat) : Sys :=
  let (s, p, n) := s.copyUnits junk a
  { s with calls := update s.calls t (some (p, n)) }

def Sys.osThread (s : Sys) (t : Nat) (p : Option Nat) (n : Nat) : Sys :=
  { s with
    calls := update s.calls t none
    locals := update s.locals t
      (some (if n ≠ 0 then { Local.zero with onStack := p, onSp := n, onCap := n }
        else Local.zero)) }

inductive Event where
  | call (t : Nat) (c : Call) (granted moved : Bool)
  | spawn (a f : Nat)
  | osSpawn (a t : Nat)
  | osThread (t : Nat)

section Program
variable (junk : OnFrame)

def Sys.call (s : Sys) (t : Nat) (granted moved : Bool) : Call → Option (Sys × Answer)
  | .on op =>
    (viewOn s.mem (s.taskLocal t)).bind fun on =>
      (onCall junk granted on op).map fun (on', reply) =>
        (s.store t (s.taskLocal t) on' (moved && on'.st.onCap != on.st.onCap), .on reply)
  | .ctl op =>
    match perform (s.taskLocal t).ctl op with
    | .error _ => none
    | .ok (ctl, reply) =>
      some ({ s with
        locals := update s.locals t (some { s.taskLocal t with ctl := ctl }) }, .ctl reply)

/-- One event of the program, with the answers so far. A fiber that is spawned on is not its
    attacher's, and a thread is begun once. -/
def step (x : Sys × List (Nat × Answer)) : Event → Option (Sys × List (Nat × Answer))
  | .call t c granted moved =>
    (x.1.call junk t granted moved c).map fun (s, answer) => (s, x.2 ++ [(t, answer)])
  | .spawn a f => if a ≠ f then some (x.1.spawn junk a f, x.2) else none
  | .osSpawn a t =>
    if a ≠ t ∧ x.1.locals t = none ∧ x.1.calls t = none then some (x.1.osSpawn junk a t, x.2)
    else none
  | .osThread t =>
    match x.1.locals t, x.1.calls t with
    | none, some (p, n) => some (x.1.osThread t p n, x.2)
    | _, _ => none

end Program

end PliTaskLocal
