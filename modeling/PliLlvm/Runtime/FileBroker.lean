import PliLlvm.Runtime.RtLock

/- The broker of file reads (runtime/rt_fbroker.c): one work slot under a lock of the tasks, and
   a thread that reads. A critical section is one step, as is the read and each of the lock's
   operations (runtime/rt_sync.c); a condition wait may also return for no reason, and an unpark
   is kept until its task parks. The program calls with a buffer that no call in progress has,
   and leaves the buffers of the calls in progress alone. The numbers of the calls, the calls in
   progress, the reads and the returns are no part of the code's own state. -/
namespace PliFileBroker
open Runs

/-- A call of rt_fbroker_fread. -/
structure Call where
  id : Nat
  f : Nat
  buf : Nat
  n : Nat
  deriving DecidableEq

/-- rt_fbroker_req: `f` is none once the read is done, and `result` is -1 until then. `id` is the
    number of the call that published it. -/
structure Req where
  id : Nat
  f : Option Nat
  buf : Nat
  n : Nat
  result : Int

structure Read where
  call : Call
  bytes : List UInt8

structure Return where
  call : Call
  count : Nat
  held : List UInt8
  deriving DecidableEq

inductive ThreadPc where
  | check
  | asleep
  | reading (r : Req)
  | complete (got : Nat)
  | unpark (w : Option Nat)

inductive Pc where
  | idle
  | direct
  | acquire
  | lockParking
  | lockParked
  | publish
  | parking
  | parked
  | take
  | release (got : Int)
  | handOver (w : Nat) (got : Int)
  deriving DecidableEq

structure Party where
  pc : Pc
  call : Call
  unparks : Nat

structure Sys where
  owner : Option Nat
  depth : Nat
  waiters : List Nat
  req : Req
  waiter : Option Nat
  thread : ThreadPc
  party : Nat → Party
  mem : Nat → UInt8
  calls : Nat
  inProgress : List Call
  reads : List Read
  returns : List Return

def Sys.start (mem : Nat → UInt8) : Sys where
  owner := none
  depth := 0
  waiters := []
  req := ⟨0, none, 0, 0, -1⟩
  waiter := none
  thread := .check
  party := fun _ => ⟨.idle, ⟨0, 0, 0, 0⟩, 0⟩
  mem := mem
  calls := 0
  inProgress := []
  reads := []
  returns := []

inductive Event where
  | call (t f buf n : Nat)
  | store (a : Nat) (v : UInt8)
  | task (t : Nat) (bytes : List UInt8)
  | thread (bytes : List UInt8)
  | spurious

def Apart (c d : Call) : Prop := c.buf + c.n ≤ d.buf ∨ d.buf + d.n ≤ c.buf

instance (c d : Call) : Decidable (Apart c d) := inferInstanceAs (Decidable (_ ∨ _))

def slice (mem : Nat → UInt8) (a n : Nat) : List UInt8 := (List.range n).map fun i => mem (a + i)

def fill (mem : Nat → UInt8) (buf : Nat) (bytes : List UInt8) : Nat → UInt8 := fun a =>
  if buf ≤ a then bytes.getD (a - buf) (mem a) else mem a

def Sys.set (s : Sys) (t : Nat) (x : Party) : Sys := { s with party := Function.update s.party t x }

def Sys.goto (s : Sys) (t : Nat) (pc : Pc) : Sys := s.set t { s.party t with pc := pc }

def rtSchedUnpark (s : Sys) (w : Nat) : Sys :=
  s.set w { s.party w with unparks := (s.party w).unparks + 1 }

/-- rt_sched_park goes on when an unpark has come. -/
def rtSchedPark (s : Sys) (t : Nat) (next : Pc) : Option Sys :=
  if 0 < (s.party t).unparks then
    some (s.set t { s.party t with pc := next, unparks := (s.party t).unparks - 1 })
  else none

/-- The call returns `got`, and a negative one as 0. -/
def done (s : Sys) (t : Nat) (got : Int) : Sys :=
  let c := (s.party t).call
  { s.goto t .idle with
    inProgress := s.inProgress.filter fun d => d.id ≠ c.id
    returns := s.returns ++ [⟨c, got.toNat, slice s.mem c.buf got.toNat⟩] }

def rtLockAcquire (s : Sys) (t : Nat) : Sys :=
  match s.owner with
  | none => { s.goto t .publish with owner := some t, depth := 1 }
  | some u =>
    if u = t then { s.goto t .publish with depth := s.depth + 1 }
    else { s.goto t .lockParking with waiters := t :: s.waiters }

def rtLockRelease (s : Sys) (t : Nat) (got : Int) : Sys :=
  if 1 < s.depth then { done s t got with depth := s.depth - 1 }
  else
    match s.waiters with
    | w :: rest => { s.goto t (.handOver w got) with owner := some w, depth := 1, waiters := rest }
    | [] => { done s t got with owner := none, depth := 0 }

section Lock
variable {l : PliRtLock.Sys} {s : Sys}

/-- The lock of the tasks is a lock of the runtime: the same owner, depth, waiters and unparks. -/
structure LockSame (l : PliRtLock.Sys) (s : Sys) : Prop where
  owner : l.owner = s.owner
  depth : l.depth = s.depth
  waiters : l.waiters = s.waiters
  unparks : ∀ t, (l.party t).unparks = (s.party t).unparks

theorem update_unparks {l' : Nat → PliRtLock.Party} {p' : Nat → Party}
    (same : ∀ t, (l' t).unparks = (p' t).unparks) {w : Nat} {x : PliRtLock.Party} {y : Party}
    (here : x.unparks = y.unparks) (t : Nat) :
    (Function.update l' w x t).unparks = (Function.update p' w y t).unparks := by
  by_cases at_w : t = w
  · simp [at_w, here]
  · simp [at_w, same t]

theorem unparks_kept {l' : Nat → PliRtLock.Party} {w : Nat} {x : PliRtLock.Party}
    (here : x.unparks = (l' w).unparks) (t : Nat) :
    (Function.update l' w x t).unparks = (l' t).unparks := by
  by_cases at_w : t = w
  · simp [at_w, here]
  · simp [at_w]

theorem lockAcquire_same (same : LockSame l s) (t : Nat) :
    LockSame (PliRtLock.acquireActs l t l.owner) (rtLockAcquire s t) := by
  unfold PliRtLock.acquireActs rtLockAcquire
  rw [same.owner]
  cases owner : s.owner with
  | none => exact ⟨rfl, rfl, same.waiters, update_unparks same.unparks (same.unparks t)⟩
  | some u =>
    by_cases mine : u = t
    · rw [if_neg (by simp), if_pos (by rw [mine])]
      simp only [if_pos mine]
      exact ⟨same.owner, congrArg (· + 1) same.depth, same.waiters,
        update_unparks same.unparks (same.unparks t)⟩
    · rw [if_neg (by simp), if_neg (by simpa using mine)]
      simp only [if_neg mine]
      exact ⟨same.owner, same.depth, congrArg (t :: ·) same.waiters,
        update_unparks same.unparks (same.unparks t)⟩

theorem lockRelease_same (same : LockSame l s) (t : Nat) (got : Int) :
    LockSame (PliRtLock.releaseActs l t l.depth false) (rtLockRelease s t got) := by
  unfold PliRtLock.releaseActs rtLockRelease
  rw [same.depth, same.waiters]
  by_cases nested : 1 < s.depth
  · simp only [if_pos nested]
    exact ⟨same.owner, rfl, same.waiters, update_unparks same.unparks (same.unparks t)⟩
  · simp only [if_neg nested]
    cases waiting : s.waiters with
    | nil => exact ⟨rfl, rfl, same.waiters, update_unparks same.unparks (same.unparks t)⟩
    | cons w rest =>
      have gave : ∀ u, ((l.gaveUp t false (.handOver w false)).party u).unparks =
          ((s.goto t (.handOver w got)).party u).unparks :=
        update_unparks same.unparks (same.unparks t)
      refine ⟨rfl, rfl, rfl, fun u => ?_⟩
      refine Eq.trans (unparks_kept ?_ u) (gave u)
      rfl

theorem schedUnpark_same (same : LockSame l s) (w : Nat) :
    LockSame (PliRtLock.rtSchedUnpark l w) (rtSchedUnpark s w) :=
  ⟨same.owner, same.depth, same.waiters,
    update_unparks same.unparks (congrArg (· + 1) (same.unparks w))⟩

end Lock

def ThreadPc.signalled : ThreadPc → ThreadPc
  | .asleep => .check
  | pc => pc

def publish (s : Sys) (t : Nat) : Sys :=
  let c := (s.party t).call
  { s.goto t .parking with
    req := ⟨c.id, some c.f, c.buf, c.n, -1⟩
    waiter := some t
    thread := s.thread.signalled }

/-- pli_plat_fread: some of the bytes asked for, which it puts in the buffer. -/
def platFread (s : Sys) (c : Call) (bytes : List UInt8) : Option Sys :=
  if bytes.length ≤ c.n then
    some { s with mem := fill s.mem c.buf bytes, reads := s.reads ++ [⟨c, bytes⟩] }
  else none

/-- A task inside rt_fbroker_fread; `bytes` is what a read of its own gets. -/
def taskStep (s : Sys) (t : Nat) (bytes : List UInt8) : Option Sys :=
  match (s.party t).pc with
  | .idle => none
  | .direct => (platFread s (s.party t).call bytes).map fun s => done s t bytes.length
  | .acquire => some (rtLockAcquire s t)
  | .lockParking => some (s.goto t .lockParked)
  | .lockParked => rtSchedPark s t .publish
  | .publish => some (publish s t)
  | .parking => some (s.goto t .parked)
  | .parked => rtSchedPark s t .take
  | .take => some (s.goto t (.release s.req.result))
  | .release got => some (rtLockRelease s t got)
  | .handOver w got => some (done (rtSchedUnpark s w) t got)

def threadStep (s : Sys) (bytes : List UInt8) : Option Sys :=
  match s.thread with
  | .check =>
    some { s with thread := if s.req.f = none then .asleep else .reading s.req }
  | .asleep => none
  | .reading r =>
    r.f.bind fun f => (platFread s ⟨r.id, f, r.buf, r.n⟩ bytes).map fun s =>
      { s with thread := .complete bytes.length }
  | .complete got =>
    some { s with
      req := { s.req with result := got, f := none }
      waiter := none
      thread := .unpark s.waiter }
  | .unpark w =>
    let s' := { s with thread := .check }
    some (match w with
      | some t => rtSchedUnpark s' t
      | none => s')

def step (isFiber : Nat → Bool) (s : Sys) : Event → Option Sys
  | .call t f buf n =>
    let c : Call := ⟨s.calls, f, buf, n⟩
    if (s.party t).pc = .idle ∧ ∀ d ∈ s.inProgress, Apart c d then
      some { s.set t ⟨if isFiber t then .acquire else .direct, c, (s.party t).unparks⟩ with
        calls := s.calls + 1
        inProgress := c :: s.inProgress }
    else none
  | .store a v =>
    if ∀ d ∈ s.inProgress, ¬(d.buf ≤ a ∧ a < d.buf + d.n) then
      some { s with mem := Function.update s.mem a v }
    else none
  | .task t bytes => taskStep s t bytes
  | .thread bytes => threadStep s bytes
  | .spurious => some { s with thread := s.thread.signalled }

def readsOf (reads : List Read) (c : Call) : List Read := reads.filter fun r => r.call.id = c.id

def waits : Pc → Bool
  | .parking | .parked => true
  | _ => false

def inLock : Pc → Bool
  | .lockParking | .lockParked => true
  | _ => false

/-- Each call that has returned was read for once, from its own file into its own buffer, and
    returned the count of that read with its bytes in the buffer; a task whose read is done has
    been unparked or is unparked next, and until then its read is on its way; and one that waits
    for the slot is in the queue of it, or is handed it. -/
structure Delivers (s : Sys) : Prop where
  own : ∀ a ∈ s.returns, ∃ bytes, readsOf s.reads a.call = [⟨a.call, bytes⟩] ∧
    a.count = bytes.length ∧ a.held = bytes
  woken : ∀ t, waits (s.party t).pc = true → 0 ≤ s.req.result →
    0 < (s.party t).unparks ∨ s.thread = .unpark (some t)
  served : ∀ t, waits (s.party t).pc = true → s.req.result < 0 →
    s.req.id = (s.party t).call.id ∧ s.waiter = some t ∧
      (s.thread = .check ∨ s.thread = .reading s.req ∨ ∃ got, s.thread = .complete got)
  slot : ∀ t, inLock (s.party t).pc = true →
    (t ∈ s.waiters ∧ ∃ u, s.owner = some u ∧ u ≠ t) ∨ 0 < (s.party t).unparks ∨
      ∃ u got, (s.party u).pc = .handOver t got

end PliFileBroker
