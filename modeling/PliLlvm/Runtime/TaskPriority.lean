import PliLlvm.Lib.Run

/- The priorities of tasks (runtime/rt_task.c: pli_task_entry, pli_task_note, pli_task_spawn_p,
   pli_task_priority_of, pli_task_set_priority_of; rt_sched.c: rt_fiber_prepare,
   rt_sched_spawn_ex, rt_sched_set_priority, rt_sched_current_priority). A caller is a fiber, or
   under the OS model a thread; what it does under the registry's lock is one step, and so is
   each of its accesses to a fiber's priority or handle. An int wraps. Beside the code's own
   state stands whose assignment to a handle's priority is the latest one. -/
namespace PliTaskPriority
open Runs
open Function (update)

abbrev Word := BitVec 32

/-- pli_task_entry; what the registry has no room for yet is all zero when it gets it. -/
structure Entry where
  priority : Word
  fiber : Option Nat

inductive Pc where
  | idle
  | setLock (t : Int) (rel abs : Word)
  | setCheck (t : Int) (f : Nat) (abs : Word)
  | setStore (t : Int) (f : Nat) (abs : Word)
  | readCurrent (t : Int) (pri : Word)
  | spawnLock (id : Int) (abs : Word)
  | spawnGet (id : Int) (abs : Word)
  | preparePriority (id : Int) (abs : Word) (f : Nat)
  | prepareHandle (id : Int) (abs : Word) (f : Nat)
  | spawnPriority (id : Int) (abs : Word) (f : Nat)
  | spawnHandle (id : Int) (abs : Word) (f : Nat)
  | publish (id : Int) (f : Nat)
  deriving DecidableEq

structure Sys where
  prio : Nat → Word
  handle : Nat → Int
  taken : Nat → Bool
  live : Nat → Bool
  pc : Nat → Pc
  entry : Int → Entry
  cap : Int
  next : Int
  latest : Int → Option (Nat × Word)

def Sys.init : Sys where
  prio := fun _ => 0
  handle := fun _ => 0
  taken := fun f => f == 0
  live := fun f => f == 0
  pc := fun _ => .idle
  entry := fun _ => ⟨0, none⟩
  cap := 0
  next := 1
  latest := fun _ => none

def Sys.goto (s : Sys) (c : Nat) (pc : Pc) : Sys := { s with pc := update s.pc c pc }

def entryFor (s : Sys) (id : Int) (granted : Bool) : Option Sys :=
  if id < 1 then none
  else if id - 1 < s.cap then some s
  else if granted then
    let cap := if s.cap = 0 then 16 else s.cap * 2
    some { s with cap := if cap ≤ id - 1 then id - 1 + 16 else cap }
  else none

inductive Act where
  | note (granted : Bool)
  | set (t : Int) (rel : Word)
  | read (t : Int) (granted : Bool)
  | spawn (id : Int) (prio : Word)
  | complete
  | get (f : Nat)
  | go (granted : Bool)
  deriving DecidableEq

section Model
variable (fibers : Bool)

def currentPriority (s : Sys) (c : Nat) : Word := if fibers then s.prio c else 0

def taskNote (s : Sys) (granted : Bool) : Sys :=
  { (entryFor s s.next granted).getD s with next := s.next + 1 }

def setPriorityOf (s : Sys) (c : Nat) (t : Int) (rel : Word) : Sys :=
  if t < 1 then s else s.goto c (.setLock t rel (rel + currentPriority fibers s c))

def priorityOf (s : Sys) (c : Nat) (t : Int) (granted : Bool) : Sys :=
  if t < 1 then s
  else match entryFor s t granted with
    | some s => s.goto c (.readCurrent t (s.entry t).priority)
    | none => s.goto c (.readCurrent t 0)

def answer (s : Sys) (c : Nat) : Option Word :=
  match s.pc c with
  | .readCurrent _ pri => some (pri - currentPriority fibers s c)
  | _ => none

def taskSpawnP (s : Sys) (c : Nat) (id : Int) (prio : Word) : Sys :=
  let abs := prio + currentPriority fibers s c
  s.goto c (if 0 < id then .spawnLock id abs else .spawnGet id abs)

def complete (s : Sys) (c : Nat) : Sys :=
  { s with
    taken := update s.taken c false
    live := update s.live c false
    latest := fun t => (s.latest t).filter (·.1 != c) }

def recordSet (s : Sys) (c : Nat) (t : Int) (rel abs : Word) (granted : Bool) : Sys :=
  let latest := update s.latest t (some (c, rel))
  match entryFor s t granted with
  | some s =>
    { s with
      entry := update s.entry t { s.entry t with priority := abs }
      latest := latest }.goto c
      (match (s.entry t).fiber with
        | some f => .setCheck t f abs
        | none => .idle)
  | none => { s with latest := latest }.goto c .idle

def recordSpawn (s : Sys) (c : Nat) (id : Int) (abs : Word) (granted : Bool) : Sys :=
  let latest := update s.latest id none
  match entryFor s id granted with
  | some s =>
    { s with
      entry := update s.entry id { s.entry id with priority := abs }
      latest := latest }.goto c (.spawnGet id abs)
  | none => { s with latest := latest }.goto c (.spawnGet id abs)

def spawnGet (s : Sys) (c : Nat) (id : Int) (abs : Word) (f : Nat) : Sys :=
  if fibers then
    { s with taken := update s.taken f true }.goto c (.preparePriority id abs f)
  else
    { s with
      taken := update s.taken f true
      live := update s.live f true }.goto c .idle

def publish (s : Sys) (c : Nat) (id : Int) (f : Nat) (granted : Bool) : Sys :=
  match entryFor s id granted with
  | some s =>
    { s with entry := update s.entry id { s.entry id with fiber := some f } }.goto c .idle
  | none => s.goto c .idle

def step (s : Sys) : Nat × Act → Option Sys
  | (c, act) =>
    if s.live c then
      match s.pc c, act with
      | .idle, .note granted => some (taskNote s granted)
      | .idle, .set t rel => some (setPriorityOf fibers s c t rel)
      | .idle, .read t granted => some (priorityOf s c t granted)
      | .idle, .spawn id prio => some (taskSpawnP fibers s c id prio)
      | .idle, .complete => some (complete s c)
      | .setLock t rel abs, .go granted => some (recordSet s c t rel abs granted)
      | .setCheck t f abs, .go _ =>
        some (s.goto c (if s.handle f = t then .setStore t f abs else .idle))
      | .setStore _ f abs, .go _ =>
        some ({ s with prio := update s.prio f abs }.goto c .idle)
      | .readCurrent _ _, .go _ => some (s.goto c .idle)
      | .spawnLock id abs, .go granted => some (recordSpawn s c id abs granted)
      | .spawnGet id abs, .get f => if s.taken f then none else some (spawnGet fibers s c id abs f)
      | .preparePriority id abs f, .go _ =>
        some ({ s with prio := update s.prio f 0 }.goto c (.prepareHandle id abs f))
      | .prepareHandle id abs f, .go _ =>
        some ({ s with handle := update s.handle f 0 }.goto c (.spawnPriority id abs f))
      | .spawnPriority id abs f, .go _ =>
        some ({ s with prio := update s.prio f abs }.goto c (.spawnHandle id abs f))
      | .spawnHandle id _ f, .go _ =>
        some ({ s with
          handle := update s.handle f id
          live := update s.live f true }.goto c
            (if 0 < id then .publish id f else .idle))
      | .publish id f, .go granted => some (publish s c id f granted)
      | _, _ => none
    else none

end Model

def assigning : Pc → Option Int
  | .setLock t _ _ => some t
  | .setCheck t _ _ => some t
  | .setStore t _ _ => some t
  | _ => none

def bringing (pc : Pc) (t : Int) (f : Nat) (abs : Word) : Prop :=
  pc = .setCheck t f abs ∨ pc = .setStore t f abs

/-- What has been said of priorities, in one state: a read answers what the reader itself has
    assigned latest; a task's fiber has the recorded priority while no assignment through the
    handle is under way; and no step of an assignment changes the priority of another task's
    fiber. -/
structure Sound (fibers : Bool) (s : Sys) : Prop where
  readsBack : ∀ c t pri n, s.pc c = .readCurrent t pri → s.latest t = some (c, n) →
    answer fibers s c = some n
  recorded : ∀ t, 1 ≤ t → (∀ c, assigning (s.pc c) ≠ some t) →
    ∀ f, s.live f → s.handle f = t → s.prio f = (s.entry t).priority
  others : ∀ c t act s', assigning (s.pc c) = some t → step fibers s (c, act) = some s' →
    ∀ f, s.live f → s.handle f ≠ t → s'.prio f = s.prio f

def Orderly (s : Sys) : Nat × Act → Prop
  | (c, act) =>
    match s.pc c, act with
    -- The registry has room, and each fiber that runs the task has been published.
    | .setLock t _ abs, .go granted => (entryFor s t granted).isSome ∧
      ∀ f, s.live f → s.handle f = t → (s.entry t).fiber = some f ∨ s.prio f = abs
    -- The fiber is not being laid up for another task.
    | .setCheck t f _, _ => s.handle f = t → s.taken f → s.live f
    -- Values reach the fiber in the order they are recorded in, and the task whose priority
    -- changes has itself assigned through no handle latest, and is about to through none.
    | .setStore t f abs, _ => s.live f →
      (abs = (s.entry t).priority ∨ ∃ d, d ≠ c ∧ bringing (s.pc d) t f (s.entry t).priority) ∧
      (abs = s.prio f ∨ (∀ u n, s.latest u ≠ some (f, n)) ∧ ∀ u rel a, s.pc f ≠ .setLock u rel a)
    -- The handle is no running task's.
    | .spawnLock id abs, _ => ∀ f, s.live f → s.handle f = id → s.prio f = abs
    -- No assignment that has checked the fiber is yet to write to it.
    | .spawnGet _ _, .get f => ∀ d t abs, s.pc d ≠ .setStore t f abs
    -- Nothing has been assigned through the handle since the priority was recorded.
    | .spawnHandle id abs _, _ => 0 < id → (s.entry id).priority = abs
    | _, _ => True

end PliTaskPriority
