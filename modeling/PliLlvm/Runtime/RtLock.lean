import PliLlvm.Lib.Run
import Mathlib.Data.List.Nodup

/- One runtime lock and the condition paired with it (runtime/rt_sync.c), and the
   brackets that take it only once tasks exist (pli_rt_state.h, rt_stream.c). A
   party is a fiber or an OS thread running outside any fiber; a step is one
   shared access of one party. An unpark is kept until its fiber parks, as the
   owner's ready list keeps it. The platform mutex of the recursive kind refuses
   an unlock by another thread, the plain kind is freed by it, and a platform
   condition wait may return at any time. -/
namespace PliRtLock
open Runs
open Function (update update_eq_self update_self)

/-- How far a party is inside the lock layer. `wait` tells the release inside
    rt_cond_wait_key from a release of its own. -/
inductive Pc where
  | idle
  | osLock
  | osCondWait
  | spinAcquire
  | readOwner
  | actOwner (owner : Option Nat)
  | park
  | spinRelease (wait : Bool)
  | readDepth (wait : Bool)
  | actDepth (depth : Nat) (wait : Bool)
  | handOver (w : Nat) (wait : Bool)
  | parkCond
  | walking (key : Option Nat) (rest keep : List (Nat × Option Nat))
  | waking (rest : List (Nat × Option Nat))
  deriving DecidableEq

/-- A begin whose end is still to come: whether it looks at rt_tasks_active, and
    whether it took the lock. -/
structure Bracket where
  cond : Bool
  took : Bool

/-- The last four fields are no part of the program: they count the returns of
    acquire less the releases, the times the party joined the wait queue, was
    handed the lock and went on with it. -/
structure Party where
  pc : Pc
  unparks : Nat
  opened : List Bracket
  held : Nat
  contended : Nat
  handed : Nat
  resumed : Nat

structure Sys where
  tasksActive : Bool
  os : Option (Nat × Nat)
  metaHeld : Bool
  owner : Option Nat
  waiters : List Nat
  depth : Nat
  condWaiters : List (Nat × Option Nat)
  party : Nat → Party

def Sys.init : Sys :=
  ⟨false, none, false, none, [], 0, [], fun _ => ⟨.idle, 0, [], 0, 0, 0, 0⟩⟩

inductive Event where
  | enableThreads
  | enter (p : Nat) (cond : Bool)
  | leave (p : Nat)
  | condWait (p : Nat) (key : Option Nat)
  | signalKey (p : Nat) (key : Option Nat)
  | broadcast (p : Nat)
  | tick (p : Nat)

def Sys.set (s : Sys) (p : Nat) (x : Party) : Sys := { s with party := update s.party p x }

def Sys.goto (s : Sys) (p : Nat) (pc : Pc) : Sys := s.set p { s.party p with pc := pc }

def Sys.took (s : Sys) (p : Nat) : Sys :=
  s.set p { s.party p with pc := .idle, held := (s.party p).held + 1 }

def Sys.gaveUp (s : Sys) (p : Nat) (wait : Bool) (pc : Pc) : Sys :=
  s.set p { s.party p with
    pc := pc
    held := (s.party p).held - 1
    opened := if wait then (s.party p).opened else (s.party p).opened.tail }

def afterRelease (wait : Bool) : Pc := if wait then .parkCond else .idle

def pliMutexUnlock (recursive : Bool) (os : Option (Nat × Nat)) (p : Nat) : Option (Nat × Nat) :=
  match os with
  | none => none
  | some (q, d) =>
    if q = p then (if 1 < d then some (q, d - 1) else none)
    else if recursive then some (q, d) else none

/-- `!w->wait_key || w->wait_key == key` -/
def keyMatches (key : Option Nat) (w : Nat × Option Nat) : Bool :=
  w.2.isNone || w.2 == key

/-- rt_out_lock and its likes ask rt_tasks_active, the tables' callers do not. -/
def reaches (s : Sys) (cond : Bool) : Bool := !cond || s.tasksActive

def rtSchedUnpark (s : Sys) (w : Nat) : Sys :=
  s.set w { s.party w with unparks := (s.party w).unparks + 1 }

/-- rt_lock_acquire under the meta lock, once it has read the owner. -/
def acquireActs (s : Sys) (p : Nat) (owner : Option Nat) : Sys :=
  if owner = none then { s.took p with owner := some p, depth := 1, metaHeld := false }
  else if owner = some p then { s.took p with depth := s.depth + 1, metaHeld := false }
  else
    { s.set p { s.party p with pc := .park, contended := (s.party p).contended + 1 } with
      waiters := p :: s.waiters, metaHeld := false }

/-- rt_lock_release under the meta lock, once it has read the depth. -/
def releaseActs (s : Sys) (p : Nat) (depth : Nat) (wait : Bool) : Sys :=
  if 1 < depth then
    { s.gaveUp p wait (afterRelease wait) with depth := depth - 1, metaHeld := false }
  else match s.waiters with
    | w :: rest =>
      let s' := s.gaveUp p wait (.handOver w wait)
      { s'.set w { s'.party w with handed := (s'.party w).handed + 1 } with
        waiters := rest, owner := some w, depth := 1, metaHeld := false }
    | [] =>
      { s.gaveUp p wait (afterRelease wait) with owner := none, depth := 0, metaHeld := false }

section Program
variable (fiberMode recursive : Bool) (isFiber : Nat → Bool)

def rtLockAcquire (s : Sys) (p : Nat) : Sys :=
  if !fiberMode then s.goto p .osLock
  else if !isFiber p then s.goto p .osLock
  else s.goto p .spinAcquire

def rtLockRelease (s : Sys) (p : Nat) : Sys :=
  if !fiberMode then { s.gaveUp p false .idle with os := pliMutexUnlock recursive s.os p }
  else s.goto p (.spinRelease false)

def rtCondWaitKey (s : Sys) (p : Nat) (key : Option Nat) : Sys :=
  if !fiberMode || !isFiber p then
    { s.gaveUp p true .osCondWait with os := pliMutexUnlock recursive s.os p }
  else { s.goto p (.spinRelease true) with condWaiters := (p, key) :: s.condWaiters }

def rtCondSignalKey (s : Sys) (p : Nat) (key : Option Nat) : Sys :=
  if !fiberMode then s else s.goto p (.walking key s.condWaiters [])

def rtCondBroadcast (s : Sys) (p : Nat) : Sys :=
  if !fiberMode then s else { s.goto p (.waking s.condWaiters) with condWaiters := [] }

def lockBegin (s : Sys) (p : Nat) (cond : Bool) : Sys :=
  let s' := s.set p
    { s.party p with opened := ⟨cond, reaches s cond⟩ :: (s.party p).opened }
  if reaches s cond then rtLockAcquire fiberMode isFiber s' p else s'

def lockEnd (s : Sys) (p : Nat) (cond : Bool) : Sys :=
  if reaches s cond then rtLockRelease fiberMode recursive s p
  else s.set p { s.party p with opened := (s.party p).opened.tail }

def tick (s : Sys) (p : Nat) : Option Sys :=
  match (s.party p).pc with
  | .idle => none
  | .osLock =>
    match s.os with
    | none => some { s.took p with os := some (p, 1) }
    | some (q, d) =>
      if q = p ∧ recursive = true then some { s.took p with os := some (p, d + 1) } else none
  | .osCondWait => some (s.goto p .osLock)
  | .spinAcquire =>
    some (if s.metaHeld then s else { s.goto p .readOwner with metaHeld := true })
  | .readOwner => some (s.goto p (.actOwner s.owner))
  | .actOwner owner => some (acquireActs s p owner)
  | .park =>
    if (s.party p).unparks = 0 then none
    else some (s.set p { s.party p with
      pc := .idle
      held := (s.party p).held + 1
      unparks := (s.party p).unparks - 1
      resumed := (s.party p).resumed + 1 })
  | .spinRelease wait =>
    some (if s.metaHeld then s else { s.goto p (.readDepth wait) with metaHeld := true })
  | .readDepth wait => some (s.goto p (.actDepth s.depth wait))
  | .actDepth depth wait => some (releaseActs s p depth wait)
  | .handOver w wait => some (rtSchedUnpark (s.goto p (afterRelease wait)) w)
  | .parkCond =>
    if (s.party p).unparks = 0 then none
    else some (rtLockAcquire fiberMode isFiber
      (s.set p { s.party p with unparks := (s.party p).unparks - 1 }) p)
  | .walking _ [] keep => some { s.goto p .idle with condWaiters := keep }
  | .walking key (w :: rest) keep =>
    some (if keyMatches key w then rtSchedUnpark (s.goto p (.walking key rest keep)) w.1
      else s.goto p (.walking key rest (keep ++ [w])))
  | .waking [] => some (s.goto p .idle)
  | .waking (w :: rest) => some (rtSchedUnpark (s.goto p (.waking rest)) w.1)

def step (s : Sys) : Event → Option Sys
  | .enableThreads => some { s with tasksActive := true }
  | .enter p cond =>
    if (s.party p).pc = .idle then some (lockBegin fiberMode isFiber s p cond) else none
  | .leave p =>
    if (s.party p).pc = .idle then
      match (s.party p).opened with
      | [] => none
      | b :: _ => some (lockEnd fiberMode recursive s p b.cond)
    else none
  | .condWait p key =>
    if (s.party p).pc = .idle then some (rtCondWaitKey fiberMode recursive isFiber s p key)
    else none
  | .signalKey p key =>
    if (s.party p).pc = .idle then some (rtCondSignalKey fiberMode s p key) else none
  | .broadcast p => if (s.party p).pc = .idle then some (rtCondBroadcast fiberMode s p) else none
  | .tick p => tick fiberMode recursive isFiber s p

def ReleasedByHolder (s : Sys) : Event → Prop
  | .leave p => ∀ b ∈ (s.party p).opened.head?, reaches s b.cond = true → 0 < (s.party p).held
  | .condWait p _ => 0 < (s.party p).held
  | _ => True

structure Safe (s : Sys) : Prop where
  exclusive : ∀ p q, 0 < (s.party p).held → 0 < (s.party q).held → p = q
  counted : ∀ p, 0 < (s.party p).held →
    if fiberMode then s.owner = some p ∧ s.depth = (s.party p).held
    else s.os = some (p, (s.party p).held)
  once : ∀ p, (s.party p).contended = (s.party p).handed + s.waiters.count p
  queued : s.waiters.Nodup
  waited : s.owner = none → s.waiters = []
  kept : ∀ p, (s.party p).pc = .park → p ∈ s.waiters ∨
    (s.owner = some p ∧ (s.party p).handed = (s.party p).resumed + 1 ∧
      ((s.party p).unparks = 1 ∨ ∃ q wait, (s.party q).pc = .handOver p wait))

/-- Where tasks are fibers, the lock is taken by fibers only; a bracket takes the
    lock if its end releases it; and a condition is used by a holder. -/
def Proper (s : Sys) : Event → Prop
  | .enter p cond => reaches s cond = true → fiberMode = true → isFiber p = true
  | .leave p => ∀ b ∈ (s.party p).opened.head?, reaches s b.cond = true → b.took = true
  | .condWait p _ => 0 < (s.party p).held
  | .signalKey p _ => 0 < (s.party p).held
  | .broadcast p => 0 < (s.party p).held
  | _ => True

instance (s : Sys) (e : Event) : Decidable (Proper fiberMode isFiber s e) :=
  match e with
  | .enableThreads | .tick _ => isTrue trivial
  | .enter p cond =>
    inferInstanceAs (Decidable (reaches s cond = true → fiberMode = true → isFiber p = true))
  | .leave p =>
    inferInstanceAs (Decidable (∀ b ∈ (s.party p).opened.head?,
      reaches s b.cond = true → b.took = true))
  | .condWait p _ | .signalKey p _ | .broadcast p =>
    inferInstanceAs (Decidable (0 < (s.party p).held))

end Program

inductive Place where
  | awake
  | lockQueue
  | condQueue
  | handedBy (q : Nat)
  | ready
  deriving DecidableEq

def inMeta : Pc → Bool
  | .readOwner | .actOwner _ | .readDepth _ | .actDepth _ _ => true
  | _ => false

def pending : Pc → Nat
  | .osLock | .osCondWait | .spinAcquire | .readOwner | .actOwner _ | .park => 1
  | .handOver _ true | .parkCond => 1
  | _ => 0

def walks : Pc → Bool
  | .walking _ _ _ | .waking _ => true
  | _ => false

def releases : Pc → Bool
  | .spinRelease _ | .readDepth _ | .actDepth _ _ => true
  | _ => false

def ownRelease : Pc → Bool
  | .spinRelease false | .readDepth false | .actDepth _ false => true
  | _ => false

def handsTo : Pc → Option Nat
  | .handOver w _ => some w
  | _ => none

def Fits : Pc → Place → Prop
  | .osLock, _ | .osCondWait, _ => False
  | .park, place => place ≠ .awake ∧ place ≠ .condQueue
  | .spinRelease true, place | .readDepth true, place | .actDepth _ true, place =>
    place = .condQueue
  | .handOver _ true, place | .parkCond, place => place = .condQueue ∨ place = .ready
  | _, place => place = .awake

def lockView : Place → Option (Option Nat)
  | .lockQueue => some none
  | .handedBy q => some (some q)
  | _ => none

def Saw (owner : Option Nat) (depth : Nat) : Pc → Prop
  | .actOwner o => owner = o
  | .actDepth d _ => depth = d
  | _ => True

def Walk (queue condWaiters : List (Nat × Option Nat)) : Pc → Prop
  | .walking _ rest keep => queue = keep ++ rest
  | .waking rest => queue = rest ∧ condWaiters = []
  | _ => True

structure PartyOk (fiber : Bool) (place : Place) (x : Party) : Prop where
  fits : Fits x.pc place
  woken : x.unparks = if place = .ready then 1 else 0
  brackets : x.opened.countP (·.took) = x.held + pending x.pc
  once : x.contended = x.handed + if place = .lockQueue then 1 else 0
  resumes : x.handed = x.resumed + if x.pc = .park ∧ place ≠ .lockQueue then 1 else 0
  outside : fiber = false → x.pc = .idle ∧ x.held = 0
  holds : walks x.pc = true ∨ releases x.pc = true → 0 < x.held
  parked : x.pc = .park → x.held = 0
  top : ownRelease x.pc = true → ∃ b rest, x.opened = b :: rest ∧ b.took = true

structure MetaOk (s : Sys) : Prop where
  taken : ∀ p, inMeta (s.party p).pc = true → s.metaHeld = true
  one : ∀ p q, inMeta (s.party p).pc = true → inMeta (s.party q).pc = true → p = q
  saw : ∀ p, Saw s.owner s.depth (s.party p).pc

structure LockOk (place : Nat → Place) (s : Sys) : Prop where
  total : ∀ p, s.owner = some p → 1 ≤ s.depth ∧
    s.depth = (s.party p).held + if (s.party p).pc = .park then 1 else 0
  others : ∀ p, s.owner ≠ some p → (s.party p).held = 0
  waited : s.owner = none → s.waiters = []
  parked : ∀ p, (s.party p).pc = .park → (s.owner ≠ some p ↔ place p = .lockQueue)
  queued : s.waiters.Nodup
  lockQueue : ∀ p, p ∈ s.waiters ↔ place p = .lockQueue
  hands : ∀ q w, handsTo (s.party q).pc = some w ↔ place w = .handedBy q

structure CondOk (place : Nat → Place) (queue : List (Nat × Option Nat)) (s : Sys) : Prop where
  nodup : (queue.map Prod.fst).Nodup
  queued : ∀ p, p ∈ queue.map Prod.fst ↔ place p = .condQueue
  walk : ∀ p, Walk queue s.condWaiters (s.party p).pc
  still : (∀ p, walks (s.party p).pc = false) → s.condWaiters = queue

structure FiberInv (isFiber : Nat → Bool) (place : Nat → Place) (queue : List (Nat × Option Nat))
    (s : Sys) : Prop where
  parties : ∀ p, PartyOk (isFiber p) (place p) (s.party p)
  spin : MetaOk s
  lock : LockOk place s
  cond : CondOk place queue s

/-- A bracket that took the lock found rt_tasks_active set, or never asks. -/
def Begun (s : Sys) : Prop :=
  ∀ p, ∀ b ∈ (s.party p).opened, b.took = true → reaches s b.cond = true

variable {s : Sys} {p : Nat}

theorem not_took_of_idle {b : Bracket} (begun : Begun s)
    (member : b ∈ (s.party p).opened) (idle : reaches s b.cond = false) : b.took = false := by
  cases took : b.took with
  | false => rfl
  | true =>
    have active := begun p b member took
    simp [idle] at active

def Begins (s s' : Sys) : Prop :=
  s'.tasksActive = s.tasksActive ∧ ∀ q, (s'.party q).opened ⊆ (s.party q).opened

theorem begins_refl (s : Sys) : Begins s s := ⟨rfl, fun _ => List.Subset.refl _⟩

variable {s' : Sys}

theorem begins_set {x : Party} (same : s'.tasksActive = s.tasksActive)
    (party : s'.party = update s.party p x) (opened : x.opened ⊆ (s.party p).opened) :
    Begins s s' := by
  refine ⟨same, fun q => ?_⟩
  by_cases here : q = p
  · subst here
    simpa [party] using opened
  · simp [party, here]

theorem begins_trans {mid : Sys} (first : Begins s mid) (second : Begins mid s') : Begins s s' :=
  ⟨second.1.trans first.1, fun q => List.Subset.trans (second.2 q) (first.2 q)⟩

theorem begun_of_begins (begun : Begun s) (begins : Begins s s') : Begun s' := by
  intro p b member took
  have before := begun p b (begins.2 p member) took
  unfold reaches at before ⊢
  rwa [begins.1]

theorem gaveUp_begins (s : Sys) (p : Nat) (wait : Bool) (pc : Pc) :
    Begins s (s.gaveUp p wait pc) := by
  refine begins_set rfl rfl ?_
  cases wait
  · exact (List.tail_sublist _).subset
  · exact List.Subset.refl _

theorem unpark_begins (s : Sys) (w : Nat) : Begins s (rtSchedUnpark s w) :=
  begins_set rfl rfl (List.Subset.refl _)

theorem goto_begins (s : Sys) (p : Nat) (pc : Pc) : Begins s (s.goto p pc) :=
  begins_set rfl rfl (List.Subset.refl _)

theorem took_begins (s : Sys) (p : Nat) : Begins s (s.took p) :=
  begins_set rfl rfl (List.Subset.refl _)

theorem acquire_begins (fiberMode : Bool) (isFiber : Nat → Bool) (s : Sys) (p : Nat) :
    Begins s (rtLockAcquire fiberMode isFiber s p) := by
  unfold rtLockAcquire
  split
  · exact goto_begins s p _
  · split <;> exact goto_begins s p _

theorem release_begins (s : Sys) (p depth : Nat) (wait : Bool) :
    Begins s (releaseActs s p depth wait) := by
  unfold releaseActs
  split
  · exact gaveUp_begins s p wait _
  · split
    · exact begins_trans (gaveUp_begins s p wait _) (begins_set rfl rfl (List.Subset.refl _))
    · exact gaveUp_begins s p wait _

theorem tick_begins {fiberMode recursive : Bool} {isFiber : Nat → Bool}
    (stepped : tick fiberMode recursive isFiber s p = some s') : Begins s s' := by
  unfold tick at stepped
  split at stepped
  · cases stepped
  · split at stepped
    · cases stepped
      exact took_begins s p
    · split at stepped
      · cases stepped
        exact took_begins s p
      · cases stepped
  · cases stepped
    exact goto_begins s p _
  · cases stepped
    split
    · exact begins_refl s
    · exact goto_begins s p _
  · cases stepped
    exact goto_begins s p _
  · cases stepped
    unfold acquireActs
    split
    · exact took_begins s p
    · split
      · exact took_begins s p
      · exact begins_set rfl rfl (List.Subset.refl _)
  · split at stepped
    · cases stepped
    · cases stepped
      exact begins_set rfl rfl (List.Subset.refl _)
  · cases stepped
    split
    · exact begins_refl s
    · exact goto_begins s p _
  · cases stepped
    exact goto_begins s p _
  · cases stepped
    exact release_begins s p _ _
  · cases stepped
    exact begins_trans (goto_begins s p _) (unpark_begins _ _)
  · split at stepped
    · cases stepped
    · cases stepped
      have woken : Begins s (s.set p { s.party p with unparks := (s.party p).unparks - 1 }) :=
        begins_set rfl rfl (List.Subset.refl _)
      exact begins_trans woken (acquire_begins _ _ _ p)
  · cases stepped
    exact goto_begins s p _
  · cases stepped
    split
    · exact begins_trans (goto_begins s p _) (unpark_begins _ _)
    · exact goto_begins s p _
  · cases stepped
    exact goto_begins s p _
  · cases stepped
    exact begins_trans (goto_begins s p _) (unpark_begins _ _)

theorem step_begun {fiberMode recursive : Bool} {isFiber : Nat → Bool} {e : Event}
    (begun : Begun s) (stepped : step fiberMode recursive isFiber s e = some s') : Begun s' := by
  cases e with
  | enableThreads =>
    cases stepped
    intro p b member took
    simp [reaches]
  | enter p cond =>
    simp only [step] at stepped
    split at stepped
    · cases stepped
      have opened : Begun (s.set p
          { s.party p with opened := ⟨cond, reaches s cond⟩ :: (s.party p).opened }) := by
        intro q b member took
        by_cases same : q = p
        · subst same
          simp only [Sys.set, update_self, List.mem_cons] at member
          rcases member with rfl | old
          · exact took
          · exact begun q b old took
        · exact begun q b (by simpa [Sys.set, same] using member) took
      unfold lockBegin
      dsimp only
      split
      · exact begun_of_begins opened (acquire_begins _ _ _ p)
      · exact opened
    · cases stepped
  | leave p =>
    simp only [step] at stepped
    split at stepped
    · split at stepped
      · cases stepped
      · cases stepped
        unfold lockEnd
        split
        · unfold rtLockRelease
          split
          · exact begun_of_begins begun (gaveUp_begins s p false .idle)
          · exact begun_of_begins begun (goto_begins s p _)
        · exact begun_of_begins begun (begins_set rfl rfl ((List.tail_sublist _).subset))
    · cases stepped
  | condWait p key =>
    simp only [step] at stepped
    split at stepped
    · cases stepped
      unfold rtCondWaitKey
      split
      · exact begun_of_begins begun (gaveUp_begins s p true .osCondWait)
      · exact begun_of_begins begun (goto_begins s p _)
    · cases stepped
  | signalKey p key =>
    simp only [step] at stepped
    split at stepped
    · cases stepped
      unfold rtCondSignalKey
      split
      · exact begun
      · exact begun_of_begins begun (goto_begins s p _)
    · cases stepped
  | broadcast p =>
    simp only [step] at stepped
    split at stepped
    · cases stepped
      unfold rtCondBroadcast
      split
      · exact begun
      · exact begun_of_begins begun (goto_begins s p _)
    · cases stepped
  | tick p => exact begun_of_begins begun (tick_begins stepped)

theorem held_of_bracket {x : Party} {b : Bracket}
    (counts : x.opened.countP (·.took) = x.held + pending x.pc) (idle : x.pc = .idle)
    (member : b ∈ x.opened) (took : b.took = true) : 0 < x.held := by
  have some_took : 0 < x.opened.countP (·.took) := List.countP_pos_iff.mpr ⟨b, member, took⟩
  simp only [counts, idle, pending, Nat.add_zero] at some_took
  exact some_took

theorem fiberInv_init (isFiber : Nat → Bool) :
    FiberInv isFiber (fun _ => .awake) [] Sys.init := by
  refine ⟨fun p => ?_, ?_, ?_, ?_⟩ <;>
    constructor <;> simp [Sys.init, Fits, pending, walks, releases, ownRelease, inMeta,
      Saw, handsTo, Walk]

section Frames
variable {place place' : Nat → Place} {queue : List (Nat × Option Nat)} {s s' : Sys}
  {p : Nat} {x : Party}

variable {pl : Place}

theorem parties_placed {isFiber : Nat → Bool} {party : Nat → Party}
    (all : ∀ q, PartyOk (isFiber q) (place q) (party q)) (new : PartyOk (isFiber p) pl x) :
    ∀ q, PartyOk (isFiber q) (update place p pl q) (update party p x q) := by
  intro q
  by_cases same : q = p
  · subst same
    simpa using new
  · simpa [same] using all q

theorem parties_moved {isFiber : Nat → Bool} {party : Nat → Party}
    (all : ∀ q, PartyOk (isFiber q) (place q) (party q))
    (new : PartyOk (isFiber p) (place p) x) :
    ∀ q, PartyOk (isFiber q) (place q) (update party p x q) := by
  have updated := parties_placed all new
  rwa [update_eq_self] at updated

theorem MetaOk.moved (inv : MetaOk s) (party : s'.party = update s.party p x)
    (metaHeld : s'.metaHeld = s.metaHeld) (owner : s'.owner = s.owner)
    (depth : s'.depth = s.depth) (outside : inMeta x.pc = false) : MetaOk s' := by
  have away : Saw s.owner s.depth x.pc := by
    cases here : x.pc <;> simp_all [Saw, inMeta]
  refine ⟨fun q inside => ?_, fun q r insideQ insideR => ?_, fun q => ?_⟩
  · rw [metaHeld]
    by_cases same : q = p
    · simp [party, same, outside] at inside
    · exact inv.taken q (by simpa [party, same] using inside)
  · by_cases sameQ : q = p
    · simp [party, sameQ, outside] at insideQ
    · by_cases sameR : r = p
      · simp [party, sameR, outside] at insideR
      · exact inv.one q r (by simpa [party, sameQ] using insideQ)
          (by simpa [party, sameR] using insideR)
  · by_cases same : q = p
    · simpa [party, same, owner, depth] using away
    · simpa [party, same, owner, depth] using inv.saw q

theorem MetaOk.alone (party : s'.party = update s.party p x)
    (others : ∀ q, q ≠ p → inMeta (s.party q).pc = false)
    (taken : inMeta x.pc = true → s'.metaHeld = true) (saw : Saw s'.owner s'.depth x.pc) :
    MetaOk s' := by
  refine ⟨fun q inside => ?_, fun q r insideQ insideR => ?_, fun q => ?_⟩
  · by_cases same : q = p
    · exact taken (by simpa [party, same] using inside)
    · simp [party, same, others q same] at inside
  · by_cases sameQ : q = p
    · by_cases sameR : r = p
      · rw [sameQ, sameR]
      · simp [party, sameR, others r sameR] at insideR
    · simp [party, sameQ, others q sameQ] at insideQ
  · by_cases same : q = p
    · simpa [party, same] using saw
    · have outside := others q same
      cases here : (s.party q).pc <;> simp_all [Saw, inMeta]

theorem MetaOk.others_of_inside (inv : MetaOk s) (inside : inMeta (s.party p).pc = true) :
    ∀ q, q ≠ p → inMeta (s.party q).pc = false := by
  intro q other
  cases h : inMeta (s.party q).pc with
  | false => rfl
  | true => exact absurd (inv.one q p h inside) other

theorem MetaOk.others_of_free (inv : MetaOk s) (free : s.metaHeld = false) :
    ∀ q, inMeta (s.party q).pc = false := by
  intro q
  cases h : inMeta (s.party q).pc with
  | false => rfl
  | true => simp [inv.taken q h] at free

theorem lockView_queue {pl' : Place} (same : lockView pl' = lockView pl) :
    pl' = .lockQueue ↔ pl = .lockQueue := by
  cases pl <;> cases pl' <;> simp_all [lockView]

theorem lockView_handed {pl' : Place} (same : lockView pl' = lockView pl) (q : Nat) :
    pl' = .handedBy q ↔ pl = .handedBy q := by
  cases pl <;> cases pl' <;> simp_all [lockView]

theorem lockView_update (same : lockView pl = lockView (place p)) :
    ∀ q, lockView (update place p pl q) = lockView (place q) := by
  intro q
  by_cases here : q = p <;> simp [here, same]

theorem condQueue_update (same : pl = .condQueue ↔ place p = .condQueue) :
    ∀ q, update place p pl q = .condQueue ↔ place q = .condQueue := by
  intro q
  by_cases here : q = p <;> simp [here, same]

theorem LockOk.moved (inv : LockOk place s) (party : s'.party = update s.party p x)
    (places : ∀ q, lockView (place' q) = lockView (place q))
    (owner : s'.owner = s.owner) (depth : s'.depth = s.depth) (waiters : s'.waiters = s.waiters)
    (held : x.held = (s.party p).held) (park : x.pc = .park ↔ (s.party p).pc = .park)
    (hands : handsTo x.pc = handsTo (s.party p).pc) : LockOk place' s' := by
  have heldAll : ∀ q, (s'.party q).held = (s.party q).held := by
    intro q
    by_cases same : q = p <;> simp [party, same, held]
  have parkAll : ∀ q, (s'.party q).pc = .park ↔ (s.party q).pc = .park := by
    intro q
    by_cases same : q = p <;> simp [party, same, park]
  have handsAll : ∀ q, handsTo (s'.party q).pc = handsTo (s.party q).pc := by
    intro q
    by_cases same : q = p <;> simp [party, same, hands]
  refine ⟨fun q => ?_, fun q => ?_, ?_, fun q => ?_, ?_, fun q => ?_, fun q w => ?_⟩
  · simp only [owner, depth, heldAll, parkAll]
    exact inv.total q
  · rw [owner, heldAll]
    exact inv.others q
  · rw [owner, waiters]
    exact inv.waited
  · rw [owner, parkAll, lockView_queue (places q)]
    exact inv.parked q
  · rw [waiters]
    exact inv.queued
  · rw [waiters, lockView_queue (places q)]
    exact inv.lockQueue q
  · rw [handsAll, lockView_handed (places w)]
    exact inv.hands q w

theorem LockOk.owned (inv : LockOk place s) (party : s'.party = update s.party p x)
    (places : ∀ q, lockView (place' q) = lockView (place q))
    (was : s.owner = none ∨ s.owner = some p) (owner : s'.owner = some p)
    (depth : s'.depth = x.held) (some_left : 0 < x.held) (waiters : s'.waiters = s.waiters)
    (park : x.pc ≠ .park) (hands : handsTo x.pc = handsTo (s.party p).pc) : LockOk place' s' := by
  have handsAll : ∀ q, handsTo (s'.party q).pc = handsTo (s.party q).pc := by
    intro q
    by_cases same : q = p <;> simp [party, same, hands]
  have notOwner : ∀ q, q ≠ p → s.owner ≠ some q := by
    intro q other owned
    rcases was with free | mine
    · rw [free] at owned
      cases owned
    · rw [mine] at owned
      exact other (Option.some.inj owned).symm
  refine ⟨fun q => ?_, fun q => ?_, ?_, fun q => ?_, ?_, fun q => ?_, fun q w => ?_⟩
  · intro owned
    rw [owner] at owned
    obtain rfl := Option.some.inj owned
    simp only [party, update_self, park, if_false, depth]
    omega
  · intro other
    have notP : q ≠ p := fun same => other (by rw [owner, same])
    simpa [party, notP] using inv.others q (notOwner q notP)
  · intro free
    rw [owner] at free
    cases free
  · by_cases same : q = p
    · intro parks
      simp [party, same, park] at parks
    · intro parks
      rw [lockView_queue (places q), ← inv.parked q (by simpa [party, same] using parks), owner]
      have before := notOwner q same
      simp [before, Ne.symm same]
  · rw [waiters]
    exact inv.queued
  · rw [waiters, lockView_queue (places q)]
    exact inv.lockQueue q
  · rw [handsAll, lockView_handed (places w)]
    exact inv.hands q w

theorem LockOk.wokeUp {w : Nat} (inv : LockOk place s)
    (party : s'.party = update s.party p x) (owner : s'.owner = s.owner)
    (depth : s'.depth = s.depth) (waiters : s'.waiters = s.waiters)
    (held : x.held = (s.party p).held) (park : x.pc = .park ↔ (s.party p).pc = .park)
    (was : handsTo (s.party p).pc = some w) (now : handsTo x.pc = none)
    (view : lockView pl = none) : LockOk (update place w pl) s' := by
  have handed : place w = .handedBy p := (inv.hands p w).mp was
  have gone : pl ≠ .lockQueue ∧ ∀ q, pl ≠ .handedBy q := by
    refine ⟨?_, fun q => ?_⟩ <;> intro same <;> simp [same, lockView] at view
  have queueAll : ∀ q, update place w pl q = .lockQueue ↔ place q = .lockQueue := by
    intro q
    by_cases same : q = w <;> simp [same, gone, handed]
  have heldAll : ∀ q, (s'.party q).held = (s.party q).held := by
    intro q
    by_cases same : q = p <;> simp [party, same, held]
  have parkAll : ∀ q, (s'.party q).pc = .park ↔ (s.party q).pc = .park := by
    intro q
    by_cases same : q = p <;> simp [party, same, park]
  refine ⟨fun q => ?_, fun q => ?_, ?_, fun q => ?_, ?_, fun q => ?_, fun q v => ?_⟩
  · simp only [owner, depth, heldAll, parkAll]
    exact inv.total q
  · rw [owner, heldAll]
    exact inv.others q
  · rw [owner, waiters]
    exact inv.waited
  · rw [owner, parkAll, queueAll]
    exact inv.parked q
  · rw [waiters]
    exact inv.queued
  · rw [waiters, queueAll]
    exact inv.lockQueue q
  · have before := inv.hands q v
    by_cases mine : q = p
    · by_cases isW : v = w
      · simp [party, mine, isW, now, gone]
      · have notV : place v ≠ .handedBy p := by
          intro same
          have both := (inv.hands p v).mpr same
          exact isW (Option.some.inj (both.symm.trans was))
        simp [party, mine, isW, now, notV]
    · by_cases isW : v = w
      · have notQ : handsTo (s.party q).pc ≠ some w := by
          intro same
          have both := ((inv.hands q w).mp same).symm.trans handed
          exact mine (Place.handedBy.inj both)
        simp [party, mine, isW, gone, notQ]
      · simpa [party, mine, isW] using before

theorem CondOk.moved (inv : CondOk place queue s) (party : s'.party = update s.party p x)
    (places : ∀ q, place' q = .condQueue ↔ place q = .condQueue)
    (condWaiters : s'.condWaiters = s.condWaiters) (was : walks (s.party p).pc = false)
    (now : walks x.pc = false) : CondOk place' queue s' := by
  have away : Walk queue s.condWaiters x.pc := by
    cases here : x.pc <;> simp_all [Walk, walks]
  refine ⟨inv.nodup, fun q => (inv.queued q).trans (places q).symm, fun q => ?_, fun quiet => ?_⟩
  · by_cases same : q = p
    · simpa [party, same, condWaiters] using away
    · simpa [party, same, condWaiters] using inv.walk q
  · rw [condWaiters]
    refine inv.still fun q => ?_
    by_cases same : q = p
    · rw [same, was]
    · simpa [party, same] using quiet q

theorem CondOk.alone {queue' : List (Nat × Option Nat)}
    (others : ∀ q, q ≠ p → walks (s'.party q).pc = false)
    (nodup : (queue'.map Prod.fst).Nodup)
    (queued : ∀ q, q ∈ queue'.map Prod.fst ↔ place' q = .condQueue)
    (walk : Walk queue' s'.condWaiters (s'.party p).pc)
    (still : walks (s'.party p).pc = false → s'.condWaiters = queue') :
    CondOk place' queue' s' := by
  refine ⟨nodup, queued, fun q => ?_, fun quiet => still (quiet p)⟩
  by_cases same : q = p
  · rw [same]
    exact walk
  · have calm := others q same
    cases here : (s'.party q).pc <;> simp_all [Walk, walks]

end Frames

end PliRtLock
