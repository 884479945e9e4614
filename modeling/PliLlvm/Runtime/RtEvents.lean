import PliLlvm.Runtime.RtLockSafe

/- EVENT variables (runtime/rt_task.c: pli_event_reset, pli_event_complete,
   pli_event_wait, pli_wait_n) over the lock layer's pli_ev_mu and pli_ev_cv, which
   pli_rt_init_sync has made. A task is a fiber, or a thread in the OS mode; an event
   word is zero or not; an array that is null is one of no events. A platform condition
   keeps its own list of the threads asleep on it, which a broadcast empties. -/
namespace PliRtEvents
open Runs
open PliRtLock (Pc Bracket keyMatches walks ownRelease pending)

inductive Call where
  | reset (ev : Option Nat)
  | complete (ev : Option Nat)
  | wait (ev : Option Nat)
  | waitN (evs : List (Option Nat)) (need : Int)

inductive At where
  | out
  | resetLock (ev : Nat)
  | resetStore (ev : Nat)
  | completeLock (ev : Nat)
  | completeStore (ev : Nat)
  | completeSignal (ev : Nat)
  | waitLoad (ev : Nat)
  | waitLock (ev : Nat)
  | waitCheck (ev : Nat)
  | waitEnlist (ev : Nat)
  | scan (i : Nat) (seen : List (Option Nat))
  | scanLock
  | check (i done : Nat)
  | enlist
  | unlock
  deriving DecidableEq

/-- `met` is no part of the program: the condition of the call has held since its start. -/
structure Task where
  at_ : At
  call : Call
  met : Bool

structure Sys where
  lock : PliRtLock.Sys
  words : Nat → Bool
  osWaits : Nat → Bool
  task : Nat → Task

def Sys.init : Sys :=
  ⟨.init, fun _ => false, fun _ => false, fun _ => ⟨.out, .reset none, true⟩⟩

inductive Act where
  | call (p : Nat) (c : Call)
  | tick (p : Nat)

/-- `addrs[i] && rt_ev_done(addrs[i])` -/
def evDone (words : Nat → Bool) (ev : Option Nat) : Bool := ev.any words

def Call.evs : Call → List (Option Nat)
  | .waitN evs _ => evs
  | _ => []

/-- What `need` is after it is cut to n. -/
def Call.need : Call → Nat
  | .waitN evs need => min need.toNat evs.length
  | _ => 0

def holds (words : Nat → Bool) : Call → Bool
  | .wait (some ev) => words ev
  | .waitN evs need => decide (min need evs.length ≤ (evs.countP (evDone words) : Int))
  | _ => true

def entry : Call → At
  | .reset (some ev) => .resetLock ev
  | .complete (some ev) => .completeLock ev
  | .wait (some ev) => .waitLoad ev
  | .waitN evs need => if evs = [] ∨ need ≤ 0 then .out else .scan 0 []
  | _ => .out

def Sys.move (s : Sys) (p : Nat) (a : At) : Sys :=
  { s with task := Function.update s.task p { s.task p with at_ := a } }

def Task.sees (words : Nat → Bool) (t : Task) : Task :=
  if t.at_ = .out then t else { t with met := t.met || holds words t.call }

def Sys.store (s : Sys) (p ev : Nat) (v : Bool) (a : At) : Sys :=
  let words := Function.update s.words ev v
  { s with words := words, task := fun q => (s.task q).sees words }.move p a

section Program
variable (fiberMode : Bool)

def Sys.locks (s : Sys) (p : Nat) (e : PliRtLock.Event) (a : At) : Option Sys :=
  (PliRtLock.step fiberMode false (fun _ => true) s.lock e).map fun lock =>
    { s.move p a with lock := lock }

/-- rt_cond_wait, and its platform's list. -/
def Sys.condWaits (s : Sys) (p : Nat) (key : Option Nat) (a : At) : Option Sys :=
  { s with osWaits := if fiberMode then s.osWaits else Function.update s.osWaits p true }.locks
    fiberMode p (.condWait p key) a

def inCall (s : Sys) (p : Nat) : Option Sys :=
  let t := s.task p
  match t.at_ with
  | .out => none
  | .resetLock ev => s.locks fiberMode p (.enter p false) (.resetStore ev)
  | .resetStore ev => some (s.store p ev false .unlock)
  | .completeLock ev => s.locks fiberMode p (.enter p false) (.completeStore ev)
  | .completeStore ev => some (s.store p ev true (.completeSignal ev))
  | .completeSignal ev =>
    { s with osWaits := if fiberMode then s.osWaits else fun _ => false }.locks fiberMode p
      (.signalKey p (some ev)) .unlock
  | .waitLoad ev => some (s.move p (if s.words ev then .out else .waitLock ev))
  | .waitLock ev => s.locks fiberMode p (.enter p false) (.waitCheck ev)
  | .waitCheck ev => some (s.move p (if s.words ev then .unlock else .waitEnlist ev))
  | .waitEnlist ev => s.condWaits fiberMode p (some ev) (.waitCheck ev)
  | .scan i seen =>
    match t.call.evs[i]? with
    | none => some (s.move p .scanLock)
    | some e =>
      if evDone s.words e then
        some (s.move p (if t.call.need ≤ seen.length + 1 then .out else .scan
          (i + 1) (seen ++ [e])))
      else some (s.move p (.scan (i + 1) seen))
  | .scanLock => s.locks fiberMode p (.enter p false) (.check 0 0)
  | .check i done =>
    match t.call.evs[i]? with
    | none => some (s.move p (if t.call.need ≤ done then .unlock else .enlist))
    | some e =>
      if evDone s.words e then
        some (s.move p (if t.call.need ≤ done + 1 then .unlock else .check (i + 1) (done + 1)))
      else some (s.move p (.check (i + 1) done))
  | .enlist => s.condWaits fiberMode p none (.check 0 0)
  | .unlock => s.locks fiberMode p (.leave p) .out

def step (s : Sys) : Act → Option Sys
  | .call p c =>
    if (s.task p).at_ = .out ∧ (s.lock.party p).pc = .idle then
      some { s with task := Function.update s.task p ⟨entry c, c, holds s.words c⟩ }
    else none
  | .tick p =>
    if (s.lock.party p).pc = .idle then inCall fiberMode s p
    else
      (PliRtLock.tick fiberMode false (fun _ => true) s.lock p).map fun lock =>
        { s with
          lock := lock
          osWaits :=
            if (s.lock.party p).pc = .osCondWait then Function.update s.osWaits p false
            else s.osWaits }

/-- A task is on the list of pli_ev_cv, or of the platform's condition. -/
def Enlisted (s : Sys) (p : Nat) : Prop :=
  if fiberMode then p ∈ s.lock.condWaiters.map Prod.fst else s.osWaits p = true

structure NoneLost (s : Sys) : Prop where
  keyed : ∀ p ev, (p, some ev) ∈ s.lock.condWaiters → s.words ev = false
  waits : ∀ p, Enlisted fiberMode s p → holds s.words (s.task p).call = false
  woken : ∀ p, (s.lock.party p).pc = .parkCond →
    Enlisted fiberMode s p ∨ 0 < (s.lock.party p).unparks

end Program

/-- Where the scan without the lock of a pli_wait_n finds the last event it needs, the
    ones it has counted before are still complete. -/
def Calm (s : Sys) : Act → Prop
  | .call _ _ => True
  | .tick p =>
    match (s.task p).at_ with
    | .scan i seen =>
      ∀ e ∈ (s.task p).call.evs[i]?, evDone s.words e = true →
        (s.task p).call.need ≤ seen.length + 1 → ∀ f ∈ seen, evDone s.words f = true
    | _ => True

instance (s : Sys) (e : Act) : Decidable (Calm s e) := by
  unfold Calm
  split
  · infer_instance
  · split <;> infer_instance

def Answered (s : Sys) : Prop := ∀ p, (s.task p).at_ = .out → (s.task p).met = true

end PliRtEvents
