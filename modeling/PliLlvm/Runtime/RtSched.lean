import PliLlvm.Lib.Run
import PliLlvm.Runtime.RtTimers

/- The fiber scheduler (runtime/rt_sched.c). The threads below `workers` are the workers,
   the others are outside the pool (brokers). A step is one access of one thread to a queue
   head, a link, a flag or a lock, in one order that all threads see; what a critical
   section of rt_sched_mu does is one step, and a compare-and-swap fails only where the head
   has changed. A task's own steps are its calls of the scheduler; where a spawned fiber
   comes from (the spare, the pool or a fresh stack), and what a task computes, is left out. -/
namespace PliRtSched
open Runs
open PliRtTimers (Timer Timers)
open Function (update)

/-- Where rt_wake_one and rt_wake_any go back to. -/
inductive Ret where
  | task
  | expired
  | mainDone (i : Nat)
  deriving DecidableEq

inductive OwnPush where
  | drain (rest : Option Nat)
  | fold
  | spawn
  deriving DecidableEq

/-- The queue that rt_queue_push pushes to, and what is done after it. -/
inductive Push where
  | own (after : OwnPush)
  | ready (v : Nat) (r : Ret)
  | global (r : Ret)
  deriving DecidableEq

/-- The queue of rt_queue_pop; the own one is popped again after a steal. -/
inductive Pop where
  | own (stolen : Bool)
  | global
  deriving DecidableEq

/-- The lists that are pushed as a block: what the best was taken from, what was stolen,
    and the older half that goes back to the victim. -/
inductive Block where
  | best (f : Nat)
  | stolen
  | putBack (victim list : Nat)
  deriving DecidableEq

inductive Pc where
  | unborn
  | outside
  | returned
  | top
  | drain
  | drainNext (p : Nat)
  | push (q : Push) (f : Nat)
  | pushLink (q : Push) (f : Nat) (h : Option Nat)
  | pushCas (q : Push) (f : Nat) (h : Option Nat)
  | next
  | prio (f : Nat)
  | popBest (stolen : Bool)
  | pop (q : Pop)
  | popNext (q : Pop) (h : Nat)
  | popCas (q : Pop) (h : Nat) (n : Option Nat)
  | popClear (h : Nat)
  | detach (stolen : Bool)
  | scan (list best : Nat) (bestPrev : Option Nat) (prev : Nat)
  | compare (list best : Nat) (bestPrev : Option Nat) (prev cur : Nat)
  | unlink (list best : Nat) (bestPrev : Option Nat)
  | relink (list best : Nat) (bestPrev : Option Nat) (n : Option Nat)
  | cut (list : Option Nat) (best : Nat)
  | tail (q : Block) (list p : Nat)
  | listHead (q : Block) (list tail : Nat)
  | listLink (q : Block) (list tail : Nat) (h : Option Nat)
  | listCas (q : Block) (list tail : Nat) (h : Option Nat)
  | steal (i : Nat)
  | count (v list p n : Nat)
  | split (v list p k : Nat)
  | rest (v list split : Nat)
  | splitCut (v list split rest : Nat)
  | expired
  | expiredClear (t : Timer)
  | deadline
  | parkMain (dl : Option Int)
  | spin (dl : Option Int) (left : Nat) (main : Bool) (i : Nat)
  | parkLock (dl : Option Int)
  | check (dl : Option Int) (i : Nat)
  | mark (dl : Option Int)
  | wait (dl : Option Int)
  | asleep (dl : Option Int) (signalled : Bool)
  | relock
  | unmark
  | parkUnlock
  | start (f : Nat)
  | run
  | spawned
  | switchOut
  | finished
  | mainDone (i : Nat)
  | wakeOne (v : Nat) (r : Ret)
  | wakeParked (v : Nat) (r : Ret)
  | wakeSignal (v : Nat) (r : Ret)
  | wakeUnlock (v : Nat) (r : Ret)
  | wakeAny (i : Nat) (r : Ret)
  deriving DecidableEq

structure Sys where
  localQ : Nat → Option Nat
  readyQ : Nat → Option Nat
  globalQ : Option Nat
  next : Nat → Option Nat
  runnext : Nat → Option Nat
  cur : Nat → Option Nat
  prio : Nat → Int
  home : Nat → Option Nat
  prioUsed : Bool
  started : Bool
  mainDone : Bool
  timers : Timers
  mu : Nat → Option Nat
  parked : Nat → Bool
  ranRecently : Nat → Bool
  wakeRr : Nat
  pc : Nat → Pc

def mainFib : Nat := 0

def parkSpin : Nat := 2000

inductive Event where
  | tick (t : Nat)
  | start (w : Nat)
  | spawn (w f : Nat) (priority : Int)
  | spawned (w : Nat) (wake : Bool)
  | unpark (t f : Nat)
  | enlist (w : Nat)
  | park (w : Nat)
  | parkUntil (w : Nat) (deadline : Int)
  | finish (w : Nat)
  | setPriority (t f : Nat) (priority : Int)
  | expire (w : Nat) (now : Int)
  | wakeUp (w : Nat)

def Sys.goto (s : Sys) (t : Nat) (pc : Pc) : Sys := { s with pc := update s.pc t pc }

def Sys.setLocal (s : Sys) (w : Nat) (h : Option Nat) : Sys :=
  { s with localQ := update s.localQ w h }

def Sys.setNext (s : Sys) (p : Nat) (n : Option Nat) : Sys :=
  { s with next := update s.next p n }

section Program
variable (workers : Nat)

/-- rt_sched_main: MAIN is the first task of worker 0. -/
def Sys.init : Sys where
  localQ := fun _ => none
  readyQ := fun _ => none
  globalQ := none
  next := fun _ => none
  runnext := fun w => if w = 0 then some mainFib else none
  cur := fun _ => none
  prio := fun _ => 0
  home := fun _ => none
  prioUsed := false
  started := false
  mainDone := false
  timers := ⟨fun _ => ⟨0, none, 0⟩, 0⟩
  mu := fun _ => none
  parked := fun _ => false
  ranRecently := fun _ => false
  wakeRr := 0
  pc := fun w => if w = 0 then .top else if w < workers then .unborn else .outside

def resume (t : Nat) : Ret → Pc
  | .task => if t < workers then .run else .outside
  | .expired => .deadline
  | .mainDone i => .mainDone (i + 1)

def pushHead (s : Sys) (t : Nat) : Push → Option Nat
  | .own _ => s.localQ t
  | .ready v _ => s.readyQ v
  | .global _ => s.globalQ

def setPushHead (s : Sys) (t : Nat) (q : Push) (h : Option Nat) : Sys :=
  match q with
  | .own _ => s.setLocal t h
  | .ready v _ => { s with readyQ := update s.readyQ v h }
  | .global _ => { s with globalQ := h }

def afterPush : Push → Pc
  | .own (.drain (some p)) => .drainNext p
  | .own (.drain none) => .next
  | .own .fold => .popBest false
  | .own .spawn => .spawned
  | .ready v r => .wakeOne v r
  | .global r => .wakeAny 0 r

def popHead (s : Sys) (t : Nat) : Pop → Option Nat
  | .own _ => s.localQ t
  | .global => s.globalQ

def setPopHead (s : Sys) (t : Nat) (q : Pop) (h : Option Nat) : Sys :=
  match q with
  | .own _ => s.setLocal t h
  | .global => { s with globalQ := h }

/-- The queue was empty; after a steal that is the end of rt_next_runnable. -/
def popEmpty : Pop → Pc
  | .own false => .pop .global
  | .own true => .deadline
  | .global => .steal 1

def blockQueue (t : Nat) : Block → Nat
  | .putBack victim _ => victim
  | _ => t

def afterBlock : Block → Pc
  | .best f => .start f
  | .stolen => .popBest true
  | .putBack _ list => .tail .stolen list list

def unparkTo (home : Option Nat) (r : Ret) : Push :=
  match home with
  | some v => .ready v r
  | none => .global r

def tick (s : Sys) (t : Nat) : Option Sys :=
  match s.pc t with
  | .unborn | .outside | .returned | .run | .spawned | .expired | .asleep _ _ => none
  | .top => some (s.goto t (if t = 0 ∧ s.mainDone then .returned else .drain))
  | .drain =>
    some ({ s with readyQ := update s.readyQ t none }.goto t
      (match s.readyQ t with
      | some p => .drainNext p
      | none => .next))
  | .drainNext p => some (s.goto t (.push (.own (.drain (s.next p))) p))
  | .push q f => some (s.goto t (.pushLink q f (pushHead s t q)))
  | .pushLink q f h => some ((s.setNext f h).goto t (.pushCas q f h))
  | .pushCas q f h =>
    some (if pushHead s t q = h then (setPushHead s t q (some f)).goto t (afterPush q)
      else s.goto t (.push q f))
  | .next =>
    match s.runnext t with
    | some f => some ({ s with runnext := update s.runnext t none }.goto t (.prio f))
    | none => some (s.goto t (.popBest false))
  | .prio f => some (s.goto t (if s.prioUsed then .push (.own .fold) f else .start f))
  | .popBest stolen =>
    some (s.goto t (if s.prioUsed then .detach stolen else .pop (.own stolen)))
  | .pop q =>
    some (s.goto t (match popHead s t q with
      | some h => .popNext q h
      | none => popEmpty q))
  | .popNext q h => some (s.goto t (.popCas q h (s.next h)))
  | .popCas q h n =>
    some (if popHead s t q = some h then (setPopHead s t q n).goto t (.popClear h)
      else s.goto t (.pop q))
  | .popClear h => some ((s.setNext h none).goto t (.start h))
  | .detach stolen =>
    some ((s.setLocal t none).goto t (match s.localQ t with
      | some list => .scan list list none list
      | none => popEmpty (.own stolen)))
  | .scan list best bestPrev prev =>
    some (s.goto t (match s.next prev with
      | some cur => .compare list best bestPrev prev cur
      | none => .unlink list best bestPrev))
  | .compare list best bestPrev prev cur =>
    some (s.goto t (if s.prio best < s.prio cur then .scan list cur (some prev) cur
      else .scan list best bestPrev cur))
  | .unlink list best bestPrev => some (s.goto t (.relink list best bestPrev (s.next best)))
  | .relink list best (some p) n => some ((s.setNext p n).goto t (.cut (some list) best))
  | .relink _ best none n => some (s.goto t (.cut n best))
  | .cut list best =>
    some ((s.setNext best none).goto t (match list with
      | some list => .tail (.best best) list list
      | none => .start best))
  | .tail q list p =>
    some (s.goto t (match s.next p with
      | some p => .tail q list p
      | none => .listHead q list p))
  | .listHead q list tail => some (s.goto t (.listLink q list tail (s.localQ (blockQueue t q))))
  | .listLink q list tail h => some ((s.setNext tail h).goto t (.listCas q list tail h))
  | .listCas q list tail h =>
    some (if s.localQ (blockQueue t q) = h then
        (s.setLocal (blockQueue t q) (some list)).goto t (afterBlock q)
      else s.goto t (.listHead q list tail))
  | .steal i =>
    if i < workers then
      let v := (t + i) % workers
      some ((s.setLocal v none).goto t (match s.localQ v with
        | some list => .count v list list 1
        | none => .steal (i + 1)))
    else some (s.goto t .expired)
  | .count v list p n =>
    some (s.goto t (match s.next p with
      | some p => .count v list p (n + 1)
      | none => if n < 2 then .tail .stolen list list else .split v list list (n / 2 - 1)))
  | .split v list p 0 => some (s.goto t (.rest v list p))
  | .split v list p (k + 1) => (s.next p).map fun p => s.goto t (.split v list p k)
  | .rest v list split => (s.next split).map fun rest => s.goto t (.splitCut v list split rest)
  | .splitCut v list split rest =>
    some ((s.setNext split none).goto t (.tail (.putBack v list) rest rest))
  | .expiredClear x =>
    some ((s.setNext x.fiber none).goto t (.push (unparkTo x.home .expired) x.fiber))
  | .deadline => some (s.goto t (.parkMain s.timers.nextDeadline))
  | .parkMain dl =>
    some (s.goto t (if s.ranRecently t then .spin dl parkSpin (t == 0 && s.mainDone) 0
      else .parkLock dl))
  | .spin dl 0 _ _ => some (s.goto t (.parkLock dl))
  | .spin dl (k + 1) main i =>
    some (s.goto t
      (if main then .top
      else if i = 0 then (if (s.readyQ t).isSome then .top else .spin dl (k + 1) main 1)
      else if i = 1 then (if (s.localQ t).isSome then .top else .spin dl (k + 1) main 2)
      else if s.globalQ.isSome then .top else .spin dl k main 0))
  | .parkLock dl =>
    if s.mu t = none then some ({ s with mu := update s.mu t (some t) }.goto t (.check dl 0))
    else none
  | .check dl i =>
    some (s.goto t
      (if i = 0 then (if t = 0 ∧ s.mainDone then .parkUnlock else .check dl 1)
      else if i = 1 then (if (s.runnext t).isSome then .parkUnlock else .check dl 2)
      else if i = 2 then (if (s.localQ t).isSome then .parkUnlock else .check dl 3)
      else if i = 3 then (if (s.readyQ t).isSome then .parkUnlock else .check dl 4)
      else if s.globalQ.isSome then .parkUnlock else .mark dl))
  | .mark dl => some ({ s with parked := update s.parked t true }.goto t (.wait dl))
  | .wait dl => some ({ s with mu := update s.mu t none }.goto t (.asleep dl false))
  | .relock =>
    if s.mu t = none then some ({ s with mu := update s.mu t (some t) }.goto t .unmark)
    else none
  | .unmark =>
    some ({ s with
      parked := update s.parked t false
      ranRecently := update s.ranRecently t false }.goto t .parkUnlock)
  | .parkUnlock => some ({ s with mu := update s.mu t none }.goto t .top)
  | .start f =>
    some ({ s with
      cur := update s.cur t (some f)
      ranRecently := update s.ranRecently t true }.goto t .run)
  | .switchOut => some ({ s with cur := update s.cur t none }.goto t .top)
  | .finished =>
    some (if s.cur t = some mainFib then
        { s with mainDone := true, cur := update s.cur t none }.goto t (.mainDone 0)
      else { s with cur := update s.cur t none }.goto t .top)
  | .mainDone i =>
    some (s.goto t (if i < workers then .wakeOne i (.mainDone i) else .returned))
  | .wakeOne v r =>
    if v = t then some (s.goto t (resume workers t r))
    else if s.mu v = none then
      some ({ s with mu := update s.mu v (some t) }.goto t (.wakeParked v r))
    else none
  | .wakeParked v r => some (s.goto t (if s.parked v then .wakeSignal v r else .wakeUnlock v r))
  | .wakeSignal v r =>
    some ((match s.pc v with
      | .asleep dl _ => s.goto v (.asleep dl true)
      | _ => s).goto t (.wakeUnlock v r))
  | .wakeUnlock v r => some ({ s with mu := update s.mu v none }.goto t (resume workers t r))
  | .wakeAny i r =>
    if i < workers then
      let v := (s.wakeRr + i) % workers
      some (if s.parked v then
          { s with wakeRr := (s.wakeRr + i + 1) % workers }.goto t (.wakeOne v r)
        else s.goto t (.wakeAny (i + 1) r))
    else some (s.goto t (resume workers t r))

def step (s : Sys) : Event → Option Sys
  | .tick t => tick workers s t
  | .start w =>
    if s.pc w = .unborn ∧ s.started then some (s.goto w .top) else none
  | .spawn w f priority =>
    if s.pc w = .run then
      some ({ s with
        started := s.started || decide (1 < workers)
        next := update s.next f none
        home := update s.home f none
        prio := update s.prio f priority
        prioUsed := s.prioUsed || priority != 0
        runnext := update s.runnext w (some f) }.goto w
          (match s.runnext w with
          | some old => .push (.own .spawn) old
          | none => .run))
    else none
  | .spawned w wake =>
    if s.pc w = .spawned then some (s.goto w (if wake then .wakeAny 0 .task else .run)) else none
  | .unpark t f =>
    if s.pc t = .run ∨ s.pc t = .outside then some (s.goto t (.push (unparkTo (s.home f) .task) f))
    else none
  | .enlist w =>
    if s.pc w = .run then
      (s.cur w).map fun f => { s with home := update s.home f (some w) }
    else none
  | .park w =>
    if w < workers ∧ s.pc w = .run then
      (s.cur w).map fun f =>
        { s with home := update s.home f (some w) }.goto w .switchOut
    else none
  | .parkUntil w deadline =>
    if w < workers ∧ s.pc w = .run then
      (s.cur w).map fun f =>
        { s with
          home := update s.home f (some w)
          timers := s.timers.push ⟨f, some w, deadline⟩ }.goto w .switchOut
    else none
  | .finish w => if s.pc w = .run then some (s.goto w .finished) else none
  | .setPriority t f priority =>
    if s.pc t = .run ∨ s.pc t = .outside then
      some { s with
        prio := update s.prio f priority
        prioUsed := s.prioUsed || priority != 0 }
    else none
  | .expire w now =>
    if s.pc w = .expired then
      some (match s.timers.expired now with
        | some (x, timers) => { s with timers := timers }.goto w (.expiredClear x)
        | none => s.goto w .deadline)
    else none
  | .wakeUp w =>
    match s.pc w with
    | .asleep _ _ => some (s.goto w .relock)
    | _ => none

end Program

end PliRtSched
