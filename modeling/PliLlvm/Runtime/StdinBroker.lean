import PliLlvm.Lib.Run

/- The broker of standard input (runtime/rt_input.c). What a thread does between the lock and
   the unlock of the broker's mutex is one step, and so is the read; a condition wait may also
   return for no reason. An unpark is kept until its task parks. Allocation succeeds, and the
   input lock lets one caller in at a time. What has been read and answered is kept beside the
   code's own state. -/
namespace PliStdinBroker
open Runs

def rtInputChunk : Nat := 4096

structure RtChunk where
  data : List UInt8
  pos : Nat

inductive ThreadPc where
  | check
  | asleep
  | reading
  | deliver (buf : List UInt8)
  | unpark (w : Option Nat) (done : Bool)
  | stopped

inductive CallerPc where
  | top
  | parking
  | parked
  | asleep
  | recheck

structure Sys where
  chunks : List RtChunk
  eof : Bool
  requested : Bool
  waiter : Option Nat
  thread : ThreadPc
  caller : Option (Nat × CallerPc)
  unparks : Nat → Nat
  left : List UInt8
  read : List UInt8
  failed : Bool
  answers : List (Nat × Option UInt8)

def Sys.start (stdin : List UInt8) : Sys :=
  ⟨[], false, false, none, .check, none, fun _ => 0, stdin, [], false, []⟩

/-- `got` is what the read returns: none for an error, 0 at the end of the input. -/
inductive Event where
  | call (t : Nat)
  | caller
  | thread (got : Option Nat)
  | spurious

def takeByte (c : RtChunk) (rest : List RtChunk) : List RtChunk :=
  if c.data.length ≤ c.pos + 1 then rest else { c with pos := c.pos + 1 } :: rest

def ThreadPc.signalled : ThreadPc → ThreadPc
  | .asleep => .check
  | pc => pc

def CallerPc.signalled : CallerPc → CallerPc
  | .asleep => .recheck
  | pc => pc

def answer (s : Sys) (t : Nat) (ch : Option UInt8) : Sys :=
  { s with caller := none, answers := s.answers ++ [(t, ch)] }

/-- rt_input_getc from the head of its loop: a task parks, and a thread of its own blocks. -/
def getcTop (isFiber : Nat → Bool) (s : Sys) (t : Nat) : Sys :=
  match s.chunks with
  | c :: rest => { answer s t c.data[c.pos]? with chunks := takeByte c rest }
  | [] =>
    if s.eof then answer s t none
    else if isFiber t then
      { s with
        waiter := some t
        requested := true
        thread := s.thread.signalled
        caller := some (t, .parking) }
    else
      { s with requested := true, thread := s.thread.signalled, caller := some (t, .asleep) }

def callerStep (isFiber : Nat → Bool) (s : Sys) (t : Nat) : CallerPc → Option Sys
  | .top => some (getcTop isFiber s t)
  | .parking => some { s with caller := some (t, .parked) }
  | .parked =>
    if 0 < s.unparks t then
      some { s with
        unparks := Function.update s.unparks t (s.unparks t - 1)
        caller := some (t, .top) }
    else none
  | .asleep => none
  | .recheck =>
    some { s with caller := some (t, if s.chunks = [] ∧ s.eof = false then .asleep else .top) }

/-- pli_plat_stdin_read, of at most a chunk: some bytes, unless there are none. -/
def stdinRead (s : Sys) : Option Nat → Option Sys
  | none => some { s with failed := true, thread := .deliver [] }
  | some n =>
    if n ≤ rtInputChunk ∧ n ≤ s.left.length ∧ (n = 0 → s.left = []) then
      some { s with
        left := s.left.drop n
        read := s.read ++ s.left.take n
        thread := .deliver (s.left.take n) }
    else none

def deliver (s : Sys) (buf : List UInt8) : Sys :=
  { s with
    chunks := if buf = [] then s.chunks else s.chunks ++ [⟨buf, 0⟩]
    eof := s.eof || buf.isEmpty
    waiter := none
    caller := if s.waiter = none then s.caller.map fun (t, pc) => (t, pc.signalled) else s.caller
    thread := .unpark s.waiter buf.isEmpty }

def threadStep (s : Sys) (got : Option Nat) : Option Sys :=
  match s.thread with
  | .check =>
    some (if s.requested ∨ s.eof then { s with requested := false, thread := .reading }
      else { s with thread := .asleep })
  | .asleep => none
  | .reading => stdinRead s got
  | .deliver buf => some (deliver s buf)
  | .unpark w done =>
    let next := if done then .stopped else .check
    match w with
    | some t =>
      some { s with
        unparks := Function.update s.unparks t (s.unparks t + 1)
        thread := next }
    | none => some { s with thread := next }
  | .stopped => none

def step (isFiber : Nat → Bool) (s : Sys) : Event → Option Sys
  | .call t => if s.caller = none then some { s with caller := some (t, .top) } else none
  | .caller => s.caller.bind fun (t, pc) => callerStep isFiber s t pc
  | .thread got => threadStep s got
  | .spurious =>
    some { s with
      thread := s.thread.signalled
      caller := s.caller.map fun (t, pc) => (t, pc.signalled) }

def queued (chunks : List RtChunk) : List UInt8 := chunks.flatMap fun c => c.data.drop c.pos

def inHand : ThreadPc → List UInt8
  | .deliver buf => buf
  | _ => []

def waiting : CallerPc → Bool
  | .parking | .parked => true
  | _ => false

/-- The answers are the input's bytes in order, none lost and none twice, and then EOF; a task
    for which there are bytes, or the end, has been unparked or is about to be, and a thread
    does not sleep on; and while there are none a read is on its way. -/
structure Delivers (stdin : List UInt8) (s : Sys) : Prop where
  order : ∃ chars m, s.answers.map (·.2) = chars.map some ++ List.replicate m none ∧
    chars ++ queued s.chunks ++ inHand s.thread ++ s.left = stdin ∧
    (0 < m → queued s.chunks = [] ∧ inHand s.thread = [] ∧ (s.left = [] ∨ s.failed = true))
  woken : ∀ t pc, s.caller = some (t, pc) → s.chunks ≠ [] ∨ s.eof = true →
    (waiting pc = true → 0 < s.unparks t ∨ ∃ done, s.thread = .unpark (some t) done) ∧
      pc ≠ .asleep
  served : ∀ t pc, s.caller = some (t, pc) → waiting pc = true ∨ pc = .asleep →
    s.chunks = [] → s.eof = false →
    s.thread = .reading ∨ (∃ buf, s.thread = .deliver buf) ∨
      (s.requested = true ∧ s.thread ≠ .asleep ∧ s.thread ≠ .stopped)

end PliStdinBroker
