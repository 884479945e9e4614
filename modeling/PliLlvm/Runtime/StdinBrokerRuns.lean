import PliLlvm.Runtime.StdinBroker

/- What every step of the broker of standard input and of its caller keeps. -/
namespace PliStdinBroker
open Runs

def Coming (s : Sys) : Prop :=
  s.thread = .reading ∨ (∃ buf, s.thread = .deliver buf) ∨
    (s.requested = true ∧ (s.thread = .check ∨ ∃ w, s.thread = .unpark w false))

inductive Waits (s : Sys) (t : Nat) : Prop where
  | waiter (here : s.waiter = some t) (empty : s.chunks = []) (more : s.eof = false)
      (kept : s.unparks t = 0) (nobody : ∀ u done, s.thread ≠ .unpark (some u) done)
      (coming : Coming s)
  | taken (done : Bool) (here : s.thread = .unpark (some t) done) (none : s.waiter = none)
      (kept : s.unparks t = 0) (some : s.chunks ≠ [] ∨ s.eof = true)
  | woken (kept : s.unparks t = 1) (none : s.waiter = none)
      (nobody : ∀ u done, s.thread ≠ .unpark (some u) done) (some : s.chunks ≠ [] ∨ s.eof = true)

structure Inv (stdin : List UInt8) (s : Sys) : Prop where
  bytes : s.read ++ s.left = stdin
  order : ∃ chars m, s.answers.map (·.2) = chars.map some ++ List.replicate m none ∧
    chars ++ queued s.chunks ++ inHand s.thread = s.read ∧
    (0 < m → s.eof = true ∧ s.chunks = [])
  filled : ∀ c ∈ s.chunks, c.pos < c.data.length
  ended : s.eof = true ∨ s.thread = .deliver [] → s.left = [] ∨ s.failed = true
  stopped : s.eof = true ↔ s.thread = .stopped ∨ ∃ w, s.thread = .unpark w true
  parked : ∀ t pc, s.caller = some (t, pc) → waiting pc = true → Waits s t
  asleep : ∀ t, s.caller = some (t, .asleep) → s.chunks = [] ∧ s.eof = false
  blocked : ∀ t pc, s.caller = some (t, pc) → pc = .asleep ∨ pc = .recheck → s.chunks = [] →
    s.eof = false → Coming s
  nobody : ∀ t, (∀ pc, s.caller = some (t, pc) → waiting pc = false) →
    s.waiter ≠ some t ∧ s.unparks t = 0 ∧ ∀ done, s.thread ≠ .unpark (some t) done

theorem start_inv (stdin : List UInt8) : Inv stdin (Sys.start stdin) where
  bytes := rfl
  order := ⟨[], 0, rfl, rfl, fun more => absurd more (Nat.lt_irrefl 0)⟩
  filled := by
    intro c member
    cases member
  ended := by
    rintro (eof | deliver)
    · cases eof
    · cases deliver
  stopped := by
    constructor
    · intro eof
      cases eof
    · rintro (stopped | ⟨w, unpark⟩)
      · cases stopped
      · cases unpark
  parked := by
    intro t pc caller
    cases caller
  asleep := by
    intro t caller
    cases caller
  blocked := by
    intro t pc caller
    cases caller
  nobody := by
    intro t _
    refine ⟨?_, rfl, ?_⟩
    · intro waiter
      cases waiter
    · intro done thread
      cases thread

section Steps
variable {stdin : List UInt8} {s s' : Sys} {t : Nat}

theorem waiting_signalled (pc : CallerPc) : waiting pc.signalled = waiting pc := by
  cases pc <;> rfl

theorem signalled_ne_asleep (pc : CallerPc) : pc.signalled ≠ .asleep := by
  cases pc <;> intro same <;> cases same

theorem Inv.running (inv : Inv stdin s) (here : s.thread ≠ .stopped)
    (here' : ∀ w, s.thread ≠ .unpark w true) : s.eof = false := by
  by_contra ended
  rcases inv.stopped.mp (by simpa using ended) with stopped | ⟨w, unpark⟩
  · exact here stopped
  · exact here' w unpark

theorem Inv.caller_of (inv : Inv stdin s)
    (named : s.waiter = some t ∨ 0 < s.unparks t ∨ ∃ done, s.thread = .unpark (some t) done) :
    ∃ pc, s.caller = some (t, pc) ∧ waiting pc = true := by
  by_contra none
  obtain ⟨waiter, unparks, thread⟩ := inv.nobody t fun pc here => by
    by_contra waits
    exact none ⟨pc, here, by simpa using waits⟩
  rcases named with here | here | ⟨done, here⟩
  · exact waiter here
  · omega
  · exact thread done here

theorem Coming.signalled (coming : Coming s) : s.thread.signalled = s.thread := by
  rcases coming with here | ⟨buf, here⟩ | ⟨-, here | ⟨w, here⟩⟩ <;> rw [here] <;> rfl

theorem thread_signalled (pc : ThreadPc) :
    pc.signalled = pc ∨ pc = .asleep ∧ pc.signalled = .check := by
  cases pc <;> first | exact .inl rfl | exact .inr ⟨rfl, rfl⟩

theorem inHand_signalled (pc : ThreadPc) : inHand pc.signalled = inHand pc := by
  cases pc <;> rfl

theorem signalled_iff {pc next : ThreadPc} (here : next ≠ .asleep) (here' : next ≠ .check) :
    pc.signalled = next ↔ pc = next := by
  rcases thread_signalled pc with same | ⟨rfl, same⟩
  · rw [same]
  · rw [same]
    exact ⟨fun equal => absurd equal.symm here', fun equal => absurd equal.symm here⟩

theorem call_inv (inv : Inv stdin s) (free : s.caller = none) :
    Inv stdin { s with caller := some (t, .top) } where
  bytes := inv.bytes
  order := inv.order
  filled := inv.filled
  ended := inv.ended
  stopped := inv.stopped
  parked := by
    intro u pc caller waits
    cases caller
    cases waits
  asleep := by
    intro u caller
    cases caller
  blocked := by
    rintro u pc caller (rfl | rfl)
    · cases caller
    · cases caller
  nobody := by
    intro u _
    refine inv.nobody u fun pc caller => ?_
    rw [free] at caller
    cases caller

variable {pc : CallerPc}

theorem Inv.idle (inv : Inv stdin s) (here : s.caller = some (t, pc))
    (still : waiting pc = false) (u : Nat) :
    s.waiter ≠ some u ∧ s.unparks u = 0 ∧ ∀ done, s.thread ≠ .unpark (some u) done := by
  refine inv.nobody u fun pc' caller => ?_
  rw [here] at caller
  cases caller
  exact still

theorem queued_take {c : RtChunk} {rest : List RtChunk} (inside : c.pos < c.data.length) :
    queued (c :: rest) = c.data[c.pos] :: queued (takeByte c rest) := by
  have first : queued (c :: rest) = c.data.drop c.pos ++ queued rest := rfl
  rw [first, List.drop_eq_getElem_cons inside, takeByte]
  split
  · rename_i last
    rw [List.drop_eq_nil_of_le last]
    rfl
  · rfl

theorem byte_inv {c : RtChunk} {rest : List RtChunk} (inv : Inv stdin s)
    (here : s.caller = some (t, .top)) (chunks : s.chunks = c :: rest) :
    Inv stdin { answer s t c.data[c.pos]? with chunks := takeByte c rest } := by
  have inside : c.pos < c.data.length := inv.filled c (by rw [chunks]; exact List.mem_cons_self)
  obtain ⟨chars, m, answers, order, ends⟩ := inv.order
  have more : m = 0 := by
    by_contra some
    have := (ends (by omega)).2
    rw [chunks] at this
    cases this
  subst more
  refine ⟨inv.bytes, ⟨chars ++ [c.data[c.pos]], 0, ?_, ?_, fun none =>
    absurd none (Nat.lt_irrefl 0)⟩,
    fun d member => ?_, inv.ended, inv.stopped, ?_, ?_, ?_, fun u _ => inv.idle here rfl u⟩
  · simp [answer, answers, List.getElem?_eq_getElem inside]
  · rw [chunks, queued_take inside] at order
    simpa [answer] using order
  · have later : ∀ e ∈ rest, e.pos < e.data.length := fun e after =>
      inv.filled e (by rw [chunks]; exact List.mem_cons_of_mem _ after)
    simp only [takeByte] at member
    split at member
    · exact later d member
    · rename_i longer
      rcases List.mem_cons.mp member with rfl | after
      · exact Nat.lt_of_not_le longer
      · exact later d after
  · intro u pc caller
    cases caller
  · intro u caller
    cases caller
  · intro u pc caller
    cases caller

theorem eof_inv (inv : Inv stdin s) (here : s.caller = some (t, .top)) (empty : s.chunks = [])
    (eof : s.eof = true) : Inv stdin (answer s t none) := by
  obtain ⟨chars, m, answers, order, -⟩ := inv.order
  refine ⟨inv.bytes, ⟨chars, m + 1, ?_, order, fun _ => ⟨eof, empty⟩⟩, inv.filled, inv.ended,
    inv.stopped, ?_, ?_, ?_, fun u _ => inv.idle here rfl u⟩
  · simp [answer, answers, List.replicate_succ']
  · intro u pc caller
    cases caller
  · intro u caller
    cases caller
  · intro u pc caller
    cases caller

theorem request_coming (waiter : Option Nat) (caller : Option (Nat × CallerPc))
    (inv : Inv stdin s) (more : s.eof = false) :
    Coming { s with
      waiter := waiter, requested := true, thread := s.thread.signalled, caller := caller } := by
  cases place : s.thread with
  | check | asleep => exact .inr (.inr ⟨rfl, .inl rfl⟩)
  | reading => exact .inl rfl
  | deliver buf => exact .inr (.inl ⟨buf, rfl⟩)
  | unpark w done =>
    cases done with
    | false => exact .inr (.inr ⟨rfl, .inr ⟨w, rfl⟩⟩)
    | true =>
      rw [inv.stopped.mpr (.inr ⟨w, place⟩)] at more
      cases more
  | stopped =>
    rw [inv.stopped.mpr (.inl place)] at more
    cases more

theorem request_inv {waiter : Option Nat} (inv : Inv stdin s)
    (here : s.caller = some (t, .top)) (empty : s.chunks = []) (more : s.eof = false)
    (way : (waiter = some t ∧ pc = .parking) ∨ (waiter = s.waiter ∧ pc = .asleep)) :
    Inv stdin { s with
      waiter := waiter
      requested := true
      thread := s.thread.signalled
      caller := some (t, pc) } := by
  have coming := request_coming waiter (some (t, pc)) inv more
  have still := inv.idle here rfl
  refine ⟨inv.bytes, ?_, inv.filled, fun ended => inv.ended ?_, ?_, fun u pc' caller waits => ?_,
    fun u _ => ⟨empty, more⟩, fun _ _ _ _ _ _ => coming, fun u alone => ?_⟩
  · simp only [inHand_signalled]
    exact inv.order
  · exact ended.imp_right (signalled_iff (by simp) (by simp)).mp
  · rw [inv.stopped]
    rw [@signalled_iff s.thread .stopped (by simp) (by simp)]
    refine or_congr_right (exists_congr fun w => ?_)
    exact (signalled_iff (by simp) (by simp)).symm
  · cases caller
    rcases way with ⟨rfl, rfl⟩ | ⟨rfl, rfl⟩
    · refine .waiter rfl empty more (still t).2.1 (fun v done thread => ?_) coming
      exact (still v).2.2 done ((signalled_iff (by simp) (by simp)).mp thread)
    · cases waits
  · refine ⟨?_, (still u).2.1, fun done thread => (still u).2.2 done ?_⟩
    · rcases way with ⟨rfl, rfl⟩ | ⟨rfl, rfl⟩
      · rintro same
        cases same
        have := alone .parking rfl
        cases this
      · exact (still u).1
    · exact (signalled_iff (by simp) (by simp)).mp thread

variable {isFiber : Nat → Bool}

section
variable (inv : Inv stdin s)
include inv

theorem getcTop_inv (here : s.caller = some (t, .top)) : Inv stdin (getcTop isFiber s t) := by
  unfold getcTop
  split
  · rename_i c rest chunks
    exact byte_inv inv here chunks
  · rename_i empty
    split
    · rename_i eof
      exact eof_inv inv here empty eof
    · rename_i more
      have more : s.eof = false := by simpa using more
      split
      · exact request_inv inv here empty more (.inl ⟨rfl, rfl⟩)
      · exact request_inv inv here empty more (.inr ⟨rfl, rfl⟩)

theorem park_inv (here : s.caller = some (t, .parking)) :
    Inv stdin { s with caller := some (t, .parked) } := by
  refine ⟨inv.bytes, inv.order, inv.filled, inv.ended, inv.stopped, fun u pc caller _ => ?_,
    fun u caller => ?_, fun u pc caller place => ?_, fun u alone =>
      inv.nobody u fun pc caller => ?_⟩
  · cases caller
    rcases inv.parked t _ here rfl with ⟨waiter, empty, more, kept, nobody, coming⟩ |
      ⟨done, thread, none, kept, some⟩ | ⟨kept, none, nobody, some⟩
    · exact .waiter waiter empty more kept nobody coming
    · exact .taken done thread none kept some
    · exact .woken kept none nobody some
  · cases caller
  · cases caller
    rcases place with same | same <;> cases same
  · rw [here] at caller
    cases caller
    exact alone .parked rfl

theorem resume_inv (here : s.caller = some (t, .parked)) (unparked : 0 < s.unparks t) :
    Inv stdin { s with
      unparks := Function.update s.unparks t (s.unparks t - 1)
      caller := some (t, .top) } := by
  rcases inv.parked t _ here rfl with ⟨-, -, -, kept, -, -⟩ | ⟨-, -, -, kept, -⟩ |
    ⟨kept, none, nobody, -⟩
  · omega
  · omega
  refine ⟨inv.bytes, inv.order, inv.filled, inv.ended, inv.stopped, fun u pc caller waits => ?_,
    fun u caller => ?_, fun u pc caller place => ?_, fun u _ => ⟨?_, ?_, nobody u⟩⟩
  · cases caller
    cases waits
  · cases caller
  · cases caller
    rcases place with same | same <;> cases same
  · rw [none]
    simp
  · by_cases own : u = t
    · subst own
      simp [kept]
    · simp only [Function.update_of_ne own]
      refine (inv.nobody u fun pc caller => ?_).2.1
      rw [here] at caller
      cases caller
      exact absurd rfl own

theorem recheck_inv (here : s.caller = some (t, .recheck)) :
    Inv stdin { s with
      caller := some (t, if s.chunks = [] ∧ s.eof = false then .asleep else .top) } := by
  refine ⟨inv.bytes, inv.order, inv.filled, inv.ended, inv.stopped, fun u pc caller waits => ?_,
    fun u caller => ?_, fun u pc caller place empty more => ?_, fun u _ => inv.idle here rfl u⟩
  · cases caller
    split at waits <;> cases waits
  · by_cases none : s.chunks = [] ∧ s.eof = false
    · exact none
    · simp only [if_neg none] at caller
      cases caller
  · exact inv.blocked t .recheck here (.inr rfl) empty more

theorem caller_inv
    (here : s.caller = some (t, pc)) (stepped : callerStep isFiber s t pc = some s') :
    Inv stdin s' := by
  cases pc with
  | top =>
    cases stepped
    exact getcTop_inv inv here
  | parking =>
    cases stepped
    exact park_inv inv here
  | parked =>
    obtain ⟨unparked, same⟩ := Option.ite_none_right_eq_some.mp stepped
    cases same
    exact resume_inv inv here unparked
  | asleep => cases stepped
  | recheck =>
    cases stepped
    exact recheck_inv inv here

theorem quiet_inv {requested : Bool} {next : ThreadPc} (hand : inHand next = inHand s.thread)
    (ended : next = .deliver [] → s.left = [] ∨ s.failed = true)
    (stopped : (next = .stopped ∨ ∃ w, next = .unpark w true) ↔
      (s.thread = .stopped ∨ ∃ w, s.thread = .unpark w true))
    (here : ∀ u done, s.thread ≠ .unpark (some u) done)
    (next' : ∀ u done, next ≠ .unpark (some u) done)
    (coming : Coming s → Coming { s with requested := requested, thread := next }) :
    Inv stdin { s with requested := requested, thread := next } := by
  refine ⟨inv.bytes, ?_, inv.filled, fun ends => ?_, inv.stopped.trans stopped.symm,
    fun u pc caller waits => ?_, inv.asleep,
    fun u pc caller place empty more => coming (inv.blocked u pc caller place empty more),
    fun u alone => ⟨(inv.nobody u alone).1, (inv.nobody u alone).2.1, next' u⟩⟩
  · simp only [hand]
    exact inv.order
  · exact ends.elim (fun eof => inv.ended (.inl eof)) ended
  · rcases inv.parked u pc caller waits with ⟨waiter, empty, more, kept, -, before⟩ |
      ⟨done, thread, -, -, -⟩ | ⟨kept, none, -, some⟩
    · exact .waiter waiter empty more kept next' (coming before)
    · exact absurd thread (here u done)
    · exact .woken kept none next' some

theorem check_inv (here : s.thread = .check) :
    Inv stdin (if s.requested ∨ s.eof then { s with requested := false, thread := .reading }
      else { s with thread := .asleep }) := by
  split
  · refine quiet_inv inv (by rw [here]; rfl) (by simp) (by simp [here]) (by simp [here]) (by simp)
      fun _ => .inl rfl
  · rename_i none
    refine quiet_inv inv (by rw [here]; rfl) (by simp) (by simp [here]) (by simp [here]) (by simp)
      fun coming => ?_
    rcases coming with reading | ⟨buf, deliver⟩ | ⟨requested, -⟩
    · rw [here] at reading
      cases reading
    · rw [here] at deliver
      cases deliver
    · exact absurd (.inl requested) none

theorem read_inv {got : Option Nat} (here : s.thread = .reading)
    (stepped : stdinRead s got = some s') : Inv stdin s' := by
  have more := inv.running (by simp [here]) (by simp [here])
  obtain ⟨chars, m, answers, order, ends⟩ := inv.order
  rw [here] at order
  have hand : chars ++ queued s.chunks = s.read := by simpa [inHand] using order
  have delivers : ∀ (buf : List UInt8) (left read : List UInt8) (failed : Bool),
      read ++ left = stdin → read = s.read ++ buf → (buf = [] → left = [] ∨ failed = true) →
      Inv stdin
        { s with left := left, read := read, failed := failed, thread := .deliver buf } := by
    intro buf left read failed bytes grown last
    refine ⟨bytes, ⟨chars, m, answers, ?_, ends⟩, inv.filled, fun ended => ?_, ?_,
      fun u pc caller waits => ?_, inv.asleep,
      fun u pc caller place empty more => .inr (.inl ⟨buf, rfl⟩),
      fun u alone => ⟨(inv.nobody u alone).1, (inv.nobody u alone).2.1, by simp⟩⟩
    · simp only [inHand, hand, grown]
    · rcases ended with eof | empty
      · rw [show s.eof = true from eof] at more
        cases more
      · cases empty
        exact last rfl
    · simp [more]
    · rcases inv.parked u pc caller waits with ⟨waiter, empty, more, kept, -, -⟩ |
        ⟨done, thread, -, -, -⟩ | ⟨kept, none, -, some⟩
      · exact .waiter waiter empty more kept (by simp) (.inr (.inl ⟨buf, rfl⟩))
      · simp [here] at thread
      · exact .woken kept none (by simp) some
  cases got with
  | none =>
    cases stepped
    exact delivers [] s.left s.read true inv.bytes (List.append_nil _).symm fun _ => .inr rfl
  | some n =>
    simp only [stdinRead] at stepped
    split at stepped
    · rename_i some
      cases stepped
      refine delivers _ _ _ s.failed ?_ rfl fun empty => .inl ?_
      · rw [List.append_assoc, List.take_append_drop, inv.bytes]
      · rcases List.take_eq_nil_iff.mp empty with zero | nothing
        · rw [some.2.2 zero, List.drop_nil]
        · rw [nothing, List.drop_nil]
    · cases stepped

theorem deliver_inv {buf : List UInt8} (here : s.thread = .deliver buf) :
    Inv stdin (deliver s buf) := by
  have more := inv.running (by simp [here]) (by simp [here])
  obtain ⟨chars, m, answers, order, ends⟩ := inv.order
  have none : m = 0 := by
    by_contra some
    rw [(ends (by omega)).1] at more
    cases more
  subst none
  rw [here] at order
  have given : (if buf = [] then s.chunks else s.chunks ++ [⟨buf, 0⟩]) ≠ [] ∨
      (s.eof || buf.isEmpty) = true := by
    by_cases last : buf = []
    · right
      simp [last]
    · left
      simp [last]
  have callers : ∀ u pc, (deliver s buf).caller = some (u, pc) →
      ∃ pc', s.caller = some (u, pc') ∧ waiting pc = waiting pc' ∧
        (pc = .asleep → s.waiter ≠ Option.none ∧ pc' = .asleep) := by
    intro u pc caller
    simp only [deliver] at caller
    split at caller
    · obtain ⟨⟨v, pc'⟩, before, same⟩ := Option.map_eq_some_iff.mp caller
      cases same
      exact ⟨pc', before, waiting_signalled pc', fun same => absurd same (signalled_ne_asleep pc')⟩
    · rename_i taken
      exact ⟨pc, caller, rfl, fun same => ⟨taken, same⟩⟩
  refine ⟨inv.bytes, ⟨chars, 0, answers, ?_, fun more => absurd more (Nat.lt_irrefl 0)⟩,
    fun c member => ?_, fun ended => ?_, ?_, fun u pc caller waits => ?_, fun u caller => ?_,
    fun u pc caller place empty more' => ?_, fun u alone => ⟨by simp [deliver], ?_, ?_⟩⟩
  · by_cases last : buf = []
    · subst last
      simpa [deliver, inHand, queued] using order
    · simpa [deliver, inHand, queued, last] using order
  · by_cases last : buf = []
    · rw [deliver, if_pos last] at member
      exact inv.filled c member
    · simp only [deliver, if_neg last] at member
      rcases List.mem_append.mp member with old | new
      · exact inv.filled c old
      · obtain rfl := List.mem_singleton.mp new
        exact List.length_pos_iff.mpr last
  · rcases ended with eof | again
    · have last : buf = [] := by simpa [deliver, more] using eof
      exact inv.ended (.inr (by rw [here, last]))
    · cases again
  · simp [deliver, more]
  · obtain ⟨pc', before, same, -⟩ := callers u pc caller
    rcases inv.parked u pc' before (same ▸ waits) with ⟨waiter, -, -, kept, -, -⟩ |
      ⟨done, thread, -, -, -⟩ | ⟨kept, none, -, some⟩
    · exact .taken buf.isEmpty (by rw [deliver, waiter]) rfl kept given
    · simp [here] at thread
    · exact .woken kept rfl (by simp [deliver, none]) given
  · obtain ⟨pc', before, -, slept⟩ := callers u .asleep caller
    obtain ⟨taken, rfl⟩ := slept rfl
    obtain ⟨w, waiter⟩ := Option.ne_none_iff_exists'.mp taken
    obtain ⟨pc, waits, parks⟩ := inv.caller_of (.inl waiter)
    rw [before] at waits
    cases waits
    cases parks
  · rcases given with some | eof
    · exact absurd empty some
    · simp only [deliver] at more'
      rw [eof] at more'
      cases more'
  · refine (inv.nobody u fun pc' before => ?_).2.1
    by_contra waits
    have signal : ∃ pc, (deliver s buf).caller = some (u, pc) ∧ waiting pc = waiting pc' := by
      simp only [deliver]
      split
      · exact ⟨pc'.signalled, by rw [before]; rfl, waiting_signalled pc'⟩
      · exact ⟨pc', before, rfl⟩
    obtain ⟨pc, after, same⟩ := signal
    exact waits (same ▸ alone pc after)
  · intro done thread
    simp only [deliver, ThreadPc.unpark.injEq] at thread
    have waiter := thread.1
    obtain ⟨pc', before, waits⟩ := inv.caller_of (.inl waiter)
    have kept : (deliver s buf).caller = some (u, pc') := by
      simp only [deliver]
      rw [if_neg (by rw [waiter]; simp)]
      exact before
    rw [alone pc' kept] at waits
    cases waits

end

variable {done : Bool}

theorem over_next {w : Option Nat} (here : s.thread = .unpark w done) :
    ((if done then ThreadPc.stopped else .check) = .stopped ∨
        ∃ w, (if done then ThreadPc.stopped else .check) = .unpark w true) ↔
      (s.thread = .stopped ∨ ∃ w, s.thread = .unpark w true) := by
  rw [here]
  cases done <;> simp

theorem unparkNone_inv (inv : Inv stdin s) (here : s.thread = .unpark none done) :
    Inv stdin { s with thread := if done then .stopped else .check } := by
  refine quiet_inv inv ?_ ?_ (over_next here) (by simp [here]) ?_ fun coming => ?_
  · rw [here]
    cases done <;> rfl
  · cases done <;> simp
  · cases done <;> simp
  · rcases coming with reading | ⟨buf, deliver⟩ | ⟨requested, check | ⟨w, unpark⟩⟩
    · rw [here] at reading
      cases reading
    · rw [here] at deliver
      cases deliver
    · rw [here] at check
      cases check
    · rw [here] at unpark
      cases unpark
      exact .inr (.inr ⟨requested, .inl rfl⟩)

theorem unparkSome_inv (inv : Inv stdin s) (here : s.thread = .unpark (some t) done) :
    Inv stdin { s with
      unparks := Function.update s.unparks t (s.unparks t + 1)
      thread := if done then .stopped else .check } := by
  obtain ⟨pc, caller, waits⟩ := inv.caller_of (.inr (.inr ⟨done, here⟩))
  have quiet : ∀ u done', (if done then ThreadPc.stopped else .check) ≠ .unpark (some u) done' := by
    intro u done'
    cases done <;> simp
  have gone : s.waiter = none ∧ s.unparks t = 0 ∧ (s.chunks ≠ [] ∨ s.eof = true) := by
    rcases inv.parked t pc caller waits with ⟨-, -, -, -, nobody, -⟩ |
      ⟨done', -, none, kept, some⟩ | ⟨-, -, nobody, -⟩
    · exact absurd here (nobody t done)
    · exact ⟨none, kept, some⟩
    · exact absurd here (nobody t done)
  obtain ⟨none, kept, some⟩ := gone
  refine ⟨inv.bytes, ?_, inv.filled, fun ended => ?_, inv.stopped.trans (over_next here).symm,
    fun u pc' caller' _ => ?_, inv.asleep, fun u pc' caller' place empty more => ?_,
    fun u alone => ⟨(inv.nobody u alone).1, ?_, quiet u⟩⟩
  · have hand : inHand (if done then ThreadPc.stopped else .check) = inHand s.thread := by
      rw [here]
      cases done <;> rfl
    simp only [hand]
    exact inv.order
  · refine inv.ended (.inl ?_)
    rcases ended with eof | deliver
    · exact eof
    · cases done <;> cases deliver
  · have own : u = t := by
      rw [caller] at caller'
      cases caller'
      rfl
    subst own
    refine .woken ?_ none quiet some
    simp [kept]
  · rcases some with chunks | eof
    · exact absurd empty chunks
    · rw [show s.eof = false from more] at eof
      cases eof
  · have other : u ≠ t := by
      rintro rfl
      rw [alone pc caller] at waits
      cases waits
    simp only [Function.update_of_ne other]
    exact (inv.nobody u alone).2.1

theorem spurious_inv (inv : Inv stdin s) :
    Inv stdin { s with
      thread := s.thread.signalled
      caller := s.caller.map fun (t, pc) => (t, pc.signalled) } := by
  have callers : ∀ u pc, (s.caller.map fun (t, pc) => (t, pc.signalled)) = some (u, pc) →
      ∃ pc', s.caller = some (u, pc') ∧ pc = pc'.signalled := by
    intro u pc caller
    obtain ⟨⟨v, pc'⟩, before, same⟩ := Option.map_eq_some_iff.mp caller
    cases same
    exact ⟨pc', before, rfl⟩
  have unpark : ∀ w done, s.thread.signalled = .unpark w done ↔ s.thread = .unpark w done :=
    fun w done => signalled_iff (by simp) (by simp)
  have keeps : Coming s → Coming { s with
      thread := s.thread.signalled
      caller := s.caller.map fun (t, pc) => (t, pc.signalled) } := by
    intro coming
    have same := coming.signalled
    unfold Coming
    simp only [same]
    exact coming
  refine ⟨inv.bytes, ?_, inv.filled, fun ended => inv.ended ?_, ?_, fun u pc caller waits => ?_,
    fun u caller => ?_, fun u pc caller place empty more => ?_, fun u alone => ?_⟩
  · simp only [inHand_signalled]
    exact inv.order
  · exact ended.imp_right (signalled_iff (by simp) (by simp)).mp
  · rw [inv.stopped]
    simp only [unpark, @signalled_iff s.thread .stopped (by simp) (by simp)]
  · obtain ⟨pc', before, rfl⟩ := callers u pc caller
    rw [waiting_signalled] at waits
    rcases inv.parked u pc' before waits with ⟨waiter, empty, more, kept, nobody, coming⟩ |
      ⟨done, thread, none, kept, some⟩ | ⟨kept, none, nobody, some⟩
    · exact .waiter waiter empty more kept
        (fun v done thread => nobody v done ((unpark _ _).mp thread)) (keeps coming)
    · exact .taken done ((unpark _ _).mpr thread) none kept some
    · exact .woken kept none (fun v done thread => nobody v done ((unpark _ _).mp thread)) some
  · obtain ⟨pc', -, same⟩ := callers u .asleep caller
    exact absurd same.symm (signalled_ne_asleep pc')
  · obtain ⟨pc', before, rfl⟩ := callers u pc caller
    refine keeps (inv.blocked u pc' before ?_ empty more)
    rcases place with slept | again
    · exact absurd slept (signalled_ne_asleep pc')
    · cases pc' <;> first | exact .inl rfl | exact .inr rfl | cases again
  · obtain ⟨waiter, kept, thread⟩ := inv.nobody u fun pc before => by
      rw [← waiting_signalled]
      exact alone pc.signalled (by rw [before]; rfl)
    exact ⟨waiter, kept, fun done here => thread done ((unpark _ _).mp here)⟩

theorem step_inv {e : Event} (inv : Inv stdin s)
    (stepped : step isFiber s e = some s') : Inv stdin s' := by
  cases e with
  | call t =>
    obtain ⟨free, same⟩ := Option.ite_none_right_eq_some.mp stepped
    cases same
    exact call_inv inv free
  | caller =>
    obtain ⟨⟨t, pc⟩, here, stepped⟩ := Option.bind_eq_some_iff.mp stepped
    exact caller_inv inv here stepped
  | thread got =>
    simp only [step, threadStep] at stepped
    split at stepped
    · rename_i here
      cases stepped
      exact check_inv inv here
    · cases stepped
    · rename_i here
      exact read_inv inv here stepped
    · rename_i buf here
      cases stepped
      exact deliver_inv inv here
    · rename_i w done here
      split at stepped
      · cases stepped
        exact unparkSome_inv inv here
      · cases stepped
        exact unparkNone_inv inv here
    · cases stepped
  | spurious =>
    cases stepped
    exact spurious_inv inv

theorem Inv.delivers (inv : Inv stdin s) : Delivers stdin s where
  order := by
    obtain ⟨chars, m, answers, order, ends⟩ := inv.order
    refine ⟨chars, m, answers, ?_, fun more => ?_⟩
    · rw [order, inv.bytes]
    · obtain ⟨eof, empty⟩ := ends more
      refine ⟨by rw [empty]; rfl, ?_, inv.ended (.inl eof)⟩
      rcases inv.stopped.mp eof with stopped | ⟨w, unpark⟩
      · rw [stopped]
        rfl
      · rw [unpark]
        rfl
  woken := by
    intro t pc caller given
    refine ⟨fun waits => ?_, ?_⟩
    · rcases inv.parked t pc caller waits with ⟨-, empty, more, -, -, -⟩ |
        ⟨done, thread, -, -, -⟩ | ⟨kept, -, -, -⟩
      · rcases given with some | eof
        · exact absurd empty some
        · rw [more] at eof
          cases eof
      · exact .inr ⟨done, thread⟩
      · exact .inl (by omega)
    · rintro rfl
      obtain ⟨empty, more⟩ := inv.asleep t caller
      rcases given with some | eof
      · exact absurd empty some
      · rw [more] at eof
        cases eof
  served := by
    intro t pc caller place empty more
    have coming : Coming s := by
      rcases place with waits | slept
      · rcases inv.parked t pc caller waits with ⟨-, -, -, -, -, coming⟩ |
          ⟨-, -, -, -, given⟩ | ⟨-, -, -, given⟩
        · exact coming
        · rcases given with some | eof
          · exact absurd empty some
          · rw [more] at eof
            cases eof
        · rcases given with some | eof
          · exact absurd empty some
          · rw [more] at eof
            cases eof
      · exact inv.blocked t pc caller (.inl slept) empty more
    rcases coming with reading | deliver | ⟨requested, check | ⟨w, unpark⟩⟩
    · exact .inl reading
    · exact .inr (.inl deliver)
    · exact .inr (.inr ⟨requested, by simp [check], by simp [check]⟩)
    · exact .inr (.inr ⟨requested, by simp [unpark], by simp [unpark]⟩)

end Steps

/-- In every state of every run. -/
theorem run_delivers {stdin : List UInt8} {isFiber : Nat → Bool} {es : List Event} {s : Sys}
    (ran : run (step isFiber) (Sys.start stdin) es = some s) : Delivers stdin s := by
  have keep : ∀ y e y', Inv stdin y → step isFiber y e = some y' → Inv stdin y' :=
    fun _ _ _ inv stepped => step_inv inv stepped
  exact (run_invariant keep (start_inv stdin) ran).delivers

end PliStdinBroker
