import PliLlvm.Runtime.FileBroker
import PliLlvm.Runtime.StdinBrokerRuns

/- What every step of the broker of file reads keeps: who has the slot, what the slot holds, and
   what has been read for each call in progress. -/
namespace PliFileBroker
open Runs
open Function (update update_apply update_of_ne update_self)

def holds : Pc → Bool
  | .publish | .parking | .parked | .take | .release _ => true
  | _ => false

structure SlotInv (s : Sys) : Prop where
  depth : s.depth ≤ 1
  queue : s.waiters.Nodup
  free : s.owner = none → s.waiters = []
  queued : ∀ t ∈ s.waiters, inLock (s.party t).pc = true ∧ (s.party t).unparks = 0 ∧
    s.owner ≠ some t
  holder : ∀ t, holds (s.party t).pc = true → s.owner = some t
  owned : ∀ t, s.owner = some t → holds (s.party t).pc = true ∨ inLock (s.party t).pc = true
  handed : ∀ t, inLock (s.party t).pc = true → t ∈ s.waiters ∨ s.owner = some t ∧
    ((s.party t).unparks = 1 ∨ ∃ u got, (s.party u).pc = .handOver t got)
  hands : ∀ u w got, (s.party u).pc = .handOver w got → s.owner = some w ∧
    inLock (s.party w).pc = true ∧ (s.party w).unparks = 0
  one : ∀ u v w got got', (s.party u).pc = .handOver w got → (s.party v).pc = .handOver w got' →
    u = v
  unparked : ∀ t, inLock (s.party t).pc = false → waits (s.party t).pc = false →
    (s.party t).unparks = 0

def Unread (reads : List Read) (c : Call) : Prop := readsOf reads c = []

def Got (reads : List Read) (mem : Nat → UInt8) (c : Call) (got : Int) : Prop :=
  ∃ bytes, readsOf reads c = [⟨c, bytes⟩] ∧ got = bytes.length ∧ bytes.length ≤ c.n ∧
    slice mem c.buf bytes.length = bytes

def Quiet (req : Req) (waiter : Option Nat) (thread : ThreadPc) : Prop :=
  req.f = none ∧ waiter = none ∧ (thread = .check ∨ thread = .asleep)

def published (c : Call) : Req := ⟨c.id, some c.f, c.buf, c.n, -1⟩

inductive Served (s : Sys) (t : Nat) : Prop where
  | asked (req : s.req = published (s.party t).call)
      (thread : s.thread = .check ∨ s.thread = .reading s.req) (waiter : s.waiter = some t)
      (kept : (s.party t).unparks = 0) (unread : Unread s.reads (s.party t).call)
  | read (got : Nat) (req : s.req = published (s.party t).call) (thread : s.thread = .complete got)
      (waiter : s.waiter = some t) (kept : (s.party t).unparks = 0)
      (data : Got s.reads s.mem (s.party t).call got)
  | told (none : s.req.f = none ∧ s.waiter = none) (thread : s.thread = .unpark (some t))
      (kept : (s.party t).unparks = 0) (data : Got s.reads s.mem (s.party t).call s.req.result)
  | woken (quiet : Quiet s.req s.waiter s.thread) (kept : (s.party t).unparks = 1)
      (data : Got s.reads s.mem (s.party t).call s.req.result)

def Data (req : Req) (reads : List Read) (mem : Nat → UInt8) (x : Party) : Prop :=
  match x.pc with
  | .idle | .parking | .parked => True
  | .direct | .acquire | .lockParking | .lockParked | .publish => Unread reads x.call
  | .take => Got reads mem x.call req.result
  | .release got | .handOver _ got => Got reads mem x.call got

structure ReqInv (s : Sys) : Prop where
  quiet : (∃ t, waits (s.party t).pc = true) ∨ Quiet s.req s.waiter s.thread
  served : ∀ t, waits (s.party t).pc = true → Served s t
  data : ∀ t, Data s.req s.reads s.mem (s.party t)

structure CallInv (s : Sys) : Prop where
  present : ∀ t, (s.party t).pc ≠ .idle → (s.party t).call ∈ s.inProgress
  ids : ∀ t u, (s.party t).pc ≠ .idle → (s.party u).pc ≠ .idle →
    (s.party t).call.id = (s.party u).call.id → t = u
  apart : ∀ c ∈ s.inProgress, ∀ d ∈ s.inProgress, c.id ≠ d.id → Apart c d
  fresh : ∀ c ∈ s.inProgress, c.id < s.calls
  past : ∀ r ∈ s.reads, r.call.id < s.calls
  gone : ∀ a ∈ s.returns, a.call.id < s.calls ∧ ∀ c ∈ s.inProgress, c.id ≠ a.call.id
  own : ∀ a ∈ s.returns, ∃ bytes, readsOf s.reads a.call = [⟨a.call, bytes⟩] ∧
    a.count = bytes.length ∧ a.held = bytes

structure Inv (s : Sys) : Prop where
  slot : SlotInv s
  req : ReqInv s
  calls : CallInv s

theorem start_inv (mem : Nat → UInt8) : Inv (Sys.start mem) where
  slot := by constructor <;> simp [Sys.start, holds, inLock]
  req := by
    refine ⟨.inr ⟨rfl, rfl, .inl rfl⟩, fun t waits => ?_, fun t => trivial⟩
    cases waits
  calls := by constructor <;> simp [Sys.start]

theorem slice_length (mem : Nat → UInt8) (a n : Nat) : (slice mem a n).length = n := by
  simp [slice]

variable {mem : Nat → UInt8}

theorem slice_congr {mem' : Nat → UInt8} {a n : Nat}
    (same : ∀ b, a ≤ b → b < a + n → mem b = mem' b) : slice mem a n = slice mem' a n := by
  refine List.map_congr_left fun i member => ?_
  have inside := List.mem_range.mp member
  exact same _ (by omega) (by omega)

theorem slice_fill (mem : Nat → UInt8) (a : Nat) (bytes : List UInt8) :
    slice (fill mem a bytes) a bytes.length = bytes := by
  refine List.ext_getElem (slice_length _ _ _) fun i inside inside' => ?_
  simp [slice, fill, List.getD_eq_getElem?_getD, List.getElem?_eq_getElem inside']

theorem fill_apart {a b : Nat} {bytes : List UInt8}
    (outside : b < a ∨ a + bytes.length ≤ b) : fill mem a bytes b = mem b := by
  unfold fill
  split
  · rename_i after
    rw [List.getD_eq_getElem?_getD, List.getElem?_eq_none (by omega)]
    rfl
  · rfl

section Steps
variable {s s' : Sys} {t : Nat}

variable {reads : List Read} {mem : Nat → UInt8} {c : Call} {bytes : List UInt8}

theorem got_read (unread : Unread reads c) (fits : bytes.length ≤ c.n) :
    Got (reads ++ [⟨c, bytes⟩]) (fill mem c.buf bytes) c bytes.length := by
  refine ⟨bytes, ?_, rfl, fits, slice_fill mem c.buf bytes⟩
  rw [readsOf, List.filter_append, show reads.filter _ = [] from unread]
  simp

theorem readsOf_other {d : Call} (other : c.id ≠ d.id) :
    readsOf (reads ++ [⟨c, bytes⟩]) d = readsOf reads d := by
  simp [readsOf, other]

variable {got : Int}

theorem Got.other {d : Call} (own : Got reads mem d got) (other : c.id ≠ d.id) (apart : Apart c d)
    (fits : bytes.length ≤ c.n) :
    Got (reads ++ [⟨c, bytes⟩]) (fill mem c.buf bytes) d got := by
  obtain ⟨mine, found, count, short, held⟩ := own
  refine ⟨mine, (readsOf_other other).trans found, count, short, ?_⟩
  rw [← held, slice_length]
  refine slice_congr fun b after before => fill_apart ?_
  rcases apart with first | last
  · right
    omega
  · left
    omega

variable {x : Party}

theorem Data.other {req : Req} (own : Data req reads mem x)
    (other : x.pc ≠ .idle → c.id ≠ x.call.id ∧ Apart c x.call) (fits : bytes.length ≤ c.n) :
    Data req (reads ++ [⟨c, bytes⟩]) (fill mem c.buf bytes) x := by
  unfold Data at own ⊢
  cases place : x.pc with
  | idle | parking | parked => trivial
  | direct | acquire | lockParking | lockParked | publish =>
    rw [place] at own
    exact (readsOf_other (other (by simp [place])).1).trans own
  | take | release got | handOver w got =>
    rw [place] at own
    obtain ⟨differ, apart⟩ := other (by simp [place])
    exact Got.other own differ apart fits

section
variable (inv : SlotInv s)
include inv

theorem SlotInv.move
    (lock : inLock x.pc = inLock (s.party t).pc) (slot : holds x.pc = holds (s.party t).pc)
    (kept : inLock x.pc = true → x.unparks = (s.party t).unparks)
    (still : inLock x.pc = false → waits x.pc = false → x.unparks = 0)
    (hand : ∀ w got, x.pc ≠ .handOver w got) (hand' : ∀ w got, (s.party t).pc ≠ .handOver w got) :
    SlotInv (s.set t x) := by
  obtain ⟨depth, queue, free, queued, holder, owned, handed, hands, one, unparked⟩ := inv
  constructor <;> simp only [Sys.set, update_apply] <;> grind

theorem SlotInv.of_same (depth : s'.depth = s.depth)
    (waiters : s'.waiters = s.waiters) (owner : s'.owner = s.owner)
    (party : s'.party = s.party) : SlotInv s' := by
  obtain ⟨deep, queue, free, queued, holder, owned, handed, hands, one, unparked⟩ := inv
  constructor <;> simp only [depth, waiters, owner, party] <;> assumption

theorem acquire_slot (here : (s.party t).pc = .acquire) :
    SlotInv (rtLockAcquire s t) := by
  obtain ⟨depth, queue, free, queued, holder, owned, handed, hands, one, unparked⟩ := inv
  unfold rtLockAcquire
  split
  · constructor <;> simp only [Sys.goto, Sys.set, update_apply] <;>
      grind [holds, inLock, waits]
  · split
    · constructor <;> simp only [Sys.goto, Sys.set, update_apply] <;>
        grind [holds, inLock, waits]
    · constructor <;> simp only [Sys.goto, Sys.set, update_apply] <;>
        grind [holds, inLock, waits]

theorem release_slot (here : (s.party t).pc = .release got) :
    SlotInv (rtLockRelease s t got) := by
  obtain ⟨depth, queue, free, queued, holder, owned, handed, hands, one, unparked⟩ := inv
  unfold rtLockRelease
  split
  · omega
  · split
    · rename_i w rest some
      rw [some] at queue queued handed
      have first := queued w List.mem_cons_self
      have later := List.nodup_cons.mp queue
      constructor <;> simp only [Sys.goto, Sys.set, update_apply]
      case handed =>
        intro u lock
        by_cases same : u = t
        · subst same
          simp [inLock] at lock
        rw [if_neg same] at lock
        rcases handed u lock with waiting | ⟨owner, -⟩
        · rcases List.mem_cons.mp waiting with rfl | waiting
          · exact .inr ⟨rfl, .inr ⟨t, got, by simp⟩⟩
          · exact .inl waiting
        · rw [holder t (by rw [here]; rfl)] at owner
          exact absurd (Option.some.inj owner).symm same
      all_goals grind [holds, inLock, waits]
    · constructor <;> simp only [done, Sys.goto, Sys.set, update_apply] <;>
        grind [holds, inLock, waits]

theorem enter_slot (here : (s.party t).pc = .lockParked)
    (stepped : rtSchedPark s t .publish = some s') : SlotInv s' := by
  obtain ⟨unparked, same⟩ := Option.ite_none_right_eq_some.mp stepped
  cases same
  obtain ⟨depth, queue, free, queued, holder, owned, handed, hands, one, unparked⟩ := inv
  constructor <;> simp only [Sys.set, update_apply] <;> grind [holds, inLock, waits]

theorem handOver_slot {w : Nat}
    (here : (s.party t).pc = .handOver w got) : SlotInv (done (rtSchedUnpark s w) t got) := by
  obtain ⟨depth, queue, free, queued, holder, owned, handed, hands, one, unparked⟩ := inv
  constructor <;> simp only [done, rtSchedUnpark, Sys.goto, Sys.set, update_apply] <;>
    grind [holds, inLock, waits]

theorem task_slot (most : (s.party t).pc = .parked → (s.party t).unparks ≤ 1)
    (stepped : taskStep s t bytes = some s') : SlotInv s' := by
  unfold taskStep at stepped
  split at stepped
  · cases stepped
  · rename_i here
    obtain ⟨s₁, read, rfl⟩ := Option.map_eq_some_iff.mp stepped
    obtain ⟨-, same⟩ := Option.ite_none_right_eq_some.mp read
    cases same
    refine (inv.move (t := t) (x := ⟨.idle, _, (s.party t).unparks⟩) ?_ ?_ ?_ ?_ ?_ ?_).of_same
      rfl rfl rfl rfl
    · rw [here]
      rfl
    · rw [here]
      rfl
    · intro lock
      cases lock
    · exact fun _ _ => inv.unparked t (by rw [here]; rfl) (by rw [here]; rfl)
    · simp
    · simp [here]
  · rename_i here
    cases stepped
    exact acquire_slot inv here
  · rename_i here
    cases stepped
    exact inv.move (by rw [here]; rfl) (by rw [here]; rfl) (fun _ => rfl)
      (fun lock => by cases lock) (by simp) (by simp [here])
  · rename_i here
    exact enter_slot inv here stepped
  · rename_i here
    cases stepped
    refine (inv.move (t := t) (x := ⟨.parking, _, (s.party t).unparks⟩) ?_ ?_ ?_ ?_ ?_ ?_).of_same
      rfl rfl rfl rfl
    · rw [here]
      rfl
    · rw [here]
      rfl
    · intro lock
      cases lock
    · intro _ park
      cases park
    · simp
    · simp [here]
  · rename_i here
    cases stepped
    exact inv.move (by rw [here]; rfl) (by rw [here]; rfl) (fun lock => by cases lock)
      (fun _ park => by cases park) (by simp) (by simp [here])
  · rename_i here
    obtain ⟨-, same⟩ := Option.ite_none_right_eq_some.mp stepped
    cases same
    refine inv.move (by rw [here]; rfl) (by rw [here]; rfl) (fun lock => by cases lock)
      (fun _ _ => Nat.sub_eq_zero_of_le (most here)) (by simp) (by simp [here])
  · rename_i here
    cases stepped
    exact inv.move (by rw [here]; rfl) (by rw [here]; rfl) (fun lock => by cases lock)
      (fun _ _ => inv.unparked t (by rw [here]; rfl) (by rw [here]; rfl)) (by simp)
      (by simp [here])
  · rename_i got here
    cases stepped
    exact release_slot inv here
  · rename_i w got here
    cases stepped
    exact handOver_slot inv here

end

theorem waits_holds {pc : Pc} (park : waits pc = true) : holds pc = true := by
  cases pc <;> first | rfl | cases park

theorem SlotInv.one_waits (inv : SlotInv s) {u : Nat} (first : holds (s.party t).pc = true)
    (other : waits (s.party u).pc = true) : u = t := by
  have mine := inv.holder t first
  rw [inv.holder u (waits_holds other)] at mine
  exact Option.some.inj mine

theorem Served.of_same {u : Nat} (served : Served s u) (req : s'.req = s.req)
    (waiter : s'.waiter = s.waiter) (thread : s'.thread = s.thread) (reads : s'.reads = s.reads)
    (mem : s'.mem = s.mem) (call : (s'.party u).call = (s.party u).call)
    (unparks : (s'.party u).unparks = (s.party u).unparks) : Served s' u := by
  cases served with
  | asked asks place who kept unread =>
    refine .asked ?_ ?_ ?_ ?_ ?_ <;> simp only [req, waiter, thread, reads, call, unparks] <;>
      assumption
  | read got asks place who kept data =>
    refine .read got ?_ ?_ ?_ ?_ ?_ <;>
      simp only [req, waiter, thread, reads, mem, call, unparks] <;> assumption
  | told none place kept data =>
    refine .told ?_ ?_ ?_ ?_ <;> simp only [req, waiter, thread, reads, mem, call, unparks] <;>
      assumption
  | woken quiet kept data =>
    refine .woken ?_ ?_ ?_ <;> simp only [req, waiter, thread, reads, mem, call, unparks] <;>
      assumption

theorem ReqInv.move (inv : ReqInv s) (data : Data s.req s.reads s.mem x)
    (served : waits x.pc = true → Served (s.set t x) t)
    (quiet : waits (s.party t).pc = true →
      waits x.pc = true ∨ Quiet s.req s.waiter s.thread) : ReqInv (s.set t x) := by
  refine ⟨?_, fun u park => ?_, fun u => ?_⟩
  · rcases inv.quiet with ⟨u, park⟩ | still
    · by_cases same : u = t
      · subst same
        refine (quiet park).imp_left fun again => ⟨u, ?_⟩
        simpa [Sys.set] using again
      · exact .inl ⟨u, by simpa [Sys.set, same] using park⟩
    · exact .inr still
  · by_cases same : u = t
    · subst same
      exact served (by simpa [Sys.set] using park)
    · have party : (s.set t x).party u = s.party u := update_of_ne same ..
      rw [party] at park
      exact (inv.served u park).of_same rfl rfl rfl rfl rfl (by rw [party]) (by rw [party])
  · by_cases same : u = t
    · subst same
      simpa [Sys.set] using data
    · simpa [Sys.set, same] using inv.data u

theorem ReqInv.of_same (inv : ReqInv s) (req : s'.req = s.req) (waiter : s'.waiter = s.waiter)
    (thread : s'.thread = s.thread) (reads : s'.reads = s.reads) (mem : s'.mem = s.mem)
    (party : s'.party = s.party) : ReqInv s' := by
  refine ⟨?_, fun u park => ?_, fun u => ?_⟩
  · rw [party, req, waiter, thread]
    exact inv.quiet
  · rw [party] at park
    exact (inv.served u park).of_same req waiter thread reads mem (by rw [party]) (by rw [party])
  · rw [req, reads, mem, party]
    exact inv.data u

theorem ReqInv.of_waits (slot : SlotInv s) (here : waits (s.party t).pc = true)
    (served : Served s t) (data : ∀ u, Data s.req s.reads s.mem (s.party u)) : ReqInv s where
  quiet := .inl ⟨t, here⟩
  served := by
    intro u park
    obtain rfl := slot.one_waits (waits_holds here) park
    exact served
  data := data

theorem ReqInv.still (inv : ReqInv s) (here : waits (s.party t).pc = false)
    (next : waits x.pc = false) (data : Data s.req s.reads s.mem x) : ReqInv (s.set t x) := by
  refine inv.move data (fun park => ?_) (fun park => ?_)
  · rw [next] at park
    cases park
  · rw [here] at park
    cases park

theorem publish_req (slot : SlotInv s) (inv : ReqInv s) (here : (s.party t).pc = .publish) :
    ReqInv (publish s t) := by
  have holder : holds (s.party t).pc = true := by
    rw [here]
    rfl
  have still : Quiet s.req s.waiter s.thread := by
    refine inv.quiet.resolve_left ?_
    rintro ⟨u, park⟩
    obtain rfl := slot.one_waits holder park
    rw [here] at park
    cases park
  have unread : Unread s.reads (s.party t).call := by
    have := inv.data t
    rw [Data, here] at this
    exact this
  have check : s.thread.signalled = .check := by
    rcases still.2.2 with awake | asleep
    · rw [awake]
      rfl
    · rw [asleep]
      rfl
  refine ⟨.inl ⟨t, ?_⟩, fun u park => ?_, fun u => ?_⟩
  · simp [publish, Sys.goto, Sys.set, waits]
  · by_cases same : u = t
    · subst same
      refine .asked ?_ (.inl check) rfl ?_ ?_
      · simp [publish, published, Sys.goto, Sys.set]
      · simpa [publish, Sys.goto, Sys.set] using
          slot.unparked u (by rw [here]; rfl) (by rw [here]; rfl)
      · simpa [publish, Sys.goto, Sys.set] using unread
    · simp only [publish, Sys.goto, Sys.set, update_of_ne same] at park
      exact absurd (slot.one_waits holder park) same
  · by_cases same : u = t
    · subst same
      simp [publish, Sys.goto, Sys.set, Data]
    · simp only [publish, Sys.goto, Sys.set, update_of_ne same]
      have before := inv.data u
      unfold Data at before ⊢
      cases place : (s.party u).pc with
      | take =>
        have mine := slot.holder u (by rw [place]; rfl)
        rw [slot.holder t holder] at mine
        exact absurd (Option.some.inj mine).symm same
      | _ =>
        rw [place] at before
        exact before

theorem Served.unparked (served : Served s t) (some : 0 < (s.party t).unparks) :
    Quiet s.req s.waiter s.thread ∧ (s.party t).unparks = 1 ∧
      Got s.reads s.mem (s.party t).call s.req.result := by
  rcases served with ⟨-, -, -, kept, -⟩ | ⟨-, -, -, -, kept, -⟩ | ⟨-, -, kept, -⟩ |
    ⟨quiet, kept, data⟩
  · omega
  · omega
  · omega
  · exact ⟨quiet, kept, data⟩

theorem CallInv.others (inv : CallInv s) {u : Nat} (here : (s.party t).pc ≠ .idle)
    (other : u ≠ t) (there : (s.party u).pc ≠ .idle) :
    (s.party t).call.id ≠ (s.party u).call.id ∧ Apart (s.party t).call (s.party u).call := by
  have differ : (s.party t).call.id ≠ (s.party u).call.id := fun same =>
    other (inv.ids t u here there same).symm
  exact ⟨differ, inv.apart _ (inv.present t here) _ (inv.present u there) differ⟩

theorem Served.other {u : Nat} (served : Served s u)
    (other : c.id ≠ (s.party u).call.id) (apart : Apart c (s.party u).call)
    (fits : bytes.length ≤ c.n) :
    Served { s with mem := fill s.mem c.buf bytes, reads := s.reads ++ [⟨c, bytes⟩] } u := by
  cases served with
  | asked asks place who kept unread =>
    exact .asked asks place who kept ((readsOf_other other).trans unread)
  | read got asks place who kept data =>
    exact .read got asks place who kept (data.other other apart fits)
  | told none place kept data => exact .told none place kept (data.other other apart fits)
  | woken quiet kept data => exact .woken quiet kept (data.other other apart fits)

theorem direct_req (inv : ReqInv s) (calls : CallInv s)
    (here : (s.party t).pc = .direct) (fits : bytes.length ≤ (s.party t).call.n) :
    ReqInv (done { s with
      mem := fill s.mem (s.party t).call.buf bytes
      reads := s.reads ++ [⟨(s.party t).call, bytes⟩] } t bytes.length) := by
  have busy : (s.party t).pc ≠ .idle := by simp [here]
  refine ⟨?_, fun u park => ?_, fun u => ?_⟩
  · rcases inv.quiet with ⟨u, park⟩ | still
    · left
      by_cases same : u = t
      · subst same
        rw [here] at park
        cases park
      · exact ⟨u, by simpa [done, Sys.goto, Sys.set, same] using park⟩
    · exact .inr still
  · by_cases same : u = t
    · subst same
      simp [done, Sys.goto, Sys.set, waits] at park
    · simp only [done, Sys.goto, Sys.set, update_of_ne same] at park
      obtain ⟨differ, apart⟩ := calls.others busy same (by
        intro idle
        rw [idle] at park
        cases park)
      refine ((inv.served u park).other differ apart fits).of_same rfl rfl rfl rfl rfl ?_ ?_
      · simp [done, Sys.goto, Sys.set, same]
      · simp [done, Sys.goto, Sys.set, same]
  · by_cases same : u = t
    · subst same
      simp [done, Sys.goto, Sys.set, Data]
    · simp only [done, Sys.goto, Sys.set, update_of_ne same]
      exact (inv.data u).other (calls.others busy same) fits

theorem task_req (slot : SlotInv s) (inv : ReqInv s) (calls : CallInv s)
    (stepped : taskStep s t bytes = some s') : ReqInv s' := by
  have data := inv.data t
  unfold Data at data
  unfold taskStep at stepped
  split at stepped
  · cases stepped
  · rename_i here
    obtain ⟨s₁, read, rfl⟩ := Option.map_eq_some_iff.mp stepped
    obtain ⟨fits, same⟩ := Option.ite_none_right_eq_some.mp read
    cases same
    exact direct_req inv calls here fits
  · rename_i here
    rw [here] at data
    cases stepped
    have moved : ∀ pc, waits pc = false → Data s.req s.reads s.mem { s.party t with pc := pc } →
        ReqInv (s.goto t pc) := fun pc next own => inv.still (by rw [here]; rfl) next own
    unfold rtLockAcquire
    split
    · exact (moved .publish rfl data).of_same rfl rfl rfl rfl rfl rfl
    · split
      · exact (moved .publish rfl data).of_same rfl rfl rfl rfl rfl rfl
      · exact (moved .lockParking rfl data).of_same rfl rfl rfl rfl rfl rfl
  · rename_i here
    rw [here] at data
    cases stepped
    exact inv.still (by rw [here]; rfl) rfl data
  · rename_i here
    rw [here] at data
    obtain ⟨-, same⟩ := Option.ite_none_right_eq_some.mp stepped
    cases same
    exact inv.still (by rw [here]; rfl) rfl data
  · rename_i here
    cases stepped
    exact publish_req slot inv here
  · rename_i here
    cases stepped
    refine inv.move trivial (fun _ => ?_) (fun _ => .inl rfl)
    refine (inv.served t (by rw [here]; rfl)).of_same rfl rfl rfl rfl rfl ?_ ?_
    · simp [Sys.set]
    · simp [Sys.set]
  · rename_i here
    obtain ⟨unparked, same⟩ := Option.ite_none_right_eq_some.mp stepped
    cases same
    obtain ⟨quiet, -, got⟩ := (inv.served t (by rw [here]; rfl)).unparked unparked
    exact inv.move got (fun park => by cases park) (fun _ => .inr quiet)
  · rename_i here
    rw [here] at data
    cases stepped
    exact inv.still (by rw [here]; rfl) rfl data
  · rename_i got here
    rw [here] at data
    cases stepped
    have moved : ∀ pc, waits pc = false → Data s.req s.reads s.mem { s.party t with pc := pc } →
        ReqInv (s.goto t pc) := fun pc next own => inv.still (by rw [here]; rfl) next own
    unfold rtLockRelease
    split
    · exact (moved .idle rfl trivial).of_same rfl rfl rfl rfl rfl rfl
    · split
      · rename_i w rest some
        exact (moved (.handOver w got) rfl data).of_same rfl rfl rfl rfl rfl rfl
      · exact (moved .idle rfl trivial).of_same rfl rfl rfl rfl rfl rfl
  · rename_i w got here
    cases stepped
    obtain ⟨-, lock, -⟩ := slot.hands t w got here
    have asleep : waits (s.party w).pc = false := by
      cases place : (s.party w).pc <;> simp [place, inLock, waits] at lock ⊢
    have woken : ReqInv (rtSchedUnpark s w) := inv.still asleep asleep (inv.data w)
    have other : t ≠ w := by
      rintro rfl
      rw [here] at lock
      cases lock
    refine ReqInv.of_same (s := (rtSchedUnpark s w).goto t .idle) ?_ rfl rfl rfl rfl rfl rfl
    refine woken.still ?_ rfl trivial
    simp [rtSchedUnpark, Sys.set, update_of_ne other, here, waits]

theorem ReqInv.busy (inv : ReqInv s) (work : ¬Quiet s.req s.waiter s.thread) :
    ∃ t, waits (s.party t).pc = true ∧ Served s t := by
  obtain ⟨t, park⟩ := inv.quiet.resolve_right work
  exact ⟨t, park, inv.served t park⟩

theorem check_req (slot : SlotInv s) (inv : ReqInv s) (here : s.thread = .check) :
    ReqInv { s with thread := if s.req.f = none then .asleep else .reading s.req } := by
  split
  · rename_i none
    have quiet : ∀ u, waits (s.party u).pc = true → Quiet s.req s.waiter s.thread := by
      intro u park
      rcases inv.served u park with ⟨asks, -, -, -, -⟩ | ⟨got, -, thread, -, -, -⟩ |
        ⟨-, thread, -, -⟩ | ⟨quiet, -, -⟩
      · rw [asks] at none
        cases none
      · simp [here] at thread
      · simp [here] at thread
      · exact quiet
    refine ⟨?_, fun u park => ?_, inv.data⟩
    · rcases inv.quiet with ⟨u, park⟩ | ⟨-, nobody, -⟩
      · exact .inl ⟨u, park⟩
      · exact .inr ⟨none, nobody, .inr rfl⟩
    · have still := quiet u park
      rcases inv.served u park with ⟨asks, -, -, -, -⟩ | ⟨got, -, thread, -, -, -⟩ |
        ⟨-, thread, -, -⟩ | ⟨-, kept, data⟩
      · rw [asks] at none
        cases none
      · simp [here] at thread
      · simp [here] at thread
      · exact .woken ⟨none, still.2.1, .inr rfl⟩ kept data
  · rename_i some
    obtain ⟨u, park, served⟩ := inv.busy (by simp [Quiet, some])
    refine ReqInv.of_waits (t := u) (slot.of_same rfl rfl rfl rfl) park ?_ inv.data
    rcases served with ⟨asks, -, who, kept, unread⟩ | ⟨got, -, thread, -, -, -⟩ |
      ⟨-, thread, -, -⟩ | ⟨quiet, -, -⟩
    · exact .asked asks (.inr rfl) who kept unread
    · simp [here] at thread
    · simp [here] at thread
    · exact absurd quiet.1 some

theorem complete_req {got : Nat} (slot : SlotInv s) (inv : ReqInv s)
    (here : s.thread = .complete got) :
    ReqInv { s with
      req := { s.req with result := got, f := none }
      waiter := none
      thread := .unpark s.waiter } := by
  obtain ⟨u, park, served⟩ := inv.busy (by simp [Quiet, here])
  refine ReqInv.of_waits (t := u) (slot.of_same rfl rfl rfl rfl) park ?_ fun v => ?_
  · rcases served with ⟨-, thread, -, -, -⟩ | ⟨count, -, thread, who, kept, data⟩ |
      ⟨-, thread, -, -⟩ | ⟨quiet, -, -⟩
    · simp [here] at thread
    · rw [here] at thread
      cases thread
      exact .told ⟨rfl, rfl⟩ (congrArg ThreadPc.unpark who) kept data
    · simp [here] at thread
    · simpa [here] using quiet.2.2
  · have before := inv.data v
    unfold Data at before ⊢
    cases place : (s.party v).pc with
    | take =>
      obtain rfl := slot.one_waits (t := v) (by rw [place]; rfl) park
      rw [place] at park
      cases park
    | _ =>
      rw [place] at before
      exact before

theorem read_req {r : Req} {f : Nat} (slot : SlotInv s) (inv : ReqInv s)
    (calls : CallInv s) (here : s.thread = .reading r) (file : r.f = some f)
    (fits : bytes.length ≤ r.n) :
    ∃ t, waits (s.party t).pc = true ∧ (s.party t).call = ⟨r.id, f, r.buf, r.n⟩ ∧
      Unread s.reads (s.party t).call ∧
      ReqInv { s with
        mem := fill s.mem r.buf bytes
        reads := s.reads ++ [⟨⟨r.id, f, r.buf, r.n⟩, bytes⟩]
        thread := .complete bytes.length } := by
  obtain ⟨u, park, served⟩ := inv.busy (by simp [Quiet, here])
  rcases served with ⟨asks, thread, who, kept, unread⟩ | ⟨count, -, thread, -, -, -⟩ |
    ⟨-, thread, -, -⟩ | ⟨quiet, -, -⟩
  · have mine : r = s.req := by
      rcases thread with thread | thread
      · simp [here] at thread
      · rw [here] at thread
        exact ThreadPc.reading.inj thread
    have call : (s.party u).call = ⟨r.id, f, r.buf, r.n⟩ := by
      rw [mine, asks] at file ⊢
      cases file
      rfl
    refine ⟨u, park, call, unread, ?_⟩
    refine ReqInv.of_waits (t := u) (slot.of_same rfl rfl rfl rfl) park ?_ fun v => ?_
    · refine .read bytes.length asks rfl who kept ?_
      rw [call] at unread ⊢
      exact got_read unread fits
    · by_cases same : v = u
      · subst same
        unfold Data
        cases place : (s.party v).pc <;> simp [place, waits] at park ⊢
      · refine (inv.data v).other (c := ⟨r.id, f, r.buf, r.n⟩) ?_ fits
        rw [← call]
        refine calls.others ?_ same
        intro idle
        rw [idle] at park
        cases park
  · simp [here] at thread
  · simp [here] at thread
  · simpa [here] using quiet.2.2

theorem unpark_req {w : Option Nat} (slot : SlotInv s) (inv : ReqInv s)
    (here : s.thread = .unpark w) : ∃ t, w = some t ∧ waits (s.party t).pc = true ∧
      ReqInv (rtSchedUnpark { s with thread := .check } t) := by
  obtain ⟨u, park, served⟩ := inv.busy (by simp [Quiet, here])
  rcases served with ⟨-, thread, -, -, -⟩ | ⟨count, -, thread, -, -, -⟩ |
    ⟨none, thread, kept, data⟩ | ⟨quiet, -, -⟩
  · simp [here] at thread
  · simp [here] at thread
  · rw [here] at thread
    cases thread
    refine ⟨u, rfl, park, ?_⟩
    have quiet : Quiet s.req s.waiter .check := ⟨none.1, none.2, .inl rfl⟩
    refine ⟨.inr quiet, fun v parked => ?_, fun v => ?_⟩
    · by_cases same : v = u
      · subst same
        refine .woken quiet ?_ ?_
        · simp [rtSchedUnpark, Sys.set, kept]
        · simpa [rtSchedUnpark, Sys.set] using data
      · simp only [rtSchedUnpark, Sys.set, update_of_ne same] at parked
        exact absurd (slot.one_waits (waits_holds park) parked) same
    · by_cases same : v = u
      · subst same
        simp only [rtSchedUnpark, Sys.set, update_self]
        exact inv.data v
      · simpa [rtSchedUnpark, Sys.set, same] using inv.data v
  · simpa [here] using quiet.2.2

theorem signalled_iff {pc next : ThreadPc} (here : next ≠ .check) (here' : next ≠ .asleep) :
    pc.signalled = next ↔ pc = next := by
  cases pc with
  | asleep => exact ⟨fun same => absurd same.symm here, fun same => absurd same.symm here'⟩
  | _ => rfl

theorem Quiet.signalled {req : Req} {waiter : Option Nat} {thread : ThreadPc}
    (quiet : Quiet req waiter thread) : Quiet req waiter thread.signalled := by
  obtain ⟨none, nobody, awake | asleep⟩ := quiet
  · exact ⟨none, nobody, .inl (by rw [awake]; rfl)⟩
  · exact ⟨none, nobody, .inl (by rw [asleep]; rfl)⟩

theorem spurious_req (inv : ReqInv s) : ReqInv { s with thread := s.thread.signalled } := by
  refine ⟨inv.quiet.imp_right Quiet.signalled, fun u park => ?_, inv.data⟩
  cases inv.served u park with
  | asked asks thread who kept unread =>
    refine .asked asks ?_ who kept unread
    refine thread.imp (fun awake => ?_) (signalled_iff (by simp) (by simp)).mpr
    simp only [awake]
    rfl
  | read got asks thread who kept data =>
    exact .read got asks ((signalled_iff (by simp) (by simp)).mpr thread) who kept data
  | told none thread kept data =>
    exact .told none ((signalled_iff (by simp) (by simp)).mpr thread) kept data
  | woken quiet kept data => exact .woken quiet.signalled kept data

theorem CallInv.of_same (inv : CallInv s) (party : ∀ u, (s'.party u).pc ≠ .idle →
      (s.party u).pc ≠ .idle ∧ (s'.party u).call = (s.party u).call)
    (calls : s'.calls = s.calls) (inProgress : s'.inProgress = s.inProgress)
    (reads : s'.reads = s.reads) (returns : s'.returns = s.returns) : CallInv s' := by
  obtain ⟨present, ids, apart, fresh, past, gone, own⟩ := inv
  refine ⟨fun u busy => ?_, fun u v busy busy' same => ?_, ?_, ?_, ?_, ?_, ?_⟩
  · obtain ⟨before, call⟩ := party u busy
    rw [call, inProgress]
    exact present u before
  · obtain ⟨before, call⟩ := party u busy
    obtain ⟨before', call'⟩ := party v busy'
    rw [call, call'] at same
    exact ids u v before before' same
  all_goals simp only [calls, inProgress, reads, returns]
  all_goals assumption

theorem CallInv.read {c : Call} {bytes : List UInt8} {mem : Nat → UInt8} {thread : ThreadPc}
    (inv : CallInv s) (present : c ∈ s.inProgress) :
    CallInv { s with mem := mem, reads := s.reads ++ [⟨c, bytes⟩], thread := thread } := by
  refine ⟨inv.present, inv.ids, inv.apart, inv.fresh, fun r member => ?_, inv.gone,
    fun a member => ?_⟩
  · rcases List.mem_append.mp member with old | new
    · exact inv.past r old
    · obtain rfl := List.mem_singleton.mp new
      exact inv.fresh c present
  · obtain ⟨bytes, found, count⟩ := inv.own a member
    exact ⟨bytes, (readsOf_other ((inv.gone a member).2 c present)).trans found, count⟩

theorem CallInv.done (inv : CallInv s) (busy : (s.party t).pc ≠ .idle)
    (data : Got s.reads s.mem (s.party t).call got) : CallInv (done s t got) := by
  have kept : ∀ c, c ∈ (PliFileBroker.done s t got).inProgress ↔
      c ∈ s.inProgress ∧ c.id ≠ (s.party t).call.id := by
    intro c
    simp [PliFileBroker.done, Sys.goto, Sys.set]
  have party : ∀ u, ((PliFileBroker.done s t got).party u).pc ≠ .idle → u ≠ t ∧
      (PliFileBroker.done s t got).party u = s.party u := by
    intro u running
    by_cases same : u = t
    · subst same
      simp [PliFileBroker.done, Sys.goto, Sys.set] at running
    · exact ⟨same, update_of_ne same ..⟩
  refine ⟨fun u running => ?_, fun u v running running' same => ?_, fun c member d member' => ?_,
    fun c member => ?_, inv.past, fun a member => ?_, fun a member => ?_⟩
  · obtain ⟨other, same⟩ := party u running
    rw [same] at running ⊢
    exact (kept _).mpr ⟨inv.present u running, fun own => other (inv.ids u t running busy own)⟩
  · have mine := (party u running).2
    have other := (party v running').2
    rw [mine] at running same
    rw [other] at running' same
    exact inv.ids u v running running' same
  · exact inv.apart c ((kept c).mp member).1 d ((kept d).mp member').1
  · exact inv.fresh c ((kept c).mp member).1
  · rcases List.mem_append.mp member with old | new
    · exact ⟨(inv.gone a old).1, fun c member => (inv.gone a old).2 c ((kept c).mp member).1⟩
    · obtain rfl := List.mem_singleton.mp new
      exact ⟨inv.fresh _ (inv.present t busy), fun c member => ((kept c).mp member).2⟩
  · rcases List.mem_append.mp member with old | new
    · exact inv.own a old
    · obtain rfl := List.mem_singleton.mp new
      obtain ⟨bytes, found, rfl, -, held⟩ := data
      exact ⟨bytes, found, rfl, held⟩

theorem CallInv.call {pc : Pc} {f buf n : Nat} (inv : CallInv s)
    (apart : ∀ d ∈ s.inProgress, Apart ⟨s.calls, f, buf, n⟩ d) :
    CallInv { s.set t ⟨pc, ⟨s.calls, f, buf, n⟩, (s.party t).unparks⟩ with
      calls := s.calls + 1
      inProgress := ⟨s.calls, f, buf, n⟩ :: s.inProgress } := by
  have others : ∀ u, u ≠ t → (s.set t ⟨pc, ⟨s.calls, f, buf, n⟩, (s.party t).unparks⟩).party u =
      s.party u := fun u other => update_of_ne other ..
  have own : ((s.set t ⟨pc, ⟨s.calls, f, buf, n⟩, (s.party t).unparks⟩).party t).call =
      ⟨s.calls, f, buf, n⟩ := by
    simp [Sys.set]
  refine ⟨fun u running => ?_, fun u v running running' same => ?_, fun c member d member' => ?_,
    fun c member => ?_, fun r member => ?_, fun a member => ?_, inv.own⟩
  · by_cases same : u = t
    · subst same
      rw [own]
      exact List.mem_cons_self
    · simp only [others u same] at running ⊢
      exact List.mem_cons_of_mem _ (inv.present u running)
  · by_cases mine : u = t
    · by_cases mine' : v = t
      · exact mine.trans mine'.symm
      · simp only [others v mine'] at running' same
        rw [mine, own] at same
        have := inv.fresh _ (inv.present v running')
        simp only at same
        omega
    · simp only [others u mine] at running same
      by_cases mine' : v = t
      · rw [mine', own] at same
        have := inv.fresh _ (inv.present u running)
        simp only at same
        omega
      · simp only [others v mine'] at running' same
        exact inv.ids u v running running' same
  · intro differ
    rcases List.mem_cons.mp member with rfl | old
    · rcases List.mem_cons.mp member' with rfl | old'
      · exact absurd rfl differ
      · exact apart d old'
    · rcases List.mem_cons.mp member' with rfl | old'
      · exact (apart c old).symm
      · exact inv.apart c old d old' differ
  · rcases List.mem_cons.mp member with rfl | old
    · exact Nat.lt_succ_self _
    · exact Nat.lt_succ_of_lt (inv.fresh c old)
  · exact Nat.lt_succ_of_lt (inv.past r member)
  · refine ⟨Nat.lt_succ_of_lt (inv.gone a member).1, fun c member' => ?_⟩
    rcases List.mem_cons.mp member' with rfl | old
    · exact (Nat.ne_of_lt (inv.gone a member).1).symm
    · exact (inv.gone a member).2 c old

theorem call_inv {pc : Pc} {f buf n : Nat} (inv : Inv s) (idle : (s.party t).pc = .idle)
    (next : pc = .acquire ∨ pc = .direct)
    (apart : ∀ d ∈ s.inProgress, Apart ⟨s.calls, f, buf, n⟩ d) :
    Inv { s.set t ⟨pc, ⟨s.calls, f, buf, n⟩, (s.party t).unparks⟩ with
      calls := s.calls + 1
      inProgress := ⟨s.calls, f, buf, n⟩ :: s.inProgress } := by
  have unread : Unread s.reads ⟨s.calls, f, buf, n⟩ := by
    refine List.filter_eq_nil_iff.mpr fun r member => ?_
    have := inv.calls.past r member
    simp only [decide_eq_true_eq]
    omega
  have kept := inv.slot.unparked t (by rw [idle]; rfl) (by rw [idle]; rfl)
  refine ⟨SlotInv.of_same (s := s.set t ⟨pc, _, _⟩) ?_ rfl rfl rfl rfl,
    ReqInv.of_same (s := s.set t ⟨pc, _, _⟩) ?_ rfl rfl rfl rfl rfl rfl, inv.calls.call apart⟩
  · refine inv.slot.move ?_ ?_ ?_ (fun _ _ => kept) ?_ (by simp [idle]) <;>
      rcases next with rfl | rfl <;> simp [idle, inLock, holds]
  · refine inv.req.still (by rw [idle]; rfl) ?_ ?_
    · rcases next with rfl | rfl <;> rfl
    · rcases next with rfl | rfl <;> exact unread

theorem task_calls (inv : Inv s) (stepped : taskStep s t bytes = some s') : CallInv s' := by
  have calls := inv.calls
  have data := inv.req.data t
  unfold Data at data
  have moved : ∀ (x : Party), (s.party t).pc ≠ .idle → x.call = (s.party t).call →
      ∀ u, ((s.set t x).party u).pc ≠ .idle →
        (s.party u).pc ≠ .idle ∧ ((s.set t x).party u).call = (s.party u).call := by
    intro x busy call u running
    by_cases same : u = t
    · subst same
      exact ⟨busy, by simpa [Sys.set] using call⟩
    · have other : (s.set t x).party u = s.party u := update_of_ne same ..
      rw [other] at running ⊢
      exact ⟨running, rfl⟩
  unfold taskStep at stepped
  split at stepped
  · cases stepped
  · rename_i here
    rw [here] at data
    obtain ⟨s₁, read, rfl⟩ := Option.map_eq_some_iff.mp stepped
    obtain ⟨fits, same⟩ := Option.ite_none_right_eq_some.mp read
    cases same
    have busy : (s.party t).pc ≠ .idle := by simp [here]
    exact (@CallInv.read s _ _ _ s.thread calls (calls.present t busy)).done busy
      (got_read data fits)
  · rename_i here
    cases stepped
    have busy : (s.party t).pc ≠ .idle := by simp [here]
    unfold rtLockAcquire
    split
    · exact calls.of_same (moved _ busy rfl) rfl rfl rfl rfl
    · split
      · exact calls.of_same (moved _ busy rfl) rfl rfl rfl rfl
      · exact calls.of_same (moved _ busy rfl) rfl rfl rfl rfl
  · rename_i here
    cases stepped
    exact calls.of_same (moved _ (by simp [here]) rfl) rfl rfl rfl rfl
  · rename_i here
    obtain ⟨-, same⟩ := Option.ite_none_right_eq_some.mp stepped
    cases same
    exact calls.of_same (moved _ (by simp [here]) rfl) rfl rfl rfl rfl
  · rename_i here
    cases stepped
    exact calls.of_same (moved _ (by simp [here]) rfl) rfl rfl rfl rfl
  · rename_i here
    cases stepped
    exact calls.of_same (moved _ (by simp [here]) rfl) rfl rfl rfl rfl
  · rename_i here
    obtain ⟨-, same⟩ := Option.ite_none_right_eq_some.mp stepped
    cases same
    exact calls.of_same (moved _ (by simp [here]) rfl) rfl rfl rfl rfl
  · rename_i here
    cases stepped
    exact calls.of_same (moved _ (by simp [here]) rfl) rfl rfl rfl rfl
  · rename_i got here
    rw [here] at data
    cases stepped
    have busy : (s.party t).pc ≠ .idle := by simp [here]
    have ended := calls.done busy data
    unfold rtLockRelease
    split
    · exact ended.of_same (fun u running => ⟨running, rfl⟩) rfl rfl rfl rfl
    · split
      · exact calls.of_same (moved _ busy rfl) rfl rfl rfl rfl
      · exact ended.of_same (fun u running => ⟨running, rfl⟩) rfl rfl rfl rfl
  · rename_i w got here
    rw [here] at data
    cases stepped
    have busy : (s.party t).pc ≠ .idle := by simp [here]
    have woken : CallInv (rtSchedUnpark s w) := by
      refine calls.of_same (fun u running => ?_) rfl rfl rfl rfl
      by_cases same : u = w
      · subst same
        simp only [rtSchedUnpark, Sys.set, update_self] at running
        exact ⟨running, by simp [rtSchedUnpark, Sys.set]⟩
      · simp only [rtSchedUnpark, Sys.set, update_of_ne same] at running
        exact ⟨running, by simp [rtSchedUnpark, Sys.set, same]⟩
    have other : t ≠ w := by
      rintro rfl
      have lock := (inv.slot.hands t t got here).2.1
      rw [here] at lock
      cases lock
    have party : (rtSchedUnpark s w).party t = s.party t := update_of_ne other ..
    refine woken.done (by rw [party]; exact busy) ?_
    rw [party]
    exact data

theorem task_inv (inv : Inv s) (stepped : taskStep s t bytes = some s') : Inv s' := by
  refine ⟨task_slot inv.slot (fun here => ?_) stepped, task_req inv.slot inv.req inv.calls stepped,
    task_calls inv stepped⟩
  rcases inv.req.served t (by rw [here]; rfl) with ⟨-, -, -, kept, -⟩ | ⟨-, -, -, -, kept, -⟩ |
    ⟨-, -, kept, -⟩ | ⟨-, kept, -⟩
  all_goals omega

theorem thread_inv (inv : Inv s) (stepped : threadStep s bytes = some s') : Inv s' := by
  unfold threadStep at stepped
  split at stepped
  · rename_i here
    cases stepped
    exact ⟨inv.slot.of_same rfl rfl rfl rfl, check_req inv.slot inv.req here,
      inv.calls.of_same (fun u running => ⟨running, rfl⟩) rfl rfl rfl rfl⟩
  · cases stepped
  · rename_i r here
    obtain ⟨f, file, stepped⟩ := Option.bind_eq_some_iff.mp stepped
    obtain ⟨s₁, read, rfl⟩ := Option.map_eq_some_iff.mp stepped
    obtain ⟨fits, same⟩ := Option.ite_none_right_eq_some.mp read
    cases same
    obtain ⟨u, park, call, -, req⟩ := read_req inv.slot inv.req inv.calls here file fits
    refine ⟨inv.slot.of_same rfl rfl rfl rfl, req, inv.calls.read ?_⟩
    rw [← call]
    refine inv.calls.present u fun idle => ?_
    rw [idle] at park
    cases park
  · rename_i got here
    cases stepped
    exact ⟨inv.slot.of_same rfl rfl rfl rfl, complete_req inv.slot inv.req here,
      inv.calls.of_same (fun u running => ⟨running, rfl⟩) rfl rfl rfl rfl⟩
  · rename_i w here
    cases stepped
    obtain ⟨u, rfl, park, req⟩ := unpark_req inv.slot inv.req here
    refine ⟨?_, req, ?_⟩
    · have awake : SlotInv { s with thread := .check } := inv.slot.of_same rfl rfl rfl rfl
      refine awake.move rfl rfl (fun lock => ?_) (fun _ still => ?_) (fun w got same => ?_)
        (fun w got same => ?_)
      · cases place : (s.party u).pc <;> simp [place, inLock, waits] at lock park
      · exact absurd park (by simp [show waits (s.party u).pc = false from still])
      · rw [show (s.party u).pc = .handOver w got from same] at park
        cases park
      · rw [show (s.party u).pc = .handOver w got from same] at park
        cases park
    · refine inv.calls.of_same (fun v running => ?_) rfl rfl rfl rfl
      by_cases same : v = u
      · subst same
        simp only [rtSchedUnpark, Sys.set, update_self] at running
        exact ⟨running, by simp [rtSchedUnpark, Sys.set]⟩
      · simp only [rtSchedUnpark, Sys.set, update_of_ne same] at running
        exact ⟨running, by simp [rtSchedUnpark, Sys.set, same]⟩

theorem Got.store {a : Nat} {v : UInt8} (own : Got reads mem c got)
    (outside : ¬(c.buf ≤ a ∧ a < c.buf + c.n)) :
    Got reads (update mem a v) c got := by
  obtain ⟨bytes, found, count, fits, held⟩ := own
  refine ⟨bytes, found, count, fits, Eq.trans (slice_congr fun b after before => ?_) held⟩
  refine update_of_ne ?_ ..
  rintro rfl
  exact outside ⟨after, by omega⟩

theorem store_inv {a : Nat} {v : UInt8} (inv : Inv s)
    (outside : ∀ d ∈ s.inProgress, ¬(d.buf ≤ a ∧ a < d.buf + d.n)) :
    Inv { s with mem := update s.mem a v } := by
  refine ⟨inv.slot.of_same rfl rfl rfl rfl, ⟨inv.req.quiet, fun u park => ?_, fun u => ?_⟩,
    inv.calls.of_same (fun u running => ⟨running, rfl⟩) rfl rfl rfl rfl⟩
  · have apart := outside _ (inv.calls.present u fun idle => by rw [idle] at park; cases park)
    cases inv.req.served u park with
    | asked asks thread who kept unread => exact .asked asks thread who kept unread
    | read got asks thread who kept data => exact .read got asks thread who kept (data.store apart)
    | told none thread kept data => exact .told none thread kept (data.store apart)
    | woken quiet kept data => exact .woken quiet kept (data.store apart)
  · have before := inv.req.data u
    have present := inv.calls.present u
    unfold Data at before ⊢
    cases place : (s.party u).pc with
    | take | release got | handOver w got =>
      rw [place] at before
      exact Got.store before (outside _ (present (by simp [place])))
    | _ =>
      rw [place] at before
      exact before

theorem step_inv {isFiber : Nat → Bool} {e : Event} (inv : Inv s)
    (stepped : step isFiber s e = some s') : Inv s' := by
  cases e with
  | call t f buf n =>
    obtain ⟨⟨idle, apart⟩, same⟩ := Option.ite_none_right_eq_some.mp stepped
    cases same
    refine call_inv inv idle ?_ apart
    split
    · exact .inl rfl
    · exact .inr rfl
  | store a v =>
    obtain ⟨outside, same⟩ := Option.ite_none_right_eq_some.mp stepped
    cases same
    exact store_inv inv outside
  | task t bytes => exact task_inv inv stepped
  | thread bytes => exact thread_inv inv stepped
  | spurious =>
    cases stepped
    exact ⟨inv.slot.of_same rfl rfl rfl rfl, spurious_req inv.req,
      inv.calls.of_same (fun u running => ⟨running, rfl⟩) rfl rfl rfl rfl⟩

theorem Inv.delivers (inv : Inv s) : Delivers s where
  own := inv.calls.own
  woken := by
    intro t park got
    rcases inv.req.served t park with ⟨asks, -, -, -, -⟩ | ⟨-, asks, -, -, -, -⟩ |
      ⟨-, thread, -, -⟩ | ⟨-, kept, -⟩
    · rw [asks] at got
      cases got
    · rw [asks] at got
      cases got
    · exact .inr thread
    · exact .inl (by omega)
  served := by
    intro t park pending
    rcases inv.req.served t park with ⟨asks, thread, who, -, -⟩ | ⟨count, asks, thread, who, -, -⟩ |
      ⟨-, -, -, data⟩ | ⟨-, -, data⟩
    · refine ⟨by rw [asks]; rfl, who, ?_⟩
      rcases thread with awake | reading
      · exact .inl awake
      · exact .inr (.inl reading)
    · exact ⟨by rw [asks]; rfl, who, .inr (.inr ⟨count, thread⟩)⟩
    · obtain ⟨bytes, -, count, -, -⟩ := data
      omega
    · obtain ⟨bytes, -, count, -, -⟩ := data
      omega
  slot := by
    intro t lock
    rcases inv.slot.handed t lock with queued | ⟨-, kept | ⟨u, got, here⟩⟩
    · left
      refine ⟨queued, ?_⟩
      cases owner : s.owner with
      | none =>
        rw [inv.slot.free owner] at queued
        cases queued
      | some u => exact ⟨u, rfl, fun same => (inv.slot.queued t queued).2.2 (same ▸ owner)⟩
    · exact .inr (.inl (by omega))
    · exact .inr (.inr ⟨u, got, here⟩)

end Steps

/-- In every state of every run. -/
theorem run_delivers {isFiber : Nat → Bool} {es : List Event} {s : Sys}
    (ran : run (step isFiber) (Sys.start mem) es = some s) : Delivers s := by
  have keep : ∀ y e y', Inv y → step isFiber y e = some y' → Inv y' :=
    fun _ _ _ inv stepped => step_inv inv stepped
  exact (run_invariant keep (start_inv mem) ran).delivers

/-- Both brokers, in every state of every run of each. -/
theorem brokers_deliver {stdin : List UInt8} {mem : Nat → UInt8} {isFiber : Nat → Bool}
    {ins : List PliStdinBroker.Event} {files : List Event} {i : PliStdinBroker.Sys} {f : Sys}
    (readIn : run (PliStdinBroker.step isFiber) (PliStdinBroker.Sys.start stdin) ins = some i)
    (readFiles : run (step isFiber) (Sys.start mem) files = some f) :
    PliStdinBroker.Delivers stdin i ∧ Delivers f :=
  ⟨PliStdinBroker.run_delivers readIn, run_delivers readFiles⟩

/-- A task parks for a chunk and is unparked before it gets there; of two tasks that read files
    one waits for the slot. -/
theorem parked_tasks_served : ∃ i f, i.answers = [(0, some 7)] ∧
    f.returns = [⟨⟨0, 5, 100, 2⟩, 2, [1, 2]⟩] ∧ (f.party 1).unparks = 1 ∧
    PliStdinBroker.Delivers [7, 8] i ∧ Delivers f := by
  refine ⟨_, _, ?_, ?_, ?_, @brokers_deliver [7, 8] (fun _ => 0) (fun _ => true)
    [.call 0, .caller, .thread none, .thread (some 2), .thread none, .thread none, .caller,
      .caller, .caller]
    [.call 0 5 100 2, .call 1 6 200 2, .task 0 [], .task 1 [], .task 0 [], .thread [],
      .thread [1, 2], .thread [], .thread [], .task 0 [], .task 0 [], .task 0 [], .task 0 [],
      .task 0 []] _ _ rfl rfl⟩
  all_goals decide +kernel

end PliFileBroker
