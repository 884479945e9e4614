import PliLlvm.Lib.Run
import PliLlvm.Runtime.RtTimers

/- The timer heap as a priority queue: runs of rt_timer_push and rt_take_expired_timer, each
   with the fibers pushed and taken so far. -/
namespace PliTimerQueue
open PliRtTimers Runs
open Heap (contents)

inductive Call where
  | push (f : Timer)
  | takeExpired (now : Int)

structure Queue where
  timers : Timers
  pushed : Multiset Timer
  taken : Multiset Timer

def empty (heap : Nat → Timer) : Queue := ⟨⟨heap, 0⟩, 0, 0⟩

def Queue.perform (q : Queue) : Call → Queue
  | .push f => { q with timers := q.timers.push f, pushed := f ::ₘ q.pushed }
  | .takeExpired now =>
    match q.timers.expired now with
    | none => q
    | some (f, rest) => { q with timers := rest, taken := f ::ₘ q.taken }

def step (q : Queue) (c : Call) : Option Queue := some (q.perform c)

def Queue.waiting (q : Queue) : Multiset Timer := q.pushed - q.taken

def Earliest (waiting : Multiset Timer) (d : Int) : Prop :=
  (∃ f ∈ waiting, f.deadline = d) ∧ ∀ f ∈ waiting, d ≤ f.deadline

structure Queue.Priority (q : Queue) : Prop where
  ordered : q.timers.Ordered
  exact : q.taken + Heap.contents q.timers.heap q.timers.count = q.pushed
  next : ∀ d, q.timers.nextDeadline = some d ↔ Earliest q.waiting d
  takes : ∀ now f rest, q.timers.expired now = some (f, rest) →
    f ∈ q.waiting ∧ Earliest q.waiting f.deadline ∧ f.deadline ≤ now
  matured : ∀ now d, Earliest q.waiting d → d ≤ now → (q.timers.expired now).isSome

/-- A timer is taken only where the last entry, as it sinks, passes no two earlier entries the
    left of which is the earlier. -/
def TakesRight (q : Queue) : Call → Prop
  | .push _ => True
  | .takeExpired now => (q.timers.expired now).isSome → q.timers.popsRight = true

theorem siftUp_contents {heap : Nat → Timer} {f : Timer} {n i : Nat} (within : i < n) :
    contents (siftUp heap f i) n = contents (Function.update heap i f) n := by
  induction heap, i using siftUp.induct (f := f) with
  | case1 heap =>
    rw [siftUp, if_pos rfl]
  | case2 heap i other parent fits =>
    rw [siftUp, if_neg other]
    simp only [parent, fits, if_true]
  | case3 heap i other parent rises ih =>
    rw [siftUp, if_neg other]
    simp only [parent, rises, if_false]
    rw [ih (by omega)]
    exact Heap.contents_move within (by omega) (by omega) f

theorem sink_contents {heap : Nat → Timer} {moved : Timer} {last i : Nat} (within : i < last) :
    contents (sink heap moved last i) last =
      contents (Function.update heap i moved) last := by
  induction heap, i using sink.induct moved last with
  | case1 heap i stays =>
    rw [sink, if_pos stays]
  | case2 heap i goes ih =>
    obtain stays | ⟨deeper, inside, -, -⟩ := best_cases heap moved last i
    · exact absurd stays goes
    · rw [sink, if_neg goes, ih inside, swap, Function.update_idem]
      exact Heap.contents_move within inside goes moved

theorem push_contents (t : Timers) (f : Timer) :
    contents (t.push f).heap (t.push f).count = f ::ₘ contents t.heap t.count := by
  have grown := @siftUp_contents t.heap f _ _ (Nat.lt_succ_self t.count)
  rw [Heap.contents_succ (Function.update t.heap t.count f), Function.update_self] at grown
  refine grown.trans (congrArg (Multiset.cons f) (Heap.contents_congr fun i inside => ?_))
  exact Function.update_of_ne (by omega) _ _

variable {t : Timers}

theorem pop_contents (some : t.count ≠ 0) :
    t.heap 0 ::ₘ contents t.pop.2.heap t.pop.2.count = contents t.heap t.count := by
  obtain ⟨last, count⟩ := Nat.exists_eq_succ_of_ne_zero some
  simp only [Timers.pop, count, Nat.succ_sub_one, Nat.succ_eq_add_one]
  rw [Heap.contents_succ]
  by_cases more : 0 < last
  · rw [if_pos more, sink_contents more, Heap.contents_update more]
  · have only : last = 0 := by omega
    rw [only, Heap.contents_zero, Heap.contents_zero]

variable {now : Int}

theorem expired_some {rest : Timers} {f : Timer} (taken : t.expired now = some (f, rest)) :
    t.count ≠ 0 ∧ (t.heap 0).deadline ≤ now ∧ f = t.heap 0 ∧ rest = t.pop.2 := by
  unfold Timers.expired at taken
  split at taken
  · rename_i due
    cases taken
    exact ⟨due.1, due.2, rfl, rfl⟩
  · exact absurd taken (by simp)

def Queue.Kept (q : Queue) : Prop :=
  q.taken + contents q.timers.heap q.timers.count = q.pushed

variable {q : Queue}

theorem perform_waits (due : q.timers.expired now = none) : q.perform (.takeExpired now) = q := by
  rw [Queue.perform, due]

theorem perform_takes {f : Timer} {rest : Timers} (due : q.timers.expired now = some (f, rest)) :
    q.perform (.takeExpired now) = { q with timers := rest, taken := f ::ₘ q.taken } := by
  rw [Queue.perform, due]

theorem waiting_of_kept (kept : q.Kept) :
    q.waiting = contents q.timers.heap q.timers.count := by
  unfold Queue.Kept at kept
  rw [Queue.waiting, ← kept, Multiset.add_comm, Multiset.add_sub_cancel_right]

theorem perform_kept (kept : q.Kept) (c : Call) : (q.perform c).Kept := by
  unfold Queue.Kept at kept ⊢
  cases c with
  | push f =>
    simp only [Queue.perform]
    rw [push_contents, Multiset.add_cons, kept]
  | takeExpired now =>
    cases due : q.timers.expired now with
    | none =>
      rw [perform_waits due]
      exact kept
    | some removed =>
      obtain ⟨f, rest⟩ := removed
      rw [perform_takes due]
      obtain ⟨occupied, -, rfl, rfl⟩ := expired_some due
      rw [Multiset.cons_add, ← Multiset.add_cons, pop_contents occupied, kept]

theorem root_earliest (ordered : t.Ordered) (some : t.count ≠ 0) :
    Earliest (contents t.heap t.count) (t.heap 0).deadline := by
  refine ⟨⟨t.heap 0, Heap.mem_contents.mpr ⟨0, by omega, rfl⟩, rfl⟩, fun f waits => ?_⟩
  obtain ⟨i, inside, rfl⟩ := Heap.mem_contents.mp waits
  exact Heap.root_least ordered inside

theorem earliest_unique {waiting : Multiset Timer} {d e : Int} (first : Earliest waiting d)
    (other : Earliest waiting e) : d = e := by
  obtain ⟨⟨f, here, rfl⟩, least⟩ := first
  obtain ⟨⟨g, there, rfl⟩, lowest⟩ := other
  exact le_antisymm (least g there) (lowest f here)

theorem priority_of_ordered (ordered : q.timers.Ordered) (kept : q.Kept) : q.Priority := by
  have waits := waiting_of_kept kept
  refine ⟨ordered, kept, fun d => ?_, fun now f rest due => ?_, fun now d earliest mature => ?_⟩
  · rw [waits]
    unfold Timers.nextDeadline
    by_cases none : q.timers.count = 0
    · simp [none, Earliest, Heap.contents_zero]
    · have root := root_earliest ordered none
      rw [if_neg none, Option.some.injEq]
      refine ⟨fun same => same ▸ root, fun earliest => earliest_unique root earliest⟩
  · obtain ⟨some, mature, rfl, -⟩ := expired_some due
    rw [waits]
    exact ⟨Heap.mem_contents.mpr ⟨0, by omega, rfl⟩, root_earliest ordered some, mature⟩
  · rw [waits] at earliest
    obtain ⟨f, waiting, -⟩ := earliest.1
    obtain ⟨i, inside, -⟩ := Heap.mem_contents.mp waiting
    have root := earliest_unique (root_earliest ordered (by omega)) earliest
    rw [Timers.expired, if_pos ⟨by omega, by omega⟩]
    rfl

theorem perform_ordered_iff (ordered : q.timers.Ordered) (c : Call) :
    (q.perform c).timers.Ordered ↔ TakesRight q c := by
  cases c with
  | push f => exact ⟨fun _ => trivial, fun _ => push_ordered ordered f⟩
  | takeExpired now =>
    unfold TakesRight
    cases due : q.timers.expired now with
    | none => simp [perform_waits due, ordered, due]
    | some removed =>
      obtain ⟨f, rest⟩ := removed
      rw [perform_takes due]
      simp only [due, Option.isSome_some, forall_const]
      obtain ⟨-, -, -, rfl⟩ := expired_some due
      exact pop_ordered_iff ordered

/-- The queue is a priority queue all along a run exactly if every timer is taken where the
    last entry sinks right. -/
theorem timers_priority_iff (heap : Nat → Timer) (calls : List Call) :
    (∀ done rest q, calls = done ++ rest → run step (empty heap) done = some q → q.Priority) ↔
      AllSteps step TakesRight (empty heap) calls := by
  refine run_invariant_iff (fun q c (holds : q.Priority) => ⟨_, rfl, ?_⟩) ?_
  · constructor
    · intro after
      exact (perform_ordered_iff holds.ordered c).mp after.ordered
    · intro right
      exact priority_of_ordered ((perform_ordered_iff holds.ordered c).mpr right)
        (perform_kept holds.exact c)
  · refine priority_of_ordered (fun i _ inside => ?_) rfl
    exact absurd inside (Nat.not_lt_zero i)

/-- Of four timers the first is taken, and the latest sinks past the third: the second, which
    is the next to mature, is not the first of the heap. -/
theorem timer_overslept :
    ¬∀ (heap : Nat → Timer) (calls done rest : List Call) (q : Queue), calls = done ++ rest →
      run step (empty heap) done = some q → q.Priority := by
  intro always
  have heap := fun _ : Nat => (⟨0, none, 0⟩ : Timer)
  have before := always heap _ [.push ⟨1, none, 10⟩, .push ⟨2, none, 20⟩, .push ⟨3, none, 30⟩,
    .push ⟨4, none, 40⟩] [.takeExpired 10] _ rfl rfl
  have after := always heap _ [.push ⟨1, none, 10⟩, .push ⟨2, none, 20⟩, .push ⟨3, none, 30⟩,
    .push ⟨4, none, 40⟩, .takeExpired 10] [] _ rfl rfl
  have right := (perform_ordered_iff before.ordered (.takeExpired 10)).mp after.ordered
    (by simp [Queue.perform, empty, Timers.push, siftUp, Timers.expired])
  refine ((sinksRight_iff _ _ _ _).mp right).1 ?_
  simp [Queue.perform, empty, Timers.push, siftUp]

theorem run_kept (heap : Nat → Timer) (calls : List Call) :
    ∃ q, run step (empty heap) calls = some q ∧ q.Kept := by
  have keep (q : Queue) (c : Call) (kept : q.Kept) (_ : True) :
      ∃ q', step q c = some q' ∧ q'.Kept := ⟨_, rfl, perform_kept kept c⟩
  exact run_keeps keep rfl (allSteps_of_forall (fun _ _ _ => trivial) _)

theorem takes_all {n : Nat} (kept : q.Kept) (count : q.timers.count = n)
    (late : ∀ f ∈ q.waiting, f.deadline ≤ now) :
    ∃ last, run step q (List.replicate n (.takeExpired now)) = some last ∧
      last.taken = q.pushed := by
  rw [waiting_of_kept kept] at late
  induction n generalizing q with
  | zero =>
    rw [Queue.Kept, count, Heap.contents_zero, Multiset.add_zero] at kept
    exact ⟨q, rfl, kept⟩
  | succ n ih =>
    have occupied : q.timers.count ≠ 0 := by omega
    have root := late _ (Heap.mem_contents.mpr ⟨0, by omega, rfl⟩)
    have taken := perform_takes (if_pos ⟨occupied, root⟩ : q.timers.expired now = some q.timers.pop)
    have next := perform_kept kept (.takeExpired now)
    obtain ⟨last, done, all⟩ := ih next (by rw [taken]; simp [count]) (by
      intro f waits
      rw [taken] at waits
      refine late f ?_
      rw [← pop_contents occupied]
      exact Multiset.mem_cons_of_mem waits)
    refine ⟨last, run_cons_iff.mpr ⟨_, rfl, done⟩, ?_⟩
    rw [all, taken]

/-- No timer is lost or taken twice, whether or not the heap is still in order: what is pushed
    stands in the heap or has been taken, what is taken has waited and matured, and late enough
    all are taken. -/
theorem timers_taken_once (heap : Nat → Timer) (calls : List Call) :
    ∃ q, run step (empty heap) calls = some q ∧
      q.taken + contents q.timers.heap q.timers.count = q.pushed ∧
      q.waiting = contents q.timers.heap q.timers.count ∧
      (∀ now f rest, q.timers.expired now = some (f, rest) →
        f ∈ q.waiting ∧ f.deadline ≤ now) ∧
      ∀ now, (∀ f ∈ q.waiting, f.deadline ≤ now) → ∃ last,
        run step q (List.replicate (Multiset.card q.waiting) (.takeExpired now)) = some last ∧
          last.taken = q.pushed := by
  obtain ⟨q, done, kept⟩ := run_kept heap calls
  have waits := waiting_of_kept kept
  refine ⟨q, done, kept, waits, fun now f rest due => ?_,
    fun now late => takes_all kept ?_ late⟩
  · obtain ⟨occupied, mature, rfl, -⟩ := expired_some due
    rw [waits]
    exact ⟨Heap.mem_contents.mpr ⟨0, by omega, rfl⟩, mature⟩
  · rw [waits]
    simp [contents]

end PliTimerQueue
