import PliLlvm.Lib.Heap
import Mathlib.Order.Nat

/- The timers of the scheduler (runtime/rt_sched.c: rt_timer_push, rt_timer_next_deadline,
   rt_take_expired_timer). What a fiber's fields home and deadline hold while it is parked
   is kept in its entry; deadlines are milliseconds that do not overflow. -/
namespace PliRtTimers
open Function (update update_of_ne update_self)

structure Timer where
  fiber : Nat
  home : Option Nat
  deadline : Int
  deriving DecidableEq

/-- rt_timer_heap and rt_timer_count. -/
structure Timers where
  heap : Nat → Timer
  count : Nat

def siftUp (heap : Nat → Timer) (f : Timer) (i : Nat) : Nat → Timer :=
  if i = 0 then update heap i f
  else
    let parent := (i - 1) / 2
    if (heap parent).deadline ≤ f.deadline then update heap i f
    else siftUp (update heap i (heap parent)) f parent
termination_by i
decreasing_by omega

def Timers.push (t : Timers) (f : Timer) : Timers := ⟨siftUp t.heap f t.count, t.count + 1⟩

/-- None stands for the -1 of an empty heap. -/
def Timers.nextDeadline (t : Timers) : Option Int :=
  if t.count = 0 then none else some (t.heap 0).deadline

def best (heap : Nat → Timer) (moved : Timer) (last i : Nat) : Nat :=
  if 2 * i + 2 < last ∧ (heap (2 * i + 2)).deadline < moved.deadline then 2 * i + 2
  else if 2 * i + 1 < last ∧ (heap (2 * i + 1)).deadline < moved.deadline then 2 * i + 1
  else i

theorem best_cases (heap : Nat → Timer) (moved : Timer) (last i : Nat) :
    best heap moved last i = i ∨
      (i < best heap moved last i ∧ best heap moved last i < last ∧
        (best heap moved last i - 1) / 2 = i ∧
        (heap (best heap moved last i)).deadline < moved.deadline) := by
  unfold best
  split
  · rename_i right
    exact .inr ⟨by omega, right.1, by omega, right.2⟩
  · split
    · rename_i left
      exact .inr ⟨by omega, left.1, by omega, left.2⟩
    · exact .inl rfl

def swap (heap : Nat → Timer) (i j : Nat) : Nat → Timer :=
  update (update heap i (heap j)) j (heap i)

def sink (heap : Nat → Timer) (moved : Timer) (last i : Nat) : Nat → Timer :=
  if best heap moved last i = i then update heap i moved
  else sink (swap heap i (best heap moved last i)) moved last (best heap moved last i)
termination_by last - i
decreasing_by
  rename_i goes
  rcases best_cases heap moved last i with stays | below
  · exact absurd stays goes
  · omega

def Timers.pop (t : Timers) : Timer × Timers :=
  (t.heap 0,
    ⟨if 0 < t.count - 1 then sink t.heap (t.heap (t.count - 1)) (t.count - 1) 0 else t.heap,
      t.count - 1⟩)

/-- The timer that rt_take_expired_timer finds matured. -/
def Timers.expired (t : Timers) (now : Int) : Option (Timer × Timers) :=
  if t.count ≠ 0 ∧ (t.heap 0).deadline ≤ now then some t.pop else none

def sinksRight (heap : Nat → Timer) (moved : Timer) (last i : Nat) : Bool :=
  !(decide (2 * i + 2 < last ∧ (heap (2 * i + 2)).deadline < moved.deadline ∧
    (heap (2 * i + 1)).deadline < (heap (2 * i + 2)).deadline)) &&
  if best heap moved last i = i then true
  else sinksRight (swap heap i (best heap moved last i)) moved last (best heap moved last i)
termination_by last - i
decreasing_by
  rename_i goes
  rcases best_cases heap moved last i with stays | below
  · exact absurd stays goes
  · omega

def Timers.popsRight (t : Timers) : Bool :=
  sinksRight t.heap (t.heap (t.count - 1)) (t.count - 1) 0

def Timers.Ordered (t : Timers) : Prop := Heap.Ordered Timer.deadline t.heap t.count

variable {t : Timers}

theorem nextDeadline_least (ordered : t.Ordered) {i : Nat} (inside : i < t.count) :
    ∃ d, t.nextDeadline = some d ∧ d ≤ (t.heap i).deadline := by
  refine ⟨(t.heap 0).deadline, ?_, Heap.root_least ordered inside⟩
  simp only [Timers.nextDeadline, if_neg (show t.count ≠ 0 by omega)]

variable {heap : Nat → Timer} {i : Nat}

theorem siftUp_ordered {f : Timer} {n : Nat} (within : i < n)
    (order : Heap.Hole Timer.deadline heap n i)
    (below : ∀ j, 0 < j → j < n → (j - 1) / 2 = i → f.deadline ≤ (heap j).deadline) :
    Heap.Ordered Timer.deadline (siftUp heap f i) n := by
  induction heap, i using siftUp.induct (f := f) with
  | case1 heap =>
    rw [siftUp, if_pos rfl]
    exact order.filled (fun above => absurd above (Nat.lt_irrefl 0)) below
  | case2 heap i other parent fits =>
    rw [siftUp, if_neg other]
    simp only [parent, fits, if_true]
    exact order.filled (fun _ => fits) below
  | case3 heap i other parent rises ih =>
    rw [siftUp, if_neg other]
    simp only [parent, rises, if_false]
    refine ih (by omega) (order.up (Nat.pos_of_ne_zero other) within) fun j positive inside child =>
      ?_
    by_cases here : j = i
    · rw [here, update_self]
      omega
    · rw [update_of_ne here]
      have sibling := order.off j positive inside here (by omega)
      rw [child] at sibling
      omega

theorem push_ordered (ordered : t.Ordered) (f : Timer) : (t.push f).Ordered := by
  refine siftUp_ordered (n := t.count + 1) (Nat.lt_succ_self _) ordered.grow
    fun j positive inside child => ?_
  omega

variable {moved : Timer} {last j : Nat}

theorem best_stays (stays : best heap moved last i = i) (positive : 0 < j) (inside : j < last)
    (child : (j - 1) / 2 = i) : moved.deadline ≤ (heap j).deadline := by
  unfold best at stays
  split at stays
  · omega
  · rename_i right
    split at stays
    · omega
    · rename_i left
      have which : j = 2 * i + 1 ∨ j = 2 * i + 2 := by omega
      rcases which with rfl | rfl <;> omega

theorem best_first (goes : best heap moved last i ≠ i) (positive : 0 < j) (inside : j < last)
    (child : (j - 1) / 2 = i)
    (right : ¬(2 * i + 2 < last ∧ (heap (2 * i + 2)).deadline < moved.deadline ∧
      (heap (2 * i + 1)).deadline < (heap (2 * i + 2)).deadline)) :
    (heap (best heap moved last i)).deadline ≤ (heap j).deadline := by
  have which : j = 2 * i + 1 ∨ j = 2 * i + 2 := by omega
  unfold best at goes ⊢
  split
  · rcases which with rfl | rfl <;> omega
  · rename_i notRight
    split
    · rcases which with rfl | rfl <;> omega
    · rename_i notLeft
      simp [notRight, notLeft] at goes

theorem sinksRight_iff (heap : Nat → Timer) (moved : Timer) (last i : Nat) :
    sinksRight heap moved last i = true ↔
      ¬(2 * i + 2 < last ∧ (heap (2 * i + 2)).deadline < moved.deadline ∧
        (heap (2 * i + 1)).deadline < (heap (2 * i + 2)).deadline) ∧
      (best heap moved last i ≠ i →
        sinksRight (swap heap i (best heap moved last i)) moved last (best heap moved last i) =
          true) := by
  rw [sinksRight]
  simp only [Bool.and_eq_true, Bool.not_eq_true', decide_eq_false_iff_not]
  refine and_congr_right fun _ => ?_
  by_cases stays : best heap moved last i = i <;> simp [stays]

theorem sink_ordered (within : i < last) (order : Heap.Hole Timer.deadline heap last i)
    (above : 0 < i → (heap ((i - 1) / 2)).deadline ≤ moved.deadline)
    (right : sinksRight heap moved last i = true) :
    Heap.Ordered Timer.deadline (sink heap moved last i) last := by
  induction heap, i using sink.induct moved last with
  | case1 heap i stays =>
    rw [sink, if_pos stays]
    exact order.filled above fun j positive inside child => best_stays stays positive inside child
  | case2 heap i goes ih =>
    obtain ⟨straight, onward⟩ := (sinksRight_iff heap moved last i).mp right
    obtain stays | ⟨deeper, inside, child, before⟩ := best_cases heap moved last i
    · exact absurd stays goes
    · rw [sink, if_neg goes]
      have lower := order.down (by omega) inside child
        fun j positive within child => best_first goes positive within child straight
      refine ih inside (lower.refill _) (fun _ => ?_) (onward goes)
      rw [child, swap, update_of_ne (by omega), update_self]
      exact le_of_lt before

theorem pop_ordered (ordered : t.Ordered) (right : t.popsRight = true) : t.pop.2.Ordered := by
  unfold Timers.pop
  simp only [Timers.Ordered]
  split
  · rename_i some
    exact sink_ordered some ((ordered.fewer (Nat.sub_le _ _)).opened some)
      (fun above => absurd above (Nat.lt_irrefl 0)) right
  · exact ordered.fewer (Nat.sub_le _ _)

theorem sink_before (before : j < i) : sink heap moved last i j = heap j := by
  induction heap, i using sink.induct moved last with
  | case1 heap i stays =>
    rw [sink, if_pos stays, update_of_ne (by omega)]
  | case2 heap i goes ih =>
    obtain stays | ⟨deeper, -, -, -⟩ := best_cases heap moved last i
    · exact absurd stays goes
    · rw [sink, if_neg goes, ih (by omega), swap, update_of_ne (by omega),
        update_of_ne (by omega)]

theorem sink_unordered (wrong : ¬sinksRight heap moved last i = true) :
    ¬Heap.Ordered Timer.deadline (sink heap moved last i) last := by
  induction heap, i using sink.induct moved last with
  | case1 heap i stays =>
    refine absurd ((sinksRight_iff heap moved last i).mpr ⟨?_, fun goes => absurd stays goes⟩) wrong
    rintro ⟨inside, earlier, -⟩
    rw [best, if_pos ⟨inside, earlier⟩] at stays
    omega
  | case2 heap i goes ih =>
    rw [sink, if_neg goes]
    by_cases crossed : 2 * i + 2 < last ∧ (heap (2 * i + 2)).deadline < moved.deadline ∧
        (heap (2 * i + 1)).deadline < (heap (2 * i + 2)).deadline
    · intro ordered
      have right : best heap moved last i = 2 * i + 2 := if_pos ⟨crossed.1, crossed.2.1⟩
      have order := ordered (2 * i + 1) (by omega) (by omega)
      rw [right, show (2 * i + 1 - 1) / 2 = i by omega, sink_before (by omega),
        sink_before (by omega), swap, update_of_ne (by omega), update_self,
        update_of_ne (by omega), update_of_ne (by omega)] at order
      omega
    · refine ih fun onward => wrong ?_
      exact (sinksRight_iff heap moved last i).mpr ⟨crossed, fun _ => onward⟩

theorem pop_ordered_iff (ordered : t.Ordered) : t.pop.2.Ordered ↔ t.popsRight = true := by
  refine ⟨fun after => ?_, pop_ordered ordered⟩
  by_contra wrong
  refine sink_unordered wrong ?_
  unfold Timers.pop Timers.Ordered at after
  by_cases some : 0 < t.count - 1
  · simpa only [if_pos some] using after
  · intro i positive inside
    omega

section Members
variable {P : Timer → Prop}

theorem siftUp_all {heap : Nat → Timer} {f : Timer} {n i : Nat}
    (old : ∀ j, j < n → j ≠ i → P (heap j)) (new : P f) (within : i < n) :
    ∀ j, j < n → P (siftUp heap f i j) := by
  induction heap, i using siftUp.induct (f := f) with
  | case1 heap =>
    intro j inside
    rw [siftUp, if_pos rfl]
    by_cases here : j = 0
    · rw [here, update_self]
      exact new
    · rw [update_of_ne here]
      exact old j inside here
  | case2 heap i other parent fits =>
    intro j inside
    rw [siftUp, if_neg other]
    simp only [parent, fits, if_true]
    by_cases here : j = i
    · rw [here, update_self]
      exact new
    · rw [update_of_ne here]
      exact old j inside here
  | case3 heap i other parent rises ih =>
    rw [siftUp, if_neg other]
    simp only [parent, rises, if_false]
    refine ih (fun j inside above => ?_) (by omega)
    by_cases here : j = i
    · rw [here, update_self]
      exact old _ (by omega) (by omega)
    · rw [update_of_ne here]
      exact old j inside here

theorem sink_all {heap : Nat → Timer} {moved : Timer} {last i : Nat}
    (old : ∀ j, j < last → j ≠ i → P (heap j)) (new : P moved) :
    ∀ j, j < last → P (sink heap moved last i j) := by
  induction heap, i using sink.induct moved last with
  | case1 heap i stays =>
    intro j inside
    rw [sink, if_pos stays]
    by_cases here : j = i
    · rw [here, update_self]
      exact new
    · rw [update_of_ne here]
      exact old j inside here
  | case2 heap i goes ih =>
    rw [sink, if_neg goes]
    obtain stays | ⟨deeper, below, -, -⟩ := best_cases heap moved last i
    · exact absurd stays goes
    · refine ih fun j inside other => ?_
      rw [swap, update_of_ne other]
      by_cases here : j = i
      · rw [here, update_self]
        exact old _ below goes
      · rw [update_of_ne here]
        exact old j inside here

theorem push_all {t : Timers} {f : Timer} (old : ∀ j, j < t.count → P (t.heap j)) (new : P f) :
    ∀ j, j < (t.push f).count → P ((t.push f).heap j) :=
  siftUp_all (fun j inside other => old j (by simp only [Timers.push] at inside; omega)) new
    (Nat.lt_succ_self _)

theorem pop_all {t : Timers} (old : ∀ j, j < t.count → P (t.heap j)) :
    ∀ j, j < t.pop.2.count → P (t.pop.2.heap j) := by
  intro j inside
  simp only [Timers.pop] at inside ⊢
  split
  · exact sink_all (fun k within _ => old k (by omega)) (old _ (by omega)) j inside
  · omega

end Members

end PliRtTimers
