import PliLlvm.Runtime.RtSchedFrame

/- No wakeup of a sleeping worker is lost. A worker looks at its lists under its lock before
   it sleeps; whoever pushes to them after it has looked still has to take that lock. -/
namespace PliRtSched
open Runs
open PliRtTimers (Timer Timers)
open Function (update update_of_ne update_self)

/-- A signal to the worker is pending, or a thread that has pushed its task, or set its
    flag, is about to take its lock and signal it. -/
def Woken (s : Sys) (w : Nat) : Prop :=
  (∃ dl, s.pc w = .asleep dl true) ∨ ∃ t, aims (s.pc t) = some w

def Guarded (workers : Nat) (s : Sys) (x : Timer) : Prop :=
  ∃ w, w < workers ∧ x.home = some w ∧ unplaced (s.pc w) = false ∧
    ∀ dl, dlOf (s.pc w) = some dl → ∃ d, dl = some d ∧ d ≤ x.deadline

structure SchedInv (workers : Nat) (s : Sys) : Prop where
  locks : ∀ t v, holds t (s.pc t) = some v ↔ s.mu v = some t
  parked : ∀ w, s.parked w = isMarked (s.pc w)
  cleared : ∀ w, w < workers → ∀ dl i, stage (s.pc w) = some (dl, i) →
    ∀ k, k < i → found s w k ∨ Woken s w
  ended : ∀ t, ends (s.pc t) = true → s.mainDone = true
  main : unplaced (s.pc 0) = false
  ordered : s.timers.Ordered
  guarded : ∀ j, j < s.timers.count → Guarded workers s (s.timers.heap j)

/-- A stolen list's older half is not put back on a list that its worker has already found
    empty, with no wakeup on its way, and no timer is taken whose place a later one of two
    would take. -/
structure Proper (s : Sys) (e : Event) : Prop where
  putBack : ∀ v l list tail dl i,
    s.pc (actor e) = .listCas (.putBack v l) list tail (s.localQ v) →
      stage (s.pc v) = some (dl, i) → 2 < i → Woken s v
  expire : ∀ w now x timers, e = .expire w now → s.timers.expired now = some (x, timers) →
    s.timers.popsRight = true

section Invariant
variable {workers : Nat} {s s' : Sys} {t : Nat} {e : Event}

theorem stage_cases {pc : Pc} {x : Option Int × Nat} (staged : stage pc = some x) (w : Nat) :
    (∃ sig, pc = .asleep x.1 sig) ∨ holds w pc = some w := by
  cases pc <;> simp_all [stage, holds]
  simp [← staged]

theorem aimless {pc : Pc} {x : Option Int × Nat} (staged : stage pc = some x) : aims pc = none := by
  cases pc <;> simp_all [stage, aims]

theorem Frame.others (frame : Frame workers t s s') {w : Nat} (other : w ≠ t) :
    stage (s'.pc w) = stage (s.pc w) ∧ aims (s'.pc w) = aims (s.pc w) ∧
      (∀ v, holds v (s'.pc w) = holds v (s.pc w)) ∧ isMarked (s'.pc w) = isMarked (s.pc w) ∧
      ends (s'.pc w) = ends (s.pc w) ∧ unplaced (s'.pc w) = unplaced (s.pc w) ∧
      dlOf (s'.pc w) = dlOf (s.pc w) := by
  rcases frame.pcs w other with same | ⟨dl, sig, r, -, was, now⟩
  · simp [same]
  · rw [was, now]
    exact ⟨rfl, rfl, fun _ => rfl, rfl, rfl, rfl, rfl⟩

section
variable (inv : SchedInv workers s)
include inv

theorem woken_kept (frame : Frame workers t s s') {w : Nat}
    (worker : w < workers) (other : w ≠ t) {x : Option Int × Nat} (staged : stage (s.pc w) = some x)
    (woken : Woken s w) : Woken s' w := by
  have apart : holds t (s.pc t) = some w → holds w (s.pc w) ≠ some w := by
    intro mine his
    have both := ((inv.locks t w).mp mine).symm.trans ((inv.locks w w).mp his)
    exact other (Option.some.inj both).symm
  rcases woken with ⟨dl, asleep⟩ | ⟨u, aimed⟩
  · rcases frame.pcs w other with same | ⟨dl', sig, r, -, -, now⟩
    · exact .inl ⟨dl, same.trans asleep⟩
    · exact .inl ⟨dl', now⟩
  · by_cases own : u = t
    · subst own
      rcases frame.aim w worker other aimed with still | ⟨r, signals, done⟩ | ⟨r, looks, awake⟩
      · exact .inr ⟨u, still⟩
      · rcases stage_cases staged w with ⟨sig, asleep⟩ | locked
        · exact .inl ⟨x.1, done _ _ asleep⟩
        · exact absurd locked (apart (by rw [signals]; rfl))
      · rcases stage_cases staged w with ⟨sig, asleep⟩ | locked
        · rw [inv.parked, asleep] at awake
          cases awake
        · exact absurd locked (apart (by rw [looks]; rfl))
    · exact .inr ⟨u, (frame.others own).2.1.trans aimed⟩

theorem cleared_own (stepped : step workers s e = some s')
    (worker : actor e < workers) {dl : Option Int} {i : Nat}
    (staged : stage (s'.pc (actor e)) = some (dl, i)) (k : Nat) (before : k < i) :
    found s' (actor e) k ∨ Woken s' (actor e) := by
  have frame := step_frame stepped
  rcases frame.own dl i staged with start | ⟨j, was, kept, looked⟩
  · omega
  · rcases looked k before with earlier | now
    · rcases inv.cleared _ worker dl j was k earlier with still | ⟨dl', asleep⟩ | ⟨u, aimed⟩
      · exact .inl (kept k still)
      · rw [asleep_step asleep stepped] at staged
        cases staged
      · refine .inr (.inr ⟨u, ?_⟩)
        have other : u ≠ actor e := by
          rintro rfl
          rw [aimless was] at aimed
          cases aimed
        exact (frame.others other).2.1.trans aimed
    · exact .inl (kept k now)

theorem cleared_other (proper : Proper s e)
    (frame : Frame workers (actor e) s s') {w : Nat} (worker : w < workers) (other : w ≠ actor e)
    {dl : Option Int} {i : Nat} (staged : stage (s'.pc w) = some (dl, i)) (k : Nat)
    (before : k < i) : found s' w k ∨ Woken s' w := by
  rw [(frame.others other).1] at staged
  have kept : Woken s w → Woken s' w := woken_kept inv frame worker other staged
  rcases inv.cleared w worker dl i staged k before with empty | woken
  · rcases k with _ | _ | _ | _ | k
    · rcases frame.mainDone with same | ⟨done, at_⟩
      · left
        simp only [found, same]
        exact empty
      · by_cases main : w = 0
        · subst main
          exact .inr (.inr ⟨actor e, by rw [at_]; rfl⟩)
        · exact .inl fun zero => absurd zero main
    · exact .inl ((frame.runnext w other).trans empty)
    · rcases frame.localQ w other with same | none | ⟨l, list, tail, puts⟩
      · exact .inl (same.trans empty)
      · exact .inl none
      · exact .inr (kept (proper.putBack w l list tail dl i puts staged before))
    · rcases frame.readyQ w other with same | aimed
      · exact .inl (same.trans empty)
      · exact .inr (.inr ⟨actor e, aimed⟩)
    · exact .inl trivial
  · exact .inr (kept woken)

theorem locks_kept (frame : Frame workers t s s') (u v : Nat) :
    holds u (s'.pc u) = some v ↔ s'.mu v = some u := by
  have old := inv.locks u v
  rcases frame.locks with ⟨same, mine⟩ | ⟨v', free, none, set', mine⟩ | ⟨v', had, set', mine⟩
  · by_cases own : u = t
    · subst own
      rw [mine, same]
      exact old
    · rw [(frame.others own).2.2.1, same]
      exact old
  · by_cases here : v = v'
    · subst here
      rw [set', update_self]
      by_cases own : u = t
      · subst own
        simp [mine]
      · rw [(frame.others own).2.2.1, old, free]
        simp [Ne.symm own]
    · rw [set', update_of_ne here, ← old]
      by_cases own : u = t
      · subst own
        simp [mine, none, Ne.symm here]
      · rw [(frame.others own).2.2.1]
  · by_cases here : v = v'
    · subst here
      rw [set', update_self]
      by_cases own : u = t
      · subst own
        simp [mine]
      · rw [(frame.others own).2.2.1, old, (inv.locks t v).mp had]
        simp [Ne.symm own]
    · rw [set', update_of_ne here, ← old]
      by_cases own : u = t
      · subst own
        simp [mine, had, Ne.symm here]
      · rw [(frame.others own).2.2.1]

theorem parked_kept (frame : Frame workers t s s') (w : Nat) :
    s'.parked w = isMarked (s'.pc w) := by
  by_cases own : w = t
  · subst own
    rcases frame.parked with ⟨same, mark⟩ | ⟨b, set', mark⟩
    · rw [same, mark]
      exact inv.parked w
    · rw [set', mark, update_self]
  · rw [(frame.others own).2.2.2.1, ← inv.parked w]
    rcases frame.parked with ⟨same, -⟩ | ⟨b, set', -⟩
    · rw [same]
    · rw [set', update_of_ne own]

theorem ended_kept (frame : Frame workers t s s') (u : Nat)
    (end' : ends (s'.pc u) = true) : s'.mainDone = true := by
  have kept : s.mainDone = true → s'.mainDone = true := by
    intro done
    rcases frame.mainDone with same | ⟨now, -⟩
    · exact same.trans done
    · exact now
  by_cases own : u = t
  · subst own
    rcases frame.ended end' with before | now
    · exact kept (inv.ended u before)
    · exact now
  · rw [(frame.others own).2.2.2.2.1] at end'
    exact kept (inv.ended u end')

end

theorem placed_kept (frame : Frame workers t s s') {w : Nat} (worker : w < workers)
    (placed : unplaced (s.pc w) = false) : unplaced (s'.pc w) = false := by
  by_cases own : w = t
  · subst own
    cases out : unplaced (s'.pc w) with
    | false => rfl
    | true =>
      rw [frame.placed worker out, placed] at out
      cases out
  · rw [(frame.others own).2.2.2.2.2.1]
    exact placed

theorem guarded_kept (inv : SchedInv workers s) (frame : Frame workers t s s') {j : Nat}
    (inside : j < s.timers.count) : Guarded workers s' (s.timers.heap j) := by
  obtain ⟨w, worker, home, placed, early⟩ := inv.guarded j inside
  refine ⟨w, worker, home, placed_kept frame worker placed, fun dl read => ?_⟩
  by_cases own : w = t
  · subst own
    rcases frame.deadline dl read with before | ⟨-, rfl⟩
    · exact early dl before
    · exact PliRtTimers.nextDeadline_least inv.ordered inside
  · rw [(frame.others own).2.2.2.2.2.2] at read
    exact early dl read

theorem expired_pops {timers rest : Timers} {now : Int} {x : Timer}
    (matured : timers.expired now = some (x, rest)) : rest = timers.pop.2 := by
  unfold Timers.expired at matured
  split at matured
  · exact (congrArg Prod.snd (Option.some.inj matured)).symm
  · cases matured

theorem timers_kept (inv : SchedInv workers s) (proper : Proper s e)
    (stepped : step workers s e = some s') : s'.timers.Ordered ∧
      ∀ j, j < s'.timers.count → Guarded workers s' (s'.timers.heap j) := by
  have frame := step_frame stepped
  have old : ∀ j, j < s.timers.count → Guarded workers s' (s.timers.heap j) :=
    fun j inside => guarded_kept inv frame inside
  rcases frame.timers with same | ⟨f, d, worker, pushed, at_⟩ | ⟨-, -, here, -⟩
  · rw [same]
    exact ⟨inv.ordered, old⟩
  · rw [pushed]
    refine ⟨PliRtTimers.push_ordered inv.ordered _,
      PliRtTimers.push_all old ⟨actor e, worker, rfl, ?_, ?_⟩⟩
    · rw [at_]
      rfl
    · rw [at_]
      exact fun _ never => by cases never
  · obtain ⟨w, now, which, same | ⟨x, matured⟩⟩ := expired_step here stepped
    · rw [same]
      exact ⟨inv.ordered, old⟩
    · have right := proper.expire w now x _ which matured
      rw [expired_pops matured]
      exact ⟨PliRtTimers.pop_ordered inv.ordered right, PliRtTimers.pop_all old⟩

theorem step_inv (pool : 0 < workers) (inv : SchedInv workers s) (proper : Proper s e)
    (stepped : step workers s e = some s') : SchedInv workers s' := by
  have frame := step_frame stepped
  obtain ⟨ordered, guarded⟩ := timers_kept inv proper stepped
  refine ⟨locks_kept inv frame, parked_kept inv frame, fun w worker dl i staged k before => ?_,
    ended_kept inv frame, placed_kept frame pool inv.main, ordered, guarded⟩
  by_cases own : w = actor e
  · subst own
    exact cleared_own inv stepped worker staged k before
  · exact cleared_other inv proper frame worker own staged k before

theorem init_inv (workers : Nat) : SchedInv workers (Sys.init workers) := by
  have start : ∀ w, (Sys.init workers).pc w = .top ∨ (Sys.init workers).pc w = .unborn ∨
      (Sys.init workers).pc w = .outside := by
    intro w
    simp only [Sys.init]
    split
    · exact .inl rfl
    · split
      · exact .inr (.inl rfl)
      · exact .inr (.inr rfl)
  have silent : ∀ w, holds w ((Sys.init workers).pc w) = none ∧
      isMarked ((Sys.init workers).pc w) = false ∧ stage ((Sys.init workers).pc w) = none ∧
      ends ((Sys.init workers).pc w) = false := by
    intro w
    rcases start w with top | unborn | outside
    · rw [top]
      exact ⟨rfl, rfl, rfl, rfl⟩
    · rw [unborn]
      exact ⟨rfl, rfl, rfl, rfl⟩
    · rw [outside]
      exact ⟨rfl, rfl, rfl, rfl⟩
  refine ⟨fun t v => ?_, fun w => (silent w).2.1.symm, fun w _ dl i staged => ?_, fun t end' => ?_,
    rfl, fun j _ inside => absurd inside (Nat.not_lt_zero j), fun j inside =>
      absurd inside (Nat.not_lt_zero j)⟩
  · rw [(silent t).1]
    simp [Sys.init]
  · rw [(silent w).2.2.1] at staged
    cases staged
  · rw [(silent t).2.2.2] at end'
    cases end'

theorem run_inv (pool : 0 < workers) {es : List Event} (inv : SchedInv workers s)
    (proper : AllSteps (step workers) Proper s es)
    (reached : run (step workers) s es = some s') : SchedInv workers s' := by
  induction es generalizing s with
  | nil =>
    cases reached
    exact inv
  | cons e es ih =>
    obtain ⟨mid, stepped, rest⟩ := run_cons_iff.mp reached
    exact ih (step_inv pool inv proper.1 stepped) (proper.2 mid stepped) rest

end Invariant

def awake : Pc → Bool
  | .asleep _ _ | .unborn | .outside | .returned => false
  | _ => true

/-- No worker sleeps for ever on a task, or on the end of MAIN, and none sleeps past a
    timer: the program is over once worker 0 has returned. -/
structure NoneLost (workers : Nat) (s : Sys) : Prop where
  asleep : ∀ w sig, w < workers → s.pc w = .asleep none sig →
    (s.runnext w = none ∧ s.localQ w = none ∧ s.readyQ w = none ∧
      (w = 0 → s.mainDone = false)) ∨ Woken s w
  timers : s.timers.count ≠ 0 → s.pc 0 = .returned ∨
    ∃ w, w < workers ∧ (awake (s.pc w) = true ∨ Woken s w ∨
      ∃ d sig, s.pc w = .asleep (some d) sig ∧
        ∀ j, j < s.timers.count → d ≤ (s.timers.heap j).deadline)

section Result
variable {workers : Nat} {s : Sys}

theorem inv_asleep (inv : SchedInv workers s) {w : Nat} {dl : Option Int} {sig : Bool}
    (worker : w < workers) (asleep : s.pc w = .asleep dl sig) :
    (s.runnext w = none ∧ s.localQ w = none ∧ s.readyQ w = none ∧
      (w = 0 → s.mainDone = false)) ∨ Woken s w := by
  have looked := inv.cleared w worker dl 5 (by rw [asleep]; rfl)
  by_cases woken : Woken s w
  · exact .inr woken
  · have empty : ∀ k, k < 5 → found s w k :=
      fun k before => (looked k before).resolve_right woken
    exact .inl ⟨empty 1 (by omega), empty 2 (by omega), empty 3 (by omega), empty 0 (by omega)⟩

theorem inv_timers (pool : 0 < workers) (inv : SchedInv workers s) (some' : s.timers.count ≠ 0) :
    s.pc 0 = .returned ∨ ∃ w, w < workers ∧ (awake (s.pc w) = true ∨ Woken s w ∨
      ∃ d sig, s.pc w = .asleep (some d) sig ∧
        ∀ j, j < s.timers.count → d ≤ (s.timers.heap j).deadline) := by
  obtain ⟨w, worker, -, placed, early⟩ := inv.guarded 0 (Nat.pos_of_ne_zero some')
  cases here : s.pc w with
  | asleep dl sig =>
    obtain ⟨d, rfl, least⟩ := early dl (by rw [here]; rfl)
    refine .inr ⟨w, worker, .inr (.inr ⟨d, sig, here, fun j inside => ?_⟩)⟩
    exact least.trans (Heap.root_least inv.ordered inside)
  | unborn | outside =>
    rw [here] at placed
    cases placed
  | returned =>
    have done := inv.ended w (by rw [here]; rfl)
    cases main : s.pc 0 with
    | returned => exact .inl rfl
    | asleep dl sig =>
      rcases inv_asleep inv pool main with ⟨-, -, -, going⟩ | woken
      · rw [going rfl] at done
        cases done
      · exact .inr ⟨0, pool, .inr (.inl woken)⟩
    | unborn | outside =>
      have there := inv.main
      rw [main] at there
      cases there
    | _ => exact .inr ⟨0, pool, .inl (by rw [main]; rfl)⟩
  | _ => exact .inr ⟨w, worker, .inl (by rw [here]; rfl)⟩

end Result

/-- Whatever the workers, the tasks and the timers do, in any order: while every step is
    proper, no wakeup is lost. -/
theorem wakeups_not_lost (workers : Nat) (pool : 0 < workers) (es : List Event) (s : Sys)
    (reached : run (step workers) (Sys.init workers) es = some s)
    (proper : AllSteps (step workers) Proper (Sys.init workers) es) : NoneLost workers s := by
  have inv := run_inv pool (init_inv workers) proper reached
  exact ⟨fun w sig worker asleep => inv_asleep inv worker asleep, inv_timers pool inv⟩

def Calm (s : Sys) (e : Event) : Prop :=
  (match e with
    | .expire _ now => (s.timers.expired now).isNone
    | _ => true) = true ∧
  (match s.pc (actor e) with
    | .listCas _ _ _ _ => false
    | _ => true) = true

instance (s : Sys) (e : Event) : Decidable (Calm s e) := inferInstanceAs (Decidable (_ ∧ _))

variable {s : Sys}

theorem calm_proper {e : Event} (calm : Calm s e) : Proper s e := by
  refine ⟨fun v l list tail dl i puts _ _ => ?_, fun w now x timers which matured => ?_⟩
  · have noPut := calm.2
    rw [puts] at noPut
    cases noPut
  · have noExpiry := calm.1
    simp only [which, matured] at noExpiry
    cases noExpiry

variable {workers : Nat}

theorem allSteps_proper {es : List Event}
    (calm : AllSteps (step workers) Calm s es) : AllSteps (step workers) Proper s es :=
  (allSteps_congr (fun _ _ can => ⟨fun _ => calm_proper can, fun _ => can⟩) calm).mp calm

def ticks (t n : Nat) : List Event := List.replicate n (.tick t)

def spawned : List Event :=
  ticks 0 5 ++ .spawn 0 1 0 :: .start 1 :: ticks 1 8 ++ .expire 1 0 :: ticks 1 10 ++
    .spawn 0 2 0 :: ticks 0 3 ++ .spawned 0 true :: ticks 0 5

theorem wakeups_not_lost_spawned :
    ∃ s, run (step 2) (Sys.init 2) spawned = some s ∧ s.pc 1 = .asleep none true ∧
      NoneLost 2 s := by
  refine ⟨_, rfl, rfl, ?_⟩
  exact wakeups_not_lost 2 (by decide) spawned _ rfl (allSteps_proper (by decide))

def spawnMore (f : Nat) : List Event := .spawn 0 f 0 :: ticks 0 3 ++ [.spawned 0 false]

/-- Worker 2 is about to steal from worker 1 when worker 1 steals two tasks from worker 0
    and puts them on its list: worker 2 takes both, worker 1 finds its list empty and sleeps,
    and worker 2 puts the older one back. -/
def putBack : List Event :=
  ticks 0 5 ++ .spawn 0 1 0 :: .start 2 :: ticks 2 7 ++ spawnMore 2 ++ spawnMore 3 ++
    spawnMore 4 ++ spawnMore 5 ++ .start 1 :: ticks 1 26 ++ ticks 2 5 ++ ticks 1 12 ++ ticks 2 5

/-- Four tasks of one worker wait until 10, 2, 3 and 1. At 1 the first of them is taken, and
    the worker, out of tasks again, reads 3 as the earliest deadline. -/
def lateTimer : List Event :=
  ticks 0 5 ++ .spawn 0 1 0 :: spawnMore 2 ++ spawnMore 3 ++ .parkUntil 0 10 :: ticks 0 6 ++
    .parkUntil 0 2 :: ticks 0 10 ++ .parkUntil 0 3 :: ticks 0 10 ++ .parkUntil 0 1 :: ticks 0 8 ++
    .expire 0 1 :: ticks 0 21 ++ .finish 0 :: ticks 0 8 ++ .expire 0 1 :: ticks 0 2

variable {t : Nat}

theorem spin_ends {k : Nat} {dl : Option Int}
    (here : s.pc t = .spin dl k false 0) (ready : s.readyQ t = none) (own : s.localQ t = none)
    (global : s.globalQ = none) :
    run (step workers) s (ticks t (3 * k + 1)) = some (s.goto t (.parkLock dl)) := by
  induction k generalizing s with
  | zero => simp [ticks, run, step, tick, here]
  | succ k ih =>
    have looksReady : tick workers s t = some (s.goto t (.spin dl (k + 1) false 1)) := by
      simp [tick, here, ready]
    have looksLocal : tick workers (s.goto t (.spin dl (k + 1) false 1)) t =
        some (s.goto t (.spin dl (k + 1) false 2)) := by
      simp [tick, Sys.goto, own]
    have looksGlobal : tick workers (s.goto t (.spin dl (k + 1) false 2)) t =
        some (s.goto t (.spin dl k false 0)) := by
      simp [tick, Sys.goto, global]
    have turn : ticks t (3 * (k + 1) + 1) =
        .tick t :: .tick t :: .tick t :: ticks t (3 * k + 1) := rfl
    have rest : run (step workers) (s.goto t (.spin dl k false 0)) (ticks t (3 * k + 1)) =
        some ((s.goto t (.spin dl k false 0)).goto t (.parkLock dl)) :=
      ih (update_self ..) ready own global
    have same : (s.goto t (.spin dl k false 0)).goto t (.parkLock dl) =
      s.goto t (.parkLock dl) := by
      simp [Sys.goto]
    rw [turn]
    exact run_cons_iff.mpr ⟨_, looksReady, run_cons_iff.mpr ⟨_, looksLocal,
      run_cons_iff.mpr ⟨_, looksGlobal, rest.trans (congrArg some same)⟩⟩⟩

theorem goto_pc (s : Sys) (t : Nat) (pc : Pc) : (s.goto t pc).pc t = pc := update_self ..

theorem looks_on {dl : Option Int} (going : ¬(t = 0 ∧ s.mainDone = true))
    (next : s.runnext t = none) (own : s.localQ t = none) (ready : s.readyQ t = none)
    (global : s.globalQ = none) :
    run (step workers) (s.goto t (.check dl 0)) (ticks t 5) = some (s.goto t (.mark dl)) := by
  have done : tick workers (s.goto t (.check dl 0)) t = some (s.goto t (.check dl 1)) := by
    simp [tick, Sys.goto, going]
  have looksNext : tick workers (s.goto t (.check dl 1)) t = some (s.goto t (.check dl 2)) := by
    simp [tick, Sys.goto, next]
  have looksLocal : tick workers (s.goto t (.check dl 2)) t = some (s.goto t (.check dl 3)) := by
    simp [tick, Sys.goto, own]
  have looksReady : tick workers (s.goto t (.check dl 3)) t = some (s.goto t (.check dl 4)) := by
    simp [tick, Sys.goto, ready]
  have looksGlobal : tick workers (s.goto t (.check dl 4)) t = some (s.goto t (.mark dl)) := by
    simp [tick, Sys.goto, global]
  exact run_cons_iff.mpr ⟨_, done, run_cons_iff.mpr ⟨_, looksNext, run_cons_iff.mpr ⟨_, looksLocal,
    run_cons_iff.mpr ⟨_, looksReady, run_cons_iff.mpr ⟨_, looksGlobal, rfl⟩⟩⟩⟩⟩

theorem nothing_found_sleeps {dl : Option Int}
    (here : s.pc t = .parkLock dl) (free : s.mu t = none) (empty : ∀ k, found s t k)
    (global : s.globalQ = none) :
    ∃ s', run (step workers) s (ticks t 8) = some s' ∧ s'.pc t = .asleep dl false ∧
      s'.timers = s.timers := by
  have going : ¬(t = 0 ∧ s.mainDone = true) := by
    rintro ⟨zero, done⟩
    rw [empty 0 zero] at done
    cases done
  have next : s.runnext t = none := empty 1
  have own : s.localQ t = none := empty 2
  have ready : s.readyQ t = none := empty 3
  obtain ⟨held, taken⟩ : ∃ held, held = { s with mu := update s.mu t (some t) } := ⟨_, rfl⟩
  have takes : tick workers s t = some (held.goto t (.check dl 0)) := by
    simp [tick, here, free, taken]
  have looks : run (step workers) (held.goto t (.check dl 0)) (ticks t 5) =
      some (held.goto t (.mark dl)) := by
    apply looks_on <;> rw [taken] <;> assumption
  have marks : tick workers (held.goto t (.mark dl)) t =
      some ({ held with parked := update held.parked t true }.goto t (.wait dl)) := by
    simp [tick, Sys.goto]
  have sleeps :
      tick workers ({ held with parked := update held.parked t true }.goto t (.wait dl)) t =
      some ({ held with
        mu := update held.mu t none
        parked := update held.parked t true }.goto t (.asleep dl false)) := by
    simp [tick, Sys.goto]
  have turn : ticks t 8 = .tick t :: (ticks t 5 ++ [.tick t, .tick t]) := rfl
  refine ⟨{ held with
    mu := update held.mu t none
    parked := update held.parked t true }.goto t (.asleep dl false), ?_, goto_pc ..,
    by rw [taken]; rfl⟩
  rw [turn]
  exact run_cons_iff.mpr ⟨_, takes, run_append_iff.mpr ⟨_, looks, run_cons_iff.mpr ⟨_, marks,
    run_cons_iff.mpr ⟨_, sleeps, rfl⟩⟩⟩⟩

theorem ticks_actor {n : Nat} {e : Event} (member : e ∈ ticks t n) : actor e = t := by
  rw [List.eq_of_mem_replicate member]
  rfl

theorem outside_stays {s' : Sys} {es : List Event}
    (reached : run (step workers) s es = some s') (others : ∀ e ∈ es, t ≠ actor e)
    (out : s.pc t = .outside) : s'.pc t = .outside := by
  induction es generalizing s with
  | nil =>
    cases reached
    exact out
  | cons e es ih =>
    obtain ⟨mid, stepped, rest⟩ := run_cons_iff.mp reached
    refine ih rest (fun f member => others f (by simp [member])) ?_
    rcases (step_frame stepped).pcs t (others e (by simp)) with same | ⟨dl, sig, r, -, was, -⟩
    · exact same.trans out
    · rw [out] at was
      cases was

theorem putBack_lost : ∃ s, run (step 3) (Sys.init 3) putBack = some s ∧ ¬ NoneLost 3 s := by
  refine ⟨_, rfl, fun fine => ?_⟩
  rcases fine.asleep 1 false (by decide) rfl with ⟨-, empty, -, -⟩ | ⟨dl, signalled⟩ | ⟨t, aimed⟩
  · cases empty
  · cases signalled
  · rcases t with _ | _ | _ | t <;> cases aimed

theorem lateTimer_lost : ∃ s, run (step 1) (Sys.init 1)
    ((lateTimer ++ ticks 0 (3 * parkSpin + 1)) ++ ticks 0 8) = some s ∧ ¬ NoneLost 1 s := by
  have lists : ((run (step 1) (Sys.init 1) lateTimer).map fun s =>
      (s.pc 0, s.mainDone, [s.mu 0, s.runnext 0, s.localQ 0, s.readyQ 0, s.globalQ],
        s.timers.count, (s.timers.heap 1).deadline)) =
      some (.spin (some 3) parkSpin false 0, false, [none, none, none, none, none], 3, 2) := by
    decide +kernel
  simp only [Option.map_eq_some_iff, Prod.mk.injEq, List.cons.injEq, and_true] at lists
  obtain ⟨s, first, spins, going, ⟨free, next, own, ready, global⟩, three, second⟩ := lists
  have spun : run (step 1) s (ticks 0 (3 * parkSpin + 1)) =
      some (s.goto 0 (.parkLock (some 3))) := spin_ends spins ready own global
  have empty : ∀ k, found (s.goto 0 (.parkLock (some 3))) 0 k := by
    rintro (_ | _ | _ | _ | k)
    · exact fun _ => going
    · exact next
    · exact own
    · exact ready
    · trivial
  have locks : (s.goto 0 (.parkLock (some 3))).pc 0 = .parkLock (some 3) := by
    simp [Sys.goto]
  obtain ⟨s', slept, asleep, timers⟩ : ∃ s', run (step 1) (s.goto 0 (.parkLock (some 3)))
      (ticks 0 8) = some s' ∧ s'.pc 0 = .asleep (some 3) false ∧ s'.timers = s.timers :=
    nothing_found_sleeps locks free empty global
  have whole := run_append_iff.mpr ⟨_, run_append_iff.mpr ⟨s, first, spun⟩, slept⟩
  refine ⟨s', whole, fun fine => ?_⟩
  have outside : ∀ t, t ≠ 0 → s'.pc t = .outside := by
    intro t other
    refine outside_stays whole (fun e member => ?_) (by simp [Sys.init, other])
    have actors : ∀ e ∈ lateTimer, actor e = 0 := by decide
    have zero : actor e = 0 := by
      rcases List.mem_append.mp member with early | late
      · rcases List.mem_append.mp early with first' | spin'
        · exact actors e first'
        · exact ticks_actor spin'
      · exact ticks_actor late
    exact zero ▸ other
  rcases fine.timers (by rw [timers, three]; decide) with
    gone | ⟨w, only, awake' | (⟨dl, signalled⟩ | ⟨t, aimed⟩) | ⟨d, sig, asleep', least⟩⟩
  · rw [asleep] at gone
    cases gone
  · obtain rfl : w = 0 := by omega
    rw [asleep] at awake'
    cases awake'
  · obtain rfl : w = 0 := by omega
    rw [asleep] at signalled
    cases signalled
  · by_cases own' : t = 0
    · subst own'
      rw [asleep] at aimed
      cases aimed
    · rw [outside t own'] at aimed
      cases aimed
  · obtain rfl : w = 0 := by omega
    rw [asleep] at asleep'
    cases asleep'
    have early := least 1 (by rw [timers, three]; decide)
    rw [timers, second] at early
    omega

theorem wakeup_lost : (∃ s, run (step 3) (Sys.init 3) putBack = some s ∧ ¬ NoneLost 3 s) ∧
    ∃ s, run (step 1) (Sys.init 1)
      ((lateTimer ++ ticks 0 (3 * parkSpin + 1)) ++ ticks 0 8) = some s ∧ ¬ NoneLost 1 s :=
  ⟨putBack_lost, lateTimer_lost⟩

end PliRtSched
