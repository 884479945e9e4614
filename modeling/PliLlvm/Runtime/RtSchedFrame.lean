import PliLlvm.Runtime.RtSched

/- What one step of the scheduler can do: to the thread that takes it, and to the others.
   The invariants are proved from this alone. -/
namespace PliRtSched
open Runs
open PliRtTimers (Timer Timers)
open Function (update update_of_ne update_self)

/-- How many of MAIN's end, runnext, the local list, the ready list and the global queue
    a worker has found empty under its lock, and its deadline. -/
def stage : Pc → Option (Option Int × Nat)
  | .check dl i => some (dl, i)
  | .mark dl | .wait dl | .asleep dl _ => some (dl, 5)
  | _ => none

def aims : Pc → Option Nat
  | .wakeOne v _ | .wakeParked v _ | .wakeSignal v _ | .mainDone v => some v
  | _ => none

def holds (t : Nat) : Pc → Option Nat
  | .check _ _ | .mark _ | .wait _ | .unmark | .parkUnlock => some t
  | .wakeParked v _ | .wakeSignal v _ | .wakeUnlock v _ => some v
  | _ => none

def isMarked : Pc → Bool
  | .wait _ | .asleep _ _ | .relock | .unmark => true
  | _ => false

def dlOf : Pc → Option (Option Int)
  | .parkMain dl | .spin dl _ _ _ | .parkLock dl | .check dl _ | .mark dl | .wait dl
  | .asleep dl _ => some dl
  | _ => none

def pushRet : Push → Option Ret
  | .own _ => none
  | .ready _ r | .global r => some r

def retOf : Pc → Option Ret
  | .push q _ | .pushLink q _ _ | .pushCas q _ _ => pushRet q
  | .wakeOne _ r | .wakeParked _ r | .wakeSignal _ r | .wakeUnlock _ r | .wakeAny _ r => some r
  | _ => none

def isMainDone : Option Ret → Bool
  | some (.mainDone _) => true
  | _ => false

def ends : Pc → Bool
  | .returned | .mainDone _ => true
  | pc => isMainDone (retOf pc)

def unplaced (pc : Pc) : Bool := pc == .unborn || pc == .outside

def found (s : Sys) (w : Nat) : Nat → Prop
  | 0 => w = 0 → s.mainDone = false
  | 1 => s.runnext w = none
  | 2 => s.localQ w = none
  | 3 => s.readyQ w = none
  | _ => True

/-- What a step of the thread `t` does, to itself and to the others. -/
structure Frame (workers t : Nat) (s s' : Sys) : Prop where
  pcs : ∀ w, w ≠ t → s'.pc w = s.pc w ∨
    ∃ dl sig r, s.pc t = .wakeSignal w r ∧ s.pc w = .asleep dl sig ∧ s'.pc w = .asleep dl true
  runnext : ∀ w, w ≠ t → s'.runnext w = s.runnext w
  localQ : ∀ w, w ≠ t → s'.localQ w = s.localQ w ∨ s'.localQ w = none ∨
    ∃ l list tail, s.pc t = .listCas (.putBack w l) list tail (s.localQ w)
  readyQ : ∀ w, w ≠ t → s'.readyQ w = s.readyQ w ∨ aims (s'.pc t) = some w
  mainDone : s'.mainDone = s.mainDone ∨ (s'.mainDone = true ∧ s'.pc t = .mainDone 0)
  aim : ∀ w, w < workers → w ≠ t → aims (s.pc t) = some w → aims (s'.pc t) = some w ∨
    (∃ r, s.pc t = .wakeSignal w r ∧ ∀ dl sig, s.pc w = .asleep dl sig →
      s'.pc w = .asleep dl true) ∨
    (∃ r, s.pc t = .wakeParked w r ∧ s.parked w = false)
  locks : (s'.mu = s.mu ∧ holds t (s'.pc t) = holds t (s.pc t)) ∨
    (∃ v, s.mu v = none ∧ holds t (s.pc t) = none ∧ s'.mu = update s.mu v (some t) ∧
      holds t (s'.pc t) = some v) ∨
    (∃ v, holds t (s.pc t) = some v ∧ s'.mu = update s.mu v none ∧
      holds t (s'.pc t) = none)
  parked : (s'.parked = s.parked ∧ isMarked (s'.pc t) = isMarked (s.pc t)) ∨
    ∃ b, s'.parked = update s.parked t b ∧ isMarked (s'.pc t) = b
  ended : ends (s'.pc t) = true → ends (s.pc t) = true ∨ s'.mainDone = true
  placed : t < workers → unplaced (s'.pc t) = true → s'.pc t = s.pc t
  own : ∀ dl i, stage (s'.pc t) = some (dl, i) → i = 0 ∨
    ∃ j, stage (s.pc t) = some (dl, j) ∧ (∀ k, found s t k → found s' t k) ∧
      ∀ k, k < i → k < j ∨ found s t k
  deadline : ∀ dl, dlOf (s'.pc t) = some dl → dlOf (s.pc t) = some dl ∨
    (s.pc t = .deadline ∧ dl = s.timers.nextDeadline)
  timers : s'.timers = s.timers ∨
    (∃ f d, t < workers ∧ s'.timers = s.timers.push ⟨f, some t, d⟩ ∧ s'.pc t = .switchOut) ∨
    (∃ now x, s.pc t = .expired ∧ s.timers.expired now = some (x, s'.timers))

def plain (pc : Pc) : Bool := (aims pc).isNone && (holds 0 pc).isNone && !isMarked pc

theorem plain_facts {pc : Pc} (ok : plain pc = true) (t : Nat) :
    aims pc = none ∧ holds t pc = none ∧ isMarked pc = false ∧ stage pc = none := by
  cases pc <;> simp_all [plain, aims, holds, isMarked, stage]

section Steps
variable {workers : Nat} {s s' : Sys} {t : Nat} {pc pc' : Pc}

theorem Frame.plain (here : s.pc t = pc) (pcs : s'.pc = update s.pc t pc')
    (runnext : ∀ w, w ≠ t → s'.runnext w = s.runnext w)
    (localQ : ∀ w, w ≠ t → s'.localQ w = s.localQ w ∨ s'.localQ w = none ∨
      ∃ l list tail, s.pc t = .listCas (.putBack w l) list tail (s.localQ w))
    (readyQ : ∀ w, w ≠ t → s'.readyQ w = s.readyQ w) (mainDone : s'.mainDone = s.mainDone)
    (mu : s'.mu = s.mu) (parked : s'.parked = s.parked)
    (timers : s'.timers = s.timers ∨
      (∃ f d, t < workers ∧ s'.timers = s.timers.push ⟨f, some t, d⟩ ∧ pc' = .switchOut) ∨
      (∃ now x, pc = .expired ∧ s.timers.expired now = some (x, s'.timers)))
    (was : PliRtSched.plain pc = true) (now : PliRtSched.plain pc' = true)
    (ended : ends pc' = true → ends pc = true ∨ s'.mainDone = true)
    (placed : t < workers → unplaced pc' = false)
    (deadline : dlOf pc' = none ∨ dlOf pc' = dlOf pc ∨
      (pc = .deadline ∧ dlOf pc' = some s.timers.nextDeadline)) :
    Frame workers t s s' := by
  have there : s'.pc t = pc' := by rw [pcs, update_self]
  obtain ⟨aim, held, marked, -⟩ := plain_facts was t
  obtain ⟨-, held', marked', staged⟩ := plain_facts now t
  refine ⟨fun w other => .inl ?_, runnext, localQ, fun w other => .inl (readyQ w other),
    .inl mainDone, fun w _ _ aimed => ?_, .inl ⟨mu, ?_⟩, .inl ⟨parked, ?_⟩, ?_, ?_, ?_, ?_, ?_⟩
  · rw [pcs, update_of_ne other]
  · rw [here, aim] at aimed
    cases aimed
  · rw [here, there, held, held']
  · rw [here, there, marked, marked']
  · rw [here, there]
    exact ended
  · intro worker outside
    rw [there, placed worker] at outside
    cases outside
  · intro dl i at_
    rw [there, staged] at at_
    cases at_
  · intro dl read
    rw [there] at read
    rcases deadline with none | same | ⟨reads, fresh⟩
    · rw [none] at read
      cases read
    · rw [here, ← same]
      exact .inl read
    · rw [fresh] at read
      cases read
      exact .inr ⟨here.trans reads, rfl⟩
  · rw [here, there]
    exact timers

theorem goto_frame (here : s.pc t = pc) (was : plain pc = true) (now : plain pc' = true)
    (ended : ends pc' = true → ends pc = true ∨ s.mainDone = true)
    (placed : t < workers → unplaced pc' = false)
    (deadline : dlOf pc' = none ∨ dlOf pc' = dlOf pc ∨
      (pc = .deadline ∧ dlOf pc' = some s.timers.nextDeadline)) :
    Frame workers t s (s.goto t pc') :=
  .plain here rfl (fun _ _ => rfl) (fun _ _ => .inl rfl) (fun _ _ => rfl) rfl rfl rfl (.inl rfl)
    was now ended placed deadline

def moves (pc : Pc) : Bool :=
  PliRtSched.plain pc && !ends pc && !unplaced pc && (dlOf pc).isNone

variable {mid : Sys}

theorem lists_frame (here : s.pc t = pc) (same : mid.pc = s.pc)
    (runnext : ∀ w, w ≠ t → mid.runnext w = s.runnext w)
    (localQ : ∀ w, w ≠ t → mid.localQ w = s.localQ w ∨ mid.localQ w = none ∨
      ∃ l list tail, s.pc t = .listCas (.putBack w l) list tail (s.localQ w))
    (readyQ : ∀ w, w ≠ t → mid.readyQ w = s.readyQ w)
    (rest : mid.mainDone = s.mainDone ∧ mid.mu = s.mu ∧ mid.parked = s.parked ∧
      mid.timers = s.timers)
    (was : plain pc = true) (now : moves pc' = true) : Frame workers t s (mid.goto t pc') := by
  simp only [moves, Bool.and_eq_true, Bool.not_eq_true', Option.isNone_iff_eq_none] at now
  obtain ⟨⟨⟨plain', noEnd⟩, placed⟩, noDl⟩ := now
  obtain ⟨mainDone, mu, parked, timers⟩ := rest
  refine .plain here ?_ runnext localQ readyQ mainDone mu parked (.inl timers) was plain' ?_
    (fun _ => placed) (.inl noDl)
  · rw [← same]
    rfl
  · rw [noEnd]
    exact fun never => Bool.noConfusion never

theorem move_frame (here : s.pc t = pc) (was : plain pc = true) (now : moves pc' = true) :
    Frame workers t s (s.goto t pc') :=
  lists_frame here rfl (fun _ _ => rfl) (fun _ _ => .inl rfl) (fun _ _ => rfl)
    ⟨rfl, rfl, rfl, rfl⟩ was now

theorem link_frame (p : Nat) (n : Option Nat) (here : s.pc t = pc) (was : plain pc = true)
    (now : moves pc' = true) : Frame workers t s ((s.setNext p n).goto t pc') :=
  lists_frame here rfl (fun _ _ => rfl) (fun _ _ => .inl rfl) (fun _ _ => rfl)
    ⟨rfl, rfl, rfl, rfl⟩ was now

theorem local_frame (h : Option Nat) (here : s.pc t = pc) (was : plain pc = true)
    (now : moves pc' = true) : Frame workers t s ((s.setLocal t h).goto t pc') :=
  lists_frame here rfl (fun _ _ => rfl)
    (fun w other => .inl (by simp [Sys.setLocal, other])) (fun _ _ => rfl)
    ⟨rfl, rfl, rfl, rfl⟩ was now

theorem resume_placed (r : Ret) (worker : t < workers) :
    unplaced (resume workers t r) = false := by
  cases r <;> simp [resume, worker, unplaced]

theorem resume_facts (workers t : Nat) (r : Ret) : dlOf (resume workers t r) = none ∧
    holds t (resume workers t r) = none ∧ isMarked (resume workers t r) = false ∧
    stage (resume workers t r) = none ∧
    (ends (resume workers t r) = true → isMainDone (some r) = true) := by
  cases r with
  | task =>
    by_cases worker : t < workers <;>
      simp [resume, worker, dlOf, holds, isMarked, stage, ends, retOf, isMainDone]
  | expired => exact ⟨rfl, rfl, rfl, rfl, fun never => never⟩
  | mainDone i => exact ⟨rfl, rfl, rfl, rfl, fun _ => rfl⟩

theorem pushCas_frame {q : Push} {f : Nat} {h : Option Nat} (here : s.pc t = .pushCas q f h) :
    Frame workers t s ((setPushHead s t q (some f)).goto t (afterPush q)) := by
  cases q with
  | own after =>
    refine local_frame (some f) here rfl ?_
    rcases after with (_ | _) | _ | _ <;> rfl
  | ready v r =>
    refine ⟨fun w other => .inl ?_, fun _ _ => rfl, fun _ _ => .inl rfl, fun w other => ?_,
      .inl rfl, fun w _ other aimed => ?_, .inl ⟨rfl, ?_⟩, .inl ⟨rfl, ?_⟩, ?_, ?_, ?_, ?_, .inl rfl⟩
    · simp [Sys.goto, setPushHead, other]
    · by_cases own : w = v
      · subst own
        simp [Sys.goto, setPushHead, afterPush, aims]
      · simp [Sys.goto, setPushHead, own]
    · rw [here] at aimed
      cases aimed
    · simp [Sys.goto, here, afterPush, holds]
    · simp [Sys.goto, here, afterPush, isMarked]
    · simp only [Sys.goto, setPushHead, update_self, here]
      exact .inl
    · simp [Sys.goto, afterPush, unplaced]
    · simp [Sys.goto, afterPush, stage]
    · simp [Sys.goto, afterPush, dlOf]
  | global r =>
    exact @Frame.plain _ _ _ _ _ (.wakeAny 0 r) here rfl (fun _ _ => rfl) (fun _ _ => .inl rfl)
      (fun _ _ => rfl) rfl rfl rfl (.inl rfl) rfl rfl .inl (fun _ => rfl) (.inl rfl)

theorem push_frame {q : Push} {f f' : Nat} {pc' : Pc} (here : s.pc t = pc)
    (was : pc = .push q f ∨ ∃ h, pc = .pushCas q f h)
    (now : pc' = .push q f' ∨ ∃ h, pc' = .pushLink q f' h) :
    Frame workers t s (s.goto t pc') := by
  rcases was with rfl | ⟨h, rfl⟩ <;> rcases now with rfl | ⟨h', rfl⟩ <;>
    exact goto_frame here rfl rfl .inl (fun _ => rfl) (.inl rfl)

theorem pop_frame {q : Pop} (h : Option Nat) (here : s.pc t = pc) (was : plain pc = true)
    (now : moves pc' = true) : Frame workers t s ((setPopHead s t q h).goto t pc') := by
  cases q with
  | own stolen => exact local_frame h here was now
  | global =>
    exact lists_frame here rfl (fun _ _ => rfl) (fun _ _ => .inl rfl) (fun _ _ => rfl)
      ⟨rfl, rfl, rfl, rfl⟩ was now

theorem popEmpty_moves (q : Pop) : moves (popEmpty q) = true := by
  rcases q with (_ | _) | _ <;> rfl

theorem afterBlock_moves (q : Block) : moves (afterBlock q) = true := by
  cases q <;> rfl

theorem listCas_frame {q : Block} {list tail : Nat} {h : Option Nat}
    (here : s.pc t = .listCas q list tail h) (same : s.localQ (blockQueue t q) = h) :
    Frame workers t s ((s.setLocal (blockQueue t q) (some list)).goto t (afterBlock q)) := by
  refine lists_frame here rfl (fun _ _ => rfl) (fun w other => ?_) (fun _ _ => rfl)
    ⟨rfl, rfl, rfl, rfl⟩ rfl (afterBlock_moves q)
  cases q with
  | best f | stolen => exact .inl (by simp [Sys.setLocal, blockQueue, other])
  | putBack victim l =>
    by_cases own : w = victim
    · subst own
      exact .inr (.inr ⟨l, list, tail, by rw [here, ← same]; rfl⟩)
    · exact .inl (by simp [Sys.setLocal, blockQueue, own])

variable {i : Nat}

theorem steal_frame {v : Nat} (here : s.pc t = .steal i) (now : moves pc' = true) :
    Frame workers t s ((s.setLocal v none).goto t pc') := by
  refine lists_frame here rfl (fun _ _ => rfl) (fun w _ => ?_) (fun _ _ => rfl)
    ⟨rfl, rfl, rfl, rfl⟩ rfl now
  by_cases victim : w = v
  · exact .inr (.inl (by simp [Sys.setLocal, victim]))
  · exact .inl (by simp [Sys.setLocal, victim])

theorem park_frame (here : s.pc t = pc) (same : mid.pc = s.pc)
    (lists : mid.runnext = s.runnext ∧ mid.localQ = s.localQ ∧ mid.readyQ = s.readyQ ∧
      mid.mainDone = s.mainDone ∧ mid.timers = s.timers) (aimless : aims pc = none)
    (locks : (mid.mu = s.mu ∧ holds t pc' = holds t pc) ∨
      (s.mu t = none ∧ holds t pc = none ∧ mid.mu = update s.mu t (some t) ∧
        holds t pc' = some t) ∨
      (holds t pc = some t ∧ mid.mu = update s.mu t none ∧ holds t pc' = none))
    (parked : (mid.parked = s.parked ∧ isMarked pc' = isMarked pc) ∨
      ∃ b, mid.parked = update s.parked t b ∧ isMarked pc' = b)
    (ended : ends pc' = false) (placed : unplaced pc' = false)
    (own : ∀ dl i, stage pc' = some (dl, i) → i = 0 ∨
      ∃ j, stage pc = some (dl, j) ∧ ∀ k, k < i → k < j ∨ found s t k)
    (deadline : dlOf pc' = none ∨ dlOf pc' = dlOf pc) :
    Frame workers t s (mid.goto t pc') := by
  have there : (mid.goto t pc').pc t = pc' := update_self ..
  obtain ⟨runnext, localQ, readyQ, mainDone, timers⟩ := lists
  refine ⟨fun w other => .inl ?_, fun w _ => congrFun runnext w,
    fun w _ => .inl (congrFun localQ w), fun w _ => .inl (congrFun readyQ w), .inl mainDone,
    fun w _ other aimed => ?_, ?_, ?_, ?_, ?_, ?_, ?_, .inl timers⟩
  · simp [Sys.goto, other, same]
  · rw [here, aimless] at aimed
    cases aimed
  · rw [there, here]
    rcases locks with kept | ⟨free, was, set', held⟩ | ⟨held, set', freed⟩
    · exact .inl kept
    · exact .inr (.inl ⟨t, free, was, set', held⟩)
    · exact .inr (.inr ⟨t, held, set', freed⟩)
  · rw [there, here]
    exact parked
  · rw [there, ended]
    exact fun never => Bool.noConfusion never
  · rw [there, placed]
    exact fun _ never => Bool.noConfusion never
  · intro dl i at_
    rw [there] at at_
    rcases own dl i at_ with start | ⟨j, before, looked⟩
    · exact .inl start
    · rw [here]
      refine .inr ⟨j, before, fun k still => ?_, looked⟩
      rcases k with _ | _ | _ | _ | k <;>
        simp_all [found, Sys.goto]
  · intro dl read
    rw [there] at read
    rcases deadline with none | unchanged
    · rw [none] at read
      cases read
    · rw [here, ← unchanged]
      exact .inl read

theorem locked_frame (here : s.pc t = pc) (was : holds t pc = some t) (aimless : aims pc = none)
    (mark : isMarked pc = false) (held : holds t pc' = some t) (mark' : isMarked pc' = false)
    (ended : ends pc' = false) (placed : unplaced pc' = false)
    (own : ∀ dl i, stage pc' = some (dl, i) →
      ∃ j, stage pc = some (dl, j) ∧ ∀ k, k < i → k < j ∨ found s t k)
    (deadline : dlOf pc' = none ∨ dlOf pc' = dlOf pc) : Frame workers t s (s.goto t pc') :=
  park_frame here rfl ⟨rfl, rfl, rfl, rfl, rfl⟩ aimless (.inl ⟨rfl, held.trans was.symm⟩)
    (.inl ⟨rfl, mark'.trans mark.symm⟩) ended placed (fun dl i at_ => .inr (own dl i at_)) deadline

theorem check_frame {dl : Option Int} (here : s.pc t = .check dl i)
    (stepped : tick workers s t = some s') : Frame workers t s s' := by
  have leaves : Frame workers t s (s.goto t .parkUnlock) :=
    locked_frame here rfl rfl rfl rfl rfl rfl rfl (fun _ _ never => by cases never) (.inl rfl)
  have goes : ∀ {pc' : Pc}, pc' = .check dl (i + 1) ∨ (pc' = .mark dl ∧ 4 ≤ i) → found s t i →
      Frame workers t s (s.goto t pc') := by
    intro pc' next looked
    rcases next with rfl | ⟨rfl, last⟩
    · refine locked_frame here rfl rfl rfl rfl rfl rfl rfl (fun dl' j at_ => ?_) (.inr rfl)
      cases at_
      refine ⟨i, rfl, fun k before => ?_⟩
      rcases Nat.lt_succ_iff_lt_or_eq.mp before with earlier | rfl
      · exact .inl earlier
      · exact .inr looked
    · refine locked_frame here rfl rfl rfl rfl rfl rfl rfl (fun dl' j at_ => ?_) (.inr rfl)
      cases at_
      refine ⟨i, rfl, fun k before => ?_⟩
      rcases Nat.lt_or_ge k i with earlier | same
      · exact .inl earlier
      · obtain rfl : k = i := by omega
        exact .inr looked
  simp only [tick, here, Option.some.injEq] at stepped
  subst stepped
  split
  · rename_i first
    subst first
    split
    · exact leaves
    · rename_i going
      exact goes (.inl rfl) fun zero => by simpa [zero] using going
  · split
    · rename_i second
      subst second
      split
      · exact leaves
      · rename_i empty
        exact goes (.inl rfl) (by simpa [found] using empty)
    · split
      · rename_i third
        subst third
        split
        · exact leaves
        · rename_i empty
          exact goes (.inl rfl) (by simpa [found] using empty)
      · split
        · rename_i fourth
          subst fourth
          split
          · exact leaves
          · rename_i empty
            exact goes (.inl rfl) (by simpa [found] using empty)
        · split
          · exact leaves
          · refine goes (.inr ⟨rfl, by omega⟩) ?_
            unfold found
            split <;> first | omega | trivial

variable {r : Ret}

theorem retOf_facts {pc : Pc} (ret : retOf pc = some r) : dlOf pc = none ∧
    isMarked pc = false ∧ stage pc = none ∧ unplaced pc = false ∧
      ends pc = isMainDone (some r) := by
  cases pc <;> first | (cases ret; done) | exact ⟨rfl, rfl, rfl, rfl, congrArg isMainDone ret⟩

theorem waker_frame (here : s.pc t = pc) (ret : retOf pc = some r)
    (pcs : ∀ w, w ≠ t → mid.pc w = s.pc w ∨
      ∃ dl sig r, s.pc t = .wakeSignal w r ∧ s.pc w = .asleep dl sig ∧ mid.pc w = .asleep dl true)
    (lists : mid.runnext = s.runnext ∧ mid.localQ = s.localQ ∧ mid.readyQ = s.readyQ ∧
      mid.mainDone = s.mainDone ∧ mid.parked = s.parked ∧ mid.timers = s.timers)
    (aim : ∀ w, w ≠ t → aims pc = some w → aims pc' = some w ∨
      (∃ r, pc = .wakeSignal w r ∧ ∀ dl sig, s.pc w = .asleep dl sig → mid.pc w = .asleep dl true) ∨
      (∃ r, pc = .wakeParked w r ∧ s.parked w = false))
    (locks : (mid.mu = s.mu ∧ holds t pc' = holds t pc) ∨
      (∃ v, s.mu v = none ∧ holds t pc = none ∧ mid.mu = update s.mu v (some t) ∧
        holds t pc' = some v) ∨
      (∃ v, holds t pc = some v ∧ mid.mu = update s.mu v none ∧ holds t pc' = none))
    (next : retOf pc' = some r ∨ pc' = resume workers t r) :
    Frame workers t s (mid.goto t pc') := by
  have there : (mid.goto t pc').pc t = pc' := update_self ..
  obtain ⟨-, marked, -, -, was⟩ := retOf_facts ret
  have facts : dlOf pc' = none ∧ isMarked pc' = false ∧ stage pc' = none ∧
      (t < workers → unplaced pc' = false) ∧ (ends pc' = true → ends pc = true) := by
    rcases next with still | rfl
    · obtain ⟨dl, mark, staged, placed, ended⟩ := retOf_facts still
      exact ⟨dl, mark, staged, fun _ => placed, fun end' => (was.trans ended.symm).trans end'⟩
    · obtain ⟨dl, -, mark, staged, ended⟩ := resume_facts workers t r
      exact ⟨dl, mark, staged, resume_placed r, fun end' => was.trans (ended end')⟩
  obtain ⟨dl, marked', staged, placed, ended⟩ := facts
  obtain ⟨runnext, localQ, readyQ, mainDone, parked, timers⟩ := lists
  refine ⟨fun w other => ?_, fun w _ => congrFun runnext w,
    fun w _ => .inl (congrFun localQ w), fun w _ => .inl (congrFun readyQ w), .inl mainDone,
    fun w _ other aimed => ?_, ?_, .inl ⟨parked, ?_⟩, ?_, ?_, ?_, ?_, .inl timers⟩
  · simpa [Sys.goto, other] using pcs w other
  · rw [there, here]
    simpa [Sys.goto, other] using aim w other (here ▸ aimed)
  · rw [there, here]
    exact locks
  · rw [there, here, marked, marked']
  · rw [there, here]
    exact fun end' => .inl (ended end')
  · rw [there]
    intro worker outside
    rw [placed worker] at outside
    cases outside
  · rw [there, staged]
    exact fun _ _ never => by cases never
  · rw [there, dl]
    exact fun _ never => by cases never

theorem mainDone_frame (here : s.pc t = .mainDone i) :
    Frame workers t s (s.goto t (if i < workers then .wakeOne i (.mainDone i) else .returned)) := by
  have there : ∀ pc', (s.goto t pc').pc t = pc' := fun _ => update_self ..
  have facts : ∀ pc', pc' = .wakeOne i (.mainDone i) ∨ pc' = .returned →
      holds t pc' = none ∧ isMarked pc' = false ∧ unplaced pc' = false ∧ stage pc' = none ∧
        dlOf pc' = none := by
    rintro pc' (rfl | rfl) <;> exact ⟨rfl, rfl, rfl, rfl, rfl⟩
  have which : (if i < workers then Pc.wakeOne i (.mainDone i) else .returned) =
      .wakeOne i (.mainDone i) ∨
        (if i < workers then Pc.wakeOne i (.mainDone i) else .returned) = .returned := by
    split
    · exact .inl rfl
    · exact .inr rfl
  obtain ⟨held, marked, placed, staged, dl⟩ := facts _ which
  refine ⟨fun w other => .inl ?_, fun _ _ => rfl, fun _ _ => .inl rfl, fun _ _ => .inl rfl,
    .inl rfl, fun w worker _ aimed => .inl ?_, .inl ⟨rfl, ?_⟩, .inl ⟨rfl, ?_⟩, ?_, ?_, ?_, ?_,
    .inl rfl⟩
  · simp [Sys.goto, other]
  · rw [here] at aimed
    cases aimed
    rw [there, if_pos worker]
    rfl
  · rw [there, here, held]
    rfl
  · rw [there, here, marked]
    rfl
  · rw [here]
    exact fun _ => .inl rfl
  · rw [there, placed]
    exact fun _ never => Bool.noConfusion never
  · rw [there, staged]
    exact fun _ _ never => by cases never
  · rw [there, dl]
    exact fun _ never => by cases never

theorem finished_frame (here : s.pc t = .finished) (stepped : tick workers s t = some s') :
    Frame workers t s s' := by
  simp only [tick, here, Option.some.injEq] at stepped
  subst stepped
  split
  · have there : ∀ mid : Sys, (mid.goto t (.mainDone 0)).pc t = .mainDone 0 :=
      fun _ => update_self ..
    refine ⟨fun w other => .inl ?_, fun _ _ => rfl, fun _ _ => .inl rfl, fun _ _ => .inl rfl,
      .inr ⟨rfl, there _⟩, fun w _ _ aimed => ?_, .inl ⟨rfl, ?_⟩, .inl ⟨rfl, ?_⟩, fun _ => .inr rfl,
      ?_, ?_, ?_, .inl rfl⟩
    · simp [Sys.goto, other]
    · rw [here] at aimed
      cases aimed
    · rw [there, here]
      rfl
    · rw [there, here]
      rfl
    · rw [there]
      exact fun _ never => Bool.noConfusion never
    · rw [there]
      exact fun _ _ never => by cases never
    · rw [there]
      exact fun _ never => by cases never
  · exact lists_frame here rfl (fun _ _ => rfl) (fun _ _ => .inl rfl) (fun _ _ => rfl)
      ⟨rfl, rfl, rfl, rfl⟩ rfl rfl

theorem wake_frame (here : s.pc t = pc)
    (which : (∃ v, pc = .wakeOne v r ∨ pc = .wakeParked v r ∨ pc = .wakeSignal v r ∨
      pc = .wakeUnlock v r) ∨ ∃ i, pc = .wakeAny i r)
    (stepped : tick workers s t = some s') : Frame workers t s s' := by
  obtain ⟨v, rfl | rfl | rfl | rfl⟩ | ⟨i, rfl⟩ := which
  · simp only [tick, here] at stepped
    split at stepped
    · rename_i self
      cases stepped
      refine waker_frame here rfl (fun _ _ => .inl rfl) ⟨rfl, rfl, rfl, rfl, rfl, rfl⟩
        (fun w other aimed => ?_) (.inl ⟨rfl, (resume_facts workers t r).2.1⟩) (.inr rfl)
      cases aimed
      exact absurd self other
    · obtain ⟨free, ⟨⟩⟩ := Option.ite_none_right_eq_some.mp stepped
      exact waker_frame here rfl (fun _ _ => .inl rfl) ⟨rfl, rfl, rfl, rfl, rfl, rfl⟩
        (fun w _ aimed => .inl aimed) (.inr (.inl ⟨v, free, rfl, rfl, rfl⟩)) (.inl rfl)
  · simp only [tick, here, Option.some.injEq] at stepped
    subst stepped
    split
    · exact waker_frame here rfl (fun _ _ => .inl rfl) ⟨rfl, rfl, rfl, rfl, rfl, rfl⟩
        (fun w _ aimed => .inl aimed) (.inl ⟨rfl, rfl⟩) (.inl rfl)
    · rename_i awake
      refine waker_frame here rfl (fun _ _ => .inl rfl) ⟨rfl, rfl, rfl, rfl, rfl, rfl⟩
        (fun w _ aimed => .inr (.inr ⟨r, ?_⟩)) (.inl ⟨rfl, rfl⟩) (.inl rfl)
      cases aimed
      exact ⟨rfl, by simpa using awake⟩
  · simp only [tick, here, Option.some.injEq] at stepped
    subst stepped
    split
    · rename_i dl sig asleep
      refine waker_frame here rfl (fun w _ => ?_) ⟨rfl, rfl, rfl, rfl, rfl, rfl⟩
        (fun w _ aimed => .inr (.inl ⟨r, ?_⟩)) (.inl ⟨rfl, rfl⟩) (.inl rfl)
      · by_cases target : w = v
        · subst target
          exact .inr ⟨dl, sig, r, here, asleep, by simp [Sys.goto]⟩
        · exact .inl (by simp [Sys.goto, target])
      · cases aimed
        refine ⟨rfl, fun dl' sig' asleep' => ?_⟩
        rw [asleep] at asleep'
        cases asleep'
        simp [Sys.goto]
    · rename_i notAsleep
      refine waker_frame here rfl (fun _ _ => .inl rfl) ⟨rfl, rfl, rfl, rfl, rfl, rfl⟩
        (fun w _ aimed => .inr (.inl ⟨r, ?_⟩)) (.inl ⟨rfl, rfl⟩) (.inl rfl)
      cases aimed
      exact ⟨rfl, fun dl sig asleep => absurd asleep (notAsleep dl sig)⟩
  · simp only [tick, here, Option.some.injEq] at stepped
    subst stepped
    exact waker_frame here rfl (fun _ _ => .inl rfl) ⟨rfl, rfl, rfl, rfl, rfl, rfl⟩
      (fun w _ aimed => by cases aimed)
      (.inr (.inr ⟨v, rfl, rfl, (resume_facts workers t r).2.1⟩)) (.inr rfl)
  · simp only [tick, here] at stepped
    split at stepped
    · cases stepped
      split <;> exact waker_frame here rfl (fun _ _ => .inl rfl) ⟨rfl, rfl, rfl, rfl, rfl, rfl⟩
        (fun w _ aimed => by cases aimed) (.inl ⟨rfl, rfl⟩) (.inl rfl)
    · cases stepped
      exact waker_frame here rfl (fun _ _ => .inl rfl) ⟨rfl, rfl, rfl, rfl, rfl, rfl⟩
        (fun w _ aimed => by cases aimed) (.inl ⟨rfl, (resume_facts workers t r).2.1⟩) (.inr rfl)

def looks : Pc → Bool
  | .drain | .drainNext _ | .push _ _ | .pushLink _ _ _ | .pushCas _ _ _ | .next | .prio _
  | .popBest _ | .pop _ | .popNext _ _ | .popCas _ _ _ | .popClear _ => true
  | _ => false

theorem looks_frame (finds : looks (s.pc t) = true) (stepped : tick workers s t = some s') :
    Frame workers t s s' := by
  cases here : s.pc t <;> try (simp [here, looks] at finds; done)
  all_goals simp only [tick, here, Option.some.injEq] at stepped
  all_goals try subst stepped
  case drain =>
    refine lists_frame here rfl (fun _ _ => rfl) (fun _ _ => .inl rfl)
      (fun w other => by simp [other]) ⟨rfl, rfl, rfl, rfl⟩ rfl ?_
    split <;> rfl
  case drainNext p =>
    exact move_frame here rfl rfl
  case push q f =>
    exact push_frame here (.inl rfl) (.inr ⟨_, rfl⟩)
  case pushLink q f h =>
    exact .plain here rfl (fun _ _ => rfl) (fun _ _ => .inl rfl) (fun _ _ => rfl) rfl rfl rfl
      (.inl rfl) rfl rfl .inl (fun _ => rfl) (.inl rfl)
  case pushCas q f h =>
    split
    · exact pushCas_frame here
    · exact push_frame here (.inr ⟨h, rfl⟩) (.inl rfl)
  case next =>
    split at stepped
    · cases stepped
      exact lists_frame here rfl (fun w other => by simp [other]) (fun _ _ => .inl rfl)
        (fun _ _ => rfl) ⟨rfl, rfl, rfl, rfl⟩ rfl rfl
    · cases stepped
      exact move_frame here rfl rfl
  case prio f | popBest stolen =>
    split <;> exact move_frame here rfl rfl
  case pop q =>
    split
    · exact move_frame here rfl rfl
    · exact move_frame here rfl (popEmpty_moves q)
  case popNext q h =>
    exact move_frame here rfl rfl
  case popCas q h n =>
    split
    · exact pop_frame n here rfl rfl
    · exact move_frame here rfl rfl
  case popClear h =>
    exact link_frame h none here rfl rfl

def relinks : Pc → Bool
  | .detach _ | .scan _ _ _ _ | .compare _ _ _ _ _ | .unlink _ _ _ | .relink _ _ _ _ | .cut _ _
  | .tail _ _ _ | .listHead _ _ _ | .listLink _ _ _ _ | .listCas _ _ _ _ | .steal _
  | .count _ _ _ _ | .split _ _ _ _ | .rest _ _ _ | .splitCut _ _ _ _ => true
  | _ => false

theorem relinks_frame (lists : relinks (s.pc t) = true) (stepped : tick workers s t = some s') :
    Frame workers t s s' := by
  cases here : s.pc t <;> try (simp [here, relinks] at lists; done)
  all_goals simp only [tick, here, Option.some.injEq] at stepped
  all_goals try subst stepped
  case detach stolen =>
    refine local_frame none here rfl ?_
    split
    · rfl
    · exact popEmpty_moves (.own stolen)
  case scan list best bestPrev prev | compare list best bestPrev prev cur =>
    split <;> exact move_frame here rfl rfl
  case unlink list best bestPrev =>
    exact move_frame here rfl rfl
  case relink list best bestPrev n =>
    cases bestPrev with
    | none =>
      cases stepped
      exact move_frame here rfl rfl
    | some p =>
      cases stepped
      exact link_frame p n here rfl rfl
  case cut list best =>
    split <;> exact link_frame best none here rfl rfl
  case tail q list p =>
    split <;> exact move_frame here rfl rfl
  case listHead q list tail =>
    exact move_frame here rfl rfl
  case listLink q list tail h =>
    exact link_frame tail h here rfl rfl
  case listCas q list tail h =>
    split
    · rename_i same
      exact listCas_frame here same
    · exact move_frame here rfl rfl
  case steal i =>
    split at stepped
    · cases stepped
      refine steal_frame here ?_
      split <;> rfl
    · cases stepped
      exact move_frame here rfl rfl
  case count v list p n =>
    split
    · exact move_frame here rfl rfl
    · split <;> exact move_frame here rfl rfl
  case split v list p k =>
    cases k with
    | zero =>
      cases stepped
      exact move_frame here rfl rfl
    | succ k =>
      rw [Option.map_eq_some_iff] at stepped
      obtain ⟨next, -, rfl⟩ := stepped
      exact move_frame here rfl rfl
  case rest v list split =>
    rw [Option.map_eq_some_iff] at stepped
    obtain ⟨next, -, rfl⟩ := stepped
    exact move_frame here rfl rfl
  case splitCut v list split rest =>
    exact link_frame split none here rfl rfl

def parks : Pc → Bool
  | .deadline | .parkMain _ | .spin _ _ _ _ | .parkLock _ | .check _ _ | .mark _ | .wait _
  | .relock | .unmark | .parkUnlock => true
  | _ => false

theorem parks_frame (sleeps : parks (s.pc t) = true) (stepped : tick workers s t = some s') :
    Frame workers t s s' := by
  have noStage : ∀ {pc' : Pc}, stage pc' = none → ∀ dl i, stage pc' = some (dl, i) → i = 0 ∨
      ∃ j, stage (s.pc t) = some (dl, j) ∧ ∀ k, k < i → k < j ∨ found s t k := by
    intro pc' none dl i at_
    rw [none] at at_
    cases at_
  have sameStage : ∀ {pc' : Pc}, stage pc' = stage (s.pc t) → ∀ dl i, stage pc' = some (dl, i) →
      i = 0 ∨ ∃ j, stage (s.pc t) = some (dl, j) ∧ ∀ k, k < i → k < j ∨ found s t k := by
    intro pc' same dl i at_
    rw [same] at at_
    exact .inr ⟨i, at_, fun k before => .inl before⟩
  cases here : s.pc t <;> try (simp [here, parks] at sleeps; done)
  all_goals simp only [tick, here, Option.some.injEq] at stepped
  all_goals try subst stepped
  case deadline =>
    exact goto_frame here rfl rfl .inl (fun _ => rfl) (.inr (.inr ⟨rfl, rfl⟩))
  case parkMain dl =>
    split <;> exact goto_frame here rfl rfl .inl (fun _ => rfl) (.inr (.inl rfl))
  case spin dl left main i =>
    have stays : ∀ {left' main' i'}, Frame workers t s (s.goto t (.spin dl left' main' i')) :=
      goto_frame here rfl rfl .inl (fun _ => rfl) (.inr (.inl rfl))
    have leaves : Frame workers t s (s.goto t .top) := move_frame here rfl rfl
    cases left with
    | zero =>
      cases stepped
      exact goto_frame here rfl rfl .inl (fun _ => rfl) (.inr (.inl rfl))
    | succ k =>
      cases stepped
      split
      · exact leaves
      · split
        · split
          · exact leaves
          · exact stays
        · split
          · split
            · exact leaves
            · exact stays
          · split
            · exact leaves
            · exact stays
  case parkLock dl =>
    obtain ⟨free, ⟨⟩⟩ := Option.ite_none_right_eq_some.mp stepped
    refine park_frame here rfl ⟨rfl, rfl, rfl, rfl, rfl⟩ rfl
      (.inr (.inl ⟨free, rfl, rfl, rfl⟩)) (.inl ⟨rfl, rfl⟩) rfl rfl (fun dl' i at_ => .inl ?_)
      (.inr rfl)
    cases at_
    rfl
  case check dl i => exact check_frame here (by simp only [tick, here])
  case mark dl =>
    exact park_frame here rfl ⟨rfl, rfl, rfl, rfl,
      rfl⟩ rfl (.inl ⟨rfl, rfl⟩) (.inr ⟨true, rfl, rfl⟩)
      rfl rfl (here ▸ sameStage (by rw [here]; rfl)) (.inr rfl)
  case wait dl =>
    exact park_frame here rfl ⟨rfl, rfl, rfl, rfl, rfl⟩ rfl (.inr (.inr ⟨rfl, rfl, rfl⟩))
      (.inl ⟨rfl, rfl⟩) rfl rfl (here ▸ sameStage (by rw [here]; rfl)) (.inr rfl)
  case relock =>
    obtain ⟨free, ⟨⟩⟩ := Option.ite_none_right_eq_some.mp stepped
    exact park_frame here rfl ⟨rfl, rfl, rfl, rfl, rfl⟩ rfl (.inr (.inl ⟨free, rfl, rfl, rfl⟩))
      (.inl ⟨rfl, rfl⟩) rfl rfl (here ▸ noStage rfl) (.inl rfl)
  case unmark =>
    exact park_frame here rfl ⟨rfl, rfl, rfl, rfl, rfl⟩ rfl (.inl ⟨rfl, rfl⟩)
      (.inr ⟨false, rfl, rfl⟩) rfl rfl (here ▸ noStage rfl) (.inl rfl)
  case parkUnlock =>
    exact park_frame here rfl ⟨rfl, rfl, rfl, rfl, rfl⟩ rfl (.inr (.inr ⟨rfl, rfl, rfl⟩))
      (.inl ⟨rfl, rfl⟩) rfl rfl (here ▸ noStage rfl) (.inl rfl)

theorem tick_frame (stepped : tick workers s t = some s') : Frame workers t s s' := by
  cases here : s.pc t with
  | unborn | outside | returned | run | spawned | expired | asleep dl signalled =>
    simp only [tick, here] at stepped
    cases stepped
  | top =>
    simp only [tick, here, Option.some.injEq] at stepped
    subst stepped
    split
    · rename_i done
      exact goto_frame here rfl rfl (fun _ => .inr done.2) (fun _ => rfl) (.inl rfl)
    · exact move_frame here rfl rfl
  | start f | switchOut =>
    simp only [tick, here, Option.some.injEq] at stepped
    subst stepped
    exact lists_frame here rfl (fun _ _ => rfl) (fun _ _ => .inl rfl) (fun _ _ => rfl)
      ⟨rfl, rfl, rfl, rfl⟩ rfl rfl
  | expiredClear x =>
    simp only [tick, here, Option.some.injEq] at stepped
    subst stepped
    refine link_frame x.fiber none here rfl ?_
    cases x.home <;> rfl
  | finished => exact finished_frame here stepped
  | mainDone i =>
    simp only [tick, here, Option.some.injEq] at stepped
    subst stepped
    exact mainDone_frame here
  | wakeOne v r => exact wake_frame here (.inl ⟨v, .inl rfl⟩) stepped
  | wakeParked v r => exact wake_frame here (.inl ⟨v, .inr (.inl rfl)⟩) stepped
  | wakeSignal v r => exact wake_frame here (.inl ⟨v, .inr (.inr (.inl rfl))⟩) stepped
  | wakeUnlock v r => exact wake_frame here (.inl ⟨v, .inr (.inr (.inr rfl))⟩) stepped
  | wakeAny i r => exact wake_frame here (.inr ⟨i, rfl⟩) stepped
  | drain | drainNext | push | pushLink | pushCas | next | prio | popBest | pop | popNext | popCas
  | popClear => exact looks_frame (by rw [here]; rfl) stepped
  | detach | scan | compare | unlink | relink | cut | tail | listHead | listLink | listCas | steal
  | count | split | rest | splitCut => exact relinks_frame (by rw [here]; rfl) stepped
  | deadline | parkMain | spin | parkLock | check | mark | wait | relock | unmark | parkUnlock =>
    exact parks_frame (by rw [here]; rfl) stepped

theorem Frame.still (same : s'.pc = s.pc)
    (lists : s'.runnext = s.runnext ∧ s'.localQ = s.localQ ∧ s'.readyQ = s.readyQ ∧
      s'.mainDone = s.mainDone ∧ s'.timers = s.timers) (mu : s'.mu = s.mu)
    (parked : s'.parked = s.parked) : Frame workers t s s' := by
  obtain ⟨runnext, localQ, readyQ, mainDone, timers⟩ := lists
  refine ⟨fun w _ => .inl (congrFun same w), fun w _ => congrFun runnext w,
    fun w _ => .inl (congrFun localQ w), fun w _ => .inl (congrFun readyQ w), .inl mainDone,
    fun w _ _ aimed => .inl ?_, .inl ⟨mu, ?_⟩, .inl ⟨parked, ?_⟩, fun end' => .inl ?_,
    fun _ _ => congrFun same t, fun dl i at_ =>
      .inr ⟨i, ?_, fun k => ?_, fun k before => .inl before⟩,
    fun dl read => .inl ?_, .inl timers⟩
  · rw [same]
    exact aimed
  · rw [same]
  · rw [same]
  · rw [same] at end'
    exact end'
  · rw [same] at at_
    exact at_
  · rcases k with _ | _ | _ | _ | k <;> simp_all [found]
  · rw [same] at read
    exact read

def actor : Event → Nat
  | .tick t | .start t | .spawn t _ _ | .spawned t _ | .unpark t _ | .enlist t | .park t
  | .parkUntil t _ | .finish t | .setPriority t _ _ | .expire t _ | .wakeUp t => t

theorem unparkTo_moves (home : Option Nat) (f : Nat) :
    moves (.push (unparkTo home .task) f) = true := by
  cases home <;> rfl

variable {e : Event}

theorem step_frame (stepped : step workers s e = some s') : Frame workers (actor e) s s' := by
  cases e with
  | tick t => exact tick_frame stepped
  | start w =>
    obtain ⟨fresh, ⟨⟩⟩ := Option.ite_none_right_eq_some.mp stepped
    exact move_frame fresh.1 rfl rfl
  | spawn w f priority =>
    obtain ⟨runs, ⟨⟩⟩ := Option.ite_none_right_eq_some.mp stepped
    refine lists_frame runs rfl (fun v other => ?_) (fun _ _ => .inl rfl) (fun _ _ => rfl)
      ⟨rfl, rfl, rfl, rfl⟩ rfl ?_
    · exact update_of_ne other ..
    · split <;> rfl
  | spawned w wake =>
    obtain ⟨here, ⟨⟩⟩ := Option.ite_none_right_eq_some.mp stepped
    refine move_frame here rfl ?_
    cases wake <;> rfl
  | unpark t f =>
    obtain ⟨here, ⟨⟩⟩ := Option.ite_none_right_eq_some.mp stepped
    rcases here with runs | out
    · exact move_frame runs rfl (unparkTo_moves _ f)
    · exact move_frame out rfl (unparkTo_moves _ f)
  | enlist w =>
    simp only [step] at stepped
    split at stepped
    · simp only [Option.map_eq_some_iff] at stepped
      obtain ⟨f, -, rfl⟩ := stepped
      exact .still rfl ⟨rfl, rfl, rfl, rfl, rfl⟩ rfl rfl
    · cases stepped
  | park w =>
    simp only [step] at stepped
    split at stepped
    · rename_i runs
      simp only [Option.map_eq_some_iff] at stepped
      obtain ⟨f, -, rfl⟩ := stepped
      exact lists_frame runs.2 rfl (fun _ _ => rfl) (fun _ _ => .inl rfl) (fun _ _ => rfl)
        ⟨rfl, rfl, rfl, rfl⟩ rfl rfl
    · cases stepped
  | parkUntil w deadline =>
    simp only [step] at stepped
    split at stepped
    · rename_i runs
      simp only [Option.map_eq_some_iff] at stepped
      obtain ⟨f, -, rfl⟩ := stepped
      exact .plain runs.2 rfl (fun _ _ => rfl) (fun _ _ => .inl rfl) (fun _ _ => rfl) rfl rfl rfl
        (.inr (.inl ⟨f, deadline, runs.1, rfl, rfl⟩)) rfl rfl .inl (fun _ => rfl) (.inl rfl)
    · cases stepped
  | finish w =>
    obtain ⟨runs, ⟨⟩⟩ := Option.ite_none_right_eq_some.mp stepped
    exact move_frame runs rfl rfl
  | setPriority t f priority =>
    simp only [step] at stepped
    split at stepped
    · cases stepped
      exact .still rfl ⟨rfl, rfl, rfl, rfl, rfl⟩ rfl rfl
    · cases stepped
  | expire w now =>
    obtain ⟨here, ⟨⟩⟩ := Option.ite_none_right_eq_some.mp stepped
    split
    · rename_i x timers matured
      exact .plain here rfl (fun _ _ => rfl) (fun _ _ => .inl rfl) (fun _ _ => rfl) rfl rfl rfl
        (.inr (.inr ⟨now, x, rfl, matured⟩)) rfl rfl .inl (fun _ => rfl) (.inl rfl)
    · exact move_frame here rfl rfl
  | wakeUp w =>
    simp only [step] at stepped
    split at stepped
    · rename_i dl signalled here
      cases stepped
      exact park_frame here rfl ⟨rfl, rfl, rfl, rfl, rfl⟩ rfl (.inl ⟨rfl, rfl⟩) (.inl ⟨rfl, rfl⟩)
        rfl rfl (fun _ _ never => by cases never) (.inl rfl)
    · cases stepped

theorem asleep_step {dl : Option Int} {sig : Bool}
    (here : s.pc (actor e) = .asleep dl sig) (stepped : step workers s e = some s') :
    stage (s'.pc (actor e)) = none := by
  cases e <;> simp only [actor] at here ⊢ <;> simp [step, tick, here] at stepped
  subst stepped
  simp [Sys.goto, stage]

theorem expired_step (here : s.pc (actor e) = .expired)
    (stepped : step workers s e = some s') : ∃ w now, e = .expire w now ∧
      (s'.timers = s.timers ∨ ∃ x, s.timers.expired now = some (x, s'.timers)) := by
  cases e <;> simp only [actor] at here <;> simp [step, tick, here] at stepped
  rename_i w now
  refine ⟨w, now, rfl, ?_⟩
  subst stepped
  split
  · rename_i x timers matured
    exact .inr ⟨x, matured⟩
  · exact .inl rfl

end Steps

end PliRtSched
