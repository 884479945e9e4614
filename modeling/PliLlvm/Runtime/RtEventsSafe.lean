import PliLlvm.Runtime.RtEvents

/- No completion of an event is lost. What one step of the lock layer does to a task, the
   invariant of the calls over it, and that every step keeps it. -/
namespace PliRtEvents
open Runs
open PliRtLock (Pc Bracket keyMatches walks ownRelease pending Inv)
open Function (update update_of_ne update_self)

/-- Inside rt_lock_acquire. -/
def acquires : Pc → Bool
  | .osLock | .spinAcquire | .readOwner | .actOwner _ | .park => true
  | _ => false

/-- Inside rt_cond_wait_key, before it takes the lock again. -/
def condWaiting : Pc → Bool
  | .osCondWait | .spinRelease true | .readDepth true | .actDepth _ true | .handOver _ true
  | .parkCond => true
  | _ => false

/-- Inside rt_lock_release. -/
def leaves : Pc → Bool
  | .spinRelease false | .readDepth false | .actDepth _ false | .handOver _ false => true
  | _ => false

def Onward (pc pc' : Pc) : Prop :=
  (acquires pc = true ∧ (pc' = .idle ∨ acquires pc' = true)) ∨
    (condWaiting pc = true ∧ (acquires pc' = true ∨ condWaiting pc' = true)) ∨
    (leaves pc = true ∧ (pc' = .idle ∨ leaves pc' = true) ∧
      (ownRelease pc = false → ownRelease pc' = false)) ∨
    (∃ key keep, pc = .walking key [] keep ∧ pc' = .idle) ∨
    (∃ key w rest keep, pc = .walking key (w :: rest) keep ∧
      pc' = .walking key rest (if keyMatches key w then keep else keep ++ [w])) ∨
    (∃ rest, pc = .waking rest)

structure Ticked (s s' : PliRtLock.Sys) (p : Nat) : Prop where
  others : ∀ q, q ≠ p → (s'.party q).pc = (s.party q).pc ∧
    (s'.party q).opened = (s.party q).opened
  onward : Onward (s.party p).pc (s'.party p).pc
  opened : (s'.party p).opened =
    if ownRelease (s.party p).pc = true ∧ ownRelease (s'.party p).pc = false then
      (s.party p).opened.tail
    else (s.party p).opened
  queue : s'.condWaiters = match (s.party p).pc with
    | .walking _ [] keep => keep
    | _ => s.condWaiters

variable {s s' : PliRtLock.Sys} {p : Nat}

theorem ticked_of_set {x : PliRtLock.Party}
    (party : s'.party = update s.party p x) (onward : Onward (s.party p).pc x.pc)
    (opened : x.opened =
      if ownRelease (s.party p).pc = true ∧ ownRelease x.pc = false then (s.party p).opened.tail
      else (s.party p).opened)
    (queue : s'.condWaiters = match (s.party p).pc with
      | .walking _ [] keep => keep
      | _ => s.condWaiters) : Ticked s s' p := by
  refine ⟨fun q other => ?_, ?_, ?_, queue⟩
  · simp [party, other]
  · simpa [party] using onward
  · simpa [party] using opened

theorem Ticked.touched {mid : PliRtLock.Sys} {w : Nat} {y : PliRtLock.Party}
    (ticked : Ticked s mid p) (party : s'.party = update mid.party w y)
    (pc : y.pc = (mid.party w).pc) (opened : y.opened = (mid.party w).opened)
    (queue : s'.condWaiters = mid.condWaiters) : Ticked s s' p := by
  have kept : ∀ q, (s'.party q).pc = (mid.party q).pc ∧
      (s'.party q).opened = (mid.party q).opened := by
    intro q
    by_cases same : q = w <;> simp [party, same, pc, opened]
  refine ⟨fun q other => ?_, ?_, ?_, queue.trans ticked.queue⟩
  · rw [(kept q).1, (kept q).2]
    exact ticked.others q other
  · rw [(kept p).1]
    exact ticked.onward
  · rw [(kept p).1, (kept p).2]
    exact ticked.opened

theorem Ticked.unparked {mid : PliRtLock.Sys} {w : Nat} (ticked : Ticked s mid p) :
    Ticked s (PliRtLock.rtSchedUnpark mid w) p :=
  ticked.touched rfl rfl rfl rfl

theorem release_does {d depth : Nat} {wait : Bool} (here : (s.party p).pc = .actDepth d wait) :
    Ticked s (PliRtLock.releaseActs s p depth wait) p := by
  have onward : ∀ pc, pc = PliRtLock.afterRelease wait ∨ (∃ w, pc = .handOver w wait) →
      Onward (s.party p).pc pc := by
    intro pc after
    rw [here]
    rcases after with rfl | ⟨w, rfl⟩ <;> cases wait <;>
      simp [Onward, PliRtLock.afterRelease, acquires, condWaiting, leaves, ownRelease]
  have opened : ∀ pc, pc = PliRtLock.afterRelease wait ∨ (∃ w, pc = .handOver w wait) →
      (if wait then (s.party p).opened else (s.party p).opened.tail) =
        if ownRelease (s.party p).pc = true ∧ ownRelease pc = false then
          (s.party p).opened.tail
        else (s.party p).opened := by
    intro pc after
    rw [here]
    rcases after with rfl | ⟨w, rfl⟩ <;> cases wait <;>
      simp [PliRtLock.afterRelease, ownRelease]
  unfold PliRtLock.releaseActs
  split
  · exact ticked_of_set rfl (onward _ (.inl rfl)) (opened _ (.inl rfl)) (by rw [here]; rfl)
  · split
    · rename_i w rest waiting
      have gave : Ticked s (s.gaveUp p wait (.handOver w wait)) p :=
        ticked_of_set rfl (onward _ (.inr ⟨w, rfl⟩)) (opened _ (.inr ⟨w, rfl⟩)) (by rw [here]; rfl)
      exact gave.touched rfl rfl rfl rfl
    · exact ticked_of_set rfl (onward _ (.inl rfl)) (opened _ (.inl rfl)) (by rw [here]; rfl)

theorem tick_does {fiberMode recursive : Bool} {isFiber : Nat → Bool}
    (stepped : PliRtLock.tick fiberMode recursive isFiber s p = some s') :
    Ticked s s' p := by
  unfold PliRtLock.tick at stepped
  split at stepped
  · cases stepped
  · rename_i here
    have took : ∀ {s' : PliRtLock.Sys}, s'.party = (s.took p).party →
        s'.condWaiters = s.condWaiters → Ticked s s' p := by
      intro s' party queue
      exact ticked_of_set (x := { s.party p with pc := .idle, held := (s.party p).held + 1 }) party
        (by simp [here, Onward, acquires]) (by simp [here, ownRelease]) (by simp [here, queue])
    split at stepped
    · cases stepped
      exact took rfl rfl
    · split at stepped
      · cases stepped
        exact took rfl rfl
      · cases stepped
  · rename_i here
    cases stepped
    exact ticked_of_set rfl (by simp [here, Onward, acquires, condWaiting])
      (by simp [here, ownRelease]) (by rw [here]; rfl)
  · rename_i here
    cases stepped
    split
    · exact ⟨fun q _ => ⟨rfl, rfl⟩, by simp [here, Onward, acquires], by simp [here, ownRelease],
        by simp [here]⟩
    · exact ticked_of_set rfl (by simp [here, Onward, acquires]) (by simp [here, ownRelease])
        (by rw [here]; rfl)
  · rename_i here
    cases stepped
    exact ticked_of_set rfl (by simp [here, Onward, acquires]) (by simp [here, ownRelease])
      (by rw [here]; rfl)
  · rename_i owner here
    cases stepped
    unfold PliRtLock.acquireActs
    split
    · exact ticked_of_set rfl (by simp [here, Onward, acquires]) (by simp [here, ownRelease])
        (by rw [here]; rfl)
    · split <;> exact ticked_of_set rfl (by simp [here, Onward, acquires])
        (by simp [here, ownRelease]) (by rw [here]; rfl)
  · rename_i here
    split at stepped
    · cases stepped
    · cases stepped
      exact ticked_of_set rfl (by simp [here, Onward, acquires]) (by simp [here, ownRelease])
        (by rw [here]; rfl)
  · rename_i wait here
    cases stepped
    split
    · refine ⟨fun q _ => ⟨rfl, rfl⟩, ?_, ?_, by simp [here]⟩
      · cases wait <;> simp [here, Onward, condWaiting, leaves, ownRelease]
      · cases wait <;> simp [here, ownRelease]
    · refine ticked_of_set rfl ?_ ?_ (by rw [here]; rfl)
      · cases wait <;> simp [here, Onward, condWaiting, leaves, ownRelease]
      · cases wait <;> simp [here, ownRelease]
  · rename_i wait here
    cases stepped
    refine ticked_of_set rfl ?_ ?_ (by rw [here]; rfl)
    · cases wait <;> simp [here, Onward, condWaiting, leaves, ownRelease]
    · cases wait <;> simp [here, ownRelease]
  · rename_i depth wait here
    cases stepped
    exact release_does here
  · rename_i w wait here
    cases stepped
    refine Ticked.unparked (ticked_of_set rfl ?_ ?_ (by rw [here]; rfl))
    · cases wait <;> simp [here, Onward, condWaiting, leaves, acquires, ownRelease,
        PliRtLock.afterRelease]
    · cases wait <;> simp [here, ownRelease, PliRtLock.afterRelease]
  · rename_i here
    split at stepped
    · cases stepped
    · cases stepped
      have again : ∀ pc, pc = .osLock ∨ pc = .spinAcquire → Ticked s
          ((s.set p { s.party p with unparks := (s.party p).unparks - 1 }).goto p pc) p := by
        intro pc which
        refine ticked_of_set (x := { s.party p with unparks := (s.party p).unparks - 1, pc := pc })
          ?_ ?_ ?_ (by rw [here]; rfl)
        · simp [PliRtLock.Sys.goto, PliRtLock.Sys.set]
        · rcases which with rfl | rfl <;> simp [here, Onward, condWaiting, acquires]
        · simp [here, ownRelease]
      unfold PliRtLock.rtLockAcquire
      split
      · exact again _ (.inl rfl)
      · split
        · exact again _ (.inl rfl)
        · exact again _ (.inr rfl)
  · rename_i key keep here
    cases stepped
    exact ticked_of_set rfl (by simp [here, Onward]) (by simp [here, ownRelease]) (by simp [here])
  · rename_i key w rest keep here
    cases stepped
    have onward : Onward (s.party p).pc
        (.walking key rest (if keyMatches key w then keep else keep ++ [w])) :=
      .inr (.inr (.inr (.inr (.inl ⟨key, w, rest, keep, here, rfl⟩))))
    split
    · rename_i same
      rw [if_pos same] at onward
      exact Ticked.unparked (ticked_of_set rfl onward (by simp [here, ownRelease])
        (by simp [here]; rfl))
    · rename_i different
      rw [if_neg different] at onward
      exact ticked_of_set rfl onward (by simp [here, ownRelease]) (by simp [here]; rfl)
  · rename_i here
    cases stepped
    exact ticked_of_set rfl (by simp [here, Onward]) (by simp [here, ownRelease])
      (by rw [here]; rfl)
  · rename_i w rest here
    cases stepped
    exact Ticked.unparked (ticked_of_set rfl (by simp [here, Onward])
      (by simp [here, ownRelease]) (by rw [here]; rfl))

section LockFacts
variable {fiberMode : Bool} {isFiber : Nat → Bool} {s : PliRtLock.Sys} {p : Nat}

theorem inv_brackets (inv : Inv fiberMode isFiber s) (p : Nat) :
    (s.party p).opened.countP (·.took) = (s.party p).held + pending (s.party p).pc := by
  obtain ⟨-, words⟩ := inv
  cases fiberMode with
  | false => exact (words.parties p).brackets
  | true =>
    obtain ⟨place, queue, words⟩ := words
    exact (words.parties p).brackets

theorem os_silent (inv : Inv false isFiber s) (p : Nat) : walks (s.party p).pc = false := by
  have kind := (inv.2.parties p).os
  cases here : (s.party p).pc <;> simp_all [PliRtLock.isOs, walks]

theorem inv_walks (inv : Inv fiberMode isFiber s) (walking : walks (s.party p).pc = true) :
    0 < (s.party p).held := by
  cases fiberMode with
  | false => simp [os_silent inv p] at walking
  | true =>
    obtain ⟨-, place, queue, words⟩ := inv
    exact (words.parties p).holds (.inl walking)

theorem inv_one (inv : Inv fiberMode isFiber s) {q : Nat} (heldP : 0 < (s.party p).held)
    (heldQ : 0 < (s.party q).held) : p = q :=
  (PliRtLock.inv_safe inv).exclusive p q heldP heldQ

theorem condWaiting_of_fits {pc : Pc} (fits : PliRtLock.Fits pc .condQueue) :
    condWaiting pc = true := by
  unfold PliRtLock.Fits at fits
  split at fits <;> simp_all [condWaiting]

theorem inv_listed (inv : Inv true isFiber s) (quiet : ∀ p, walks (s.party p).pc = false)
    {w : Nat × Option Nat} (listed : w ∈ s.condWaiters) :
    condWaiting (s.party w.1).pc = true := by
  obtain ⟨-, place, queue, words⟩ := inv
  rw [words.cond.still quiet] at listed
  have queued := (words.cond.queued w.1).mp (List.mem_map_of_mem listed)
  exact condWaiting_of_fits (queued ▸ (words.parties w.1).fits)

theorem inv_walked (inv : Inv fiberMode isFiber s) {key : Option Nat}
    {rest keep : List (Nat × Option Nat)} (here : (s.party p).pc = .walking key rest keep)
    {w : Nat × Option Nat} (listed : w ∈ keep ++ rest) :
    condWaiting (s.party w.1).pc = true := by
  obtain ⟨-, words⟩ := inv
  cases fiberMode with
  | false =>
    have kind := (words.parties p).os
    simp [here, PliRtLock.isOs] at kind
  | true =>
    obtain ⟨place, queue, words⟩ := words
    have walk := words.cond.walk p
    rw [here] at walk
    rw [← show queue = keep ++ rest from walk] at listed
    have queued := (words.cond.queued w.1).mp (List.mem_map_of_mem listed)
    exact condWaiting_of_fits (queued ▸ (words.parties w.1).fits)

theorem inv_woken (inv : Inv fiberMode isFiber s) (quiet : ∀ p, walks (s.party p).pc = false)
    (parks : (s.party p).pc = .parkCond) :
    fiberMode = true ∧ (p ∈ s.condWaiters.map Prod.fst ∨ 0 < (s.party p).unparks) := by
  obtain ⟨-, words⟩ := inv
  cases fiberMode with
  | false =>
    have kind := (words.parties p).os
    simp [parks, PliRtLock.isOs] at kind
  | true =>
    obtain ⟨place, queue, words⟩ := words
    refine ⟨rfl, ?_⟩
    have fits := (words.parties p).fits
    rw [parks] at fits
    rcases fits with queued | ready
    · rw [words.cond.still quiet]
      exact .inl ((words.cond.queued p).mpr queued)
    · have woken := (words.parties p).woken
      simp only [ready, if_true] at woken
      exact .inr (by omega)

end LockFacts

/-- The bracket of pli_ev_mu: taken without a look at rt_tasks_active. -/
def bracket : Bracket := ⟨false, true⟩

section LockCalls
variable {fiberMode : Bool} {s s' : PliRtLock.Sys} {p : Nat}

section
variable (idle : (s.party p).pc = .idle)
include idle

theorem enter_does
    (stepped : PliRtLock.step fiberMode false (fun _ => true) s (.enter p false) = some s') :
    ∃ x, s'.party = update s.party p x ∧ acquires x.pc = true ∧
      x.opened = bracket :: (s.party p).opened ∧ s'.condWaiters = s.condWaiters := by
  simp only [PliRtLock.step, idle, if_true, Option.some.injEq] at stepped
  subst stepped
  refine ⟨{ s.party p with
    pc := if fiberMode then .spinAcquire else .osLock
    opened := bracket :: (s.party p).opened }, ?_, ?_, rfl, ?_⟩ <;>
    cases fiberMode <;>
    simp [PliRtLock.lockBegin, PliRtLock.reaches, PliRtLock.rtLockAcquire, PliRtLock.Sys.goto,
      PliRtLock.Sys.set, acquires, bracket]

theorem leave_does (opened : (s.party p).opened = [bracket])
    (stepped : PliRtLock.step fiberMode false (fun _ => true) s (.leave p) = some s') :
    ∃ x, s'.party = update s.party p x ∧ (x.pc = .idle ∨ leaves x.pc = true) ∧
      (x.opened = if ownRelease x.pc then [bracket] else []) ∧
      s'.condWaiters = s.condWaiters := by
  simp only [PliRtLock.step, idle, if_true, opened, Option.some.injEq] at stepped
  subst stepped
  cases fiberMode with
  | false =>
    exact ⟨_, rfl, .inl rfl, by simp [opened, ownRelease], rfl⟩
  | true =>
    refine ⟨{ s.party p with pc := .spinRelease false }, ?_, .inr rfl, by simp [opened, ownRelease],
      ?_⟩ <;>
      simp [PliRtLock.lockEnd, PliRtLock.reaches, PliRtLock.rtLockRelease, PliRtLock.Sys.goto,
        PliRtLock.Sys.set, bracket]

theorem condWait_does {key : Option Nat}
    (stepped : PliRtLock.step fiberMode false (fun _ => true) s (.condWait p key) = some s') :
    ∃ x, s'.party = update s.party p x ∧
      x.pc = (if fiberMode then .spinRelease true else .osCondWait) ∧
      x.opened = (s.party p).opened ∧
      s'.condWaiters = if fiberMode then (p, key) :: s.condWaiters else s.condWaiters := by
  simp only [PliRtLock.step, idle, if_true, Option.some.injEq] at stepped
  subst stepped
  cases fiberMode with
  | false | true => exact ⟨_, rfl, rfl, rfl, rfl⟩

theorem signalKey_does {key : Option Nat}
    (stepped : PliRtLock.step fiberMode false (fun _ => true) s (.signalKey p key) = some s') :
    ∃ x, s'.party = update s.party p x ∧
      x.pc = (if fiberMode then .walking key s.condWaiters [] else .idle) ∧
      x.opened = (s.party p).opened ∧ s'.condWaiters = s.condWaiters := by
  simp only [PliRtLock.step, idle, if_true, Option.some.injEq] at stepped
  subst stepped
  cases fiberMode with
  | false => exact ⟨s.party p, by simp [PliRtLock.rtCondSignalKey], idle, rfl, rfl⟩
  | true => exact ⟨_, rfl, rfl, rfl, rfl⟩

end

end LockCalls

def signalling : Pc → Bool
  | .walking _ _ _ => true
  | _ => false

/-- The task has called for pli_ev_mu and not begun to give it back. -/
def inside : At → Bool
  | .resetStore _ | .completeStore _ | .completeSignal _ | .waitCheck _ | .waitEnlist _
  | .check _ _ | .enlist | .unlock => true
  | _ => false

def fits : At → Pc → Bool
  | .out, pc => pc == .idle || leaves pc
  | .resetStore _, pc | .completeStore _, pc => pc == .idle || acquires pc
  | .waitCheck _, pc | .check 0 0, pc => pc == .idle || acquires pc || condWaiting pc
  | .unlock, pc => pc == .idle || signalling pc
  | _, pc => pc == .idle

def WaitsForSet (c : Call) : Prop := ∃ evs need, c = .waitN evs need ∧ evs ≠ [] ∧ 0 < need

def Knows (calm : Prop) (words : Nat → Bool) (t : Task) : Prop :=
  match t.at_ with
  | .out => calm → t.met = true
  | .waitLoad ev | .waitLock ev | .waitCheck ev => t.call = .wait (some ev)
  | .waitEnlist ev => t.call = .wait (some ev) ∧ words ev = false
  | .scan i seen => WaitsForSet t.call ∧ seen.Sublist (t.call.evs.take i)
  | .scanLock => WaitsForSet t.call
  | .check i done => WaitsForSet t.call ∧ done = (t.call.evs.take i).countP (evDone words) ∧
      done < t.call.need
  | .enlist => WaitsForSet t.call ∧ holds words t.call = false
  | .unlock => t.met = true
  | .resetLock ev | .resetStore ev => t.call = .reset (some ev)
  | .completeLock ev | .completeStore ev | .completeSignal ev => t.call = .complete (some ev)

structure TaskOk (calm : Prop) (words : Nat → Bool) (t : Task) (x : PliRtLock.Party) : Prop where
  fits : fits t.at_ x.pc = true
  opened : x.opened = if inside t.at_ || ownRelease x.pc then [bracket] else []
  knows : Knows calm words t
  current : t.at_ ≠ .out → holds words t.call = true → t.met = true

def EntryOf (c : Call) (key : Option Nat) : Prop :=
  (∃ ev, key = some ev ∧ c = .wait (some ev)) ∨
    (key = none ∧ ∃ evs need, c = .waitN evs need)

/-- Nobody on the list sleeps on what is complete, but for those that the task which has
    completed it is about to wake. -/
structure QueueOk (fiberMode : Bool) (s : Sys) : Prop where
  entries : (∀ p, walks (s.lock.party p).pc = false) → ∀ w ∈ s.lock.condWaiters,
    EntryOf (s.task w.1).call w.2 ∧ (holds s.words (s.task w.1).call = false ∨
      ∃ p ev, (s.task p).at_ = .completeSignal ev ∧ keyMatches (some ev) w = true)
  walk : ∀ p key rest keep, (s.lock.party p).pc = .walking key rest keep →
    (∀ w ∈ keep ++ rest, EntryOf (s.task w.1).call w.2) ∧
      (∀ w ∈ keep, holds s.words (s.task w.1).call = false) ∧
      ∀ w ∈ rest, keyMatches key w = false → holds s.words (s.task w.1).call = false
  os : ∀ q, s.osWaits q = true → fiberMode = false ∧ (s.lock.party q).pc = .osCondWait ∧
    (holds s.words (s.task q).call = false ∨ ∃ p ev, (s.task p).at_ = .completeSignal ev)
  empty : fiberMode = false → s.lock.condWaiters = []

structure EventInv (fiberMode : Bool) (calm : Prop) (s : Sys) : Prop where
  lock : Inv fiberMode (fun _ => true) s.lock
  tasks : ∀ p, TaskOk calm s.words (s.task p) (s.lock.party p)
  queue : QueueOk fiberMode s

theorem init_inv (fiberMode : Bool) (calm : Prop) : EventInv fiberMode calm .init := by
  refine ⟨PliRtLock.inv_init, fun p => ⟨rfl, rfl, fun _ => rfl, fun out => absurd rfl out⟩, ?_⟩
  constructor <;> simp [Sys.init, PliRtLock.Sys.init]

variable {pc pc' : Pc}

theorem onward_leaves (kind : leaves pc = true) (onward : Onward pc pc') :
    pc' = .idle ∨ leaves pc' = true := by
  unfold leaves at kind
  split at kind <;> simp_all [Onward, acquires, condWaiting, leaves]

theorem onward_acquires (kind : acquires pc = true) (onward : Onward pc pc') :
    pc' = .idle ∨ acquires pc' = true := by
  unfold acquires at kind
  split at kind <;> simp_all [Onward, acquires, condWaiting, leaves]

theorem onward_condWaiting (kind : condWaiting pc = true)
    (onward : Onward pc pc') : acquires pc' = true ∨ condWaiting pc' = true := by
  unfold condWaiting at kind
  split at kind <;> simp_all [Onward, acquires, condWaiting, leaves]

theorem onward_signalling (kind : signalling pc = true) (onward : Onward pc pc') :
    pc' = .idle ∨ signalling pc' = true := by
  unfold signalling at kind
  split at kind
  · rcases onward with ⟨none, -⟩ | ⟨none, -⟩ | ⟨none, -⟩ | ⟨_, _, -, rfl⟩ |
      ⟨_, _, _, _, -, rfl⟩ | ⟨_, none⟩
    · simp [acquires] at none
    · simp [condWaiting] at none
    · simp [leaves] at none
    · exact .inl rfl
    · exact .inr rfl
    · cases none
  · cases kind

theorem fits_onward {a : At} (ok : fits a pc = true) (busy : pc ≠ .idle)
    (onward : Onward pc pc') : fits a pc' = true := by
  unfold fits at ok ⊢
  split at ok
  · have kind : leaves pc = true := by simpa [busy] using ok
    simpa using onward_leaves kind onward
  · have kind : acquires pc = true := by simpa [busy] using ok
    simpa using onward_acquires kind onward
  · have kind : acquires pc = true := by simpa [busy] using ok
    simpa using onward_acquires kind onward
  · have kind : acquires pc = true ∨ condWaiting pc = true := by simpa [busy] using ok
    rcases kind with kind | kind
    · rcases onward_acquires kind onward with after | after <;> simp [after]
    · rcases onward_condWaiting kind onward with after | after <;> simp [after]
  · have kind : acquires pc = true ∨ condWaiting pc = true := by simpa [busy] using ok
    rcases kind with kind | kind
    · rcases onward_acquires kind onward with after | after <;> simp [after]
    · rcases onward_condWaiting kind onward with after | after <;> simp [after]
  · have kind : signalling pc = true := by simpa [busy] using ok
    simpa using onward_signalling kind onward
  · exact absurd (by simpa using ok) busy

theorem opened_onward {a : At} {before after : List Bracket}
    (ok : fits a pc = true) (busy : pc ≠ .idle) (onward : Onward pc pc')
    (was : before = if inside a || ownRelease pc then [bracket] else [])
    (now : after =
      if ownRelease pc = true ∧ ownRelease pc' = false then before.tail else before) :
    after = if inside a || ownRelease pc' then [bracket] else [] := by
  cases own : ownRelease pc with
  | true =>
    have leaving : leaves pc = true := by
      unfold ownRelease at own
      split at own <;> simp_all [leaves]
    have out : inside a = false := by
      unfold fits at ok
      unfold leaves at leaving
      split at leaving <;> split at ok <;> simp_all [inside, acquires, condWaiting, signalling]
    simp only [own, out, Bool.or_true, if_true] at was
    rw [now, was, out]
    cases ownRelease pc' <;> simp [own]
  | false =>
    have still : ownRelease pc' = false := by
      rcases onward with ⟨-, rfl | kind⟩ | ⟨-, kind | kind⟩ | ⟨-, -, kept⟩ | ⟨_, _, -, rfl⟩ |
        ⟨_, _, _, _, -, rfl⟩ | ⟨_, rfl⟩
      · rfl
      · unfold acquires at kind
        split at kind <;> simp_all [ownRelease]
      · unfold acquires at kind
        split at kind <;> simp_all [ownRelease]
      · unfold condWaiting at kind
        split at kind <;> simp_all [ownRelease]
      · exact kept own
      · rfl
      · rfl
      · unfold fits at ok
        split at ok <;> simp_all [leaves, acquires, condWaiting, signalling]
    rw [now, was, own, still]
    simp

section Invariant
variable {fiberMode : Bool} {calm : Prop} {s s' : Sys} {p : Nat}

theorem held_of_inside (inv : EventInv fiberMode calm s) (within : inside (s.task p).at_ = true)
    (idle : (s.lock.party p).pc = .idle) : (s.lock.party p).held = 1 := by
  have opened := (inv.tasks p).opened
  have counts := inv_brackets inv.lock p
  rw [opened, idle] at counts
  simp [within, ownRelease, bracket, pending] at counts
  exact counts.symm

variable {words : Nat → Bool}

theorem TaskOk.congr {t : Task} {x y : PliRtLock.Party}
    (ok : TaskOk calm words t x) (pc : y.pc = x.pc) (opened : y.opened = x.opened) :
    TaskOk calm words t y :=
  ⟨pc ▸ ok.fits, by rw [opened, pc]; exact ok.opened, ok.knows, ok.current⟩

theorem tasks_moved (inv : EventInv fiberMode calm s) (words : s'.words = s.words)
    (others : ∀ q, q ≠ p → s'.task q = s.task q ∧ (s'.lock.party q).pc = (s.lock.party q).pc ∧
      (s'.lock.party q).opened = (s.lock.party q).opened)
    (new : TaskOk calm s.words (s'.task p) (s'.lock.party p)) :
    ∀ q, TaskOk calm s'.words (s'.task q) (s'.lock.party q) := by
  intro q
  rw [words]
  by_cases same : q = p
  · rw [same]
    exact new
  · obtain ⟨task, pc, opened⟩ := others q same
    rw [task]
    exact (inv.tasks q).congr pc opened

variable {pc : Pc}

theorem condWaiting_not_idle (kind : condWaiting pc = true) : pc ≠ .idle := by
  rintro rfl
  simp [condWaiting] at kind

theorem queue_moved (inv : EventInv fiberMode calm s) (idle : (s.lock.party p).pc = .idle)
    (silent : ∀ ev, (s.task p).at_ ≠ .completeSignal ev) (words : s'.words = s.words)
    (list : s'.lock.condWaiters = s.lock.condWaiters) (os : s'.osWaits = s.osWaits)
    (others : ∀ q, q ≠ p → s'.task q = s.task q ∧
      (s'.lock.party q).pc = (s.lock.party q).pc)
    (calls : walks (s'.lock.party p).pc = false) : QueueOk fiberMode s' := by
  have walksAll : ∀ q, walks (s'.lock.party q).pc = walks (s.lock.party q).pc := by
    intro q
    by_cases same : q = p
    · rw [same, calls, idle]
      rfl
    · rw [(others q same).2]
  have signals : ∀ q ev, (s.task q).at_ = .completeSignal ev →
      (s'.task q).at_ = .completeSignal ev := by
    intro q ev here
    have other : q ≠ p := fun same => silent ev (same ▸ here)
    rw [(others q other).1]
    exact here
  refine ⟨fun quiet w listed => ?_, fun q key rest keep here => ?_, fun q sleeps => ?_,
    fun mode => list.trans (inv.queue.empty mode)⟩
  · rw [list] at listed
    have quiet' : ∀ q, walks (s.lock.party q).pc = false :=
      fun q => (walksAll q).symm.trans (quiet q)
    have other : w.1 ≠ p := by
      intro same
      cases fiberMode with
      | false => simp [inv.queue.empty rfl] at listed
      | true => exact condWaiting_not_idle (inv_listed inv.lock quiet' listed) (same ▸ idle)
    rw [(others _ other).1, words]
    obtain ⟨entry, asleep | ⟨q, ev, here, matched⟩⟩ := inv.queue.entries quiet' w listed
    · exact ⟨entry, .inl asleep⟩
    · exact ⟨entry, .inr ⟨q, ev, signals q ev here, matched⟩⟩
  · have other : q ≠ p := by
      intro same
      rw [same] at here
      simp [here, walks] at calls
    rw [(others q other).2] at here
    have sleepers : ∀ w ∈ keep ++ rest, s'.task w.1 = s.task w.1 := by
      intro w listed
      refine (others _ fun same => ?_).1
      exact condWaiting_not_idle (inv_walked inv.lock here listed) (same ▸ idle)
    obtain ⟨entries, kept, ahead⟩ := inv.queue.walk q key rest keep here
    refine ⟨fun w listed => ?_, fun w listed => ?_, fun w listed differs => ?_⟩
    · rw [sleepers w listed]
      exact entries w listed
    · rw [sleepers w (List.mem_append_left _ listed), words]
      exact kept w listed
    · rw [sleepers w (List.mem_append_right _ listed), words]
      exact ahead w listed differs
  · rw [os] at sleeps
    obtain ⟨mode, here, asleep⟩ := inv.queue.os q sleeps
    have other : q ≠ p := by
      intro same
      rw [same, idle] at here
      cases here
    rw [(others q other).1, (others q other).2, words]
    refine ⟨mode, here, ?_⟩
    rcases asleep with asleep | ⟨r, ev, signal⟩
    · exact .inl asleep
    · exact .inr ⟨r, ev, signals r ev signal⟩

variable {key : Option Nat} {a : At}

theorem onward_to_walking {rest keep : List (Nat × Option Nat)} (ok : fits a pc = true)
    (onward : Onward pc (.walking key rest keep)) :
    ∃ w kept, pc = .walking key (w :: rest) kept ∧
      keep = if keyMatches key w then kept else kept ++ [w] := by
  rcases onward with ⟨-, none⟩ | ⟨-, none⟩ | ⟨-, none, -⟩ | ⟨_, _, -, none⟩ |
    ⟨_, w, _, kept, rfl, same⟩ | ⟨_, rfl⟩
  · simp [acquires] at none
  · simp [acquires, condWaiting] at none
  · simp [leaves] at none
  · cases none
  · cases same
    exact ⟨w, kept, rfl, rfl⟩
  · unfold fits at ok
    split at ok <;> simp [leaves, acquires, condWaiting, signalling] at ok

theorem onward_from_walking {w : Nat × Option Nat} {rest keep : List (Nat × Option Nat)}
    (onward : Onward (.walking key (w :: rest) keep) pc) :
    pc = .walking key rest (if keyMatches key w then keep else keep ++ [w]) := by
  rcases onward with ⟨none, -⟩ | ⟨none, -⟩ | ⟨none, -⟩ | ⟨_, _, none, -⟩ |
    ⟨_, _, _, _, same, rfl⟩ | ⟨_, none⟩
  · simp [acquires] at none
  · simp [condWaiting] at none
  · simp [leaves] at none
  · cases none
  · cases same
    rfl
  · cases none

section
variable (inv : EventInv fiberMode calm s)
include inv

theorem queue_ticked {lock : PliRtLock.Sys}
    (busy : (s.lock.party p).pc ≠ .idle) (ticked : Ticked s.lock lock p) :
    QueueOk fiberMode
      { s with
        lock := lock
        osWaits :=
          if (s.lock.party p).pc = .osCondWait then update s.osWaits p false
          else s.osWaits } := by
  have ok := (inv.tasks p).fits
  have queue := ticked.queue
  have notWaking : ∀ rest, (s.lock.party p).pc ≠ .waking rest := by
    intro rest here
    rw [here] at ok
    unfold fits at ok
    split at ok <;> simp [leaves, acquires, condWaiting, signalling] at ok
  refine ⟨fun quiet w listed => ?_, fun q key rest keep here => ?_, fun q sleeps => ?_,
    fun mode => ?_⟩
  · cases walking : walks (s.lock.party p).pc with
    | true =>
      obtain ⟨key, rest, keep, here⟩ : ∃ key rest keep,
          (s.lock.party p).pc = .walking key rest keep := by
        cases at' : (s.lock.party p).pc <;> simp_all [walks]
      cases rest with
      | nil =>
        rw [here] at queue
        obtain ⟨entries, kept, -⟩ := inv.queue.walk p key [] keep here
        simp only at queue listed
        rw [queue] at listed
        exact ⟨entries w (by simpa using listed), .inl (kept w listed)⟩
      | cons v rest =>
        have onward := ticked.onward
        rw [here] at onward
        have silent := quiet p
        simp [onward_from_walking onward, walks] at silent
    | false =>
      have same : lock.condWaiters = s.lock.condWaiters := by
        rw [queue]
        split
        · rename_i here
          simp [here, walks] at walking
        · rfl
      have quiet' : ∀ q, walks (s.lock.party q).pc = false := by
        intro q
        by_cases here : q = p
        · rw [here, walking]
        · rw [← (ticked.others q here).1]
          exact quiet q
      simp only [same] at listed
      exact inv.queue.entries quiet' w listed
  · by_cases same : q = p
    · subst same
      have onward := ticked.onward
      simp only at here
      rw [here] at onward
      obtain ⟨w, kept, was, rfl⟩ := onward_to_walking ok onward
      obtain ⟨entries, asleep, ahead⟩ := inv.queue.walk q key (w :: rest) kept was
      refine ⟨fun v listed => entries v ?_, fun v listed => ?_,
        fun v listed => ahead v (List.mem_cons_of_mem w listed)⟩
      · split at listed <;> simp only [List.mem_append, List.mem_cons, List.not_mem_nil,
          or_false] at listed ⊢ <;> tauto
      · split at listed
        · exact asleep v listed
        · rename_i differs
          rcases List.mem_append.mp listed with old | new
          · exact asleep v old
          · obtain rfl := List.mem_singleton.mp new
            exact ahead v List.mem_cons_self (by simpa using differs)
    · simp only at here
      rw [(ticked.others q same).1] at here
      exact inv.queue.walk q key rest keep here
  · by_cases same : q = p
    · subst same
      simp only at sleeps
      split at sleeps
      · simp at sleeps
      · rename_i elsewhere
        exact absurd (inv.queue.os q sleeps).2.1 elsewhere
    · have before : s.osWaits q = true := by
        simp only at sleeps
        split at sleeps
        · simpa [same] using sleeps
        · exact sleeps
      simp only [(ticked.others q same).1]
      exact inv.queue.os q before
  · have none := inv.queue.empty mode
    simp only [queue]
    split
    · rename_i keep here
      subst mode
      have silent := os_silent inv.lock p
      simp [here, walks] at silent
    · exact none

theorem ticked_inv {lock : PliRtLock.Sys}
    (busy : (s.lock.party p).pc ≠ .idle) (kept : Inv fiberMode (fun _ => true) lock)
    (ticked : Ticked s.lock lock p) :
    EventInv fiberMode calm
      { s with
        lock := lock
        osWaits :=
          if (s.lock.party p).pc = .osCondWait then update s.osWaits p false
          else s.osWaits } := by
  have ok := inv.tasks p
  have here := fits_onward ok.fits busy ticked.onward
  refine ⟨kept, tasks_moved (p := p) inv rfl (fun q other => ⟨rfl, ticked.others q other⟩) ?_, ?_⟩
  · exact ⟨here, opened_onward ok.fits busy ticked.onward ok.opened ticked.opened, ok.knows,
      ok.current⟩
  · exact queue_ticked inv busy ticked

theorem move_inv (idle : (s.lock.party p).pc = .idle)
    (silent : ∀ ev, (s.task p).at_ ≠ .completeSignal ev)
    (new : TaskOk calm s.words { s.task p with at_ := a } (s.lock.party p)) :
    EventInv fiberMode calm (s.move p a) := by
  refine ⟨inv.lock, tasks_moved (p := p) inv rfl (fun q other => ?_) ?_,
    queue_moved inv idle silent rfl rfl rfl (fun q other => ?_) ?_⟩
  · simp [Sys.move, other]
  · simpa [Sys.move] using new
  · simp [Sys.move, other]
  · simp [Sys.move, idle, walks]

theorem outside_ok (idle : (s.lock.party p).pc = .idle) (outside : inside (s.task p).at_ = false)
    (new : inside a = false) (fit : fits a .idle = true)
    (knows : Knows calm s.words { s.task p with at_ := a })
    (busy : (s.task p).at_ ≠ .out) :
    TaskOk calm s.words { s.task p with at_ := a } (s.lock.party p) := by
  have ok := inv.tasks p
  refine ⟨by rw [idle]; exact fit, ?_, knows, fun _ => ok.current busy⟩
  rw [ok.opened, outside, new]

theorem inside_ok (idle : (s.lock.party p).pc = .idle) (within : inside (s.task p).at_ = true)
    (new : inside a = true) (fit : fits a .idle = true)
    (knows : Knows calm s.words { s.task p with at_ := a }) :
    TaskOk calm s.words { s.task p with at_ := a } (s.lock.party p) := by
  have ok := inv.tasks p
  have busy : (s.task p).at_ ≠ .out := by
    intro out
    simp [out, inside] at within
  refine ⟨by rw [idle]; exact fit, ?_, knows, fun _ => ok.current busy⟩
  rw [ok.opened, within, new]

theorem enter_inv (idle : (s.lock.party p).pc = .idle) (outside : inside (s.task p).at_ = false)
    (busy : (s.task p).at_ ≠ .out) (new : inside a = true)
    (fit : ∀ pc, acquires pc = true → fits a pc = true)
    (knows : Knows calm s.words { s.task p with at_ := a })
    (stepped : s.locks fiberMode p (.enter p false) a = some s') :
    EventInv fiberMode calm s' := by
  have ok := inv.tasks p
  simp only [Sys.locks, Option.map_eq_some_iff] at stepped
  obtain ⟨lock, entered, rfl⟩ := stepped
  obtain ⟨x, party, pc, opened, list⟩ := enter_does idle entered
  have none : (s.lock.party p).opened = [] := by
    rw [ok.opened, outside, idle]
    rfl
  have free : ownRelease x.pc = false ∧ walks x.pc = false := by
    unfold acquires at pc
    split at pc <;> simp_all [ownRelease, walks]
  have proper : PliRtLock.Proper fiberMode (fun _ => true) s.lock (.enter p false) :=
    fun _ _ => rfl
  refine ⟨PliRtLock.inv_step inv.lock proper entered,
    tasks_moved (p := p) inv rfl (fun q other => ?_) ?_,
    queue_moved inv idle ?_ rfl list rfl (fun q other => ?_) ?_⟩
  · simp [Sys.move, other, party]
  · refine ⟨?_, ?_, ?_, fun _ => ?_⟩
    · simpa [Sys.move, party] using fit x.pc pc
    · simp [Sys.move, party, new, opened, none]
    · simpa [Sys.move] using knows
    · simpa [Sys.move] using ok.current busy
  · intro ev signal
    simp [signal, inside] at outside
  · simp [Sys.move, other, party]
  · simp [party, free.2]

theorem leave_inv (idle : (s.lock.party p).pc = .idle) (here : (s.task p).at_ = .unlock)
    (stepped : s.locks fiberMode p (.leave p) .out = some s') : EventInv fiberMode calm s' := by
  have ok := inv.tasks p
  have whole : (s.lock.party p).opened = [bracket] := by
    rw [ok.opened, here]
    rfl
  have met : (s.task p).met = true := by
    have knows := ok.knows
    simpa [Knows, here] using knows
  simp only [Sys.locks, Option.map_eq_some_iff] at stepped
  obtain ⟨lock, left, rfl⟩ := stepped
  obtain ⟨x, party, pc, opened, list⟩ := leave_does idle whole left
  have proper : PliRtLock.Proper fiberMode (fun _ => true) s.lock (.leave p) := by
    intro b member _
    rw [whole] at member
    obtain rfl : bracket = b := by simpa using member
    rfl
  refine ⟨PliRtLock.inv_step inv.lock proper left,
    tasks_moved (p := p) inv rfl (fun q other => ?_) ?_,
    queue_moved inv idle ?_ rfl list rfl (fun q other => ?_) ?_⟩
  · simp [Sys.move, other, party]
  · refine ⟨?_, ?_, ?_, fun out => ?_⟩
    · simpa [Sys.move, party, fits] using pc
    · simp [Sys.move, party, opened, inside]
    · simp [Sys.move, Knows, met]
    · simp [Sys.move] at out
  · intro ev signal
    simp [signal] at here
  · simp [Sys.move, other, party]
  · simp only [party, update_self]
    rcases pc with pc | pc
    · simp [pc, walks]
    · unfold leaves at pc
      split at pc <;> simp_all [walks]

end

@[simp] theorem move_call (s : Sys) (p q : Nat) (a : At) :
    ((s.move p a).task q).call = (s.task q).call := by
  by_cases same : q = p <;> simp [Sys.move, same]

theorem alone (inv : EventInv fiberMode calm s) (within : inside (s.task p).at_ = true)
    (idle : (s.lock.party p).pc = .idle) :
    (∀ q, walks (s.lock.party q).pc = false) ∧
      ∀ q, inside (s.task q).at_ = true → (s.lock.party q).pc = .idle → q = p := by
  have held := held_of_inside inv within idle
  refine ⟨fun q => ?_, fun q withinQ idleQ => ?_⟩
  · cases walking : walks (s.lock.party q).pc with
    | false => rfl
    | true =>
      have other : q = p := inv_one inv.lock (inv_walks inv.lock walking) (by omega)
      rw [other, idle] at walking
      cases walking
  · have heldQ := held_of_inside inv withinQ idleQ
    exact inv_one inv.lock (by omega) (by omega)

variable {ev : Nat}

theorem completing_is_inside {q : Nat} (inv : EventInv fiberMode calm s)
    (here : (s.task q).at_ = .completeSignal ev) :
    inside (s.task q).at_ = true ∧ (s.lock.party q).pc = .idle := by
  have fit := (inv.tasks q).fits
  rw [here] at fit ⊢
  exact ⟨rfl, by simpa [fits] using fit⟩

theorem condWaits_inv (inv : EventInv fiberMode calm s)
    (idle : (s.lock.party p).pc = .idle) (within : inside (s.task p).at_ = true)
    (silent : ∀ ev, (s.task p).at_ ≠ .completeSignal ev) (new : inside a = true)
    (fit : ∀ pc, condWaiting pc = true → fits a pc = true)
    (entry : EntryOf (s.task p).call key) (asleep : holds s.words (s.task p).call = false)
    (knows : Knows calm s.words { s.task p with at_ := a })
    (stepped : s.condWaits fiberMode p key a = some s') : EventInv fiberMode calm s' := by
  have ok := inv.tasks p
  have held := held_of_inside inv within idle
  obtain ⟨quiet, unique⟩ := alone inv within idle
  simp only [Sys.condWaits, Sys.locks, Option.map_eq_some_iff] at stepped
  obtain ⟨lock, waited, rfl⟩ := stepped
  obtain ⟨x, party, pc, opened, list⟩ := condWait_does idle waited
  have proper : PliRtLock.Proper fiberMode (fun _ => true) s.lock (.condWait p key) := by
    show 0 < (s.lock.party p).held
    omega
  have waiting : condWaiting x.pc = true ∧ ownRelease x.pc = false ∧ walks x.pc = false := by
    rw [pc]
    cases fiberMode <;> simp [condWaiting, ownRelease, walks]
  have noSignal : ∀ q ev, (s.task q).at_ ≠ .completeSignal ev := by
    intro q ev here
    obtain ⟨withinQ, idleQ⟩ := completing_is_inside inv here
    exact silent ev (unique q withinQ idleQ ▸ here)
  refine ⟨PliRtLock.inv_step inv.lock proper waited,
    tasks_moved (p := p) inv rfl (fun q other => ?_) ?_, ?_⟩
  · simp [Sys.move, other, party]
  · refine ⟨?_, ?_, ?_, fun _ => ?_⟩
    · simpa [Sys.move, party] using fit x.pc waiting.1
    · simp [Sys.move, party, opened, ok.opened, within, new]
    · simpa [Sys.move] using knows
    · have busy : (s.task p).at_ ≠ .out := by
        intro out
        simp [out, inside] at within
      simpa [Sys.move] using ok.current busy
  · refine ⟨fun _ w listed => ?_, fun q key rest keep here => ?_, fun q sleeps => ?_,
      fun mode => ?_⟩
    · simp only [move_call]
      cases fiberMode with
      | false => simp [list, inv.queue.empty rfl] at listed
      | true =>
        simp only [list, if_true, List.mem_cons] at listed
        rcases listed with rfl | old
        · exact ⟨entry, .inl asleep⟩
        · obtain ⟨known, still | ⟨q, ev, here, -⟩⟩ := inv.queue.entries quiet w old
          · exact ⟨known, .inl still⟩
          · exact absurd here (noSignal q ev)
    · have silentAfter : walks (lock.party q).pc = false := by
        by_cases same : q = p
        · simp [party, same, waiting.2.2]
        · simp [party, same, quiet q]
      simp only at here
      simp [here, walks] at silentAfter
    · simp only [move_call]
      cases fiberMode with
      | false =>
        by_cases same : q = p
        · subst same
          exact ⟨rfl, by simp [party, pc], .inl asleep⟩
        · have before : s.osWaits q = true := by simpa [Sys.move, same] using sleeps
          obtain ⟨-, here, still | ⟨r, ev, signal⟩⟩ := inv.queue.os q before
          · exact ⟨rfl, by simpa [party, same] using here, .inl still⟩
          · exact absurd signal (noSignal r ev)
      | true =>
        have mode := (inv.queue.os q (by simpa [Sys.move] using sleeps)).1
        cases mode
    · subst mode
      simpa [list] using inv.queue.empty rfl

theorem signal_inv (inv : EventInv fiberMode calm s) (here : (s.task p).at_ = .completeSignal ev)
    (stepped : Sys.locks fiberMode
      { s with osWaits := if fiberMode then s.osWaits else fun _ => false } p
      (.signalKey p (some ev)) .unlock = some s') : EventInv fiberMode calm s' := by
  have ok := inv.tasks p
  obtain ⟨within, idle⟩ := completing_is_inside inv here
  have held := held_of_inside inv within idle
  obtain ⟨quiet, unique⟩ := alone inv within idle
  simp only [Sys.locks, Option.map_eq_some_iff] at stepped
  obtain ⟨lock, signalled, rfl⟩ := stepped
  obtain ⟨x, party, pc, opened, list⟩ := signalKey_does idle signalled
  have proper : PliRtLock.Proper fiberMode (fun _ => true) s.lock (.signalKey p (some ev)) := by
    show 0 < (s.lock.party p).held
    omega
  have met : (s.task p).met = true := by
    have call := ok.knows
    simp only [Knows, here] at call
    exact ok.current (by simp [here]) (by simp [call, holds])
  refine ⟨PliRtLock.inv_step inv.lock proper signalled,
    tasks_moved (p := p) inv rfl (fun q other => ?_) ?_, ?_⟩
  · simp [Sys.move, other, party]
  · refine ⟨?_, ?_, ?_, fun _ => ?_⟩
    · cases fiberMode <;> simp [Sys.move, party, pc, fits, signalling]
    · have whole : (s.lock.party p).opened = [bracket] := by
        rw [ok.opened, within]
        rfl
      simp [Sys.move, party, opened, whole, inside]
    · simpa [Sys.move, Knows] using met
    · simp [Sys.move, met]
  · refine ⟨fun silent w listed => ?_, fun q key rest keep here' => ?_, fun q sleeps => ?_,
      fun mode => ?_⟩
    · cases fiberMode with
      | false => simp [list, inv.queue.empty rfl] at listed
      | true =>
        have walking := silent p
        simp [party, pc, walks] at walking
    · have only : q = p := by
        by_contra other
        have walking := quiet q
        simp only [party, update_of_ne other] at here'
        simp [here', walks] at walking
      subst only
      simp only [party, update_self] at here'
      rw [pc] at here'
      cases fiberMode with
      | false => cases here'
      | true =>
        cases here'
        simp only [move_call]
        refine ⟨fun w listed => (inv.queue.entries quiet w (by simpa using listed)).1,
          fun w listed => ?_, fun w listed differs => ?_⟩
        · cases listed
        obtain ⟨-, asleep | ⟨r, ev', signal, matched⟩⟩ := inv.queue.entries quiet w listed
        · exact asleep
        · obtain ⟨withinR, idleR⟩ := completing_is_inside inv signal
          obtain rfl := unique r withinR idleR
          rw [here] at signal
          cases signal
          simp [matched] at differs
    · cases fiberMode with
      | false => cases sleeps
      | true =>
        have mode := (inv.queue.os q (by simpa [Sys.move] using sleeps)).1
        cases mode
    · subst mode
      simpa [list] using inv.queue.empty rfl

variable {c : Call}

theorem holds_reset (asleep : holds words c = false) :
    holds (update words ev false) c = false := by
  have fewer : ∀ ev', update words ev false ev' = true → words ev' = true := by
    intro ev' complete
    by_cases same : ev' = ev
    · simp [same] at complete
    · simpa [same] using complete
  unfold holds at asleep ⊢
  split at asleep
  · rename_i ev'
    cases after : update words ev false ev' with
    | false => rfl
    | true => exact (fewer ev' after).symm.trans asleep
  · rename_i evs need
    have less : evs.countP (evDone (update words ev false)) ≤
        evs.countP (evDone words) := by
      refine List.countP_mono_left fun e _ complete => ?_
      cases e with
      | none => cases complete
      | some ev' => exact fewer ev' complete
    simp only [decide_eq_false_iff_not] at asleep ⊢
    omega
  · cases asleep

theorem holds_complete {words : Nat → Bool} {ev : Nat} {w : Nat × Option Nat} {c : Call}
    (entry : EntryOf c w.2) (asleep : holds words c = false) :
    holds (update words ev true) c = false ∨ keyMatches (some ev) w = true := by
  rcases entry with ⟨ev', key, rfl⟩ | ⟨key, -⟩
  · by_cases same : ev' = ev
    · exact .inr (by simp [keyMatches, key, same])
    · exact .inl (by simpa [holds, same] using asleep)
  · exact .inr (by simp [keyMatches, key])

theorem sees_at (words : Nat → Bool) (t : Task) : (t.sees words).at_ = t.at_ := by
  unfold Task.sees
  split <;> rfl

theorem sees_call (words : Nat → Bool) (t : Task) : (t.sees words).call = t.call := by
  unfold Task.sees
  split <;> rfl

theorem sees_ok {words words' : Nat → Bool} {t : Task} {x : PliRtLock.Party}
    (ok : TaskOk calm words t x) (away : inside t.at_ = true → x.pc ≠ .idle) :
    TaskOk calm words' (t.sees words') x := by
  refine ⟨by rw [sees_at]; exact ok.fits, by rw [sees_at]; exact ok.opened, ?_, ?_⟩
  · have knows := ok.knows
    have fit := ok.fits
    cases here : t.at_ with
    | out =>
      have same : t.sees words' = t := by simp [Task.sees, here]
      rw [same]
      simpa [Knows, here] using knows
    | waitEnlist ev | enlist =>
      rw [here] at away fit
      exact absurd (by simpa [fits] using fit) (away rfl)
    | check i done =>
      rw [here] at away fit
      simp only [Knows, here] at knows
      simp only [Knows, sees_at, sees_call, here]
      by_cases start : i = 0 ∧ done = 0
      · obtain ⟨rfl, rfl⟩ := start
        exact ⟨knows.1, by simp, knows.2.2⟩
      · have idle : x.pc = .idle := by
          unfold fits at fit
          split at fit <;> simp_all
        exact absurd idle (away rfl)
    | unlock =>
      have met : t.met = true := by simpa [Knows, here] using knows
      simp [Knows, Task.sees, here, met]
    | _ =>
      simp only [Knows, here] at knows
      simp only [Knows, sees_at, sees_call, here]
      exact knows
  · intro busy holds'
    rw [sees_at] at busy
    rw [sees_call] at holds'
    simp [Task.sees, busy, holds']

theorem store_inv {v : Bool} (inv : EventInv fiberMode calm s)
    (idle : (s.lock.party p).pc = .idle) (within : inside (s.task p).at_ = true)
    (silent : ∀ ev, (s.task p).at_ ≠ .completeSignal ev) (new : inside a = true)
    (fit : fits a .idle = true)
    (knows : ∀ words, Knows calm words { (s.task p).sees words with at_ := a })
    (wakes : v = true → a = .completeSignal ev) :
    EventInv fiberMode calm (s.store p ev v a) := by
  have ok := inv.tasks p
  obtain ⟨quiet, unique⟩ := alone inv within idle
  have busy : (s.task p).at_ ≠ .out := by
    intro out
    simp [out, inside] at within
  have noSignal : ∀ q ev, (s.task q).at_ ≠ .completeSignal ev := by
    intro q ev here
    obtain ⟨withinQ, idleQ⟩ := completing_is_inside inv here
    exact silent ev (unique q withinQ idleQ ▸ here)
  have calls : ∀ q, ((s.store p ev v a).task q).call = (s.task q).call := by
    intro q
    simp only [Sys.store, move_call, sees_call]
  refine ⟨inv.lock, fun q => ?_, ?_⟩
  · by_cases same : q = p
    · subst same
      refine ⟨?_, ?_, ?_, fun _ => ?_⟩
      · simpa [Sys.store, Sys.move, idle] using fit
      · simp [Sys.store, Sys.move, ok.opened, within, new]
      · simpa [Sys.store, Sys.move] using knows _
      · simp [Sys.store, Sys.move, Task.sees, busy]
        tauto
    · have other := @sees_ok calm s.words (update s.words ev v) _ _ (inv.tasks q)
        (fun withinQ idleQ => same (unique q withinQ idleQ))
      simpa [Sys.store, Sys.move, same] using other
  · refine ⟨fun _ w listed => ?_, fun q key rest keep here => ?_, fun q sleeps => ?_,
      inv.queue.empty⟩
    · rw [calls]
      cases fiberMode with
      | false =>
        have none := inv.queue.empty rfl
        simp only [Sys.store, Sys.move] at listed
        simp [none] at listed
      | true =>
        obtain ⟨entry, asleep | ⟨q, ev', here, -⟩⟩ := inv.queue.entries quiet w listed
        · refine ⟨entry, ?_⟩
          cases v with
          | false => exact .inl (holds_reset asleep)
          | true =>
            rcases @holds_complete s.words ev w _ entry asleep with still | matched
            · exact .inl still
            · exact .inr ⟨p, ev, by simp [Sys.store, Sys.move, wakes rfl], matched⟩
        · exact absurd here (noSignal q ev')
    · have walking := quiet q
      simp only [Sys.store, Sys.move] at here
      simp [here, walks] at walking
    · rw [calls]
      obtain ⟨mode, here, asleep | ⟨r, ev', signal⟩⟩ := inv.queue.os q sleeps
      · refine ⟨mode, here, ?_⟩
        cases v with
        | false => exact .inl (holds_reset asleep)
        | true => exact .inr ⟨p, ev, by simp [Sys.store, Sys.move, wakes rfl]⟩
      · exact absurd signal (noSignal r ev')

theorem entry_outside (c : Call) : inside (entry c) = false ∧ fits (entry c) .idle = true := by
  unfold entry
  split
  · exact ⟨rfl, rfl⟩
  · exact ⟨rfl, rfl⟩
  · exact ⟨rfl, rfl⟩
  · split <;> exact ⟨rfl, rfl⟩
  · exact ⟨rfl, rfl⟩

theorem entry_ok (words : Nat → Bool) (c : Call) {x : PliRtLock.Party} (idle : x.pc = .idle)
    (none : x.opened = []) : TaskOk calm words ⟨entry c, c, holds words c⟩ x := by
  refine ⟨?_, ?_, ?_, fun _ met => met⟩
  · rw [idle]
    exact (entry_outside c).2
  · rw [idle, none, (entry_outside c).1]
    rfl
  · unfold entry
    split
    · rfl
    · rfl
    · rfl
    · rename_i evs need
      split
      · rename_i trivial
        intro _
        simp only [holds, decide_eq_true_eq]
        rcases trivial with rfl | low
        · simp only [List.length_nil]
          omega
        · omega
      · rename_i set'
        rw [not_or] at set'
        exact ⟨⟨evs, need, rfl, set'.1, Int.not_le.mp set'.2⟩, List.nil_sublist _⟩
    · rename_i others
      intro _
      unfold holds
      split <;> simp_all

theorem call_inv (inv : EventInv fiberMode calm s) (c : Call)
    (idle : (s.lock.party p).pc = .idle) (out : (s.task p).at_ = .out) :
    EventInv fiberMode calm
      { s with task := update s.task p ⟨entry c, c, holds s.words c⟩ } := by
  have opened : (s.lock.party p).opened = [] := by
    rw [(inv.tasks p).opened, out, idle]
    rfl
  refine ⟨inv.lock, tasks_moved (p := p) inv rfl (fun q other => ?_) ?_,
    queue_moved inv idle ?_ rfl rfl rfl (fun q other => ?_) ?_⟩
  · simp [other]
  · simpa using entry_ok s.words c idle opened
  · intro ev signal
    simp [signal] at out
  · simp [other]
  · simp [idle, walks]

theorem need_met (set' : WaitsForSet c) :
    holds words c = true ↔ c.need ≤ c.evs.countP (evDone words) := by
  obtain ⟨evs, need, rfl, -, positive⟩ := set'
  simp only [holds, Call.need, Call.evs, decide_eq_true_eq]
  omega

variable {i : Nat}

theorem take_past {evs : List (Option Nat)} (past : evs[i]? = none) : evs.take i = evs :=
  List.take_of_length_le (List.getElem?_eq_none_iff.mp past)

theorem take_next {evs : List (Option Nat)} {e : Option Nat} (here : evs[i]? = some e) :
    evs.take (i + 1) = evs.take i ++ [e] := by
  rw [List.take_add_one, here]
  rfl

theorem scan_inv {seen : List (Option Nat)} (inv : EventInv fiberMode calm s)
    (idle : (s.lock.party p).pc = .idle) (here : (s.task p).at_ = .scan i seen)
    (steady : calm → Calm s (.tick p)) (stepped : inCall fiberMode s p = some s') :
    EventInv fiberMode calm s' := by
  have ok := inv.tasks p
  have knows := ok.knows
  have busy : (s.task p).at_ ≠ .out := by simp [here]
  have outside : inside (s.task p).at_ = false := by simp [here, inside]
  have silent : ∀ ev, (s.task p).at_ ≠ .completeSignal ev := by simp [here]
  simp only [Knows, here] at knows
  obtain ⟨set', counted⟩ := knows
  have moved : ∀ {a : At}, inside a = false → fits a .idle = true →
      Knows calm s.words { s.task p with at_ := a } → EventInv fiberMode calm (s.move p a) :=
    fun new fit known => move_inv inv idle silent
      (outside_ok inv idle outside new fit known busy)
  simp only [inCall, here] at stepped
  split at stepped
  · cases stepped
    exact moved rfl rfl set'
  · rename_i e next
    split at stepped
    · rename_i done
      have longer : (seen ++ [e]).Sublist ((s.task p).call.evs.take (i + 1)) := by
        rw [take_next next]
        exact counted.append (List.Sublist.refl _)
      cases stepped
      split
      · rename_i enough
        refine moved rfl rfl fun still => ok.current busy ((need_met set').mpr ?_)
        have complete := steady still
        simp only [Calm, here] at complete
        have all := complete e next done enough
        have whole : (seen ++ [e]).countP (evDone s.words) = seen.length + 1 := by
          rw [List.countP_eq_length.mpr]
          · simp
          · intro f member
            rcases List.mem_append.mp member with old | new
            · exact all f old
            · obtain rfl := List.mem_singleton.mp new
              exact done
        have fewer := (longer.trans (List.take_sublist _ _)).countP_le (p := evDone s.words)
        omega
      · exact moved rfl rfl ⟨set', longer⟩
    · cases stepped
      refine moved rfl rfl ⟨set', counted.trans ?_⟩
      rw [take_next next]
      exact List.sublist_append_left _ _

theorem check_inv {done : Nat} (inv : EventInv fiberMode calm s)
    (idle : (s.lock.party p).pc = .idle) (here : (s.task p).at_ = .check i done)
    (stepped : inCall fiberMode s p = some s') : EventInv fiberMode calm s' := by
  have ok := inv.tasks p
  have knows := ok.knows
  have busy : (s.task p).at_ ≠ .out := by simp [here]
  have within : inside (s.task p).at_ = true := by simp [here, inside]
  have silent : ∀ ev, (s.task p).at_ ≠ .completeSignal ev := by simp [here]
  simp only [Knows, here] at knows
  obtain ⟨set', counted, few⟩ := knows
  have moved : ∀ {a : At}, inside a = true → fits a .idle = true →
      Knows calm s.words { s.task p with at_ := a } → EventInv fiberMode calm (s.move p a) :=
    fun new fit known => move_inv inv idle silent (inside_ok inv idle within new fit known)
  simp only [inCall, here] at stepped
  split at stepped
  · rename_i past
    rw [take_past past] at counted
    cases stepped
    rw [if_neg (by omega)]
    refine moved rfl rfl ⟨set', ?_⟩
    have unmet : ¬ holds s.words (s.task p).call = true := mt (need_met set').mp (by omega)
    simpa using unmet
  · rename_i e next
    have onward : ((s.task p).call.evs.take (i + 1)).countP (evDone s.words) =
        done + if evDone s.words e then 1 else 0 := by
      rw [take_next next, List.countP_append, ← counted, List.countP_singleton]
    have fit : ∀ n, fits (.check (i + 1) n) .idle = true := fun _ => rfl
    split at stepped
    · rename_i complete
      simp only [complete, if_true] at onward
      cases stepped
      split
      · rename_i enough
        have all := (List.take_sublist (i + 1) (s.task p).call.evs).countP_le
          (p := evDone s.words)
        exact moved rfl rfl (ok.current busy ((need_met set').mpr (by omega)))
      · rename_i fewer
        have few : done + 1 < (s.task p).call.need := by omega
        exact moved rfl (fit _) ⟨set', onward.symm, few⟩
    · rename_i incomplete
      simp only [incomplete, Bool.false_eq_true, if_false, Nat.add_zero] at onward
      cases stepped
      exact moved rfl (fit _) ⟨set', onward.symm, few⟩

theorem fits_waiting (which : (∃ ev, a = .waitCheck ev) ∨ a = .check 0 0) {pc : Pc}
    (kind : acquires pc = true ∨ condWaiting pc = true) : fits a pc = true := by
  rcases which with ⟨ev, rfl⟩ | rfl <;> rcases kind with kind | kind <;> simp [fits, kind]

theorem start_of_check {met : Bool} (set' : WaitsForSet c) :
    Knows calm words ⟨.check 0 0, c, met⟩ := by
  refine ⟨set', by simp, ?_⟩
  obtain ⟨evs, need, rfl, some', positive⟩ := set'
  have long : 0 < evs.length := List.length_pos_iff.mpr some'
  simp only [Call.need]
  omega

section
variable (inv : EventInv fiberMode calm s)
include inv

theorem inCall_inv (idle : (s.lock.party p).pc = .idle)
    (steady : calm → Calm s (.tick p)) (stepped : inCall fiberMode s p = some s') :
    EventInv fiberMode calm s' := by
  have ok := inv.tasks p
  have knows := ok.knows
  have stepped' := stepped
  unfold inCall at stepped
  cases here : (s.task p).at_ with
  | out =>
    simp only [here] at stepped
    cases stepped
  | resetLock ev =>
    simp only [here] at stepped
    simp only [Knows, here] at knows
    exact enter_inv (a := .resetStore ev) inv idle (by simp [here, inside]) (by simp [here]) rfl
      (fun pc kind => by simp [fits, kind]) knows stepped
  | resetStore ev =>
    simp only [here] at stepped
    simp only [Knows, here] at knows
    cases stepped
    have met := ok.current (by simp [here]) (by simp [knows, holds])
    exact store_inv inv idle (by simp [here, inside]) (by simp [here]) rfl rfl
      (fun words => by simp [Knows, Task.sees, here, met]) (by simp)
  | completeLock ev =>
    simp only [here] at stepped
    simp only [Knows, here] at knows
    exact enter_inv (a := .completeStore ev) inv idle (by simp [here, inside]) (by simp [here])
      rfl (fun pc kind => by simp [fits, kind]) knows stepped
  | completeStore ev =>
    simp only [here] at stepped
    simp only [Knows, here] at knows
    cases stepped
    exact store_inv inv idle (by simp [here, inside]) (by simp [here]) rfl rfl
      (fun words => by simp [Knows, sees_call, knows]) (fun _ => rfl)
  | completeSignal ev =>
    simp only [here] at stepped
    exact signal_inv inv here stepped
  | waitLoad ev =>
    simp only [here] at stepped
    simp only [Knows, here] at knows
    cases stepped
    refine move_inv inv idle (by simp [here]) ?_
    split
    · rename_i done
      have met := ok.current (by simp [here]) (by simpa [knows, holds] using done)
      exact outside_ok inv idle (by simp [here, inside]) rfl rfl (fun _ => met) (by simp [here])
    · exact outside_ok inv idle (by simp [here, inside]) rfl rfl knows (by simp [here])
  | waitLock ev =>
    simp only [here] at stepped
    simp only [Knows, here] at knows
    exact enter_inv inv idle (by simp [here, inside]) (by simp [here]) rfl
      (fun pc kind => fits_waiting (.inl ⟨ev, rfl⟩) (.inl kind)) knows stepped
  | waitCheck ev =>
    simp only [here] at stepped
    simp only [Knows, here] at knows
    cases stepped
    refine move_inv inv idle (by simp [here]) ?_
    split
    · rename_i done
      have met := ok.current (by simp [here]) (by simpa [knows, holds] using done)
      exact inside_ok inv idle (by simp [here, inside]) rfl rfl met
    · rename_i undone
      exact inside_ok inv idle (by simp [here, inside]) rfl rfl ⟨knows, by simpa using undone⟩
  | waitEnlist ev =>
    simp only [here] at stepped
    simp only [Knows, here] at knows
    obtain ⟨call, undone⟩ := knows
    exact condWaits_inv inv idle (by simp [here, inside]) (by simp [here]) rfl
      (fun pc kind => fits_waiting (.inl ⟨ev, rfl⟩) (.inr kind)) (.inl ⟨ev, rfl, call⟩)
      (by simp [call, holds, undone]) call stepped
  | scan i seen => exact scan_inv inv idle here steady stepped'
  | scanLock =>
    simp only [here] at stepped
    simp only [Knows, here] at knows
    exact enter_inv inv idle (by simp [here, inside]) (by simp [here]) rfl
      (fun pc kind => fits_waiting (.inr rfl) (.inl kind)) (start_of_check knows) stepped
  | check i done => exact check_inv inv idle here stepped'
  | enlist =>
    simp only [here] at stepped
    simp only [Knows, here] at knows
    obtain ⟨set', unmet⟩ := knows
    have ⟨evs, need, call, _⟩ := set'
    exact condWaits_inv inv idle (by simp [here, inside]) (by simp [here]) rfl
      (fun pc kind => fits_waiting (.inr rfl) (.inr kind)) (.inr ⟨rfl, evs, need, call⟩) unmet
      (start_of_check set') stepped
  | unlock =>
    simp only [here] at stepped
    exact leave_inv inv idle here stepped

theorem step_inv {e : Act} (steady : calm → Calm s e)
    (stepped : step fiberMode s e = some s') : EventInv fiberMode calm s' := by
  cases e with
  | call p c =>
    obtain ⟨free, ⟨⟩⟩ := Option.ite_none_right_eq_some.mp stepped
    exact call_inv inv c free.2 free.1
  | tick p =>
    simp only [step] at stepped
    split at stepped
    · rename_i idle
      exact inCall_inv inv idle steady stepped
    · rename_i busy
      simp only [Option.map_eq_some_iff] at stepped
      obtain ⟨lock, ticked, rfl⟩ := stepped
      have kept : Inv fiberMode (fun _ => true) lock :=
        PliRtLock.inv_step (e := .tick p) inv.lock trivial ticked
      exact ticked_inv inv busy kept (tick_does ticked)

theorem run_inv {es : List Act} (steady : calm → AllSteps (step fiberMode) Calm s es)
    (reached : run (step fiberMode) s es = some s') : EventInv fiberMode calm s' := by
  induction es generalizing s with
  | nil =>
    cases reached
    exact inv
  | cons e es ih =>
    obtain ⟨mid, stepped, rest⟩ := run_cons_iff.mp reached
    refine ih (step_inv inv (fun still => (steady still).1) stepped) (fun still => ?_) rest
    exact (steady still).2 mid stepped

theorem inv_noneLost (free : ∀ p, (s.lock.party p).held = 0) : NoneLost fiberMode s := by
  have quiet : ∀ p, walks (s.lock.party p).pc = false := by
    intro p
    cases walking : walks (s.lock.party p).pc with
    | false => rfl
    | true =>
      have held := inv_walks inv.lock walking
      have none := free p
      omega
  have noSignal : ∀ q ev, (s.task q).at_ ≠ .completeSignal ev := by
    intro q ev here
    obtain ⟨within, idle⟩ := completing_is_inside inv here
    have held := held_of_inside inv within idle
    have none := free q
    omega
  have asleep : ∀ w ∈ s.lock.condWaiters, EntryOf (s.task w.1).call w.2 ∧
      holds s.words (s.task w.1).call = false := by
    intro w listed
    obtain ⟨entry, still | ⟨q, ev, here, -⟩⟩ := inv.queue.entries quiet w listed
    · exact ⟨entry, still⟩
    · exact absurd here (noSignal q ev)
  refine ⟨fun p ev listed => ?_, fun p enlisted => ?_, fun p parks => ?_⟩
  · obtain ⟨⟨ev', same, call⟩ | ⟨none, -⟩, still⟩ := asleep _ listed
    · cases same
      simpa [call, holds] using still
    · cases none
  · cases fiberMode with
    | false =>
      obtain ⟨-, -, still | ⟨q, ev, here⟩⟩ := inv.queue.os p enlisted
      · exact still
      · exact absurd here (noSignal q ev)
    | true =>
      obtain ⟨w, listed, rfl⟩ := List.mem_map.mp enlisted
      exact (asleep w listed).2
  · obtain ⟨rfl, woken⟩ := inv_woken inv.lock quiet parks
    exact woken

end

end Invariant

/-- Whatever the tasks do, nobody sleeps on a completed event while nobody holds
    pli_ev_mu; and where no counted event is reset under a scan that ends on it, every
    wait that returns had its condition hold during the call. -/
theorem completions_not_lost (fiberMode : Bool) (es : List Act) (s : Sys)
    (reached : run (step fiberMode) .init es = some s) :
    ((∀ p, (s.lock.party p).held = 0) → NoneLost fiberMode s) ∧
      (AllSteps (step fiberMode) Calm .init es → Answered s) := by
  refine ⟨inv_noneLost (run_inv (init_inv fiberMode False) False.elim reached), fun steady => ?_⟩
  have inv := run_inv (init_inv fiberMode True) (fun _ => steady) reached
  intro p out
  have knows := (inv.tasks p).knows
  simp only [Knows, out] at knows
  exact knows trivial

def ticks (p n : Nat) : List Act := List.replicate n (.tick p)

/-- Task 0 waits for event 0 and then for both events, and sleeps each time until task 1
    completes what is missing. -/
def waited : List Act :=
  .call 0 (.wait (some 0)) :: ticks 0 10 ++ .call 1 (.complete (some 0)) :: ticks 1 12 ++
    ticks 0 9 ++ .call 0 (.waitN [some 0, some 1] 2) :: ticks 0 14 ++
    .call 1 (.complete (some 1)) :: ticks 1 12 ++ ticks 0 10

theorem completions_not_lost_waited :
    ∃ s, run (step true) .init waited = some s ∧ NoneLost true s ∧ Answered s := by
  refine ⟨_, rfl, ?_, ?_⟩
  · refine (completions_not_lost true waited _ rfl).1 fun p => ?_
    rcases p with _ | _ | p <;> rfl
  · exact (completions_not_lost true waited _ rfl).2 (by decide +kernel)

/-- Task 0 waits for both events without the lock. It counts event 0, which is then reset,
    and after that event 1, the only complete one. -/
def staleScan : List Act :=
  .call 1 (.complete (some 0)) :: ticks 1 11 ++ .call 0 (.waitN [some 0, some 1] 2) :: .tick 0 ::
    .call 1 (.reset (some 0)) :: ticks 1 9 ++ .call 1 (.complete (some 1)) :: ticks 1 11 ++
    [.tick 0]

theorem stale_scan_answers :
    ∃ s, run (step true) .init staleScan = some s ∧ ¬ Answered s := by
  refine ⟨_, rfl, fun answered => ?_⟩
  have met := answered 0 rfl
  cases met

end PliRtEvents
