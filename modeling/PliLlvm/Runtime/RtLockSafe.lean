import PliLlvm.Runtime.RtLock

/- Every step of the lock layer keeps its invariant. Where tasks are fibers, each
   sleeping fiber has a place (`place`) and the condition's queue (`queue`) stands
   also while a signal has taken it apart. -/
namespace PliRtLock
open Runs
open Function (update update_of_ne update_self)

section Steps
variable {isFiber : Nat → Bool} {place : Nat → Place} {queue : List (Nat × Option Nat)}
  {s : Sys} {p : Nat}

variable {fiber : Bool} {pl : Place} {x : Party} {pc : Pc}

theorem PartyOk.goto (ok : PartyOk fiber pl x)
    (isFiber : fiber = true) (fits : Fits pc pl) (calls : pending pc = pending x.pc)
    (was : x.pc ≠ .park) (now : pc ≠ .park)
    (holds : walks pc = true ∨ releases pc = true → 0 < x.held)
    (top : ownRelease pc = true → ∃ b rest, x.opened = b :: rest ∧ b.took = true) :
    PartyOk fiber pl { x with pc := pc } := by
  refine ⟨fits, ok.woken, ?_, ok.once, ?_, ?_, holds, fun parks => absurd parks now, top⟩
  · rw [calls]
    exact ok.brackets
  · have counted := ok.resumes
    simp only [was, now, false_and, if_false] at counted ⊢
    exact counted
  · intro thread
    simp [isFiber] at thread

theorem PartyOk.took (ok : PartyOk fiber pl x)
    (isFiber : fiber = true) (calls : pending x.pc = 1) (awake : pl = .awake)
    (was : x.pc ≠ .park) : PartyOk fiber pl { x with pc := .idle, held := x.held + 1 } := by
  refine ⟨awake, ok.woken, ?_, ok.once, ?_, ?_, ?_, ?_, ?_⟩
  · have counted := ok.brackets
    rw [calls] at counted
    simpa [pending] using counted
  · simpa [was] using ok.resumes
  · intro thread
    simp [isFiber] at thread
  · simp [walks, releases]
  · simp
  · simp [ownRelease]

variable {d : Nat} {wait : Bool}

theorem PartyOk.gaveUp
    (ok : PartyOk fiber pl x) (isFiber : fiber = true) (here : x.pc = .actDepth d wait)
    (after : pc = afterRelease wait ∨ ∃ w, pc = .handOver w wait) :
    PartyOk fiber pl { x with
      pc := pc
      held := x.held - 1
      opened := if wait then x.opened else x.opened.tail } := by
  have held := ok.holds (Or.inr (by simp [here, releases]))
  have counted := ok.brackets
  have fits := ok.fits
  have top := ok.top
  rw [here] at fits top
  simp only [here, pending, Nat.add_zero] at counted
  have calls : pending pc = if wait then 1 else 0 := by
    rcases after with rfl | ⟨w, rfl⟩ <;> cases wait <;> simp [pending, afterRelease]
  have notPark : pc ≠ .park := by
    rcases after with rfl | ⟨w, rfl⟩ <;> cases wait <;> simp [afterRelease]
  refine ⟨?_, ok.woken, ?_, ok.once, ?_, ?_, ?_, fun parks => absurd parks notPark, ?_⟩
  · cases wait with
    | false => rcases after with rfl | ⟨w, rfl⟩ <;> exact fits
    | true => rcases after with rfl | ⟨w, rfl⟩ <;> exact Or.inl fits
  · cases wait with
    | false =>
      obtain ⟨b, rest, shape, took⟩ := top rfl
      simp only [shape, List.countP_cons, took, if_true] at counted
      simp only [calls, shape, List.tail_cons, Bool.false_eq_true, if_false]
      omega
    | true =>
      simp only [calls, if_true]
      omega
  · simpa [here, notPark] using ok.resumes
  · intro thread
    simp [isFiber] at thread
  · rcases after with rfl | ⟨w, rfl⟩ <;> cases wait <;> simp [walks, releases, afterRelease]
  · rcases after with rfl | ⟨w, rfl⟩ <;> cases wait <;> simp [ownRelease, afterRelease]

section Kept
variable (inv : FiberInv isFiber place queue s)
include inv

theorem FiberInv.fiber_of_busy (busy : (s.party p).pc ≠ .idle) : isFiber p = true := by
  cases fiber : isFiber p with
  | true => rfl
  | false => exact absurd ((inv.parties p).outside fiber).1 busy

theorem FiberInv.fiber_of_held (held : 0 < (s.party p).held) : isFiber p = true := by
  cases fiber : isFiber p with
  | true => rfl
  | false =>
    have none := ((inv.parties p).outside fiber).2
    omega

theorem FiberInv.owner_of_held (held : 0 < (s.party p).held) : s.owner = some p := by
  by_contra other
  have none := inv.lock.others p other
  omega

theorem FiberInv.holder_unique {q : Nat}
    (heldP : 0 < (s.party p).held) (heldQ : 0 < (s.party q).held) : p = q := by
  have same := (inv.owner_of_held heldP).symm.trans (inv.owner_of_held heldQ)
  exact Option.some.inj same

theorem FiberInv.nobody_else_walks {q : Nat}
    (held : 0 < (s.party p).held) (other : q ≠ p) : walks (s.party q).pc = false := by
  cases walking : walks (s.party q).pc with
  | false => rfl
  | true =>
    have heldQ := (inv.parties q).holds (Or.inl walking)
    exact absurd (inv.holder_unique heldQ held) other

theorem FiberInv.still_of_idle
    (here : (s.party p).pc = .idle) (held : 0 < (s.party p).held) : s.condWaiters = queue := by
  refine inv.cond.still fun q => ?_
  by_cases mine : q = p
  · simp [mine, here, walks]
  · exact inv.nobody_else_walks held mine

def Onward (was now : Pc) : Prop :=
  Fits now = Fits was ∧ pending now = pending was ∧ walks now = walks was ∧
    releases now = releases was ∧ ownRelease now = ownRelease was ∧ handsTo now = handsTo was ∧
    walks was = false ∧ was ≠ .park ∧ now ≠ .park ∧ was ≠ .idle

variable {s' : Sys}

theorem onward_keeps {now : Pc} (onward : Onward (s.party p).pc now)
    (party : s'.party = update s.party p { s.party p with pc := now })
    (owner : s'.owner = s.owner) (depth : s'.depth = s.depth) (waiters : s'.waiters = s.waiters)
    (condWaiters : s'.condWaiters = s.condWaiters) (spin : MetaOk s') :
    FiberInv isFiber place queue s' := by
  obtain ⟨fits, calls, walk, release, own, hands, quiet, was, now, busy⟩ := onward
  have ok := inv.parties p
  have fiber := inv.fiber_of_busy busy
  refine ⟨?_, spin, ?_, ?_⟩
  · rw [party]
    refine parties_moved inv.parties (ok.goto fiber (fits ▸ ok.fits) calls was now ?_ ?_)
    · rw [walk, release]
      exact ok.holds
    · rw [own]
      exact ok.top
  · exact inv.lock.moved party (fun _ => rfl) owner depth waiters rfl (by simp [was, now]) hands
  · exact inv.cond.moved party (fun _ => Iff.rfl) condWaiters quiet (by rw [walk, quiet])

theorem spin_keeps {next : Pc} (free : s.metaHeld = false)
    (here : ((s.party p).pc = .spinAcquire ∧ next = .readOwner) ∨
      ∃ wait, (s.party p).pc = .spinRelease wait ∧ next = .readDepth wait) :
    FiberInv isFiber place queue { s.goto p next with metaHeld := true } := by
  refine onward_keeps inv ?_ rfl rfl rfl rfl rfl ?_
  · rcases here with ⟨h, rfl⟩ | ⟨wait, h, rfl⟩
    · rw [h]
      exact ⟨rfl, rfl, rfl, rfl, rfl, rfl, rfl, by simp, by simp, by simp⟩
    · rw [h]
      cases wait <;> exact ⟨rfl, rfl, rfl, rfl, rfl, rfl, rfl, by simp, by simp, by simp⟩
  · refine MetaOk.alone rfl (fun q _ => inv.spin.others_of_free free q) (fun _ => rfl) ?_
    rcases here with ⟨_, rfl⟩ | ⟨_, _, rfl⟩ <;> trivial

theorem read_keeps {next : Pc} (here : ((s.party p).pc = .readOwner ∧ next = .actOwner s.owner) ∨
      ∃ wait, (s.party p).pc = .readDepth wait ∧ next = .actDepth s.depth wait) :
    FiberInv isFiber place queue (s.goto p next) := by
  have inside : inMeta (s.party p).pc = true := by
    rcases here with ⟨h, _⟩ | ⟨_, h, _⟩ <;> simp [h, inMeta]
  refine onward_keeps inv ?_ rfl rfl rfl rfl rfl ?_
  · rcases here with ⟨h, rfl⟩ | ⟨wait, h, rfl⟩
    · rw [h]
      exact ⟨rfl, rfl, rfl, rfl, rfl, rfl, rfl, by simp, by simp, by simp⟩
    · rw [h]
      cases wait <;> exact ⟨rfl, rfl, rfl, rfl, rfl, rfl, rfl, by simp, by simp, by simp⟩
  · refine MetaOk.alone rfl (inv.spin.others_of_inside inside)
      (fun _ => inv.spin.taken p inside) ?_
    rcases here with ⟨_, rfl⟩ | ⟨_, _, rfl⟩ <;> rfl

theorem acquire_owned {o : Option Nat} {depth : Nat}
    (here : (s.party p).pc = .actOwner o) (mine : o = none ∨ o = some p)
    (counts : depth = (s.party p).held + 1) :
    FiberInv isFiber place queue
      { s.took p with owner := some p, depth := depth, metaHeld := false } := by
  have ok := inv.parties p
  have fiber := inv.fiber_of_busy (p := p) (by simp [here])
  have saw := inv.spin.saw p
  have fits := ok.fits
  rw [here] at saw fits
  refine ⟨parties_moved inv.parties ?_, ?_, ?_, inv.cond.moved rfl (fun _ => Iff.rfl) rfl ?_ ?_⟩
  · exact ok.took fiber (by simp [here, pending]) fits (by simp [here])
  · exact MetaOk.alone rfl (inv.spin.others_of_inside (by simp [here, inMeta]))
      (by simp [inMeta]) trivial
  · exact inv.lock.owned rfl (fun _ => rfl) (saw ▸ mine) rfl counts (Nat.succ_pos _) rfl (by simp)
      (by simp [here, handsTo])
  · simp [here, walks]
  · simp [walks]

theorem acquire_contended {o : Option Nat}
    (here : (s.party p).pc = .actOwner o) (taken : o ≠ none) (notMine : o ≠ some p) :
    FiberInv isFiber (update place p .lockQueue) queue
      { s.set p { s.party p with pc := .park, contended := (s.party p).contended + 1 } with
        waiters := p :: s.waiters, metaHeld := false } := by
  have ok := inv.parties p
  have fiber := inv.fiber_of_busy (p := p) (by simp [here])
  have saw : s.owner = o := by simpa [here, Saw] using inv.spin.saw p
  have awake : place p = .awake := by simpa [here, Fits] using ok.fits
  have held : (s.party p).held = 0 := inv.lock.others p (saw ▸ notMine)
  refine ⟨parties_placed inv.parties ?_, ?_, ?_, inv.cond.moved rfl ?_ rfl ?_ ?_⟩
  · refine ⟨by simp [Fits], ?_, ?_, ?_, ?_, ?_, ?_, fun _ => held, ?_⟩
    · simpa [awake] using ok.woken
    · simpa [here, pending] using ok.brackets
    · simpa [awake] using ok.once
    · simpa [here] using ok.resumes
    · intro thread
      simp [fiber] at thread
    · simp [walks, releases]
    · simp [ownRelease]
  · exact MetaOk.alone rfl (inv.spin.others_of_inside (by simp [here, inMeta]))
      (by simp [inMeta]) trivial
  · have outsider : p ∉ s.waiters := by
      rw [inv.lock.lockQueue, awake]
      simp
    refine ⟨fun q owned => ?_, fun q other => ?_, ?_, fun q parks => ?_, ?_, fun q => ?_,
      fun q w => ?_⟩
    · have notP : q ≠ p := fun same => notMine (saw ▸ same ▸ owned)
      simpa [Sys.set, notP] using inv.lock.total q owned
    · by_cases same : q = p
      · simpa [Sys.set, same] using held
      · simpa [Sys.set, same] using inv.lock.others q other
    · intro free
      exact absurd (saw ▸ free) taken
    · by_cases same : q = p
      · simpa [Sys.set, same, saw] using notMine
      · simpa [Sys.set, same] using inv.lock.parked q (by simpa [Sys.set, same] using parks)
    · exact List.nodup_cons.mpr ⟨outsider, inv.lock.queued⟩
    · by_cases same : q = p
      · simp [same]
      · simpa [same] using inv.lock.lockQueue q
    · have before := inv.lock.hands q w
      by_cases sameQ : q = p <;> by_cases sameW : w = p <;>
        simp_all [Sys.set, handsTo]
  · exact condQueue_update (by simp [awake])
  · simp [here, walks]
  · simp [walks]

theorem park_returns (here : (s.party p).pc = .park) (woken : (s.party p).unparks ≠ 0) :
    FiberInv isFiber (update place p .awake) queue
      (s.set p { s.party p with
        pc := .idle
        held := (s.party p).held + 1
        unparks := (s.party p).unparks - 1
        resumed := (s.party p).resumed + 1 }) := by
  have ok := inv.parties p
  have fiber := inv.fiber_of_busy (p := p) (by simp [here])
  have ready : place p = .ready := by
    by_contra other
    exact woken (by simpa [other] using ok.woken)
  have once : (s.party p).unparks = 1 := by simpa [ready] using ok.woken
  have owner : s.owner = some p := by
    by_contra other
    have waits := (inv.lock.parked p here).mp other
    simp [ready] at waits
  have depth := (inv.lock.total p owner).2
  simp only [here, if_true] at depth
  refine ⟨parties_placed inv.parties ?_, ?_, ?_, inv.cond.moved rfl ?_ rfl ?_ ?_⟩
  · refine ⟨by simp [Fits], by simp [once], ?_, ?_, ?_, ?_, ?_, ?_, ?_⟩
    · simpa [here, pending] using ok.brackets
    · simpa [ready] using ok.once
    · simpa [here, ready] using ok.resumes
    · intro thread
      simp [fiber] at thread
    · simp [walks, releases]
    · simp
    · simp [ownRelease]
  · exact inv.spin.moved rfl rfl rfl rfl (by simp [inMeta])
  · exact inv.lock.owned rfl (lockView_update (by simp [ready, lockView])) (Or.inr owner) owner
      depth (Nat.succ_pos _) rfl (by simp) (by simp [here, handsTo])
  · exact condQueue_update (by simp [ready])
  · simp [here, walks]
  · simp [walks]

theorem release_finds (here : (s.party p).pc = .actDepth d wait) :
    s.owner = some p ∧ d = (s.party p).held ∧ 0 < d := by
  have held := (inv.parties p).holds (Or.inr (by simp [here, releases]))
  have owner := inv.owner_of_held held
  have depth := (inv.lock.total p owner).2
  have saw : s.depth = d := by simpa [here, Saw] using inv.spin.saw p
  simp only [here, reduceCtorEq, if_false, Nat.add_zero] at depth
  exact ⟨owner, by omega, by omega⟩

theorem release_nested (here : (s.party p).pc = .actDepth d wait) (nested : 1 < d) :
    FiberInv isFiber place queue
      { s.gaveUp p wait (afterRelease wait) with depth := d - 1, metaHeld := false } := by
  obtain ⟨owner, depth, -⟩ := release_finds inv here
  have fiber := inv.fiber_of_busy (p := p) (by simp [here])
  refine ⟨parties_moved inv.parties ?_, ?_, ?_, inv.cond.moved rfl (fun _ => Iff.rfl) rfl ?_ ?_⟩
  · exact (inv.parties p).gaveUp fiber here (Or.inl rfl)
  · refine MetaOk.alone rfl (inv.spin.others_of_inside (by simp [here, inMeta])) ?_ ?_ <;>
      cases wait <;> simp [afterRelease, inMeta, Saw]
  · refine inv.lock.owned rfl (fun _ => rfl) (Or.inr owner) owner ?_ ?_ rfl ?_ ?_
    · exact congrArg (· - 1) depth
    · dsimp only
      omega
    · cases wait <;> simp [afterRelease]
    · cases wait <;> simp [here, handsTo, afterRelease]
  · simp [here, walks]
  · cases wait <;> simp [walks, afterRelease]

theorem release_last
    (here : (s.party p).pc = .actDepth d wait) (last : ¬ 1 < d) (nobody : s.waiters = []) :
    FiberInv isFiber place queue
      { s.gaveUp p wait (afterRelease wait) with
        owner := none, depth := 0, metaHeld := false } := by
  obtain ⟨owner, depth, -⟩ := release_finds inv here
  have fiber := inv.fiber_of_busy (p := p) (by simp [here])
  refine ⟨parties_moved inv.parties ?_, ?_, ?_, inv.cond.moved rfl (fun _ => Iff.rfl) rfl ?_ ?_⟩
  · exact (inv.parties p).gaveUp fiber here (Or.inl rfl)
  · refine MetaOk.alone rfl (inv.spin.others_of_inside (by simp [here, inMeta])) ?_ ?_ <;>
      cases wait <;> simp [afterRelease, inMeta, Saw]
  · have notOwner : ∀ q, q ≠ p → s.owner ≠ some q := by
      intro q other owned
      exact other (Option.some.inj (owned.symm.trans owner))
    refine ⟨fun q owned => ?_, fun q _ => ?_, fun _ => nobody, fun q parks => ?_,
      inv.lock.queued, inv.lock.lockQueue, fun q w => ?_⟩
    · cases owned
    · by_cases same : q = p
      · simp only [Sys.gaveUp, Sys.set, same, update_self]
        omega
      · simpa [Sys.gaveUp, Sys.set, same] using inv.lock.others q (notOwner q same)
    · by_cases same : q = p
      · cases wait <;> simp [Sys.gaveUp, Sys.set, same, afterRelease] at parks
      · have before := inv.lock.parked q (by simpa [Sys.gaveUp, Sys.set, same] using parks)
        simpa [notOwner q same] using before
    · rw [← inv.lock.hands q w]
      by_cases same : q = p
      · cases wait <;> simp [Sys.gaveUp, Sys.set, same, here, handsTo, afterRelease]
      · simp [Sys.gaveUp, Sys.set, same]
  · simp [here, walks]
  · cases wait <;> simp [walks, afterRelease]

theorem FiberInv.parked_of_place (known : lockView (place p) ≠ none) : (s.party p).pc = .park := by
  have fits := (inv.parties p).fits
  have away : place p ≠ .awake ∧ place p ≠ .condQueue ∧ place p ≠ .ready := by
    refine ⟨?_, ?_, ?_⟩ <;> intro same <;> simp [same, lockView] at known
  cases here : (s.party p).pc with
  | park => rfl
  | spinRelease wait | readDepth wait | actDepth d wait | handOver w wait =>
    rw [here] at fits
    cases wait <;> simp [Fits, away] at fits
  | _ =>
    rw [here] at fits
    simp [Fits, away] at fits

theorem release_handOver {w : Nat} {rest : List Nat} (here : (s.party p).pc = .actDepth d wait)
    (last : ¬ 1 < d) (first : s.waiters = w :: rest) :
    FiberInv isFiber (update place w (.handedBy p)) queue
      (let s' := s.gaveUp p wait (.handOver w wait)
       { s'.set w { s'.party w with handed := (s'.party w).handed + 1 } with
         waiters := rest, owner := some w, depth := 1, metaHeld := false }) := by
  obtain ⟨owner, depth, -⟩ := release_finds inv here
  have fiber := inv.fiber_of_busy (p := p) (by simp [here])
  have queued : place w = .lockQueue := (inv.lock.lockQueue w).mp (by simp [first])
  have parks := inv.parked_of_place (p := w) (by simp [queued, lockView])
  have other : w ≠ p := by
    intro same
    rw [same, here] at parks
    cases parks
  have ok := inv.parties w
  have distinct : w ∉ rest ∧ rest.Nodup := List.nodup_cons.mp (first ▸ inv.lock.queued)
  have same : (s.gaveUp p wait (.handOver w wait)).party w = s.party w := by
    simp [Sys.gaveUp, Sys.set, other]
  have notOwner : ∀ q, q ≠ p → s.owner ≠ some q := by
    intro q away owned
    exact away (Option.some.inj (owned.symm.trans owner))
  dsimp only
  rw [same]
  refine ⟨parties_placed (parties_moved inv.parties ?_) ?_, ?_, ?_, ?_⟩
  · exact (inv.parties p).gaveUp fiber here (Or.inr ⟨w, rfl⟩)
  · refine ⟨by simp [parks, Fits], ?_, ok.brackets, ?_, ?_, ok.outside, ok.holds, ok.parked, ok.top⟩
    · simpa [queued] using ok.woken
    · simpa [queued] using ok.once
    · simpa [queued, parks] using ok.resumes
  · have left : MetaOk { s.gaveUp p wait (.handOver w wait) with
        waiters := rest, owner := some w, depth := 1, metaHeld := false } :=
      MetaOk.alone rfl (inv.spin.others_of_inside (by simp [here, inMeta])) (by simp [inMeta])
        trivial
    exact left.moved rfl rfl rfl rfl (by simp [parks, inMeta])
  · refine ⟨fun q owned => ?_, fun q away => ?_, fun free => (by cases free),
      fun q parked => ?_, distinct.2, fun q => ?_, fun q v => ?_⟩
    · obtain rfl := Option.some.inj owned
      have none := inv.lock.others _ (notOwner _ other)
      simp [Sys.set, parks, none]
    · have notW : q ≠ w := fun h => away (by rw [h])
      by_cases mine : q = p
      · simp only [Sys.gaveUp, Sys.set, mine, update_self, ne_eq, Ne.symm other,
          not_false_eq_true, update_of_ne]
        omega
      · simpa [Sys.gaveUp, Sys.set, notW, mine] using inv.lock.others q (notOwner q mine)
    · by_cases isW : q = w
      · simp [isW]
      · by_cases mine : q = p
        · simp [Sys.gaveUp, Sys.set, mine, Ne.symm other] at parked
        · have before := inv.lock.parked q (by simpa [Sys.gaveUp, Sys.set, isW, mine] using parked)
          simp only [notOwner q mine, ne_eq, not_false_eq_true, true_iff] at before
          simp [isW, Ne.symm isW, before]
    · by_cases isW : q = w
      · simp [isW, distinct.1]
      · simpa [first, isW] using inv.lock.lockQueue q
    · have before := inv.lock.hands q v
      by_cases mine : q = p
      · have none := inv.lock.hands p v
        simp only [here, handsTo, reduceCtorEq, false_iff] at none
        by_cases isW : v = w
        · simp [Sys.gaveUp, Sys.set, mine, isW, Ne.symm other, handsTo]
        · simp [Sys.gaveUp, Sys.set, mine, isW, Ne.symm isW, Ne.symm other, handsTo, none]
      · have still : handsTo ((update ((s.gaveUp p wait (.handOver w wait)).party) w
            { s.party w with handed := (s.party w).handed + 1 }) q).pc =
              handsTo (s.party q).pc := by
          by_cases isW : q = w <;> simp [Sys.gaveUp, Sys.set, mine, isW]
        simp only [Sys.set]
        rw [still, before]
        by_cases isW : v = w
        · simp [isW, queued, Ne.symm mine]
        · simp [isW]
  · have left : CondOk place queue { s.gaveUp p wait (.handOver w wait) with
        waiters := rest, owner := some w, depth := 1, metaHeld := false } :=
      inv.cond.moved rfl (fun _ => Iff.rfl) rfl (by simp [here, walks]) (by simp [walks])
    refine left.moved rfl (condQueue_update (by simp [queued])) rfl ?_ ?_
    · dsimp only
      rw [same, parks]
      rfl
    · simp [parks, walks]

theorem handOver_keeps {w : Nat} (here : (s.party p).pc = .handOver w wait) :
    FiberInv isFiber (update place w .ready) queue
      (rtSchedUnpark (s.goto p (afterRelease wait)) w) := by
  have ok := inv.parties p
  have fiber := inv.fiber_of_busy (p := p) (by simp [here])
  have handed : place w = .handedBy p := (inv.lock.hands p w).mp (by simp [here, handsTo])
  have fits := ok.fits
  rw [here] at fits
  have other : w ≠ p := by
    intro same
    rw [same] at handed
    cases wait <;> simp [handed, Fits] at fits
  have same : (s.goto p (afterRelease wait)).party w = s.party w := by
    simp [Sys.goto, Sys.set, other]
  have okW := inv.parties w
  have parks := inv.parked_of_place (p := w) (by simp [handed, lockView])
  unfold rtSchedUnpark
  rw [same]
  refine ⟨parties_placed (parties_moved inv.parties ?_) ?_, ?_, ?_, ?_⟩
  · refine ok.goto fiber ?_ ?_ (by simp [here]) ?_ ?_ ?_ <;>
      cases wait <;> simp_all [afterRelease, Fits, pending, walks, releases, ownRelease]
  · refine ⟨by simp [parks, Fits], ?_, okW.brackets, ?_, ?_, okW.outside, okW.holds, okW.parked,
      okW.top⟩
    · simpa [handed] using okW.woken
    · simpa [handed] using okW.once
    · simpa [handed, parks] using okW.resumes
  · have left : MetaOk (s.goto p (afterRelease wait)) :=
      inv.spin.moved rfl rfl rfl rfl (by cases wait <;> simp [afterRelease, inMeta])
    exact left.moved rfl rfl rfl rfl (by simp [parks, inMeta])
  · have left : LockOk (update place w .ready) (s.goto p (afterRelease wait)) :=
      inv.lock.wokeUp rfl rfl rfl rfl rfl (by cases wait <;> simp [here, afterRelease])
        (by simp [here, handsTo]) (by cases wait <;> simp [handsTo, afterRelease]) rfl
    exact left.moved rfl (fun _ => rfl) rfl rfl rfl (by simp [same]) (by simp [same])
      (by simp [same])
  · have left : CondOk place queue (s.goto p (afterRelease wait)) :=
      inv.cond.moved rfl (fun _ => Iff.rfl) rfl (by simp [here, walks])
        (by cases wait <;> simp [walks, afterRelease])
    refine left.moved rfl (condQueue_update (by simp [handed])) rfl ?_ ?_
    · rw [same, parks]
      rfl
    · simp [parks, walks]

theorem parkCond_keeps (here : (s.party p).pc = .parkCond) (woken : (s.party p).unparks ≠ 0) :
    FiberInv isFiber (update place p .awake) queue
      (rtLockAcquire true isFiber
        (s.set p { s.party p with unparks := (s.party p).unparks - 1 }) p) := by
  have ok := inv.parties p
  have fiber := inv.fiber_of_busy (p := p) (by simp [here])
  have ready : place p = .ready := by
    by_contra other
    exact woken (by simpa [other] using ok.woken)
  have once : (s.party p).unparks = 1 := by simpa [ready] using ok.woken
  have state : rtLockAcquire true isFiber
      (s.set p { s.party p with unparks := (s.party p).unparks - 1 }) p =
      s.set p { s.party p with pc := .spinAcquire, unparks := 0 } := by
    simp [rtLockAcquire, fiber, Sys.goto, Sys.set, once]
  rw [state]
  refine ⟨parties_placed inv.parties ?_, ?_, ?_, inv.cond.moved rfl ?_ rfl ?_ ?_⟩
  · refine ⟨by simp [Fits], by simp, ?_, ?_, ?_, ?_, ?_, ?_, ?_⟩
    · simpa [here, pending] using ok.brackets
    · simpa [ready] using ok.once
    · simpa [here] using ok.resumes
    · intro thread
      simp [fiber] at thread
    · simp [walks, releases]
    · simp
    · simp [ownRelease]
  · exact inv.spin.moved rfl rfl rfl rfl (by simp [inMeta])
  · exact inv.lock.moved rfl (lockView_update (by simp [ready, lockView])) rfl rfl rfl rfl
      (by simp [here]) (by simp [here, handsTo])
  · exact condQueue_update (by simp [ready])
  · simp [here, walks]
  · simp [walks]

theorem walk_keeps {queue' condWaiters : List (Nat × Option Nat)} (held : 0 < (s.party p).held)
    (awake : place p = .awake) (was : (s.party p).pc = .idle ∨ walks (s.party p).pc = true)
    (now : pc = .idle ∨ walks pc = true) (same : queue'.map Prod.fst = queue.map Prod.fst)
    (walk : Walk queue' condWaiters pc) (still : pc = .idle → condWaiters = queue') :
    FiberInv isFiber place queue' { s.goto p pc with condWaiters := condWaiters } := by
  have fiber := inv.fiber_of_held held
  have quiet : ∀ y : Pc, y = .idle ∨ walks y = true →
      y ≠ .park ∧ pending y = 0 ∧ inMeta y = false ∧ handsTo y = none ∧ Fits y .awake ∧
        releases y = false ∧ ownRelease y = false := by
    intro y calm
    cases y <;> simp_all [walks, pending, inMeta, handsTo, Fits, releases, ownRelease]
  obtain ⟨notPark, calls, -, hands, -⟩ := quiet _ was
  obtain ⟨notParkNow, callsNow, outside, handsNow, fits, -, own⟩ := quiet _ now
  refine ⟨parties_moved inv.parties ?_, inv.spin.moved rfl rfl rfl rfl outside,
    inv.lock.moved rfl (fun _ => rfl) rfl rfl rfl rfl (by simp [notPark, notParkNow])
      (by simp [hands, handsNow]), ?_⟩
  · exact (inv.parties p).goto fiber (awake ▸ fits) (by rw [calls, callsNow]) notPark notParkNow
      (fun _ => held) (by simp [own])
  · refine CondOk.alone (p := p) (fun q other => ?_) (same ▸ inv.cond.nodup)
      (fun q => same ▸ inv.cond.queued q) ?_ ?_
    · simpa [Sys.goto, Sys.set, other] using inv.nobody_else_walks held other
    · simpa [Sys.goto, Sys.set] using walk
    · intro stopped
      refine still (now.resolve_right ?_)
      simpa [Sys.goto, Sys.set] using stopped

theorem walk_wakes {w : Nat × Option Nat} {queue' : List (Nat × Option Nat)}
    (was : walks (s.party p).pc = true)
    (now : walks pc = true) (perm : queue.Perm (w :: queue'))
    (walk : Walk queue' s.condWaiters pc) :
    FiberInv isFiber (update place w.1 .ready) queue'
      (rtSchedUnpark (s.goto p pc) w.1) := by
  have ok := inv.parties p
  have held := ok.holds (Or.inl was)
  have fiber := inv.fiber_of_held held
  have names := perm.map Prod.fst
  have distinct := names.nodup_iff.mp inv.cond.nodup
  simp only [List.map_cons, List.nodup_cons] at distinct
  have queued : place w.1 = .condQueue := (inv.cond.queued w.1).mp (names.mem_iff.mpr (by simp))
  have okW := inv.parties w.1
  have walking : ∀ y : Pc, walks y = true →
      y ≠ .park ∧ pending y = 0 ∧ inMeta y = false ∧ handsTo y = none ∧
        ownRelease y = false ∧ ∀ pl, Fits y pl ↔ pl = .awake := by
    intro y calm
    cases y <;> simp_all [walks, pending, inMeta, handsTo, Fits, ownRelease]
  obtain ⟨notPark, calls, -, hands, -, fits⟩ := walking _ was
  obtain ⟨notParkNow, callsNow, outside, handsNow, own, fitsNow⟩ := walking _ now
  have awake := (fits _).mp ok.fits
  have other : w.1 ≠ p := by
    intro mine
    rw [mine, awake] at queued
    cases queued
  have same : (s.goto p pc).party w.1 = s.party w.1 := by
    simp [Sys.goto, Sys.set, other]
  have notReleasing : releases (s.party w.1).pc = false := by
    cases releasing : releases (s.party w.1).pc with
    | false => rfl
    | true => exact absurd (inv.holder_unique (okW.holds (Or.inr releasing)) held) other
  have fitsW := okW.fits
  rw [queued] at fitsW
  have fitsReady : Fits (s.party w.1).pc .ready ∧ (s.party w.1).pc ≠ .park ∧
      inMeta (s.party w.1).pc = false := by
    cases here : (s.party w.1).pc with
    | handOver v wait => cases wait <;> simp_all [Fits, inMeta]
    | _ => simp_all [Fits, releases, inMeta]
  obtain ⟨fitsReady, notParkW, outsideW⟩ := fitsReady
  unfold rtSchedUnpark
  rw [same]
  refine ⟨parties_placed (parties_moved inv.parties ?_) ?_, ?_, ?_, ?_⟩
  · exact ok.goto fiber ((fitsNow _).mpr awake) (by rw [calls, callsNow]) notPark notParkNow
      (fun _ => held) (by simp [own])
  · refine ⟨fitsReady, ?_, okW.brackets, ?_, ?_, okW.outside, okW.holds, okW.parked, okW.top⟩
    · simpa [queued] using okW.woken
    · simpa [queued] using okW.once
    · simpa [notParkW] using okW.resumes
  · have left : MetaOk (s.goto p pc) := inv.spin.moved rfl rfl rfl rfl outside
    exact left.moved rfl rfl rfl rfl outsideW
  · have left : LockOk place (s.goto p pc) :=
      inv.lock.moved rfl (fun _ => rfl) rfl rfl rfl rfl (by simp [notPark, notParkNow])
        (by simp [hands, handsNow])
    exact left.moved rfl (lockView_update (by simp [queued, lockView])) rfl rfl rfl (by simp [same])
      (by simp [same]) (by simp [same])
  · have pcW : walks (s.party w.1).pc = false := inv.nobody_else_walks held other
    refine CondOk.alone (p := p) (fun q mine => ?_) distinct.2 (fun q => ?_) ?_ ?_
    · by_cases isW : q = w.1
      · simpa [Sys.goto, Sys.set, isW] using pcW
      · simpa [Sys.goto, Sys.set, isW, mine] using inv.nobody_else_walks held mine
    · by_cases isW : q = w.1
      · simpa [isW] using distinct.1
      · rw [update_of_ne isW, ← inv.cond.queued q, names.mem_iff]
        simp [isW]
    · simpa [Sys.goto, Sys.set, Ne.symm other] using walk
    · simp [Sys.goto, Sys.set, Ne.symm other, now]

theorem condWait_keeps (key : Option Nat)
    (here : (s.party p).pc = .idle) (held : 0 < (s.party p).held) :
    FiberInv isFiber (update place p .condQueue) ((p, key) :: queue)
      { s.goto p (.spinRelease true) with condWaiters := (p, key) :: s.condWaiters } := by
  have ok := inv.parties p
  have fiber := inv.fiber_of_held held
  have awake : place p = .awake := by simpa [here, Fits] using ok.fits
  have still := inv.still_of_idle here held
  refine ⟨parties_placed inv.parties ?_, ?_, ?_, ?_⟩
  · refine ⟨by simp [Fits], ?_, ?_, ?_, ?_, ?_, fun _ => held, by simp, by simp [ownRelease]⟩
    · simpa [awake] using ok.woken
    · simpa [here, pending] using ok.brackets
    · simpa [awake] using ok.once
    · simpa [here] using ok.resumes
    · intro thread
      simp [fiber] at thread
  · exact inv.spin.moved rfl rfl rfl rfl (by simp [inMeta])
  · exact inv.lock.moved rfl (lockView_update (by simp [awake, lockView])) rfl rfl rfl rfl
      (by simp [here]) (by simp [here, handsTo])
  · refine CondOk.alone (p := p) (fun q mine => ?_) ?_ (fun q => ?_) ?_ ?_
    · simpa [Sys.goto, Sys.set, mine] using inv.nobody_else_walks held mine
    · refine List.nodup_cons.mpr ⟨?_, inv.cond.nodup⟩
      rw [inv.cond.queued, awake]
      simp
    · by_cases mine : q = p
      · simp [mine]
      · simpa [mine] using inv.cond.queued q
    · simp [Sys.goto, Sys.set, Walk]
    · intro _
      rw [still]

theorem bracket_keeps (opened : List Bracket) (here : (s.party p).pc = .idle)
    (counts : opened.countP (·.took) = (s.party p).opened.countP (·.took)) :
    FiberInv isFiber place queue (s.set p { s.party p with opened := opened }) := by
  have ok := inv.parties p
  refine ⟨parties_moved inv.parties ?_, ?_, ?_, ?_⟩
  · refine ⟨ok.fits, ok.woken, counts ▸ ok.brackets, ok.once, ok.resumes, ok.outside, ok.holds,
      ok.parked, ?_⟩
    simp [here, ownRelease]
  · exact inv.spin.moved rfl rfl rfl rfl (by simp [here, inMeta])
  · exact inv.lock.moved rfl (fun _ => rfl) rfl rfl rfl rfl Iff.rfl rfl
  · exact inv.cond.moved rfl (fun _ => Iff.rfl) rfl (by simp [here, walks]) (by simp [here, walks])

theorem enter_keeps (cond : Bool) (here : (s.party p).pc = .idle) (fiber : isFiber p = true) :
    FiberInv isFiber place queue (s.set p
      { s.party p with pc := .spinAcquire, opened := ⟨cond, true⟩ :: (s.party p).opened }) := by
  have ok := inv.parties p
  refine ⟨parties_moved inv.parties ?_, ?_, ?_, ?_⟩
  · refine ⟨by simpa [here, Fits] using ok.fits, ok.woken, ?_, ok.once, ?_, ?_, ?_, by simp, ?_⟩
    · have counted := ok.brackets
      simp only [here, pending, Nat.add_zero] at counted
      simp [counted, pending]
    · simpa [here] using ok.resumes
    · intro thread
      simp [fiber] at thread
    · simp [walks, releases]
    · simp [ownRelease]
  · exact inv.spin.moved rfl rfl rfl rfl (by simp [inMeta])
  · exact inv.lock.moved rfl (fun _ => rfl) rfl rfl rfl rfl (by simp [here])
      (by simp [here, handsTo])
  · exact inv.cond.moved rfl (fun _ => Iff.rfl) rfl (by simp [here, walks]) (by simp [walks])

theorem leave_keeps {b : Bracket} {rest : List Bracket}
    (here : (s.party p).pc = .idle) (top : (s.party p).opened = b :: rest)
    (took : b.took = true) :
    FiberInv isFiber place queue (s.goto p (.spinRelease false)) := by
  have ok := inv.parties p
  have held := held_of_bracket ok.brackets here (top ▸ List.mem_cons_self) took
  refine ⟨parties_moved inv.parties ?_, ?_, ?_, ?_⟩
  · exact ok.goto (inv.fiber_of_held held) (by simpa [here, Fits] using ok.fits)
      (by simp [here, pending]) (by simp [here]) (by simp) (fun _ => held)
      (fun _ => ⟨b, rest, top, took⟩)
  · exact inv.spin.moved rfl rfl rfl rfl (by simp [inMeta])
  · exact inv.lock.moved rfl (fun _ => rfl) rfl rfl rfl rfl (by simp [here])
      (by simp [here, handsTo])
  · exact inv.cond.moved rfl (fun _ => Iff.rfl) rfl (by simp [here, walks]) (by simp [walks])

theorem FiberInv.walk_of_walking (walking : walks (s.party p).pc = true) :
    0 < (s.party p).held ∧ place p = .awake ∧ Walk queue s.condWaiters (s.party p).pc := by
  have fits := (inv.parties p).fits
  refine ⟨(inv.parties p).holds (Or.inl walking), ?_, inv.cond.walk p⟩
  cases here : (s.party p).pc <;> simp_all [walks, Fits]

theorem tick_keeps {recursive : Bool} (stepped : tick true recursive isFiber s p = some s') :
    ∃ place' queue', FiberInv isFiber place' queue' s' := by
  have fits := (inv.parties p).fits
  unfold tick at stepped
  split at stepped
  · cases stepped
  · rename_i here
    rw [here] at fits
    exact fits.elim
  · rename_i here
    rw [here] at fits
    exact fits.elim
  · rename_i here
    cases taken : s.metaHeld with
    | true =>
      simp only [taken, if_true] at stepped
      cases stepped
      exact ⟨place, queue, inv⟩
    | false =>
      simp only [taken] at stepped
      cases stepped
      exact ⟨place, queue, spin_keeps inv taken (Or.inl ⟨here, rfl⟩)⟩
  · rename_i here
    cases stepped
    exact ⟨place, queue, read_keeps inv (Or.inl ⟨here, rfl⟩)⟩
  · rename_i owner here
    cases stepped
    have saw : s.owner = owner := by simpa [here, Saw] using inv.spin.saw p
    unfold acquireActs
    split
    · rename_i free
      have none := inv.lock.others p (by simp [saw, free])
      exact ⟨place, queue, acquire_owned inv here (Or.inl free) (by rw [none])⟩
    · rename_i taken
      split
      · rename_i mine
        have depth := (inv.lock.total p (saw.trans mine)).2
        simp only [here, reduceCtorEq, if_false, Nat.add_zero] at depth
        have owned := acquire_owned inv here (Or.inr mine) (congrArg (· + 1) depth)
        have same : { s.took p with depth := s.depth + 1, metaHeld := false } =
            { s.took p with owner := some p, depth := s.depth + 1, metaHeld := false } := by
          rw [← mine, ← saw]
          rfl
        exact ⟨place, queue, same ▸ owned⟩
      · rename_i notMine
        exact ⟨_, _, acquire_contended inv here taken notMine⟩
  · rename_i here
    split at stepped
    · cases stepped
    · rename_i woken
      cases stepped
      exact ⟨_, _, park_returns inv here woken⟩
  · rename_i wait here
    cases taken : s.metaHeld with
    | true =>
      simp only [taken, if_true] at stepped
      cases stepped
      exact ⟨place, queue, inv⟩
    | false =>
      simp only [taken] at stepped
      cases stepped
      exact ⟨place, queue, spin_keeps inv taken (Or.inr ⟨wait, here, rfl⟩)⟩
  · rename_i wait here
    cases stepped
    exact ⟨place, queue, read_keeps inv (Or.inr ⟨wait, here, rfl⟩)⟩
  · rename_i depth wait here
    cases stepped
    unfold releaseActs
    split
    · rename_i nested
      exact ⟨place, queue, release_nested inv here nested⟩
    · rename_i last
      split
      · rename_i w rest first
        exact ⟨_, _, release_handOver inv here last first⟩
      · rename_i nobody
        exact ⟨place, queue, release_last inv here last nobody⟩
  · rename_i w wait here
    cases stepped
    exact ⟨_, _, handOver_keeps inv here⟩
  · rename_i here
    split at stepped
    · cases stepped
    · rename_i woken
      cases stepped
      exact ⟨_, _, parkCond_keeps inv here woken⟩
  · rename_i key keep here
    cases stepped
    obtain ⟨held, awake, walk⟩ := inv.walk_of_walking (p := p) (by simp [here, walks])
    simp only [here, Walk, List.append_nil] at walk
    exact ⟨place, queue, walk_keeps inv held awake (Or.inr (by simp [here, walks])) (Or.inl rfl) rfl
      trivial (fun _ => walk.symm)⟩
  · rename_i key w rest keep here
    cases stepped
    obtain ⟨held, awake, walk⟩ := inv.walk_of_walking (p := p) (by simp [here, walks])
    simp only [here, Walk] at walk
    split
    · exact ⟨_, _, walk_wakes inv (by simp [here, walks]) rfl
        (walk ▸ List.perm_middle) rfl⟩
    · exact ⟨place, queue, walk_keeps inv held awake (Or.inr (by simp [here, walks]))
        (Or.inr rfl) rfl (by simp [Walk, walk]) (by simp)⟩
  · rename_i here
    cases stepped
    obtain ⟨held, awake, walk⟩ := inv.walk_of_walking (p := p) (by simp [here, walks])
    simp only [here, Walk] at walk
    exact ⟨place, queue, walk_keeps inv held awake (Or.inr (by simp [here, walks])) (Or.inl rfl) rfl
      trivial (fun _ => walk.2.trans walk.1.symm)⟩
  · rename_i w rest here
    cases stepped
    obtain ⟨held, awake, walk⟩ := inv.walk_of_walking (p := p) (by simp [here, walks])
    simp only [here, Walk] at walk
    exact ⟨_, _, walk_wakes inv (by simp [here, walks]) rfl (walk.1 ▸ List.Perm.refl _)
      ⟨rfl, walk.2⟩⟩

theorem fiber_step {recursive : Bool} {e : Event}
    (begun : Begun s) (proper : Proper true isFiber s e)
    (stepped : step true recursive isFiber s e = some s') :
    ∃ place' queue', FiberInv isFiber place' queue' s' := by
  cases e with
  | enableThreads =>
    cases stepped
    exact ⟨place, queue, inv.parties, ⟨inv.spin.taken, inv.spin.one, inv.spin.saw⟩,
      ⟨inv.lock.total, inv.lock.others, inv.lock.waited, inv.lock.parked, inv.lock.queued,
        inv.lock.lockQueue, inv.lock.hands⟩,
      ⟨inv.cond.nodup, inv.cond.queued, inv.cond.walk, inv.cond.still⟩⟩
  | enter p cond =>
    obtain ⟨here, ⟨⟩⟩ := Option.ite_none_right_eq_some.mp stepped
    cases goes : reaches s cond with
    | false =>
      have kept := bracket_keeps inv (⟨cond, false⟩ :: (s.party p).opened) here (by simp)
      exact ⟨place, queue, by simpa [lockBegin, goes] using kept⟩
    | true =>
      have fiber := proper goes rfl
      have kept := enter_keeps inv cond here fiber
      refine ⟨place, queue, ?_⟩
      simpa [lockBegin, goes, rtLockAcquire, fiber, Sys.goto, Sys.set] using kept
  | leave p =>
    simp only [step] at stepped
    split at stepped
    · rename_i here
      split at stepped
      · cases stepped
      · rename_i b rest top
        cases stepped
        have fair : reaches s b.cond = true → b.took = true := proper b (by simp [top])
        cases goes : reaches s b.cond with
        | false =>
          have idle : b.took = false := not_took_of_idle begun (top ▸ List.mem_cons_self) goes
          have kept := bracket_keeps inv (s.party p).opened.tail here (by simp [top, idle])
          exact ⟨place, queue, by simpa [lockEnd, goes] using kept⟩
        | true =>
          refine ⟨place, queue, ?_⟩
          simpa [lockEnd, goes, rtLockRelease] using leave_keeps inv here top (fair goes)
    · cases stepped
  | condWait p key =>
    obtain ⟨here, ⟨⟩⟩ := Option.ite_none_right_eq_some.mp stepped
    have kept := condWait_keeps inv key here proper
    exact ⟨_, _, by simpa [rtCondWaitKey, inv.fiber_of_held proper] using kept⟩
  | signalKey p key =>
    obtain ⟨here, ⟨⟩⟩ := Option.ite_none_right_eq_some.mp stepped
    have kept : FiberInv isFiber place queue (s.goto p (.walking key s.condWaiters [])) :=
      walk_keeps inv proper (by simpa [here, Fits] using (inv.parties p).fits) (Or.inl here)
        (Or.inr rfl) rfl (inv.still_of_idle here proper).symm (by simp)
    exact ⟨place, queue, kept⟩
  | broadcast p =>
    obtain ⟨here, ⟨⟩⟩ := Option.ite_none_right_eq_some.mp stepped
    have kept : FiberInv isFiber place queue
        { s.goto p (.waking s.condWaiters) with condWaiters := [] } :=
      walk_keeps inv proper (by simpa [here, Fits] using (inv.parties p).fits) (Or.inl here)
        (Or.inr rfl) rfl ⟨(inv.still_of_idle here proper).symm, rfl⟩ (by simp)
    exact ⟨place, queue, kept⟩
  | tick p => exact tick_keeps inv stepped

end Kept

theorem step_released {fiberMode recursive : Bool} {e : Event} {s' : Sys}
    (counts : ∀ p, (s.party p).opened.countP (·.took) = (s.party p).held + pending (s.party p).pc)
    (proper : Proper fiberMode isFiber s e)
    (stepped : step fiberMode recursive isFiber s e = some s') : ReleasedByHolder s e := by
  cases e with
  | leave p =>
    intro b member goes
    simp only [step] at stepped
    split at stepped
    · rename_i here
      exact held_of_bracket (counts p) here (List.mem_of_mem_head? member) (proper b member goes)
    · cases stepped
  | condWait p key => exact proper
  | _ => trivial

theorem fiber_safe (inv : FiberInv isFiber place queue s) : Safe true s := by
  refine ⟨fun p q => inv.holder_unique, fun p held => ?_, fun p => ?_, inv.lock.queued,
    inv.lock.waited, fun p parks => ?_⟩
  · have owner := inv.owner_of_held held
    have depth := (inv.lock.total p owner).2
    have awake : (s.party p).pc ≠ .park := by
      intro parks
      have none := (inv.parties p).parked parks
      omega
    simp only [awake, if_false, Nat.add_zero] at depth
    exact ⟨owner, depth⟩
  · have once := (inv.parties p).once
    by_cases queued : place p = .lockQueue
    · rw [List.count_eq_one_of_mem inv.lock.queued ((inv.lock.lockQueue p).mpr queued)]
      simpa [queued] using once
    · rw [List.count_eq_zero_of_not_mem (fun member => queued ((inv.lock.lockQueue p).mp member))]
      simpa [queued] using once
  · have fits := (inv.parties p).fits
    have resumes := (inv.parties p).resumes
    have woken := (inv.parties p).woken
    have owned := inv.lock.parked p parks
    rw [parks] at fits
    cases here : place p with
    | awake | condQueue => simp [here, Fits] at fits
    | lockQueue => exact Or.inl ((inv.lock.lockQueue p).mpr here)
    | handedBy q =>
      have hands := (inv.lock.hands q p).mpr here
      refine Or.inr ⟨?_, by simpa [parks, here] using resumes, Or.inr ⟨q, ?_⟩⟩
      · simpa [here] using owned
      · cases pc : (s.party q).pc <;> simp_all [handsTo]
    | ready =>
      refine Or.inr ⟨?_, by simpa [parks, here] using resumes, Or.inl (by simpa [here] using woken)⟩
      simpa [here] using owned

end Steps

def isOs : Pc → Bool
  | .idle | .osLock | .osCondWait => true
  | _ => false

structure OsParty (x : Party) : Prop where
  os : isOs x.pc = true
  brackets : x.opened.countP (·.took) = x.held + pending x.pc
  never : x.contended = 0 ∧ x.handed = 0

structure OsInv (s : Sys) : Prop where
  parties : ∀ p, OsParty (s.party p)
  mine : ∀ p, 0 < (s.party p).held → s.os = some (p, (s.party p).held)
  word : ∀ p d, s.os = some (p, d) → (s.party p).held = d ∧ 0 < d
  nobody : s.waiters = []

theorem osInv_init : OsInv Sys.init := by
  refine ⟨fun p => ⟨rfl, rfl, rfl, rfl⟩, ?_, ?_, rfl⟩ <;> simp [Sys.init]

section OsSteps
variable {s s' : Sys} {p : Nat} {x : Party}

theorem OsInv.moved (inv : OsInv s) (party : s'.party = update s.party p x)
    (os : s'.os = s.os) (waiters : s'.waiters = s.waiters) (held : x.held = (s.party p).held)
    (ok : OsParty x) : OsInv s' := by
  refine ⟨fun q => ?_, fun q => ?_, fun q d => ?_, by rw [waiters, inv.nobody]⟩ <;>
    by_cases same : q = p
  · simpa [party, same] using ok
  · simpa [party, same] using inv.parties q
  · simpa [party, same, os, held] using inv.mine p
  · simpa [party, same, os] using inv.mine q
  · simpa [party, same, os, held] using inv.word p d
  · simpa [party, same, os] using inv.word q d

theorem OsInv.locked (inv : OsInv s) (party : s'.party = update s.party p x)
    (was : s.os = none ∨ ∃ d, s.os = some (p, d)) (waiters : s'.waiters = s.waiters)
    (os : s'.os = if x.held = 0 then none else some (p, x.held)) (ok : OsParty x) : OsInv s' := by
  have alone : ∀ q, q ≠ p → (s.party q).held = 0 := by
    intro q other
    by_contra some_held
    have word := inv.mine q (Nat.pos_of_ne_zero some_held)
    rcases was with free | ⟨d, mine⟩
    · rw [free] at word
      cases word
    · rw [mine] at word
      exact other (Prod.mk.inj (Option.some.inj word)).1.symm
  refine ⟨fun q => ?_, fun q => ?_, fun q d => ?_, by rw [waiters, inv.nobody]⟩ <;>
    by_cases same : q = p
  · simpa [party, same] using ok
  · simpa [party, same] using inv.parties q
  · intro held
    simp only [party, same, update_self] at held ⊢
    simp [os, Nat.ne_of_gt held]
  · intro held
    simp [party, same, alone q same] at held
  · intro word
    rw [os] at word
    split at word
    · cases word
    · obtain ⟨-, rfl⟩ := Prod.mk.inj (Option.some.inj word)
      simp only [party, same, update_self, true_and]
      omega
  · intro word
    rw [os] at word
    split at word
    · cases word
    · exact absurd (Prod.mk.inj (Option.some.inj word)).1.symm same

variable {recursive : Bool}

theorem OsInv.unlocked (inv : OsInv s) (held : 0 < (s.party p).held)
    (party : s'.party = update s.party p x) (less : x.held = (s.party p).held - 1)
    (os : s'.os = pliMutexUnlock recursive s.os p) (waiters : s'.waiters = s.waiters)
    (ok : OsParty x) : OsInv s' := by
  have mine := inv.mine p held
  refine inv.locked party (Or.inr ⟨_, mine⟩) waiters ?_ ok
  rw [os, mine, less]
  unfold pliMutexUnlock
  by_cases nested : 1 < (s.party p).held
  · have rest : (s.party p).held - 1 ≠ 0 := by omega
    simp [nested, rest]
  · have rest : (s.party p).held - 1 = 0 := by omega
    simp [nested, rest]

variable {isFiber : Nat → Bool}

theorem os_tick (inv : OsInv s)
    (stepped : tick false recursive isFiber s p = some s') : OsInv s' := by
  have ok := inv.parties p
  have kind := ok.os
  unfold tick at stepped
  split at stepped
  · cases stepped
  · rename_i here
    have counted := ok.brackets
    simp only [here, pending] at counted
    have took : OsParty { s.party p with pc := .idle, held := (s.party p).held + 1 } :=
      ⟨rfl, counted, ok.never⟩
    split at stepped
    · rename_i free
      cases stepped
      have none : (s.party p).held = 0 := by
        by_contra some_held
        have word := inv.mine p (Nat.pos_of_ne_zero some_held)
        rw [free] at word
        cases word
      exact inv.locked rfl (Or.inl free) rfl (by simp [none]) took
    · rename_i q d word
      split at stepped
      · rename_i again
        obtain ⟨rfl, -⟩ := again
        cases stepped
        have held := (inv.word q d word).1
        exact inv.locked rfl (Or.inr ⟨d, word⟩) rfl (by simp [held]) took
      · cases stepped
  · rename_i here
    cases stepped
    have counted := ok.brackets
    simp only [here, pending] at counted
    exact inv.moved rfl rfl rfl rfl ⟨rfl, counted, ok.never⟩
  all_goals
    rename_i here
    simp [here, isOs] at kind

theorem os_step {e : Event} (inv : OsInv s) (begun : Begun s) (proper : Proper false isFiber s e)
    (stepped : step false recursive isFiber s e = some s') : OsInv s' := by
  cases e with
  | enableThreads =>
    cases stepped
    exact ⟨inv.parties, inv.mine, inv.word, inv.nobody⟩
  | enter p cond =>
    obtain ⟨here, ⟨⟩⟩ := Option.ite_none_right_eq_some.mp stepped
    have ok := inv.parties p
    have counted := ok.brackets
    simp only [here, pending, Nat.add_zero] at counted
    cases goes : reaches s cond with
    | false =>
      have kept : OsInv (s.set p
          { s.party p with opened := ⟨cond, false⟩ :: (s.party p).opened }) :=
        inv.moved rfl rfl rfl rfl ⟨ok.os, by simp [here, pending, counted], ok.never⟩
      simpa [lockBegin, goes] using kept
    | true =>
      have kept : OsInv (s.set p
          { s.party p with pc := .osLock, opened := ⟨cond, true⟩ :: (s.party p).opened }) :=
        inv.moved rfl rfl rfl rfl ⟨rfl, by simp [pending, counted], ok.never⟩
      simpa [lockBegin, goes, rtLockAcquire, Sys.goto, Sys.set] using kept
  | leave p =>
    simp only [step] at stepped
    split at stepped
    · rename_i here
      split at stepped
      · cases stepped
      · rename_i b rest top
        cases stepped
        have ok := inv.parties p
        have counted := ok.brackets
        simp only [here, pending, Nat.add_zero, top, List.countP_cons] at counted
        cases goes : reaches s b.cond with
        | false =>
          have idle : b.took = false := not_took_of_idle begun (top ▸ List.mem_cons_self) goes
          simp only [idle, Bool.false_eq_true, if_false, Nat.add_zero] at counted
          have kept : OsInv (s.set p { s.party p with opened := (s.party p).opened.tail }) :=
            inv.moved rfl rfl rfl rfl ⟨ok.os, by simp [top, here, pending, counted], ok.never⟩
          simpa [lockEnd, goes] using kept
        | true =>
          have took := proper b (by simp [top]) goes
          have held := held_of_bracket ok.brackets here (top ▸ List.mem_cons_self) took
          simp only [took, if_true] at counted
          simp only [lockEnd, goes, rtLockRelease, if_true, Bool.not_false]
          refine inv.unlocked held rfl rfl rfl rfl ⟨rfl, ?_, ok.never⟩
          simp only [top, List.tail_cons, pending, Bool.false_eq_true, if_false]
          omega
    · cases stepped
  | condWait p key =>
    obtain ⟨here, ⟨⟩⟩ := Option.ite_none_right_eq_some.mp stepped
    have ok := inv.parties p
    have held : 0 < (s.party p).held := proper
    have counted := ok.brackets
    simp only [here, pending, Nat.add_zero] at counted
    simp only [rtCondWaitKey, Bool.not_false, Bool.true_or, if_true]
    refine inv.unlocked held rfl rfl rfl rfl ⟨rfl, ?_, ok.never⟩
    simp only [if_true, pending]
    omega
  | signalKey p key | broadcast p =>
    simp only [step] at stepped
    split at stepped
    · cases stepped
      exact inv
    · cases stepped
  | tick p => exact os_tick inv stepped

theorem os_safe (inv : OsInv s) : Safe false s := by
  refine ⟨fun p q heldP heldQ => ?_, fun p held => ?_, fun p => ?_, ?_, fun _ => inv.nobody,
    fun p parks => ?_⟩
  · have both := (inv.mine p heldP).symm.trans (inv.mine q heldQ)
    exact (Prod.mk.inj (Option.some.inj both)).1
  · exact inv.mine p held
  · simp [inv.nobody, (inv.parties p).never]
  · simp [inv.nobody]
  · have kind := (inv.parties p).os
    simp [parks, isOs] at kind

end OsSteps

def Inv (fiberMode : Bool) (isFiber : Nat → Bool) (s : Sys) : Prop :=
  Begun s ∧ if fiberMode then ∃ place queue, FiberInv isFiber place queue s else OsInv s

section Runs
variable {fiberMode recursive : Bool} {isFiber : Nat → Bool} {s s' : Sys} {e : Event}

theorem inv_init : Inv fiberMode isFiber Sys.init := by
  refine ⟨fun p b member => by simp [Sys.init] at member, ?_⟩
  cases fiberMode with
  | false => exact osInv_init
  | true => exact ⟨_, _, fiberInv_init isFiber⟩

section
variable (inv : Inv fiberMode isFiber s)
include inv

theorem inv_step (proper : Proper fiberMode isFiber s e)
    (stepped : step fiberMode recursive isFiber s e = some s') : Inv fiberMode isFiber s' := by
  obtain ⟨begun, words⟩ := inv
  refine ⟨step_begun begun stepped, ?_⟩
  cases fiberMode with
  | false => exact os_step words begun proper stepped
  | true =>
    obtain ⟨place, queue, words⟩ := words
    exact fiber_step words begun proper stepped

theorem inv_safe : Safe fiberMode s := by
  cases fiberMode with
  | false => exact os_safe inv.2
  | true =>
    obtain ⟨-, place, queue, words⟩ := inv
    exact fiber_safe words

theorem inv_released (proper : Proper fiberMode isFiber s e)
    (stepped : step fiberMode recursive isFiber s e = some s') : ReleasedByHolder s e := by
  cases fiberMode with
  | false => exact step_released (fun p => (inv.2.parties p).brackets) proper stepped
  | true =>
    obtain ⟨-, place, queue, words⟩ := inv
    exact step_released (fun p => (words.parties p).brackets) proper stepped

theorem inv_run {es : List Event}
    (proper : AllSteps (step fiberMode recursive isFiber) (Proper fiberMode isFiber) s es) :
    AllSteps (step fiberMode recursive isFiber)
      (fun mid e => ∀ after, step fiberMode recursive isFiber mid e = some after →
        ReleasedByHolder mid e ∧ Safe fiberMode after) s es := by
  induction es generalizing s with
  | nil => trivial
  | cons e es ih =>
    obtain ⟨first, rest⟩ := proper
    refine ⟨fun after stepped => ?_, fun mid stepped => ?_⟩
    · exact ⟨inv_released inv first stepped, inv_safe (inv_step inv first stepped)⟩
    · exact ih (inv_step inv first stepped) (rest mid stepped)

end

end Runs

/-- Fibers that take the lock, brackets not cut by the first spawn and conditions
    used by holders: the lock excludes, counts, hands over once and is given up by
    its holder alone, in every state of every run. -/
theorem lock_excludes (fiberMode recursive : Bool) (isFiber : Nat → Bool) (es : List Event)
    (proper : AllSteps (step fiberMode recursive isFiber) (Proper fiberMode isFiber)
      Sys.init es) :
    AllSteps (step fiberMode recursive isFiber)
      (fun s e => ∀ s', step fiberMode recursive isFiber s e = some s' →
        ReleasedByHolder s e ∧ Safe fiberMode s') Sys.init es :=
  inv_run inv_init proper

/-- Two fibers nest, contend and hand over; the second waits on the condition and
    the first, with the lock again, wakes it. -/
def contention : List Event :=
  [.enableThreads, .enter 0 true, .tick 0, .tick 0, .tick 0, .enter 0 true, .tick 0, .tick 0,
    .tick 0, .enter 1 true, .tick 1, .tick 1, .tick 1, .leave 0, .tick 0, .tick 0, .tick 0,
    .leave 0, .tick 0, .tick 0, .tick 0, .tick 0, .tick 1, .condWait 1 none, .tick 1, .tick 1,
    .tick 1, .enter 0 true, .tick 0, .tick 0, .tick 0, .signalKey 0 none, .tick 0, .tick 0,
    .leave 0, .tick 0, .tick 0, .tick 0, .tick 1, .tick 1, .tick 1, .tick 1]

theorem lock_excludes_contention :
    AllSteps (step true true fun _ => true)
      (fun s e => ∀ s', step true true (fun _ => true) s e = some s' →
        ReleasedByHolder s e ∧ Safe true s') Sys.init contention :=
  lock_excludes true true (fun _ => true) contention (by decide)

/-- Fiber 0 begins a statement before the first spawn and ends it after: it gives
    the lock of fiber 1 to fiber 2. -/
def lateSpawn : List Event :=
  [.enter 0 true, .enableThreads, .enter 1 true, .tick 1, .tick 1, .tick 1, .enter 2 true,
    .tick 2, .tick 2, .tick 2]

theorem two_holders :
    (∃ s, run (step true true fun _ => true) Sys.init lateSpawn = some s ∧
      ¬ ReleasedByHolder s (.leave 0) ∧
      (run (step true true fun _ => true) s
        [.leave 0, .tick 0, .tick 0, .tick 0, .tick 0, .tick 2]).map
          (fun s => ((s.party 1).held, (s.party 2).held)) = some (1, 1)) ∧
    (run (step true true (· == 0)) Sys.init
      [.enableThreads, .enter 0 true, .tick 0, .tick 0, .tick 0, .enter 1 true, .tick 1]).map
        (fun s => ((s.party 0).held, (s.party 1).held)) = some (1, 1) := by
  refine ⟨⟨_, rfl, ?_, ?_⟩, ?_⟩
  · intro holder
    have held : 0 < 0 := holder ⟨true, false⟩ rfl rfl
    omega
  · decide
  · decide

end PliRtLock
