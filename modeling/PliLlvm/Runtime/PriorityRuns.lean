import PliLlvm.Runtime.TaskPriority

/- What every step keeps of the priorities, where it is an orderly one, and from it what holds
   in every state of a run of orderly steps. -/
namespace PliTaskPriority
open Runs
open Function (update update_of_ne update_self)

def laying : Pc → Option Nat
  | .preparePriority _ _ f => some f
  | .prepareHandle _ _ f => some f
  | .spawnPriority _ _ f => some f
  | .spawnHandle _ _ f => some f
  | _ => none

def At (fibers : Bool) (s : Sys) (c : Nat) : Pc → Prop
  | .setLock _ rel abs => abs = rel + currentPriority fibers s c
  | .setStore t f _ => s.handle f = t ∧ (s.taken f → s.live f)
  | .readCurrent t pri => ∀ n, s.latest t = some (c, n) → pri = (s.entry t).priority
  | .preparePriority .. | .prepareHandle .. | .spawnPriority .. => fibers = true
  | .spawnHandle _ abs f => fibers = true ∧ s.prio f = abs
  | _ => True

structure Inv (fibers : Bool) (s : Sys) : Prop where
  latest : ∀ t c n, s.latest t = some (c, n) →
    s.live c = true ∧ t - 1 < s.cap ∧ (s.entry t).priority = n + currentPriority fibers s c
  calls : ∀ c, At fibers s c (s.pc c)
  idle : ∀ c, s.live c = false → s.pc c = .idle
  taken : ∀ f, s.live f = true → s.taken f = true
  laid : ∀ c f, laying (s.pc c) = some f → s.taken f = true ∧ s.live f = false
  one : ∀ c d f, laying (s.pc c) = some f → laying (s.pc d) = some f → c = d
  threads : fibers = false → ∀ f, s.handle f = 0
  value : ∀ t f, 1 ≤ t → s.live f = true → s.handle f = t →
    s.prio f = (s.entry t).priority ∨ ∃ c, bringing (s.pc c) t f (s.entry t).priority

theorem init_inv (fibers : Bool) : Inv fibers Sys.init where
  latest := by
    intro t c n held
    cases held
  calls := fun _ => trivial
  idle := fun _ _ => rfl
  taken := fun _ live => live
  laid := by
    intro c f laid
    cases laid
  one := by
    intro c d f laid
    cases laid
  threads := fun _ _ => rfl
  value := by
    intro t f named live held
    exact absurd held (by simp only [Sys.init]; omega)

section Steps
variable {fibers : Bool} {s s' : Sys} {c : Nat}

variable {id : Int} {granted : Bool}

theorem entryFor_some (found : entryFor s id granted = some s') :
    1 ≤ id ∧ ∃ cap, s' = { s with cap := cap } ∧ s.cap ≤ cap ∧ id - 1 < cap := by
  unfold entryFor at found
  split at found
  · cases found
  · rename_i positive
    refine ⟨by omega, ?_⟩
    split at found
    · rename_i room
      cases found
      exact ⟨s.cap, rfl, Int.le_refl _, room⟩
    · rename_i short
      split at found
      · simp only [Option.some.injEq] at found
        refine ⟨_, found.symm, ?_, ?_⟩
        · split
          · omega
          · split <;> omega
        · split
          · omega
          · omega
      · cases found

theorem At.frame {pc : Pc} (before : At fibers s c pc)
    (current : (∃ t rel abs, pc = .setLock t rel abs) →
      currentPriority fibers s' c = currentPriority fibers s c)
    (stores : ∀ t f abs, pc = .setStore t f abs → s.handle f = t → (s.taken f → s.live f) →
      s'.handle f = t ∧ (s'.taken f → s'.live f))
    (reads : ∀ t pri n, pc = .readCurrent t pri → s'.latest t = some (c, n) →
      s.latest t = some (c, n) ∧ (s'.entry t).priority = (s.entry t).priority)
    (ready : ∀ id abs f, pc = .spawnHandle id abs f → s'.prio f = s.prio f) :
    At fibers s' c pc := by
  cases pc with
  | setLock t rel abs =>
    simp only [At] at before ⊢
    rw [current ⟨t, rel, abs, rfl⟩, before]
  | setStore t f abs => exact stores t f abs rfl before.1 before.2
  | readCurrent t pri =>
    intro n held
    obtain ⟨old, same⟩ := reads t pri n rfl held
    rw [same, before n old]
  | spawnHandle id abs f => exact ⟨before.1, (ready id abs f rfl).trans before.2⟩
  | preparePriority | prepareHandle | spawnPriority => exact before
  | idle | setCheck | spawnLock | spawnGet | publish => trivial

variable {p : Pc}

theorem Inv.moved (inv : Inv fibers s) (pc : s'.pc = update s.pc c p) (running : s'.live c = true)
    (latest : ∀ t d n, s'.latest t = some (d, n) → s'.live d = true ∧ t - 1 < s'.cap ∧
      (s'.entry t).priority = n + currentPriority fibers s' d)
    (own : At fibers s' c p)
    (others : ∀ d, d ≠ c → At fibers s d (s.pc d) → At fibers s' d (s.pc d))
    (lives : ∀ f, s.live f = true → s'.live f = true)
    (taken : ∀ f, s'.live f = true → s'.taken f = true)
    (laying' : ∀ f, laying p = some f → s'.taken f = true ∧ s'.live f = false ∧
      ∀ d, d ≠ c → laying (s.pc d) ≠ some f)
    (laid : ∀ d f, d ≠ c → laying (s.pc d) = some f → s'.taken f = true ∧ s'.live f = false)
    (threads : fibers = false → ∀ f, s'.handle f = 0)
    (value : ∀ t f, 1 ≤ t → s'.live f = true → s'.handle f = t →
      s'.prio f = (s'.entry t).priority ∨
        ∃ d, bringing (s'.pc d) t f (s'.entry t).priority) : Inv fibers s' := by
  have mine : s'.pc c = p := by rw [pc, update_self]
  have same : ∀ d, d ≠ c → s'.pc d = s.pc d := by
    intro d other
    rw [pc, update_of_ne other]
  refine ⟨latest, fun d => ?_, fun d dead => ?_, taken, fun d f laid' => ?_,
    fun d e f first second => ?_, threads, value⟩
  · by_cases here : d = c
    · rw [here, mine]
      exact own
    · rw [same d here]
      exact others d here (inv.calls d)
  · have other : d ≠ c := by
      rintro rfl
      rw [running] at dead
      cases dead
    rw [same d other]
    refine inv.idle d (Bool.eq_false_iff.mpr fun live => ?_)
    rw [lives d live] at dead
    cases dead
  · by_cases here : d = c
    · rw [here, mine] at laid'
      obtain ⟨held, dead, -⟩ := laying' f laid'
      exact ⟨held, dead⟩
    · rw [same d here] at laid'
      exact laid d f here laid'
  · by_cases left : d = c <;> by_cases right : e = c
    · rw [left, right]
    · rw [left, mine] at first
      rw [same e right] at second
      exact absurd second ((laying' f first).2.2 e right)
    · rw [right, mine] at second
      rw [same d left] at first
      exact absurd first ((laying' f second).2.2 d left)
    · rw [same d left] at first
      rw [same e right] at second
      exact inv.one d e f first second

theorem Inv.goto (inv : Inv fibers s) (running : s.live c = true)
    (own : At fibers s c p) (same : laying p = none)
    (brings : ∀ t f a, bringing (s.pc c) t f a → s.handle f = t → bringing p t f a) :
    Inv fibers (s.goto c p) := by
  refine inv.moved rfl running inv.latest own (fun _ _ before => before) (fun _ live => live)
    inv.taken ?_ (fun d f _ => inv.laid d f) inv.threads fun t f positive live held => ?_
  · intro f laid
    rw [same] at laid
    cases laid
  · rcases inv.value t f positive live held with equal | ⟨d, coming⟩
    · exact .inl equal
    · refine .inr ⟨d, ?_⟩
      by_cases here : d = c
      · subst here
        simp only [Sys.goto, update_self]
        exact brings t f _ coming held
      · simp only [Sys.goto, update_of_ne here]
        exact coming

theorem Inv.grown {cap next : Int} (inv : Inv fibers s) (more : s.cap ≤ cap) :
    Inv fibers { s with cap := cap, next := next } := by
  refine ⟨fun t d n held => ?_, inv.calls, inv.idle, inv.taken, inv.laid, inv.one, inv.threads,
    inv.value⟩
  obtain ⟨live, room, equal⟩ := inv.latest t d n held
  exact ⟨live, Int.lt_of_lt_of_le room more, equal⟩

theorem Inv.complete (inv : Inv fibers s) (running : s.live c = true) (idle : s.pc c = .idle) :
    Inv fibers (complete s c) := by
  have lives : ∀ f, (PliTaskPriority.complete s c).live f = true → f ≠ c ∧ s.live f = true := by
    intro f live
    by_cases here : f = c
    · subst here
      simp [PliTaskPriority.complete] at live
    · refine ⟨here, ?_⟩
      simpa [PliTaskPriority.complete, here] using live
  have old : ∀ t d n, (PliTaskPriority.complete s c).latest t = some (d, n) →
      d ≠ c ∧ s.latest t = some (d, n) := by
    intro t d n held
    obtain ⟨held, other⟩ := Option.filter_eq_some_iff.mp held
    exact ⟨by simpa using other, held⟩
  refine ⟨fun t d n held => ?_, fun d => ?_, fun d dead => ?_, fun f live => ?_,
    fun d f laid => ?_, inv.one, inv.threads, fun t f positive live held => ?_⟩
  · obtain ⟨other, held⟩ := old t d n held
    obtain ⟨live, room, equal⟩ := inv.latest t d n held
    refine ⟨?_, room, equal⟩
    simpa [PliTaskPriority.complete, other] using live
  · refine (inv.calls d).frame (fun _ => rfl) (fun t f abs _ held live => ⟨held, ?_⟩)
      (fun t pri n _ held => ⟨(old t d n held).2, rfl⟩) fun _ _ _ _ => rfl
    by_cases here : f = c
    · subst here
      simp [PliTaskPriority.complete]
    · simpa [PliTaskPriority.complete, here] using live
  · by_cases here : d = c
    · rw [here]
      exact idle
    · refine inv.idle d ?_
      simpa [PliTaskPriority.complete, here] using dead
  · obtain ⟨other, live⟩ := lives f live
    simpa [PliTaskPriority.complete, other] using inv.taken f live
  · obtain ⟨held, dead⟩ := inv.laid d f laid
    have other : f ≠ c := by
      rintro rfl
      rw [running] at dead
      cases dead
    simpa [PliTaskPriority.complete, other] using And.intro held dead
  · obtain ⟨-, live⟩ := lives f live
    exact inv.value t f positive live held

variable {t : Int} {f : Nat}

theorem bringing_iff {pc : Pc} {t' : Int} {f' : Nat} {a a' : Word}
    (brings : bringing pc t f a) (brings' : bringing pc t' f' a') : t = t' ∧ f = f' ∧ a = a' := by
  rcases brings with rfl | rfl <;> rcases brings' with same | same <;> cases same <;>
    exact ⟨rfl, rfl, rfl⟩

variable {abs : Word}

section
variable (inv : Inv fibers s)
include inv

theorem recordSet_inv {rel : Word} (running : s.live c = true) (here : s.pc c = .setLock t rel abs)
    (room : (entryFor s t granted).isSome)
    (published : ∀ f, s.live f → s.handle f = t → (s.entry t).fiber = some f ∨ s.prio f = abs) :
    Inv fibers (recordSet s c t rel abs granted) := by
  obtain ⟨grown, found⟩ := Option.isSome_iff_exists.mp room
  obtain ⟨-, cap, rfl, more, inside⟩ := entryFor_some found
  have computed : abs = rel + currentPriority fibers s c := by
    have before := inv.calls c
    rw [here] at before
    exact before
  unfold recordSet
  rw [found]
  refine inv.moved rfl running (fun u d n held => ?_) ?_ (fun d other before => ?_)
    (fun _ live => live) inv.taken (fun f laid => ?_) (fun d f _ => inv.laid d f) inv.threads
    fun u f positive live held => ?_
  · by_cases this : u = t
    · subst this
      simp only [Sys.goto, update_self, Option.some.injEq, Prod.mk.injEq] at held
      obtain ⟨rfl, rfl⟩ := held
      simp only [Sys.goto, update_self]
      exact ⟨running, inside, computed⟩
    · simp only [Sys.goto, update_of_ne this] at held ⊢
      obtain ⟨live, old, equal⟩ := inv.latest u d n held
      exact ⟨live, by omega, equal⟩
  · cases (s.entry t).fiber <;> trivial
  · refine before.frame (fun _ => rfl) (fun _ _ _ _ held live => ⟨held, live⟩)
      (fun u pri n _ held => ?_) fun _ _ _ _ => rfl
    by_cases this : u = t
    · subst this
      simp only [Sys.goto, update_self, Option.some.injEq, Prod.mk.injEq] at held
      exact absurd held.1.symm other
    · simp only [Sys.goto, update_of_ne this] at held ⊢
      exact ⟨held, trivial⟩
  · cases fiber : (s.entry t).fiber <;> simp [fiber, laying] at laid
  · by_cases this : u = t
    · subst this
      simp only [Sys.goto, update_self]
      rcases published f live held with fiber | equal
      · exact .inr ⟨c, .inl (by simp only [update_self, fiber])⟩
      · exact .inl equal
    · simp only [Sys.goto, update_of_ne this]
      rcases inv.value u f positive live held with equal | ⟨d, coming⟩
      · exact .inl equal
      · have other : d ≠ c := by
          rintro rfl
          rw [here] at coming
          rcases coming with none | none <;> cases none
        exact .inr ⟨d, by simpa only [update_of_ne other] using coming⟩

theorem setCheck_inv (running : s.live c = true) (here : s.pc c = .setCheck t f abs)
    (settled : s.handle f = t → s.taken f → s.live f) :
    Inv fibers (s.goto c (if s.handle f = t then .setStore t f abs else .idle)) := by
  by_cases same : s.handle f = t
  · rw [if_pos same]
    refine inv.goto running ⟨same, settled same⟩ rfl fun u g a coming _ => ?_
    obtain ⟨rfl, rfl, rfl⟩ := bringing_iff (.inl here) coming
    exact .inr rfl
  · rw [if_neg same]
    refine inv.goto running trivial rfl fun u g a coming held => ?_
    obtain ⟨rfl, rfl, rfl⟩ := bringing_iff (.inl here) coming
    exact absurd held same

theorem setStore_inv (running : s.live c = true) (here : s.pc c = .setStore t f abs)
    (orderly : s.live f →
      (abs = (s.entry t).priority ∨ ∃ d, d ≠ c ∧ bringing (s.pc d) t f (s.entry t).priority) ∧
      (abs = s.prio f ∨
        (∀ u n, s.latest u ≠ some (f, n)) ∧ ∀ u rel a, s.pc f ≠ .setLock u rel a)) :
    Inv fibers ({ s with prio := update s.prio f abs }.goto c .idle) := by
  have before := inv.calls c
  rw [here] at before
  obtain ⟨held, settled⟩ := before
  -- A task that relies on its own priority keeps it.
  have keeps : ∀ d, s.live d = true →
      ((∃ u n, s.latest u = some (d, n)) ∨ ∃ u rel a, s.pc d = .setLock u rel a) →
      update s.prio f abs d = s.prio d := by
    intro d live relies
    by_cases own : d = f
    · subst own
      rw [update_self]
      rcases (orderly live).2 with equal | ⟨none, nor⟩
      · exact equal
      · rcases relies with ⟨u, n, latest⟩ | ⟨u, rel, a, inside⟩
        · exact absurd latest (none u n)
        · exact absurd inside (nor u rel a)
    · exact update_of_ne own _ _
  have current : ∀ d, update s.prio f abs d = s.prio d →
      currentPriority fibers ({ s with prio := update s.prio f abs }.goto c .idle) d =
        currentPriority fibers s d := by
    intro d same
    unfold currentPriority
    simp only [Sys.goto, same]
  refine inv.moved rfl running (fun u d n latest => ?_) trivial (fun d other before => ?_)
    (fun _ live => live) inv.taken (fun g laid => by cases laid) (fun d g _ => inv.laid d g)
    inv.threads fun u g positive live held' => ?_
  · obtain ⟨live, room, equal⟩ := inv.latest u d n latest
    rw [current d (keeps d live (.inl ⟨u, n, latest⟩))]
    exact ⟨live, room, equal⟩
  · refine before.frame (fun ⟨u, rel, a, inside⟩ => ?_) (fun _ _ _ _ held live => ⟨held, live⟩)
      (fun _ _ _ _ held => ⟨held, rfl⟩) fun id a g inside => ?_
    · have live : s.live d = true := by
        by_contra dead
        rw [inv.idle d (Bool.eq_false_iff.mpr dead)] at inside
        cases inside
      exact current d (keeps d live (.inr ⟨u, rel, a, inside⟩))
    · obtain ⟨taken, dead⟩ := inv.laid d g (by rw [inside]; rfl)
      refine update_of_ne ?_ _ _
      rintro rfl
      rw [settled taken] at dead
      cases dead
  · by_cases this : g = f
    · subst this
      obtain rfl : t = u := held.symm.trans held'
      simp only [Sys.goto, update_self]
      rcases (orderly live).1 with equal | ⟨d, other, coming⟩
      · exact .inl equal
      · exact .inr ⟨d, by rwa [update_of_ne other]⟩
    · simp only [Sys.goto, update_of_ne this]
      rcases inv.value u g positive live held' with equal | ⟨d, coming⟩
      · exact .inl equal
      · have other : d ≠ c := by
          rintro rfl
          obtain ⟨-, same, -⟩ := bringing_iff (.inr here) coming
          exact this same.symm
        exact .inr ⟨d, by rwa [update_of_ne other]⟩

theorem recordSpawn_inv (running : s.live c = true) (here : s.pc c = .spawnLock id abs)
    (unused : ∀ f, s.live f → s.handle f = id → s.prio f = abs) :
    Inv fibers (recordSpawn s c id abs granted) := by
  have apart : ∀ t f a, bringing (s.pc c) t f a → False := by
    rintro t f a (coming | coming) <;> rw [here] at coming <;> cases coming
  have relay : ∀ {t f a}, (∃ d, bringing (s.pc d) t f a) →
      ∃ d, bringing (update s.pc c (.spawnGet id abs) d) t f a := by
    rintro t f a ⟨d, coming⟩
    have other : d ≠ c := by
      rintro rfl
      exact apart t f a coming
    exact ⟨d, by rwa [update_of_ne other]⟩
  have read : ∀ d, At fibers s d (s.pc d) → ∀ u pri n, s.pc d = .readCurrent u pri →
      update s.latest id none u = some (d, n) →
      u ≠ id ∧ s.latest u = some (d, n) := by
    intro d _ u pri n _ latest
    by_cases this : u = id
    · rw [this, update_self] at latest
      cases latest
    · rw [update_of_ne this] at latest
      exact ⟨this, latest⟩
  unfold recordSpawn
  cases found : entryFor s id granted with
  | none =>
    refine inv.moved rfl running (fun u d n latest => ?_) trivial (fun d _ before => ?_)
      (fun _ live => live) inv.taken (fun f laid => by cases laid) (fun d f _ => inv.laid d f)
      inv.threads fun u f positive live held => (inv.value u f positive live held).imp_right relay
    · by_cases this : u = id
      · subst this
        simp [Sys.goto] at latest
      · simp only [Sys.goto, update_of_ne this] at latest
        exact inv.latest u d n latest
    · exact before.frame (fun _ => rfl) (fun _ _ _ _ held live => ⟨held, live⟩)
        (fun u pri n inside latest => ⟨(read d before u pri n inside latest).2, rfl⟩)
        fun _ _ _ _ => rfl
  | some grown =>
    obtain ⟨-, cap, rfl, more, inside⟩ := entryFor_some found
    refine inv.moved rfl running (fun u d n latest => ?_) trivial (fun d _ before => ?_)
      (fun _ live => live) inv.taken (fun f laid => by cases laid) (fun d f _ => inv.laid d f)
      inv.threads fun u f positive live held => ?_
    · by_cases this : u = id
      · subst this
        simp [Sys.goto] at latest
      · simp only [Sys.goto, update_of_ne this] at latest ⊢
        obtain ⟨live, old, equal⟩ := inv.latest u d n latest
        exact ⟨live, by omega, equal⟩
    · refine before.frame (fun _ => rfl) (fun _ _ _ _ held live => ⟨held, live⟩)
        (fun u pri n inside latest => ?_) fun _ _ _ _ => rfl
      obtain ⟨this, old⟩ := read d before u pri n inside latest
      refine ⟨old, ?_⟩
      simp only [Sys.goto, update_of_ne this]
    · by_cases this : u = id
      · subst this
        simp only [Sys.goto, update_self]
        exact .inl (unused f live held)
      · simp only [Sys.goto, update_of_ne this]
        exact (inv.value u f positive live held).imp_right relay

theorem lay_inv {prio : Nat → Word} {handle : Nat → Int}
    (running : s.live c = true) (here : laying (s.pc c) = some f) (next : laying p = some f)
    (prios : ∀ g, g ≠ f → prio g = s.prio g) (handles : ∀ g, g ≠ f → handle g = s.handle g)
    (threads : fibers = true)
    (own : At fibers ({ s with prio := prio, handle := handle }.goto c p) c p) :
    Inv fibers ({ s with prio := prio, handle := handle }.goto c p) := by
  obtain ⟨held, dead⟩ := inv.laid c f here
  have alive : ∀ d, s.live d = true → d ≠ f := by
    rintro d live rfl
    rw [dead] at live
    cases live
  have current : ∀ d, s.live d = true →
      currentPriority fibers ({ s with prio := prio, handle := handle }.goto c p) d =
        currentPriority fibers s d := by
    intro d live
    unfold currentPriority
    simp only [Sys.goto, prios d (alive d live)]
  refine inv.moved rfl running (fun t d n latest => ?_) own (fun d other before => ?_)
    (fun _ live => live) inv.taken (fun g laid => ?_) (fun d g _ => inv.laid d g) ?_
    fun t g positive live held' => ?_
  · obtain ⟨live, room, equal⟩ := inv.latest t d n latest
    rw [current d live]
    exact ⟨live, room, equal⟩
  · refine before.frame (fun ⟨u, rel, a, inside⟩ => current d ?_) (fun u g a inside same settled =>
      ?_)
      (fun _ _ _ _ latest => ⟨latest, rfl⟩) fun id a g inside => ?_
    · by_contra dead'
      rw [inv.idle d (Bool.eq_false_iff.mpr dead')] at inside
      cases inside
    · have away : g ≠ f := by
        rintro rfl
        rw [settled held] at dead
        cases dead
      exact ⟨(handles g away).trans same, settled⟩
    · refine prios g ?_
      rintro rfl
      exact other (inv.one d c g (by rw [inside]; rfl) here)
  · obtain rfl : f = g := Option.some.inj (next.symm.trans laid)
    exact ⟨held, dead, fun d other laid' => other (inv.one d c f laid' here)⟩
  · intro none
    rw [threads] at none
    cases none
  · have away := alive g live
    have same : s.handle g = t := (handles g away).symm.trans held'
    simp only [Sys.goto, prios g away]
    rcases inv.value t g positive live same with equal | ⟨d, coming⟩
    · exact .inl equal
    · have other : d ≠ c := by
        rintro rfl
        rcases coming with inside | inside <;> rw [inside] at here <;> cases here
      exact .inr ⟨d, by rwa [update_of_ne other]⟩

theorem spawnHandle_inv (running : s.live c = true) (here : s.pc c = .spawnHandle id abs f)
    (recorded : 0 < id → (s.entry id).priority = abs) :
    Inv fibers ({ s with
      handle := update s.handle f id
      live := update s.live f true }.goto c
        (if 0 < id then .publish id f else .idle)) := by
  have laid : laying (s.pc c) = some f := by
    rw [here]
    rfl
  obtain ⟨held, dead⟩ := inv.laid c f laid
  have before := inv.calls c
  rw [here] at before
  obtain ⟨threads, ready⟩ := before
  have lives : ∀ g, s.live g = true → update s.live f true g = true := by
    intro g live
    by_cases this : g = f
    · rw [this, update_self]
    · rwa [update_of_ne this]
  refine inv.moved rfl (lives c running) (fun t d n latest =>
    ?_) ?_ (fun d other before => ?_) lives
    (fun g live => ?_) (fun g laid' => ?_) (fun d g other laid' => ?_) ?_
    fun t g positive live held' => ?_
  · obtain ⟨live, room, equal⟩ := inv.latest t d n latest
    exact ⟨lives d live, room, equal⟩
  · split <;> trivial
  · refine before.frame (fun _ => rfl) (fun u g a inside same settled => ?_)
      (fun _ _ _ _ latest => ⟨latest, rfl⟩) fun _ _ _ _ => rfl
    have away : g ≠ f := by
      rintro rfl
      rw [settled held] at dead
      cases dead
    simp only [Sys.goto, update_of_ne away]
    exact ⟨same, settled⟩
  · by_cases this : g = f
    · rw [this]
      exact held
    · simp only [Sys.goto, update_of_ne this] at live
      exact inv.taken g live
  · split at laid' <;> cases laid'
  · have away : g ≠ f := by
      rintro rfl
      exact other (inv.one d c g laid' laid)
    simp only [Sys.goto, update_of_ne away]
    exact inv.laid d g laid'
  · intro none
    rw [threads] at none
    cases none
  · by_cases this : g = f
    · subst this
      simp only [Sys.goto, update_self] at held'
      subst held'
      left
      simp only [Sys.goto]
      rw [ready, recorded (by omega)]
    · simp only [Sys.goto, update_of_ne this] at live held' ⊢
      rcases inv.value t g positive live held' with equal | ⟨d, coming⟩
      · exact .inl equal
      · have other : d ≠ c := by
          rintro rfl
          rcases coming with inside | inside <;> rw [inside] at here <;> cases here
        exact .inr ⟨d, by rwa [update_of_ne other]⟩

theorem spawnGet_inv
    (running : s.live c = true) (here : s.pc c = .spawnGet id abs) (free : s.taken f = false)
    (quiet : ∀ d t a, s.pc d ≠ .setStore t f a) :
    Inv fibers (spawnGet fibers s c id abs f) := by
  have dead : s.live f = false := by
    by_contra live
    rw [inv.taken f (by simpa using live)] at free
    cases free
  have takes : ∀ g, s.taken g = true → update s.taken f true g = true := by
    intro g held
    by_cases this : g = f
    · rw [this, update_self]
    · rwa [update_of_ne this]
  have unlaid : ∀ d g, laying (s.pc d) = some g → g ≠ f := by
    rintro d g laid rfl
    rw [(inv.laid d g laid).1] at free
    cases free
  have relay : ∀ {t g a p}, (∃ d, bringing (s.pc d) t g a) →
      ∃ d, bringing (update s.pc c p d) t g a := by
    rintro t g a p ⟨d, coming⟩
    have other : d ≠ c := by
      rintro rfl
      rcases coming with inside | inside <;> rw [inside] at here <;> cases here
    exact ⟨d, by rwa [update_of_ne other]⟩
  unfold spawnGet
  by_cases mode : fibers = true
  · rw [if_pos mode]
    refine inv.moved rfl running inv.latest mode (fun d other before => ?_) (fun _ live => live)
      (fun g live => takes g (inv.taken g live)) (fun g laid => ?_) (fun d g other laid => ?_)
      inv.threads fun t g positive live held => (inv.value t g positive live held).imp_right relay
    · refine before.frame (fun _ => rfl) (fun u g a inside same settled => ⟨same, ?_⟩)
        (fun _ _ _ _ latest => ⟨latest, rfl⟩) fun _ _ _ _ => rfl
      have away : g ≠ f := by
        rintro rfl
        exact quiet d u a inside
      simpa only [Sys.goto, update_of_ne away] using settled
    · cases laid
      exact ⟨update_self .., dead, fun d _ laid => unlaid d f laid rfl⟩
    · obtain ⟨held, dead'⟩ := inv.laid d g laid
      exact ⟨takes g held, dead'⟩
  · rw [if_neg mode]
    have threads := inv.threads (Bool.eq_false_iff.mpr mode)
    have lives : ∀ g, s.live g = true → update s.live f true g = true := by
      intro g live
      by_cases this : g = f
      · rw [this, update_self]
      · rwa [update_of_ne this]
    refine inv.moved rfl (lives c running) (fun t d n latest =>
      ?_) trivial (fun d other before => ?_)
      lives (fun g live => ?_) (fun g laid => by cases laid) (fun d g other laid => ?_)
      inv.threads fun t g positive live held => ?_
    · obtain ⟨live, room, equal⟩ := inv.latest t d n latest
      exact ⟨lives d live, room, equal⟩
    · refine before.frame (fun _ => rfl) (fun u g a inside same settled => ⟨same, ?_⟩)
        (fun _ _ _ _ latest => ⟨latest, rfl⟩) fun _ _ _ _ => rfl
      have away : g ≠ f := by
        rintro rfl
        exact quiet d u a inside
      simpa only [Sys.goto, update_of_ne away] using settled
    · by_cases this : g = f
      · simp only [Sys.goto, this, update_self]
      · simp only [Sys.goto, update_of_ne this] at live
        exact takes g (inv.taken g live)
    · have away := unlaid d g laid
      simpa only [Sys.goto, update_of_ne away] using inv.laid d g laid
    · have none : s.handle g = t := held
      rw [threads g] at none
      omega

theorem publish_inv (running : s.live c = true) (here : s.pc c = .publish id f) :
    Inv fibers (publish s c id f granted) := by
  have apart : ∀ t g a, bringing (s.pc c) t g a → False := by
    rintro t g a (coming | coming) <;> rw [here] at coming <;> cases coming
  unfold publish
  cases found : entryFor s id granted with
  | none => exact inv.goto running trivial rfl fun t g a coming _ => (apart t g a coming).elim
  | some grown =>
    obtain ⟨-, cap, rfl, more, inside⟩ := entryFor_some found
    have priorities : ∀ t, (update s.entry id { s.entry id with fiber := some f } t).priority
        = (s.entry t).priority := by
      intro t
      by_cases this : t = id
      · rw [this, update_self]
      · rw [update_of_ne this]
    refine inv.moved rfl running (fun t d n latest => ?_) trivial (fun d other before => ?_)
      (fun _ live => live) inv.taken (fun g laid => by cases laid) (fun d g _ => inv.laid d g)
      inv.threads fun t g positive live held => ?_
    · obtain ⟨live, room, equal⟩ := inv.latest t d n latest
      refine ⟨live, Int.lt_of_lt_of_le room more, ?_⟩
      simp only [Sys.goto, priorities]
      exact equal
    · exact before.frame (fun _ => rfl) (fun _ _ _ _ same settled => ⟨same, settled⟩)
        (fun t _ _ _ latest => ⟨latest, priorities t⟩) fun _ _ _ _ => rfl
    · simp only [Sys.goto, priorities]
      rcases inv.value t g positive live held with equal | ⟨d, coming⟩
      · exact .inl equal
      · have other : d ≠ c := by
          rintro rfl
          exact apart _ _ _ coming
        exact .inr ⟨d, by rwa [update_of_ne other]⟩

end

theorem idle_brings {a : Word} (idle : s.pc c = .idle)
    (coming : bringing (s.pc c) t f a) : bringing p t f a := by
  rcases coming with inside | inside <;> rw [idle] at inside <;> cases inside

section
variable (inv : Inv fibers s)
include inv

theorem taskNote_inv : Inv fibers (taskNote s granted) := by
  unfold taskNote
  cases found : entryFor s s.next granted with
  | none => exact inv.grown (Int.le_refl _)
  | some grown =>
    obtain ⟨-, cap, rfl, more, -⟩ := entryFor_some found
    exact inv.grown more

theorem setPriorityOf_inv {rel : Word} (running : s.live c = true)
    (idle : s.pc c = .idle) : Inv fibers (setPriorityOf fibers s c t rel) := by
  unfold setPriorityOf
  split
  · exact inv
  · exact inv.goto running rfl rfl fun _ _ _ coming _ => idle_brings idle coming

theorem priorityOf_inv (running : s.live c = true)
    (idle : s.pc c = .idle) : Inv fibers (priorityOf s c t granted) := by
  unfold priorityOf
  split
  · exact inv
  · rename_i positive
    cases found : entryFor s t granted with
    | none =>
      refine inv.goto running (fun n latest => ?_) rfl fun _ _ _ coming _ => idle_brings idle coming
      have room := (inv.latest t c n latest).2.1
      unfold entryFor at found
      rw [if_neg positive, if_pos room] at found
      cases found
    | some grown =>
      obtain ⟨-, cap, rfl, more, -⟩ := entryFor_some found
      exact (inv.grown more).goto running (fun n latest => rfl) rfl
        fun _ _ _ coming _ => idle_brings idle coming

theorem taskSpawnP_inv {prio : Word} (running : s.live c = true)
    (idle : s.pc c = .idle) : Inv fibers (taskSpawnP fibers s c id prio) := by
  unfold taskSpawnP
  split
  · exact inv.goto running trivial rfl fun _ _ _ coming _ => idle_brings idle coming
  · exact inv.goto running trivial rfl fun _ _ _ coming _ => idle_brings idle coming

/-- An orderly step keeps the invariant. -/
theorem step_inv {e : Nat × Act} (orderly : Orderly s e)
    (stepped : step fibers s e = some s') : Inv fibers s' := by
  obtain ⟨c, act⟩ := e
  simp only [step] at stepped
  split at stepped
  · rename_i running
    simp only [Orderly] at orderly
    split at stepped
    · cases stepped
      exact taskNote_inv inv
    · rename_i idle
      cases stepped
      exact setPriorityOf_inv inv running idle
    · rename_i idle
      cases stepped
      exact priorityOf_inv inv running idle
    · rename_i idle
      cases stepped
      exact taskSpawnP_inv inv running idle
    · rename_i idle
      cases stepped
      exact inv.complete running idle
    · rename_i here
      cases stepped
      rw [here] at orderly
      exact recordSet_inv inv running here orderly.1 orderly.2
    · rename_i here
      cases stepped
      rw [here] at orderly
      exact setCheck_inv inv running here orderly
    · rename_i here
      cases stepped
      rw [here] at orderly
      exact setStore_inv inv running here orderly
    · rename_i here
      cases stepped
      refine inv.goto running trivial rfl fun _ _ _ coming _ => ?_
      rcases coming with inside | inside <;> rw [here] at inside <;> cases inside
    · rename_i here
      cases stepped
      rw [here] at orderly
      exact recordSpawn_inv inv running here orderly
    · rename_i here
      split at stepped
      · cases stepped
      · rename_i free
        cases stepped
        rw [here] at orderly
        exact spawnGet_inv inv running here (by simpa using free) orderly
    · rename_i id abs f _ here
      cases stepped
      have before := inv.calls c
      rw [here] at before
      exact lay_inv inv running (by rw [here]; rfl) rfl (fun g other => update_of_ne other _ _)
        (fun _ _ => rfl) before before
    · rename_i id abs f _ here
      cases stepped
      have before := inv.calls c
      rw [here] at before
      exact lay_inv inv running (by rw [here]; rfl) rfl (fun _ _ => rfl)
        (fun g other => update_of_ne other _ _) before before
    · rename_i id abs f _ here
      cases stepped
      have before := inv.calls c
      rw [here] at before
      exact lay_inv inv running (by rw [here]; rfl) rfl (fun g other => update_of_ne other _ _)
        (fun _ _ => rfl) before ⟨before, update_self ..⟩
    · rename_i here
      cases stepped
      rw [here] at orderly
      exact spawnHandle_inv inv running here orderly
    · rename_i here
      cases stepped
      exact publish_inv inv running here
    · cases stepped
  · cases stepped

theorem assigning_writes {act : Act}
    (within : assigning (s.pc c) = some t) (stepped : step fibers s (c, act) = some s') {f : Nat}
    (other : s.handle f ≠ t) : s'.prio f = s.prio f := by
  have same : ∀ {u : Int} {granted : Bool} {grown : Sys}, entryFor s u granted = some grown →
      grown.prio = s.prio := by
    intro u granted grown found
    obtain ⟨-, cap, rfl, -⟩ := entryFor_some found
    rfl
  simp only [step] at stepped
  split at stepped
  · cases place : s.pc c with
    | setLock u rel abs =>
      rw [place] at stepped
      cases act with
      | go granted =>
        cases stepped
        unfold recordSet
        cases found : entryFor s u granted with
        | none => rfl
        | some grown => exact congrFun (same found) f
      | note | set | read | spawn | complete | get => cases stepped
    | setCheck u g abs =>
      rw [place] at stepped
      cases act with
      | go granted =>
        cases stepped
        rfl
      | note | set | read | spawn | complete | get => cases stepped
    | setStore u g abs =>
      have held := inv.calls c
      rw [place] at stepped within held
      cases act with
      | go granted =>
        cases stepped
        cases within
        refine update_of_ne ?_ _ _
        rintro rfl
        exact other held.1
      | note | set | read | spawn | complete | get => cases stepped
    | idle | readCurrent | spawnLock | spawnGet | preparePriority | prepareHandle | spawnPriority
      | spawnHandle | publish =>
      rw [place] at within
      cases within
  · cases stepped

theorem Inv.sound : Sound fibers s where
  readsBack := by
    intro c t pri n here latest
    have read := inv.calls c
    rw [here] at read
    rw [answer, here]
    simp only [read n latest, (inv.latest t c n latest).2.2, BitVec.add_sub_cancel]
  recorded := by
    intro t positive none f live held
    rcases inv.value t f positive live held with equal | ⟨c, inside | inside⟩
    · exact equal
    · exact absurd (by rw [inside]; rfl) (none c)
    · exact absurd (by rw [inside]; rfl) (none c)
  others := fun c t act s' within stepped f _ other => assigning_writes inv within stepped other

end

end Steps

/-- In every run of orderly steps PRIORITY reads back what was set, a task's fiber has the
    recorded priority, and no assignment changes another task's, in every state reached. -/
theorem orderly_priorities (fibers : Bool) (es done rest : List (Nat × Act)) (s : Sys)
    (orderly : AllSteps (step fibers) Orderly Sys.init es) (split : es = done ++ rest)
    (reached : run (step fibers) Sys.init done = some s) : Sound fibers s := by
  subst split
  have keep : ∀ y e y', Inv fibers y → Orderly y e → step fibers y e = some y' → Inv fibers y' :=
    fun _ _ _ inv orderly stepped => step_inv inv orderly stepped
  have inv := run_invariant_where keep (init_inv fibers) (allSteps_append_iff.mp orderly).1 reached
  exact inv.sound

def attach (c f : Nat) (id : Int) (prio : Word) : List (Nat × Act) :=
  [(c, .spawn id prio), (c, .go true), (c, .get f), (c, .go true), (c, .go true), (c, .go true),
    (c, .go true)]

/-- A task sets its own priority to 5 and reads 0; a task's priority is set before its fiber is
    published, and the fiber keeps the old one; a task ends between an assignment's check and its
    store, and the task that has its fiber then has its priority changed. -/
theorem priorities_go_wrong :
    (∃ s, run (step true) Sys.init ((0, .note true) :: attach 0 1 1 3 ++
        [(0, .go true), (1, .set 1 5), (1, .go true), (1, .go true), (1, .go true),
          (1, .read 1 true)]) = some s ∧
      s.pc 1 = .readCurrent 1 8 ∧ s.latest 1 = some (1, 5) ∧ answer true s 1 = some 0) ∧
    (∃ s, run (step true) Sys.init ((0, .note true) :: attach 0 1 1 3 ++
        [(1, .set 1 5), (1, .go true), (0, .go true)]) = some s ∧
      (∀ c, assigning (s.pc c) = none) ∧ s.live 1 = true ∧ s.handle 1 = 1 ∧ s.prio 1 = 3 ∧
      (s.entry 1).priority = 8) ∧
    ∃ s, run (step true) Sys.init ((0, .note true) :: attach 0 1 1 3 ++
        (0, .go true) :: (0, .note true) :: attach 0 2 2 0 ++ [(0, .go true), (0, .set 1 7),
          (0, .go true), (0, .go true), (1, .complete), (2, .note true)] ++ attach 2 1 3 4)
        = some s ∧
      s.pc 0 = .setStore 1 1 7 ∧ s.live 1 = true ∧ s.handle 1 = 3 ∧
      s.prio 1 = 4 ∧ (step true s (0, .go true)).map (·.prio 1) = some 7 := by
  refine ⟨⟨_, rfl, rfl, rfl, rfl⟩, ⟨_, rfl, ?_, rfl, rfl, rfl, rfl⟩,
    ⟨_, rfl, rfl, rfl, rfl, rfl, rfl⟩⟩
  rintro (_ | _ | c) <;> rfl

/-- MAIN attaches a task, sets its priority to 7 and reads it. -/
theorem main_reads_seven : ∃ s, run (step true) Sys.init ((0, .note true) :: attach 0 1 1 3 ++
      [(0, .go true), (0, .set 1 7), (0, .go true), (0, .go true), (0, .go true),
        (0, .read 1 true)]) = some s ∧ answer true s 0 = some 7 := by
  refine ⟨_, rfl, ?_⟩
  refine (orderly_priorities true
    ((0, .note true) :: attach 0 1 1 3 ++ [(0, .go true), (0, .set 1 7), (0, .go true),
      (0, .go true), (0, .go true), (0, .read 1 true)]) _ [] _ ?_ (List.append_nil _).symm
    rfl).readsBack 0 1 7 7 rfl rfl
  refine (allSteps_cons_iff rfl).mpr ⟨trivial, ?_⟩
  refine (allSteps_cons_iff rfl).mpr ⟨trivial, ?_⟩
  refine (allSteps_cons_iff rfl).mpr ⟨?_, ?_⟩
  · rintro (_ | f) live held
    · cases held
    · cases live
  refine (allSteps_cons_iff rfl).mpr ⟨?_, ?_⟩
  · rintro (_ | d) t abs here
    · cases here
    · cases here
  refine (allSteps_cons_iff rfl).mpr ⟨trivial, ?_⟩
  refine (allSteps_cons_iff rfl).mpr ⟨trivial, ?_⟩
  refine (allSteps_cons_iff rfl).mpr ⟨trivial, ?_⟩
  refine (allSteps_cons_iff rfl).mpr ⟨fun _ => rfl, ?_⟩
  refine (allSteps_cons_iff rfl).mpr ⟨trivial, ?_⟩
  refine (allSteps_cons_iff rfl).mpr ⟨trivial, ?_⟩
  refine (allSteps_cons_iff rfl).mpr ⟨⟨rfl, ?_⟩, ?_⟩
  · rintro (_ | _ | f) live held
    · cases held
    · exact .inl rfl
    · cases live
  refine (allSteps_cons_iff rfl).mpr ⟨fun _ _ => rfl, ?_⟩
  refine (allSteps_cons_iff rfl).mpr ⟨fun _ => ⟨.inl rfl, .inr ⟨?_, ?_⟩⟩, ?_⟩
  · intro u n here
    change (Function.update (Function.update (fun _ => none) 1 none) 1 (some (0, 7)) :
      Int → Option (Nat × Word)) u = some (1, n) at here
    by_cases this : u = 1
    · rw [this, Function.update_self] at here
      cases here
    · rw [Function.update_of_ne this, Function.update_of_ne this] at here
      cases here
  · intro u rel a here
    cases here
  refine (allSteps_cons_iff rfl).mpr ⟨trivial, ?_⟩
  trivial

end PliTaskPriority
