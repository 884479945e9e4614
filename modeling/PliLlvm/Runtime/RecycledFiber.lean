import PliLlvm.Runtime.TaskLocalRuns

/- Every event of a program keeps the tasks' states coherent, and changes no task's units and
   generations but those of the task that calls. A task that is spawned on a fiber therefore
   answers as a new task with its attacher's units, whatever the fiber has been used for. -/
namespace PliTaskLocal
open Runs Blocks PliOnStack PliControlled
open Function (update update_of_ne update_self)

structure Changes (s s' : Sys) (t : Nat) : Prop where
  frame : Frame s s' (.inl t)
  locals : ∀ u, u ≠ t → s'.locals u = s.locals u
  calls : s'.calls = s.calls

/-- A task's units are `n`'s, and its generations are `n`'s in the buffers that it has. -/
structure Like (s : Sys) (t : Nat) (n : NewTask) (bufs : Nat → Nat) : Prop where
  live : (s.locals t).isSome
  on : ∃ on, viewOn s.mem (s.taskLocal t) = some on ∧ on.seen = n.on
  ctl : PliControlled.Holds (s.taskLocal t).ctl (placed bufs n.gens)
  numbered : Numbered bufs n.gens n.next

def unitsOf (s : Sys) (t : Nat) : List OnFrame :=
  (block s.mem (s.taskLocal t).onStack).take (s.taskLocal t).onSp

def generationsOf (s : Sys) (t : Nat) : Stacks := stacksOf (s.taskLocal t).ctl

variable {on : TaskOn}

theorem viewOn_some {mem : Nat → List OnFrame} {l : Local}
    (seen : viewOn mem l = some on) : block mem l.onStack = on.st.onStack ∧ l.onSp = on.st.onSp ∧
      l.onCap = on.st.onCap ∧ l.oncode = on.oncode ∧ l.onSource = on.onSource ∧
      l.finishFn = on.finishFn := by
  unfold viewOn at seen
  split at seen
  · cases seen
    exact ⟨rfl, rfl, rfl, rfl, rfl, rfl⟩
  · cases seen

theorem viewOn_of {mem : Nat → List OnFrame} {l : Local}
    (stack : block mem l.onStack = on.st.onStack) (sp : l.onSp = on.st.onSp)
    (cap : l.onCap = on.st.onCap) (oncode : l.oncode = on.oncode)
    (source : l.onSource = on.onSource) (finish : l.finishFn = on.finishFn) :
    viewOn mem l = some on := by
  obtain ⟨⟨stack', sp', cap', sized, room⟩, oncode', source', finish'⟩ := on
  dsimp only at stack sp cap oncode source finish
  have fits : (block mem l.onStack).length = l.onCap ∧ l.onSp ≤ l.onCap := by
    rw [stack, sp, cap]
    exact ⟨sized, room⟩
  unfold viewOn
  rw [dif_pos fits]
  subst stack sp cap oncode source finish
  rfl

theorem unitsOf_view {s : Sys} {t : Nat}
    (seen : viewOn s.mem (s.taskLocal t) = some on) : unitsOf s t = on.st.live := by
  obtain ⟨stack, sp, -⟩ := viewOn_some seen
  rw [unitsOf, stack, sp, OnState.live]

section Changes
variable {s s' : Sys} {t u : Nat}

theorem taskLocal_of (same : s'.locals u = s.locals u) : s'.taskLocal u = s.taskLocal u := by
  rw [Sys.taskLocal, same, Sys.taskLocal]

theorem Coherent.changes (coherent : Coherent s) (changes : Changes s s' t)
    (view : ∃ on, viewOn s'.mem (s'.taskLocal t) = some on)
    (ctl : ∃ st, PliControlled.Holds (s'.taskLocal t).ctl st) : Coherent s' := by
  refine ⟨coherent.apart.frame changes.frame, fun u => ?_, fun u p n given => ?_, fun u => ?_⟩
  · by_cases here : u = t
    · exact here ▸ view
    · rw [changes.frame.view coherent.apart (by simpa using here) (changes.locals u here)]
      exact coherent.view u
  · rw [changes.calls] at given
    rw [changes.frame.given coherent.apart (by simp) given]
    exact coherent.given u p n given
  · by_cases here : u = t
    · exact here ▸ ctl
    · rw [taskLocal_of (changes.locals u here)]
      exact coherent.ctl u

variable {n : NewTask} {bufs : Nat → Nat}

theorem Like.kept (like : Like s t n bufs) (same : s'.locals t = s.locals t)
    (view : viewOn s'.mem (s'.taskLocal t) = viewOn s.mem (s.taskLocal t)) : Like s' t n bufs := by
  refine ⟨same ▸ like.live, ?_, ?_, like.numbered⟩
  · rw [view]
    exact like.on
  · rw [taskLocal_of same]
    exact like.ctl

theorem Like.changes (like : Like s u n bufs)
    (apart : Apart s) (changes : Changes s s' t) (other : u ≠ t) : Like s' u n bufs :=
  like.kept (changes.locals u other)
    (changes.frame.view apart (by simpa using other) (changes.locals u other))

theorem Like.units (like : Like s t n bufs) : unitsOf s t = n.on.units := by
  obtain ⟨on, view, seen⟩ := like.on
  rw [unitsOf_view view, ← seen, TaskOn.seen]

theorem Like.generations (like : Like s t n bufs) : generationsOf s t = placed bufs n.gens := by
  obtain ⟨lost, -, piles⟩ := like.ctl
  exact piles

end Changes

section Calls
variable {junk : OnFrame} {s s' : Sys} {t : Nat} {granted moved : Bool} {answer : Answer}

@[simp] theorem taskLocal_put (locals : Nat → Option Local) (mem : Nat → List OnFrame) (next : Nat)
    (l : Local) (calls : Nat → Option (Option Nat × Nat)) :
    (⟨mem, next, update locals t (some l), calls⟩ : Sys).taskLocal t = l := by
  simp [Sys.taskLocal]

theorem put_changes {l : Local} {mem : Nat → List OnFrame} {next : Nat}
    (own : l.onStack = none ∨ l.onStack = (s.taskLocal t).onStack ∨
      l.onStack = some s.nextBlock ∧ next = s.nextBlock + 1)
    (kept : ∀ p, p < s.nextBlock → (s.taskLocal t).onStack ≠ some p → mem p = s.mem p)
    (grown : s.nextBlock ≤ next) :
    Changes s ⟨mem, next, update s.locals t (some l), s.calls⟩ t := by
  have locals : ∀ u, u ≠ t → update s.locals t (some l) u = s.locals u :=
    fun u other => update_of_ne other _ _
  refine ⟨⟨?_, ?_, kept, grown⟩, locals, rfl⟩
  · rintro (u | u) other
    · have different : u ≠ t := by simpa using other
      simp only [owns, Sys.taskLocal, locals u different]
    · rfl
  · simp only [owns, taskLocal_put]
    exact own

theorem store_spec (on : TaskOn) :
    Changes s (s.store t (s.taskLocal t) on moved) t ∧
      ((s.store t (s.taskLocal t) on moved).locals t).isSome ∧
      viewOn (s.store t (s.taskLocal t) on moved).mem
        ((s.store t (s.taskLocal t) on moved).taskLocal t) = some on ∧
      ((s.store t (s.taskLocal t) on moved).taskLocal t).ctl = (s.taskLocal t).ctl := by
  have elsewhere : ∀ (b : List OnFrame) p, p < s.nextBlock →
      update s.mem s.nextBlock b p = s.mem p :=
    fun b p old => update_of_ne (Nat.ne_of_lt old) _ _
  unfold Sys.store
  dsimp only
  cases held : (s.taskLocal t).onStack with
  | some p =>
    dsimp only
    by_cases moves : moved = true
    · rw [if_pos moves]
      refine ⟨put_changes (.inr (.inr ⟨rfl, rfl⟩)) (fun q old _ => elsewhere _ q old)
        (Nat.le_succ _), ?_, viewOn_of ?_ ?_ ?_ ?_ ?_ ?_, ?_⟩ <;> simp [block]
    · rw [if_neg moves]
      refine ⟨put_changes (.inr (.inl held.symm)) (fun q _ other => ?_) (Nat.le_refl _), ?_,
        viewOn_of ?_ ?_ ?_ ?_ ?_ ?_, ?_⟩
      · rw [held] at other
        exact update_of_ne (fun same => other (by rw [same])) _ _
      all_goals simp [block]
  | none =>
    dsimp only
    by_cases none' : on.st.onCap = 0
    · rw [if_pos none']
      have empty : on.st.onStack = [] := by
        rw [← List.length_eq_zero_iff, on.st.sized, none']
      refine ⟨put_changes (.inl rfl) (fun _ _ _ => rfl) (Nat.le_refl _), ?_,
        viewOn_of ?_ ?_ ?_ ?_ ?_ ?_, ?_⟩ <;> simp [block, empty]
    · rw [if_neg none']
      refine ⟨put_changes (.inr (.inr ⟨rfl, rfl⟩)) (fun q old _ => elsewhere _ q old)
        (Nat.le_succ _), ?_, viewOn_of ?_ ?_ ?_ ?_ ?_ ?_, ?_⟩ <;> simp [block]

theorem call_on {op : OnOp} (called : s.call junk t granted moved (.on op) = some (s', answer)) :
    ∃ on on' reply, viewOn s.mem (s.taskLocal t) = some on ∧
      onCall junk granted on op = some (on', reply) ∧ answer = .on reply ∧
      Changes s s' t ∧ (s'.locals t).isSome ∧ viewOn s'.mem (s'.taskLocal t) = some on' ∧
      (s'.taskLocal t).ctl = (s.taskLocal t).ctl := by
  obtain ⟨on, view, called⟩ := Option.bind_eq_some_iff.mp called
  obtain ⟨⟨on', reply⟩, done, same⟩ := Option.map_eq_some_iff.mp called
  cases same
  exact ⟨on, on', reply, view, done, rfl, store_spec on'⟩

theorem call_ctl {op : PliControlled.Op}
    (called : s.call junk t granted moved (.ctl op) = some (s', answer)) :
    ∃ ctl reply, perform (s.taskLocal t).ctl op = .ok (ctl, reply) ∧ answer = .ctl reply ∧
      Changes s s' t ∧ (s'.locals t).isSome ∧
      viewOn s'.mem (s'.taskLocal t) = viewOn s.mem (s.taskLocal t) ∧
      (s'.taskLocal t).ctl = ctl := by
  simp only [Sys.call] at called
  split at called
  · cases called
  · rename_i ctl reply performed
    cases called
    refine ⟨ctl, reply, performed, rfl,
      put_changes (.inr (.inl rfl)) (fun _ _ _ => rfl) (Nat.le_refl _), ?_, ?_, ?_⟩
    · simp
    · rw [taskLocal_put]
      rfl
    · rw [taskLocal_put]

theorem call_coherent {c : Call} (coherent : Coherent s)
    (called : s.call junk t granted moved c = some (s', answer)) :
    Changes s s' t ∧ (s'.locals t).isSome ∧ Coherent s' := by
  cases c with
  | on op =>
    obtain ⟨on, on', reply, -, -, -, changes, live, view, ctl⟩ := call_on called
    exact ⟨changes, live, coherent.changes changes ⟨on', view⟩ (ctl ▸ coherent.ctl t)⟩
  | ctl op =>
    obtain ⟨ctl, reply, performed, -, changes, live, view, held⟩ := call_ctl called
    obtain ⟨st, holds⟩ := coherent.ctl t
    obtain ⟨ctl', st', reply', performed', holds', -⟩ := perform_holds holds op
    cases performed.symm.trans performed'
    refine ⟨changes, live, coherent.changes changes ?_ ⟨st', held ▸ holds'⟩⟩
    rw [view]
    exact coherent.view t

theorem call_like {c : Call} {n : NewTask} {bufs : Nat → Nat} (like : Like s t n bufs)
    (called : s.call junk t granted moved c = some (s', answer)) :
    ∃ bufs', (∀ i, i < n.next → bufs' i = bufs i) ∧ n.next ≤ (newCall n c).1.next ∧
      answer = answerAt bufs' (newCall n c).2 ∧ Like s' t (newCall n c).1 bufs' := by
  obtain ⟨on, view, seen⟩ := like.on
  cases c with
  | on op =>
    obtain ⟨on₀, on', reply, view', done, rfl, -, live, after, ctl⟩ := call_on called
    cases view.symm.trans view'
    have answers := onCall_seen done
    rw [seen] at answers
    refine ⟨bufs, fun _ _ => rfl, Nat.le_refl _, ?_, live, ⟨on', after, ?_⟩, ?_, like.numbered⟩
    · simp only [newCall, answers, answerAt]
    · simp only [newCall, answers]
    · rw [ctl]
      exact like.ctl
  | ctl op =>
    obtain ⟨ctl, reply, performed, rfl, -, live, after, held⟩ := call_ctl called
    obtain ⟨ctl', st', reply', performed', holds, stepped⟩ := perform_holds like.ctl op
    cases performed.symm.trans performed'
    obtain ⟨bufs', old, rfl, rfl, later, numbered⟩ := genStep_numbered like.numbered stepped
    refine ⟨bufs', old, later, rfl, live, ⟨on, after.trans view, seen⟩, ?_, numbered⟩
    rw [held]
    exact holds

end Calls

section Tasks
variable (junk : OnFrame) {s s' : Sys} {a f t : Nat}

theorem copyUnits_spec (coherent : Coherent s) (a : Nat) : ∃ mem next p,
    s.copyUnits junk a =
      (⟨mem, next, s.locals, s.calls⟩, p, ((unitsOf s a).filter inherits).length) ∧
    block mem p = (unitsOf s a).filter inherits ∧
    (p = none ∨ p = some s.nextBlock ∧ next = s.nextBlock + 1) ∧
    (∀ q, q < s.nextBlock → mem q = s.mem q) ∧ s.nextBlock ≤ next := by
  obtain ⟨on, view⟩ := coherent.view a
  obtain ⟨stack, sp, -⟩ := viewOn_some view
  have bound : (s.taskLocal a).onSp ≤ (block s.mem (s.taskLocal a).onStack).length := by
    rw [stack, sp]
    exact live_bound on.st
  have counted : countWhere inherits (block s.mem (s.taskLocal a).onStack) 0
      (s.taskLocal a).onSp = ((unitsOf s a).filter inherits).length := by
    rw [countWhere_eq (by omega), List.drop_zero, unitsOf]
  unfold Sys.copyUnits
  dsimp only
  rw [counted]
  by_cases nothing : ((unitsOf s a).filter inherits).length = 0
  · refine ⟨s.mem, s.nextBlock, none, ?_, ?_, .inl rfl, fun _ _ => rfl, Nat.le_refl _⟩
    · rw [if_pos nothing, nothing]
    · exact (List.length_eq_zero_iff.mp nothing).symm
  · refine ⟨_, _, some s.nextBlock, if_neg nothing, ?_, .inr ⟨rfl, rfl⟩, fun q old => ?_,
      Nat.le_succ _⟩
    · rw [block, update_self, copied, copied_eq junk bound, unitsOf]
    · exact update_of_ne (Nat.ne_of_lt old) _ _

theorem newTask_like {l : Local} {units : List OnFrame} (bufs : Nat → Nat)
    (live : (s.locals t).isSome) (mine : s.taskLocal t = l)
    (stack : block s.mem l.onStack = units) (sp : l.onSp = units.length)
    (cap : l.onCap = units.length) (oncode : l.oncode = 0) (source : l.onSource = 0)
    (finish : l.finishFn = none) (ctl : PliControlled.Holds l.ctl fun _ => []) :
    Like s t (newTask units) bufs := by
  subst mine
  refine ⟨live, ⟨⟨⟨units, units.length, units.length, rfl, Nat.le_refl _⟩, 0, 0, none⟩,
    viewOn_of stack sp cap oncode source finish, ?_⟩, ctl, ?_, ?_⟩
  · simp [TaskOn.seen, newTask, OnState.live]
  · intro key g inside
    cases inside
  · intro key key' g inside
    cases inside

theorem spawn_like (coherent : Coherent s) (a f : Nat) (bufs : Nat → Nat) :
    Changes s (s.spawn junk a f) f ∧
      Like (s.spawn junk a f) f (newTask ((unitsOf s a).filter inherits)) bufs := by
  obtain ⟨mem, next, p, copying, stack, fresh, kept, grown⟩ :=
    copyUnits_spec junk coherent a
  have prepared : ∀ l, l = ((s.locals f).map rtFiberPrepare).getD Local.zero →
      l.oncode = 0 ∧ l.onSource = 0 ∧ l.finishFn = none ∧
        PliControlled.Holds l.ctl fun _ => [] := by
    rintro l rfl
    cases used : s.locals f with
    | none => exact ⟨rfl, rfl, rfl, start_holds⟩
    | some old =>
      obtain ⟨st, holds⟩ := coherent.ctl f
      rw [Sys.taskLocal, used] at holds
      exact ⟨rfl, rfl, rfl, emptied_holds holds⟩
  obtain ⟨oncode, source, finish, ctl⟩ := prepared _ rfl
  unfold Sys.spawn
  rw [copying]
  refine ⟨put_changes (fresh.imp_right .inr) (fun q old _ => kept q old) grown, ?_⟩
  exact newTask_like bufs (by simp) (taskLocal_put ..) stack rfl rfl oncode source finish ctl

theorem Like.coherent {n : NewTask} {bufs : Nat → Nat} (like : Like s' t n bufs)
    (coherent : Coherent s) (changes : Changes s s' t) : Coherent s' := by
  obtain ⟨on, view, -⟩ := like.on
  exact coherent.changes changes ⟨on, view⟩ ⟨_, like.ctl⟩

def Given (s : Sys) (t : Nat) (units : List OnFrame) : Prop :=
  ∃ p, s.calls t = some (p, units.length) ∧ block s.mem p = units

theorem osSpawn_given (coherent : Coherent s) (a t : Nat) :
    Frame s (s.osSpawn junk a t) (.inr t) ∧ (s.osSpawn junk a t).locals = s.locals ∧
      (∀ u, u ≠ t → (s.osSpawn junk a t).calls u = s.calls u) ∧
      Given (s.osSpawn junk a t) t ((unitsOf s a).filter inherits) := by
  obtain ⟨mem, next, p, copying, stack, fresh, kept, grown⟩ :=
    copyUnits_spec junk coherent a
  have others : ∀ u, u ≠ t →
      update s.calls t (some (p, ((unitsOf s a).filter inherits).length)) u =
        s.calls u :=
    fun u other => update_of_ne other _ _
  unfold Sys.osSpawn
  rw [copying]
  refine ⟨⟨?_, ?_, fun q old _ => kept q old, grown⟩, rfl, others, p, ?_, stack⟩
  · rintro (u | u) other
    · rfl
    · have different : u ≠ t := by simpa using other
      simp only [owns, others u different]
  · simp only [owns, update_self, Option.bind_some]
    exact fresh.imp_right .inr
  · exact update_self ..

theorem osSpawn_coherent (coherent : Coherent s) (a t : Nat) :
    Coherent (s.osSpawn junk a t) := by
  obtain ⟨frame, locals, calls, p, mine, stack⟩ := osSpawn_given junk coherent a t
  refine ⟨coherent.apart.frame frame, fun u => ?_, fun u q n given => ?_, fun u => ?_⟩
  · rw [frame.view coherent.apart (by simp) (congrFun locals u)]
    exact coherent.view u
  · by_cases here : u = t
    · subst here
      rw [mine] at given
      cases given
      rw [stack]
    · rw [calls u here] at given
      rw [frame.given coherent.apart (by simpa using here) given]
      exact coherent.given u q n given
  · rw [taskLocal_of (congrFun locals u)]
    exact coherent.ctl u

theorem osThread_like {p : Option Nat} {units : List OnFrame} (bufs : Nat → Nat)
    (stack : block s.mem p = units) :
    Like (s.osThread t p units.length) t (newTask units) bufs := by
  unfold Sys.osThread
  by_cases some : units.length ≠ 0
  · rw [if_pos some]
    exact newTask_like bufs (by simp) (taskLocal_put ..) stack rfl rfl rfl rfl rfl start_holds
  · have nothing : units = [] := by simpa using some
    subst nothing
    exact newTask_like bufs (by simp) (taskLocal_put ..) rfl rfl rfl rfl rfl rfl start_holds

theorem osThread_coherent {p : Option Nat} {n : Nat} (coherent : Coherent s)
    (new : s.locals t = none) (given : s.calls t = some (p, n)) :
    Coherent (s.osThread t p n) := by
  have locals : ∀ u, u ≠ t → (s.osThread t p n).locals u = s.locals u :=
    fun u other => update_of_ne other _ _
  have calls : ∀ u, u ≠ t → (s.osThread t p n).calls u = s.calls u :=
    fun u other => update_of_ne other _ _
  have length := coherent.given t p n given
  obtain ⟨on, view, -⟩ := (osThread_like (s := s) (t :=
    t) (fun i => i) (rfl : block s.mem p = _)).on
  rw [length] at view
  -- The thread's block passes from its pli_os_call to its state.
  have before : ∀ x q, owns (s.osThread t p n) x = some q →
      x ≠ .inr t ∧ owns s (if x = .inl t then .inr t else x) = some q := by
    rintro (u | u) q held
    · by_cases here : u = t
      · subst here
        refine ⟨by simp, ?_⟩
        rw [if_pos rfl, owns, given]
        simp only [owns, Sys.osThread, taskLocal_put] at held
        split at held
        · exact held
        · cases held
      · refine ⟨by simp, ?_⟩
        rw [if_neg (by simpa using here)]
        simpa only [owns, taskLocal_of (locals u here)] using held
    · by_cases here : u = t
      · subst here
        simp only [owns, Sys.osThread, update_self, Option.bind_none] at held
        cases held
      · refine ⟨by simpa using here, ?_⟩
        rw [if_neg (by simp)]
        simpa only [owns, calls u here] using held
  refine ⟨⟨fun x y q first second => ?_, fun x q held => ?_⟩, fun u => ?_, fun u q m held => ?_,
    fun u => ?_⟩
  · obtain ⟨notCall, old⟩ := before x q first
    obtain ⟨notCall', old'⟩ := before y q second
    have same := coherent.apart.once _ _ q old old'
    by_cases left : x = .inl t <;> by_cases right : y = .inl t
    · rw [left, right]
    · rw [if_pos left, if_neg right] at same
      exact absurd same.symm notCall'
    · rw [if_neg left, if_pos right] at same
      exact absurd same notCall
    · rwa [if_neg left, if_neg right] at same
  · exact coherent.apart.old _ q (before x q held).2
  · by_cases here : u = t
    · rw [here]
      exact ⟨on, view⟩
    · rw [taskLocal_of (locals u here)]
      exact coherent.view u
  · by_cases here : u = t
    · subst here
      simp [Sys.osThread] at held
    · rw [calls u here] at held
      exact coherent.given u q m held
  · by_cases here : u = t
    · subst here
      refine ⟨fun _ => [], ?_⟩
      rw [Sys.osThread, taskLocal_put]
      split <;> exact start_holds
    · rw [taskLocal_of (locals u here)]
      exact coherent.ctl u

end Tasks

def callOf (t : Nat) : Event → Option Call
  | .call u c _ _ => if u = t then some c else none
  | _ => none

def callsOf (t : Nat) (es : List Event) : List Call := es.filterMap (callOf t)

def answersOf (t : Nat) (log : List (Nat × Answer)) : List Answer :=
  log.filterMap fun (u, answer) => if u = t then some answer else none

def Begins (a t : Nat) (start : List Event) : Prop :=
  start = [.spawn a t] ∨ ∃ between, start = .osSpawn a t :: between ++ [.osThread t]

section Steps
variable {junk : OnFrame} {x x' : Sys × List (Nat × Answer)} {e : Event} {t : Nat} {n : NewTask}
  {bufs : Nat → Nat} {units : List OnFrame}

theorem step_coherent (coherent : Coherent x.1) (stepped : step junk x e = some x') :
    Coherent x'.1 := by
  cases e with
  | call u c granted moved =>
    obtain ⟨⟨s', answer⟩, called, rfl⟩ := Option.map_eq_some_iff.mp stepped
    exact (call_coherent coherent called).2.2
  | spawn a f =>
    obtain ⟨-, same⟩ := Option.ite_none_right_eq_some.mp stepped
    cases same
    obtain ⟨changes, like⟩ := spawn_like junk coherent a f fun i => i
    exact like.coherent coherent changes
  | osSpawn a u =>
    obtain ⟨-, same⟩ := Option.ite_none_right_eq_some.mp stepped
    cases same
    exact osSpawn_coherent junk coherent a u
  | osThread u =>
    simp only [step] at stepped
    split at stepped
    · rename_i p m new given
      cases stepped
      exact osThread_coherent coherent new given
    · cases stepped

theorem step_other (coherent : Coherent x.1) (like : Like x.1 t n bufs)
    (stepped : step junk x e = some x') (own : callOf t e = none) (kept : ∀ a, e ≠ .spawn a t) :
    answersOf t x'.2 = answersOf t x.2 ∧ Like x'.1 t n bufs := by
  cases e with
  | call u c granted moved =>
    obtain ⟨⟨s', answer⟩, called, rfl⟩ := Option.map_eq_some_iff.mp stepped
    have other : u ≠ t := by
      rintro rfl
      simp [callOf] at own
    refine ⟨by simp [answersOf, other], ?_⟩
    exact like.changes coherent.apart (call_coherent coherent called).1 other.symm
  | spawn a f =>
    obtain ⟨-, same⟩ := Option.ite_none_right_eq_some.mp stepped
    cases same
    have other : t ≠ f := fun same => kept a (by rw [same])
    exact ⟨rfl, like.changes coherent.apart (spawn_like junk coherent a f bufs).1 other⟩
  | osSpawn a u =>
    obtain ⟨-, same⟩ := Option.ite_none_right_eq_some.mp stepped
    cases same
    obtain ⟨frame, locals, -⟩ := osSpawn_given junk coherent a u
    exact ⟨rfl, like.kept (congrFun locals t)
      (frame.view coherent.apart (by simp) (congrFun locals t))⟩
  | osThread u =>
    simp only [step] at stepped
    split at stepped
    · rename_i p m new given
      cases stepped
      have other : t ≠ u := by
        rintro rfl
        have live := like.live
        rw [new] at live
        cases live
      have same : (x.1.osThread u p m).locals t = x.1.locals t := update_of_ne other _ _
      refine ⟨rfl, like.kept same ?_⟩
      rw [taskLocal_of same]
      rfl
    · cases stepped

theorem step_own {c : Call} (like : Like x.1 t n bufs) (stepped : step junk x e = some x')
    (own : callOf t e = some c) :
    ∃ bufs', (∀ i, i < n.next → bufs' i = bufs i) ∧ n.next ≤ (newCall n c).1.next ∧
      answersOf t x'.2 = answersOf t x.2 ++ [answerAt bufs' (newCall n c).2] ∧
      Like x'.1 t (newCall n c).1 bufs' := by
  cases e with
  | call u d granted moved =>
    obtain ⟨rfl, same⟩ := Option.ite_none_right_eq_some.mp own
    cases same
    obtain ⟨⟨s', answer⟩, called, rfl⟩ := Option.map_eq_some_iff.mp stepped
    obtain ⟨bufs', old, later, rfl, after⟩ := call_like like called
    exact ⟨bufs', old, later, by simp [answersOf], after⟩
  | spawn a f | osSpawn a u | osThread u => cases own

theorem answerAt_congr {c : Call} {bufs' : Nat → Nat} (numbered : Numbered bufs n.gens n.next)
    (same : ∀ i, i < (newCall n c).1.next → bufs' i = bufs i) :
    answerAt bufs' (newCall n c).2 = answerAt bufs (newCall n c).2 := by
  cases c with
  | on op => rfl
  | ctl op =>
    simp only [newCall, answerAt, Answer.ctl.injEq] at same ⊢
    cases reply : (number n.gens n.next op).2.2 with
    | addr p =>
      cases p with
      | none => rfl
      | some i =>
        have old := same i (number_reply numbered reply)
        simp only [replyAt, Option.map_some, old]
    | value v | void | signal text => rfl

theorem run_coherent {es : List Event} (coherent : Coherent x.1)
    (ran : run (step junk) x es = some x') : Coherent x'.1 := by
  have keep : ∀ y d y', Coherent y.1 → step junk y d = some y' → Coherent y'.1 :=
    fun _ _ _ held stepped => step_coherent held stepped
  exact run_invariant keep coherent ran

theorem run_like {es : List Event} (coherent : Coherent x.1) (like : Like x.1 t n bufs)
    (ran : run (step junk) x es = some x') (kept : ∀ a, .spawn a t ∉ es) :
    ∃ bufs', (∀ i, i < n.next → bufs' i = bufs i) ∧
      answersOf t x'.2 =
        answersOf t x.2 ++ (newRun n (callsOf t es)).2.map (answerAt bufs') ∧
      Like x'.1 t (newRun n (callsOf t es)).1 bufs' := by
  induction es generalizing x n bufs with
  | nil =>
    cases ran
    exact ⟨bufs, fun _ _ => rfl, by simp [callsOf, newRun], like⟩
  | cons e es ih =>
    obtain ⟨mid, stepped, rest⟩ := run_cons_iff.mp ran
    have after := step_coherent coherent stepped
    have later : ∀ a, .spawn a t ∉ es := fun a inside => kept a (List.mem_cons_of_mem _ inside)
    cases own : callOf t e with
    | none =>
      have calls : callsOf t (e :: es) = callsOf t es := List.filterMap_cons_none own
      obtain ⟨same, like'⟩ := step_other coherent like stepped own fun a spawn =>
        kept a (spawn ▸ List.mem_cons_self)
      rw [calls, ← same]
      exact ih after like' rest later
    | some c =>
      have calls : callsOf t (e :: es) = c :: callsOf t es := List.filterMap_cons_some own
      obtain ⟨bufs₁, old, grown, answered, like'⟩ := step_own like stepped own
      obtain ⟨bufs', old', answers, final⟩ := ih after like' rest later
      rw [calls]
      refine ⟨bufs', fun i below => ?_, ?_, final⟩
      · rw [old' i (by omega), old i below]
      · -- The answer's number, if any, was given out before the rest of the run.
        have numbered : Numbered bufs₁ n.gens n.next :=
          ⟨like.numbered.below, fun key key' g inside h within same =>
            like.numbered.apart key key' g inside h within (by
              rwa [old _ (like.numbered.below key g inside),
                old _ (like.numbered.below key' h within)] at same)⟩
        rw [answers, answered, newRun, List.map_cons, answerAt_congr numbered old',
          List.append_assoc]
        rfl

theorem live_step (coherent : Coherent x.1) (live : (x.1.locals t).isSome)
    (stepped : step junk x e = some x') : (x'.1.locals t).isSome := by
  cases e with
  | call u c granted moved =>
    obtain ⟨⟨s', answer⟩, called, rfl⟩ := Option.map_eq_some_iff.mp stepped
    obtain ⟨changes, own, -⟩ := call_coherent coherent called
    by_cases here : t = u
    · exact here ▸ own
    · exact changes.locals t here ▸ live
  | spawn a f =>
    obtain ⟨-, same⟩ := Option.ite_none_right_eq_some.mp stepped
    cases same
    obtain ⟨changes, like⟩ := spawn_like junk coherent a f fun i => i
    by_cases here : t = f
    · exact here ▸ like.live
    · exact changes.locals t here ▸ live
  | osSpawn a u =>
    obtain ⟨-, same⟩ := Option.ite_none_right_eq_some.mp stepped
    cases same
    rw [(osSpawn_given junk coherent a u).2.1]
    exact live
  | osThread u =>
    simp only [step] at stepped
    split at stepped
    · rename_i p m new given
      cases stepped
      have other : t ≠ u := by
        rintro rfl
        rw [new] at live
        cases live
      have same : (x.1.osThread u p m).locals t = x.1.locals t := update_of_ne other _ _
      rw [same]
      exact live
    · cases stepped

theorem Given.changes {s s' : Sys} {u : Nat} (given : Given s t units) (apart : Apart s)
    (changes : Changes s s' u) : Given s' t units := by
  obtain ⟨p, held, stack⟩ := given
  refine ⟨p, ?_, ?_⟩
  · rw [changes.calls, held]
  · rw [changes.frame.given apart (by simp) held, stack]

theorem given_step (coherent : Coherent x.1) (given : Given x.1 t units)
    (stepped : step junk x e = some x') : (x'.1.locals t).isSome ∨ Given x'.1 t units := by
  cases e with
  | call u c granted moved =>
    obtain ⟨⟨s', answer⟩, called, rfl⟩ := Option.map_eq_some_iff.mp stepped
    exact .inr (given.changes coherent.apart (call_coherent coherent called).1)
  | spawn a f =>
    obtain ⟨-, same⟩ := Option.ite_none_right_eq_some.mp stepped
    cases same
    exact .inr (given.changes coherent.apart (spawn_like junk coherent a f fun i => i).1)
  | osSpawn a u =>
    obtain ⟨⟨-, -, new⟩, same⟩ := Option.ite_none_right_eq_some.mp stepped
    cases same
    obtain ⟨frame, -, calls, -⟩ := osSpawn_given junk coherent a u
    obtain ⟨p, held, stack⟩ := given
    have other : t ≠ u := by
      rintro rfl
      rw [new] at held
      cases held
    refine .inr ⟨p, (calls t other).trans held, ?_⟩
    rw [frame.given coherent.apart (by simpa using other) held, stack]
  | osThread u =>
    simp only [step] at stepped
    split at stepped
    · rename_i q m new held'
      cases stepped
      by_cases here : t = u
      · subst here
        left
        simp [Sys.osThread]
      · obtain ⟨p, held, stack⟩ := given
        refine .inr ⟨p, ?_, stack⟩
        rw [← held]
        exact update_of_ne here _ _
    · cases stepped

def WaitingOrBegun (s : Sys) (t : Nat) (units : List OnFrame) : Prop :=
  Coherent s ∧ ((s.locals t).isSome ∨ Given s t units)

theorem begins_like {a : Nat} {start : List Event} (coherent : Coherent x.1)
    (begins : Begins a t start) (ran : run (step junk) x start = some x') (bufs : Nat → Nat) :
    Coherent x'.1 ∧ Like x'.1 t (newTask ((unitsOf x.1 a).filter inherits)) bufs := by
  rcases begins with rfl | ⟨between, rfl⟩
  · obtain ⟨mid, stepped, rest⟩ := run_cons_iff.mp ran
    cases rest
    obtain ⟨-, same⟩ := Option.ite_none_right_eq_some.mp stepped
    cases same
    obtain ⟨changes, like⟩ := spawn_like junk coherent a t bufs
    exact ⟨like.coherent coherent changes, like⟩
  · obtain ⟨mid, waiting, last⟩ := run_append_iff.mp ran
    obtain ⟨first, spawned, waited⟩ := run_cons_iff.mp waiting
    obtain ⟨x', begun, rest⟩ := run_cons_iff.mp last
    cases rest
    have coherent' := step_coherent coherent spawned
    obtain ⟨-, same⟩ := Option.ite_none_right_eq_some.mp spawned
    cases same
    obtain ⟨-, -, -, given⟩ := osSpawn_given junk coherent a t
    have keep : ∀ y d y', WaitingOrBegun y.1 t ((unitsOf x.1 a).filter inherits) →
        step junk y d = some y' → WaitingOrBegun y'.1 t ((unitsOf x.1 a).filter inherits) := by
      rintro y d y' ⟨held, live | given⟩ stepped
      · exact ⟨step_coherent held stepped, .inl (live_step held live stepped)⟩
      · exact ⟨step_coherent held stepped, given_step held given stepped⟩
    have kept := run_invariant keep ⟨coherent', .inr given⟩ waited
    simp only [step] at begun
    split at begun
    · rename_i p m new held
      cases begun
      rcases kept.2 with live | ⟨q, held', stack⟩
      · rw [new] at live
        cases live
      · cases held.symm.trans held'
        exact ⟨osThread_coherent kept.1 new held, osThread_like bufs stack⟩
    · cases begun

end Steps

/-- A task on a fiber that has been used for whatever, or of a thread of its own, and another
    one, say on a new fiber, with the same attacher: the units that they begin with are the
    attacher's, in order, without FINISH; neither has a generation; and the same calls have the
    same answers, whatever every other task does meanwhile and whatever malloc and realloc leave
    in new cells, up to the addresses of the buffers, of which no two live generations share
    one. -/
theorem recycled_like_new {junk junk' : OnFrame}
    {before start later before' start' later' : List Event}
    {s s₁ s₂ s' s₁' s₂' : Sys} {log₀ log₁ log log₀' log₁' log' : List (Nat × Answer)}
    {a t a' g : Nat}
    (reached : run (step junk) (Sys.init, []) before = some (s, log₀))
    (begins : Begins a t start)
    (started : run (step junk) (s, log₀) start = some (s₁, log₁))
    (ran : run (step junk) (s₁, []) later = some (s₂, log))
    (kept : ∀ b, .spawn b t ∉ later)
    (reached' : run (step junk') (Sys.init, []) before' = some (s', log₀'))
    (begins' : Begins a' g start')
    (started' : run (step junk') (s', log₀') start' = some (s₁', log₁'))
    (ran' : run (step junk') (s₁', []) later' = some (s₂', log'))
    (kept' : ∀ b, .spawn b g ∉ later')
    (attacher : unitsOf s' a' = unitsOf s a)
    (calls : callsOf g later' = callsOf t later) :
    unitsOf s₁ t = (unitsOf s a).filter inherits ∧ generationsOf s₁ t = (fun _ => []) ∧
      unitsOf s₁' g = unitsOf s₁ t ∧ generationsOf s₁' g = (fun _ => []) ∧
      ∃ n answers bufs bufs',
        newRun (newTask (unitsOf s₁ t)) (callsOf t later) = (n, answers) ∧
        answersOf t log = answers.map (answerAt bufs) ∧ unitsOf s₂ t = n.on.units ∧
        Numbered bufs n.gens n.next ∧
        answersOf g log' = answers.map (answerAt bufs') ∧ unitsOf s₂' g = n.on.units ∧
        Numbered bufs' n.gens n.next := by
  have coherent := run_coherent init_coherent reached
  have coherent' := run_coherent init_coherent reached'
  obtain ⟨begun, like⟩ := begins_like coherent begins started fun i => i
  obtain ⟨begun', like'⟩ := begins_like coherent' begins' started' fun i => i
  obtain ⟨bufs, -, answers, final⟩ := run_like (x := (s₁, [])) begun like ran kept
  obtain ⟨bufs', -, answers', final'⟩ := run_like (x := (s₁', [])) begun' like' ran' kept'
  rw [attacher] at like' answers' final'
  rw [calls] at answers' final'
  have units : unitsOf s₁ t = (unitsOf s a).filter inherits := like.units
  refine ⟨units, like.generations, like'.units.trans units.symm, like'.generations,
    _, _, bufs, bufs', rfl, ?_⟩
  rw [units]
  exact ⟨answers, final.units, final.numbered, answers', final'.units, final'.numbered⟩

/-- Fiber 1 has had a task with a unit and a generation of its own; fiber 2 is new. -/
theorem fiber_reused : ∃ s s₁ log₀ log₁,
    run (step ⟨9, 9, 9, some 9, some 9⟩) (Sys.init, [])
      [.call 0 (.on (.push 5 1 (some 3) none)) true false,
        .call 0 (.on (.push rtFinishKey 2 (some 4) none)) true false, .spawn 0 1,
        .call 1 (.on (.push 8 3 (some 6) none)) true true,
        .call 1 (.ctl (.alloc 2 40)) true false] = some (s, log₀) ∧
    run (step ⟨9, 9, 9, some 9, some 9⟩) (s, log₀) [.spawn 0 1] = some (s₁, log₁) ∧
    unitsOf s₁ 1 = [⟨5, 0, 1, some 3, none⟩] ∧ generationsOf s₁ 1 = fun _ => [] := by
  refine ⟨_, _, _, _, rfl, rfl, ?_⟩
  have both := @recycled_like_new ⟨9, 9, 9, some 9, some 9⟩ ⟨0, 0, 0, none, none⟩
    [.call 0 (.on (.push 5 1 (some 3) none)) true false,
      .call 0 (.on (.push rtFinishKey 2 (some 4) none)) true false, .spawn 0 1,
      .call 1 (.on (.push 8 3 (some 6) none)) true true,
      .call 1 (.ctl (.alloc 2 40)) true false]
    [.spawn 0 1]
    [.call 0 (.on (.reset 0)) true false, .call 1 (.on (.topFnPair 5)) true false,
      .call 1 (.ctl (.depth 2)) true false]
    [.call 0 (.on (.push 5 1 (some 3) none)) true false,
      .call 0 (.on (.push rtFinishKey 2 (some 4) none)) true false]
    [.spawn 0 2]
    [.call 2 (.on (.topFnPair 5)) true false, .call 2 (.ctl (.depth 2)) true false]
    _ _ _ _ _ _ _ _ _ _ _ _ 0 1 0 2 rfl (.inl rfl) rfl rfl (by simp) rfl (.inl rfl) rfl rfl
    (by simp) rfl rfl
  exact ⟨both.1, both.2.1⟩

end PliTaskLocal
