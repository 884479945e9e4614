import PliLlvm.Compiler.CtlAnchors

/- What the slot of an activation holds, in terms of the blocks on the variable's stack: every
   call moves the stack by one block at most, so the blocks below the least depth since the
   slot was filled are those that were there then. -/
namespace PliCtlAnchors
open PliControlled Runs

def bufs (stack : List Gen) : List Nat := stack.map (·.buf)

def bottom (n : Nat) (stack : List Nat) : List Nat := stack.drop (stack.length - n)

inductive Moved (stack : List Nat) : List Nat → Prop where
  | same : Moved stack stack
  | pushed (b : Nat) : Moved stack (b :: stack)
  | popped : Moved stack stack.tail

theorem bottom_push (n b : Nat) (stack : List Nat) (within : n ≤ stack.length) :
    bottom n (b :: stack) = bottom n stack := by
  have later : (b :: stack).length - n = stack.length - n + 1 := by
    rw [List.length_cons]
    omega
  rw [bottom, later, List.drop_succ_cons, bottom]

theorem Moved.bottom_eq {stack stack' : List Nat} {n : Nat} (moved : Moved stack stack')
    (before : n ≤ stack.length) (after : n ≤ stack'.length) :
    bottom n stack' = bottom n stack := by
  cases moved with
  | same => rfl
  | pushed b => exact bottom_push n b stack before
  | popped =>
    cases stack with
    | nil => rfl
    | cons b stack => exact (bottom_push n b stack after).symm

/-- A slot whose stack was never shorter than when it was filled has the block that was on
    top then. -/
structure Holds (stack : List Nat) (f : Frame) : Prop where
  within : f.low ≤ stack.length
  below : f.low ≤ f.mark
  held : f.low = f.mark → f.slot = (bottom f.low stack).head?

theorem Holds.dip {stack stack' : List Nat} {f : Frame} (holds : Holds stack f)
    (moved : Moved stack stack') : Holds stack' (f.dip stack'.length) := by
  refine ⟨Nat.min_le_right _ _, Nat.le_trans (Nat.min_le_left _ _) holds.below, ?_⟩
  intro level
  have below := holds.below
  simp only [Frame.dip] at level
  have kept : min f.low stack'.length = f.low := by omega
  have after : f.low ≤ stack'.length := by omega
  simp only [Frame.dip, kept, moved.bottom_eq holds.within after]
  exact holds.held (by omega)

theorem Holds.phase {stack : List Nat} {f : Frame} (holds : Holds stack f) (phase : Phase) :
    Holds stack { f with phase := phase } :=
  ⟨holds.within, holds.below, holds.held⟩

theorem Holds.note {stack : List Nat} {f : Frame} (holds : Holds stack f) (prog : Program)
    {n : Nat} {p : Option Nat} (within : n ≤ stack.length) (top : p = (bottom n stack).head?) :
    Holds stack (f.note prog n p) := by
  unfold Frame.note
  split
  · exact ⟨within, Nat.le_refl n, fun _ => top⟩
  · exact holds

theorem bottom_all (stack : List Nat) : bottom stack.length stack = stack := by
  simp [bottom]

theorem topAddr_bufs (stack : List Gen) : topAddr stack = (bufs stack).head? := by
  cases stack <;> rfl

theorem Holds.current {stack : List Nat} {f : Frame} (holds : Holds stack f)
    (kept : f.mark ≤ f.low) (level : stack.length = f.mark) : f.slot = stack.head? := by
  have same : f.low = f.mark := Nat.le_antisymm holds.below kept
  rw [holds.held same, same, ← level, bottom_all]

theorem moved_update {st : Stacks} {key k : Int} {stack : List Gen}
    (moved : Moved (bufs (st key)) (bufs stack)) :
    Moved (bufs (st k)) (bufs (Function.update st key stack k)) := by
  by_cases here : k = key
  · subst here
    rwa [Function.update_self]
  · rw [Function.update_of_ne here]
    exact Moved.same

theorem bufs_recordExtent (stack : List Gen) (axis extent : Int) :
    bufs (recordExtent stack axis extent) = bufs stack := by
  unfold recordExtent
  split
  · rfl
  · split <;> rfl

theorem bufs_tail (stack : List Gen) : bufs stack.tail = (bufs stack).tail := List.map_tail

theorem genStep_moved {st st' : Stacks} {op : Op} {reply : Reply}
    (moves : GenStep st op st' reply) (k : Int) : Moved (bufs (st k)) (bufs (st' k)) := by
  cases moves with
  | alloc fresh | allocDims fresh => exact moved_update (Moved.pushed _)
  | setDim =>
    apply moved_update
    rw [bufs_recordExtent]
    exact Moved.same
  | ensureNew empty fresh =>
    apply moved_update
    rw [empty]
    exact Moved.pushed _
  | free held =>
    apply moved_update
    rw [bufs_tail]
    exact Moved.popped
  | ensureHeld held | freeEmpty empty | addr | len | rank | extent | depth => exact Moved.same

theorem perform_moved {s : Ctl} (inv : Inv s) (op : Op) (key : Int) :
    ∃ s' reply, perform s op = .ok (s', reply) ∧ Inv s' ∧
      Moved (bufs (stacksOf s key)) (bufs (stacksOf s' key)) := by
  obtain ⟨s', reply, done, inv', moves⟩ := perform_spec inv op
  exact ⟨s', reply, done, inv', genStep_moved moves key⟩

section Runs
variable {prog : Program}

def Program.stack (prog : Program) (rt : Ctl) : List Nat := bufs (stacksOf rt prog.sym.ctlSlot)

theorem stack_length (rt : Ctl) : (prog.stack rt).length = prog.depth rt := by
  simp [Program.stack, Program.depth, bufs]

structure Kept (prog : Program) (s : State) : Prop where
  inv : Inv s.rt
  frames : ∀ f ∈ s.frames, Holds (prog.stack s.rt) f
  log : ∀ e ∈ s.log, e.2 = .ok e.1

theorem Kept.settled {s : State} {rt : Ctl} {frames : List Frame} (kept : Kept prog s)
    (inv : Inv rt) (moved : Moved (prog.stack s.rt) (prog.stack rt))
    (holds : ∀ f ∈ frames, Holds (prog.stack s.rt) f) : Kept prog (s.settle prog rt frames) := by
  refine ⟨inv, ?_, kept.log⟩
  intro g member
  obtain ⟨f, there, rfl⟩ := List.mem_map.mp member
  have dipped := (holds f there).dip moved
  rwa [stack_length] at dipped

theorem Kept.filled {s : State} {rt : Ctl} {p : Option Nat} {f : Frame} {rest : List Frame}
    (kept : Kept prog s) (here : s.frames = f :: rest) (inv : Inv rt)
    (moved : Moved (prog.stack s.rt) (prog.stack rt)) (top : p = (prog.stack rt).head?) :
    Kept prog (s.fill prog rt p f rest) := by
  have holds := kept.frames
  rw [here] at holds
  refine ⟨inv, ?_, kept.log⟩
  intro g member
  rcases List.mem_cons.mp member with rfl | member
  · have dipped := ((holds f List.mem_cons_self).phase .running).dip moved
    rw [stack_length] at dipped
    apply dipped.note prog (Nat.le_of_eq (stack_length rt).symm)
    rw [← stack_length, bottom_all]
    exact top
  · obtain ⟨f', there, rfl⟩ := List.mem_map.mp member
    have dipped := (holds f' (List.mem_cons_of_mem _ there)).dip moved
    rwa [stack_length] at dipped

theorem alloc_moved {s : Ctl} (inv : Inv s) (key n : Int) :
    ∃ s' b, pliCtlAlloc s key n = .ok (s', b) ∧ Inv s' ∧
      bufs (stacksOf s' key) = b :: bufs (stacksOf s key) := by
  obtain ⟨s', b, done, inv', -, stacked⟩ := alloc_spec inv key n
  refine ⟨s', b, done, inv', ?_⟩
  rw [stacked, Function.update_self]
  rfl

theorem freeAddr_moved {s : Ctl} (inv : Inv s) (key : Int) :
    ∃ s' reply, pliCtlFreeAddr s key = .ok (s', reply) ∧ Inv s' ∧
      bufs (stacksOf s' key) = (bufs (stacksOf s key)).tail ∧
      ∀ top, reply = .ok top → top = (bufs (stacksOf s' key)).head? := by
  obtain ⟨s', reply, done, inv', stacked, answer⟩ := freeAddr_spec inv key
  refine ⟨s', reply, done, inv', ?_, ?_⟩
  · rw [stacked, Function.update_self, bufs_tail]
  · intro top given
    rw [answer] at given
    split at given
    · cases given
    · cases given
      rw [stacked, Function.update_self]
      exact topAddr_bufs _

theorem allocateIn_kept {s s' : State} {f : Frame} {rest : List Frame} (kept : Kept prog s)
    (here : s.frames = f :: rest) (done : allocateIn prog s f rest = some s') :
    Kept prog s' := by
  obtain ⟨rt, b, called, inv, pushed⟩ := alloc_moved kept.inv prog.sym.ctlSlot prog.sym.bytes
  simp only [allocateIn, called, Option.some.injEq] at done
  subst done
  have stack : prog.stack rt = b :: prog.stack s.rt := pushed
  apply kept.filled here inv
  · rw [stack]
    exact Moved.pushed b
  · rw [stack]
    rfl

theorem freeIn_kept {s s' : State} {f : Frame} {rest : List Frame} (kept : Kept prog s)
    (here : s.frames = f :: rest) (done : freeIn prog s f rest = some s') : Kept prog s' := by
  obtain ⟨rt, reply, called, inv, popped, top⟩ := freeAddr_moved kept.inv prog.sym.ctlSlot
  have moved : Moved (prog.stack s.rt) (prog.stack rt) := by
    have stack : prog.stack rt = (prog.stack s.rt).tail := popped
    rw [stack]
    exact Moved.popped
  cases reply with
  | ok p =>
    simp only [freeIn, called, Option.some.injEq] at done
    subst done
    exact kept.filled here inv moved (top p rfl)
  | error msg =>
    simp only [freeIn, called, Option.some.injEq] at done
    subst done
    apply kept.settled inv moved
    have holds := kept.frames
    rw [here] at holds
    intro g member
    rcases List.mem_cons.mp member with rfl | member
    · exact (holds f List.mem_cons_self).phase .freeing
    · exact holds g (List.mem_cons_of_mem _ member)

theorem Kept.replaced {s : State} {f g : Frame} {rest : List Frame} (kept : Kept prog s)
    (here : s.frames = f :: rest) (holds : Holds (prog.stack s.rt) g) :
    Kept prog { s with frames := g :: rest } := by
  refine ⟨kept.inv, ?_, kept.log⟩
  intro h member
  rcases List.mem_cons.mp member with rfl | member
  · exact holds
  · exact kept.frames h (by rw [here]; exact List.mem_cons_of_mem _ member)

theorem Kept.head {s : State} {f : Frame} {rest : List Frame} (kept : Kept prog s)
    (here : s.frames = f :: rest) : Holds (prog.stack s.rt) f :=
  kept.frames f (by rw [here]; exact List.mem_cons_self)

theorem releaseIn_kept {s s' : State} {f : Frame} {rest : List Frame} (kept : Kept prog s)
    (here : s.frames = f :: rest) (done : releaseIn prog s f rest = some s') :
    Kept prog s' := by
  have leaving := kept.replaced here ((kept.head here).phase .leaving)
  unfold releaseIn at done
  split at done
  · cases done
    exact leaving
  · obtain ⟨rt, reply, called, inv, popped, -⟩ := freeAddr_moved kept.inv prog.sym.ctlSlot
    simp only [called, Option.some.injEq] at done
    subst done
    have stack : prog.stack rt = (prog.stack s.rt).tail := popped
    apply kept.settled inv
    · rw [stack]
      exact Moved.popped
    · exact leaving.frames

theorem address_kept {s : State} {f : Frame} {rest : List Frame} (kept : Kept prog s)
    (here : s.frames = f :: rest) (met : Undisturbed prog s .address) :
    Kept prog { s with
      log := (f.slot, (pliCtlAddr s.rt prog.sym.ctlSlot).map (·.2)) :: s.log } := by
  refine ⟨kept.inv, kept.frames, ?_⟩
  intro e member
  rcases List.mem_cons.mp member with rfl | member
  · obtain ⟨low, level⟩ := met f (by rw [here]; rfl)
    have slot := (kept.head here).current low (by rw [stack_length, level])
    obtain ⟨s', answered, -⟩ := addr_spec kept.inv prog.sym.ctlSlot
    rw [answered, topAddr_bufs, slot]
    rfl
  · exact kept.log e member

theorem act_kept {s s' : State} {f : Frame} {rest : List Frame} {e : Event}
    (kept : Kept prog s) (here : s.frames = f :: rest) (met : Undisturbed prog s e)
    (done : act prog s f rest e = some s') : Kept prog s' := by
  cases e with
  | enter fn | call op => cases done
  | implicit =>
    simp only [act] at done
    split at done
    · split at done
      · cases done
        exact kept.replaced here ((kept.head here).phase .running)
      · exact allocateIn_kept kept here done
    · cases done
  | allocate site =>
    simp only [act] at done
    split at done
    · exact allocateIn_kept kept here done
    · cases done
  | free site =>
    simp only [act] at done
    split at done
    · exact freeIn_kept kept here done
    · cases done
  | resume =>
    simp only [act] at done
    split at done
    · cases done
      apply kept.replaced here
      apply ((kept.head here).phase .running).note prog (Nat.zero_le _)
      simp [bottom]
    · cases done
  | address =>
    simp only [act] at done
    split at done
    · cases done
      exact address_kept kept here met
    · cases done
  | release =>
    simp only [act] at done
    split at done
    · exact releaseIn_kept kept here done
    · cases done
  | leave =>
    cases done
    refine ⟨kept.inv, ?_, kept.log⟩
    intro g member
    exact kept.frames g (by rw [here]; exact List.mem_cons_of_mem _ member)

theorem step_kept {s s' : State} {e : Event} (kept : Kept prog s) (met : Undisturbed prog s e)
    (done : step prog s e = some s') : Kept prog s' := by
  unfold step at done
  split at done
  · split at done
    · rename_i fn
      cases done
      refine ⟨kept.inv, ?_, kept.log⟩
      intro g member
      rcases List.mem_cons.mp member with rfl | member
      · exact ⟨Nat.zero_le _, Nat.le_refl _, fun _ => by simp [Program.start, bottom]⟩
      · exact kept.frames g member
    · rename_i op
      obtain ⟨rt, reply, called, inv, moved⟩ := perform_moved kept.inv op prog.sym.ctlSlot
      simp only [called, Option.some.injEq] at done
      subst done
      exact kept.settled inv moved kept.frames
    · split at done
      · cases done
      · rename_i f rest here
        exact act_kept kept here met done
  · cases done

theorem start_kept (prog : Program) : Kept prog State.start :=
  ⟨start_inv, by simp [State.start], by simp [State.start]⟩

/-- In every run whose addresses are taken while the stack is as the activation left it, the
    slot is what `pli_ctl_addr` would return. -/
theorem direct_addresses_current {s : State} {events : List Event}
    (ran : run (step prog) State.start events = some s)
    (meets : AllSteps (step prog) (Undisturbed prog) State.start events) :
    ∀ taken ∈ s.log, taken.2 = .ok taken.1 := by
  have kept : Kept prog s :=
    run_invariant_where (fun _ _ _ kept met done => step_kept kept met done) (start_kept prog)
      meets ran
  exact kept.log

end Runs

/-- `DECLARE X FIXED CONTROLLED;` in procedure 0, with `ALLOCATE X;` and `FREE X;` in it. -/
def recursiveProgram : Program where
  sym := ⟨0, ⟨.fixedDec, []⟩, true, false, some 0, none, 7, 4⟩
  storage := []
  packages := []
  sites := [⟨⟨0, false⟩, .allocate []⟩, ⟨⟨0, false⟩, .free⟩]

/-- The procedure calls itself, frees in the inner activation what that allocated, and
    addresses its own generation again. -/
def balancedRun : List Event :=
  [.enter ⟨0, false⟩, .implicit, .address, .enter ⟨0, false⟩, .implicit,
    .allocate ⟨⟨0, false⟩, .allocate []⟩, .address, .free ⟨⟨0, false⟩, .free⟩, .address, .release,
    .leave, .address]

theorem balanced_addresses_current :
    ∃ s, run (step recursiveProgram) State.start balancedRun = some s ∧ s.log.length = 4 ∧
      ∀ taken ∈ s.log, taken.2 = .ok taken.1 := by
  refine ⟨(run (step recursiveProgram) State.start balancedRun).getD State.start, by rfl,
    by rfl, ?_⟩
  exact @direct_addresses_current recursiveProgram _ balancedRun (by rfl) (by decide)

def unbalancedRun : List Event :=
  [.enter ⟨0, false⟩, .implicit, .enter ⟨0, false⟩, .implicit,
    .allocate ⟨⟨0, false⟩, .allocate []⟩, .release, .leave, .address]

theorem generation_left_behind :
    ∃ s, run (step recursiveProgram) State.start unbalancedRun = some s ∧
      s.log = [(some 0, .ok (some 1))] ∧ ¬ ∀ taken ∈ s.log, taken.2 = .ok taken.1 := by
  refine ⟨(run (step recursiveProgram) State.start unbalancedRun).getD State.start, by rfl,
    by rfl, ?_⟩
  intro current
  have stale := current (some 0, .ok (some 1)) (by decide)
  cases stale

end PliCtlAnchors
