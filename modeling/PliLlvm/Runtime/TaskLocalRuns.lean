import PliLlvm.Runtime.TaskLocal

/- A task on a recycled fiber behaves as one on a new fiber: what an earlier task has left in
   the fiber's state, and what the attacher does later, is not in any answer. -/
namespace PliTaskLocal
open Runs Blocks PliOnStack PliControlled

/-- Who refers to a block of the heap of handler stacks: a task, or a thread's pli_os_call. -/
def owns (s : Sys) : Nat ⊕ Nat → Option Nat
  | .inl t => (s.taskLocal t).onStack
  | .inr t => (s.calls t).bind (·.1)

structure Apart (s : Sys) : Prop where
  once : ∀ x y p, owns s x = some p → owns s y = some p → x = y
  old : ∀ x p, owns s x = some p → p < s.nextBlock

structure Frame (s s' : Sys) (x : Nat ⊕ Nat) : Prop where
  others : ∀ y, y ≠ x → owns s' y = owns s y
  own : owns s' x = none ∨ owns s' x = owns s x ∨
    owns s' x = some s.nextBlock ∧ s'.nextBlock = s.nextBlock + 1
  mem : ∀ p, p < s.nextBlock → owns s x ≠ some p → s'.mem p = s.mem p
  next : s.nextBlock ≤ s'.nextBlock

/-- Every task's fields describe a stack and CONTROLLED storage, and so does what a thread is
    given. -/
structure Coherent (s : Sys) : Prop where
  apart : Apart s
  view : ∀ t, ∃ on, viewOn s.mem (s.taskLocal t) = some on
  given : ∀ t p n, s.calls t = some (p, n) → (block s.mem p).length = n
  ctl : ∀ t, ∃ st, PliControlled.Holds (s.taskLocal t).ctl st

section Frames
variable {s s' : Sys} {x y : Nat ⊕ Nat}

theorem Apart.frame (apart : Apart s) (frame : Frame s s' x) : Apart s' := by
  have old' : ∀ y p, owns s' y = some p →
      p < s'.nextBlock ∧ (owns s y = some p ∨ (y = x ∧ p = s.nextBlock)) := by
    intro y p held
    by_cases own : y = x
    · subst own
      rcases frame.own with none' | same | ⟨fresh, grown⟩
      · rw [none'] at held
        cases held
      · rw [same] at held
        exact ⟨Nat.lt_of_lt_of_le (apart.old y p held) frame.next, .inl held⟩
      · rw [fresh] at held
        cases held
        exact ⟨by omega, .inr ⟨rfl, rfl⟩⟩
    · rw [frame.others y own] at held
      exact ⟨Nat.lt_of_lt_of_le (apart.old y p held) frame.next, .inl held⟩
  refine ⟨fun y z p first second => ?_, fun y p held => (old' y p held).1⟩
  rcases (old' y p first).2 with here | ⟨own, new⟩ <;>
    rcases (old' z p second).2 with there | ⟨own', new'⟩
  · exact apart.once y z p here there
  · have := apart.old y p here
    omega
  · have := apart.old z p there
    omega
  · rw [own, own']

theorem Frame.block (apart : Apart s) (frame : Frame s s' x) (other : y ≠ x) :
    block s'.mem (owns s y) = block s.mem (owns s y) := by
  cases held : owns s y with
  | none => rfl
  | some p =>
    refine frame.mem p (apart.old y p held) fun mine => ?_
    exact other (apart.once y x p held mine)

theorem viewOn_congr {mem mem' : Nat → List OnFrame} {l : Local}
    (same : block mem' l.onStack = block mem l.onStack) : viewOn mem' l = viewOn mem l := by
  unfold viewOn
  simp only [same]

theorem Frame.view {t : Nat} (apart : Apart s) (frame : Frame s s' x) (other : .inl t ≠ x)
    (same : s'.locals t = s.locals t) :
    viewOn s'.mem (s'.taskLocal t) = viewOn s.mem (s.taskLocal t) := by
  have local' : s'.taskLocal t = s.taskLocal t := by
    rw [Sys.taskLocal, same]
    rfl
  rw [local']
  exact viewOn_congr (frame.block apart other)

theorem Frame.given {t n : Nat} {p : Option Nat} (apart : Apart s) (frame : Frame s s' x)
    (other : .inr t ≠ x) (held : s.calls t = some (p, n)) :
    PliTaskLocal.block s'.mem p = PliTaskLocal.block s.mem p := by
  have owner : owns s (.inr t) = p := by
    rw [owns, held]
    rfl
  rw [← owner]
  exact frame.block apart other

end Frames

/- What a new task's calls do, said without blocks: its units, in order, the four scalars of
   its state, and the generations it has made, numbered as it makes them. -/
structure NewOn where
  units : List OnFrame
  oncode : Int
  onSource : Int
  finishFn : Option Nat

structure NewTask where
  on : NewOn
  gens : Stacks
  next : Nat

def newTask (units : List OnFrame) : NewTask := ⟨⟨units, 0, 0, none⟩, fun _ => [], 0⟩

def unitOf (units : List OnFrame) (key : Int) : Option OnFrame := topmost (hasKey key) units

def dropAbove (units : List OnFrame) (key base : Int) : List OnFrame :=
  units.take base.toNat ++ dropTopmost (hasKey key) (units.drop base.toNat)

def newSource (t : NewOn) : Int := (t.units.getLast?.map (·.src)).getD t.onSource

def newSetSource (t : NewOn) (key : Int) : NewOn :=
  if t.units = [] then { t with onSource := key }
  else { t with units := t.units.modify (t.units.length - 1) fun f => { f with src := key } }

def newFinish (t : NewOn) (fn : Option Nat) : OnReply :=
  if fn = none ∨ t.finishFn ≠ fn then .void
  else match unitOf t.units rtFinishKey with
    | some ⟨_, _, _, some h, ctx⟩ => .runs h ctx
    | _ => .void

def newOn (t : NewOn) : OnOp → NewOn × OnReply
  | .push key id fn ctx => ({ t with units := t.units ++ [⟨key, 0, id, fn, ctx⟩] }, .void)
  | .establish key id fn ctx base =>
    ({ t with units := dropAbove t.units key base ++ [⟨key, 0, id, fn, ctx⟩] }, .void)
  | .revert key base =>
    ({ t with
      units := if base < 0 ∨ (t.units.length : Int) < base then t.units
        else dropAbove t.units key base }, .void)
  | .pop key => ({ t with units := dropAbove t.units key 0 }, .void)
  | .reset d =>
    ({ t with units := if 0 ≤ d ∧ d ≤ t.units.length then t.units.take d.toNat else t.units },
      .void)
  | .top key => (t, .value (((unitOf t.units key).map (·.id)).getD 0))
  | .topFn key => (t, .addr ((unitOf t.units key).bind (·.fn)))
  | .topCtx key => (t, .addr ((unitOf t.units key).bind (·.ctx)))
  | .topPair key =>
    (t, .pair (((unitOf t.units key).map (·.id)).getD 0) ((unitOf t.units key).bind (·.ctx)))
  | .topFnPair key =>
    (t, .fnPair ((unitOf t.units key).bind (·.fn)) ((unitOf t.units key).bind (·.ctx)))
  | .depth => (t, .value t.units.length)
  | .onkey => (t, .value (if t.units = [] then 0 else 1))
  | .oncode => (t, .value t.oncode)
  | .setOncode c => ({ t with oncode := c }, .void)
  | .onSource => (t, .value (newSource t))
  | .setOnSource key => (newSetSource t key, .void)
  | .finishTarget fn => ({ t with finishFn := fn }, .void)
  | .signalFinish fn => (t, newFinish t fn)

def newCall (t : NewTask) : Call → NewTask × Answer
  | .on op => ({ t with on := (newOn t.on op).1 }, .on (newOn t.on op).2)
  | .ctl op =>
    ({ t with gens := (number t.gens t.next op).1, next := (number t.gens t.next op).2.1 },
      .ctl (number t.gens t.next op).2.2)

def newRun (t : NewTask) : List Call → NewTask × List Answer
  | [] => (t, [])
  | c :: calls =>
    ((newRun (newCall t c).1 calls).1, (newCall t c).2 :: (newRun (newCall t c).1 calls).2)

def answerAt (bufs : Nat → Nat) : Answer → Answer
  | .on reply => .on reply
  | .ctl reply => .ctl (replyAt bufs reply)

section OnCalls
variable {junk : OnFrame} {ok : Bool}

def TaskOn.seen (t : TaskOn) : NewOn := ⟨t.st.live, t.oncode, t.onSource, t.finishFn⟩

theorem topFnPair_unit (st : OnState) (key : Int) : pliOnTopFnPair st key =
    ((unitOf st.live key).bind (·.fn), (unitOf st.live key).bind (·.ctx)) := by
  rw [topFnPair_live, unitOf]
  cases topmost (hasKey key) st.live <;> rfl

theorem topPair_unit (st : OnState) (key : Int) : pliOnTopPair st key =
    (((unitOf st.live key).map (·.id)).getD 0, (unitOf st.live key).bind (·.ctx)) := by
  rw [pliOnTopPair, scanDown_topmost (live_bound st), unitOf, OnState.live]
  cases topmost (hasKey key) (st.onStack.take st.onSp) <;> rfl

theorem live_nil_iff (st : OnState) : st.live = [] ↔ ¬ 0 < st.onSp := by
  rw [← List.length_eq_zero_iff, live_length]
  omega

theorem establish_dropAbove {st st' : OnState} {key id base : Int} {fn ctx : Option Nat}
    (established : pliOnEstablish junk ok st key id fn ctx base = some st') :
    st'.live = dropAbove st.live key base ++ [⟨key, 0, id, fn, ctx⟩] := by
  have clipped : pliOnEstablish junk ok st key id fn ctx base =
      pliOnEstablish junk ok st key id fn ctx base.toNat := by
    unfold pliOnEstablish
    by_cases below : base < 0
    · have zero : base.toNat = 0 := by omega
      simp [below, zero]
    · have same : (base.toNat : Int) = base := by omega
      rw [same]
  rw [clipped] at established
  exact establish_live established

theorem revert_dropAbove (st : OnState) (key base : Int) :
    (pliOnRevert junk ok st key base).live =
      if base < 0 ∨ (st.live.length : Int) < base then st.live else dropAbove st.live key base := by
  rw [live_length]
  by_cases outside : base < 0 ∨ (st.onSp : Int) < base
  · rw [if_pos outside, pliOnRevert, if_pos outside]
  · have same : (base.toNat : Int) = base := by omega
    have inside : base.toNat ≤ st.onSp := by omega
    have reverted := revert_live junk ok st key inside
    rw [same] at reverted
    rw [if_neg outside, reverted, dropAbove]

theorem pop_dropAbove (st : OnState) (key : Int) :
    (rtPliOnPop junk ok st key).live = dropAbove st.live key 0 := by
  have reverted := @revert_dropAbove junk ok st key 0
  rw [if_neg (by omega)] at reverted
  have inside : ¬ ((0 : Int) < 0 ∨ (st.onSp : Int) < 0) := by omega
  rw [← reverted]
  unfold pliOnRevert rtPliOnPop
  exact (congrArg OnState.live (if_neg inside)).symm

theorem reset_take (st : OnState) (d : Int) : (pliOnResetError junk ok st d).live =
    if 0 ≤ d ∧ d ≤ st.live.length then st.live.take d.toNat else st.live := by
  rw [live_length]
  by_cases inside : 0 ≤ d ∧ d ≤ (st.onSp : Int)
  · have same : (d.toNat : Int) = d := by omega
    have cut := reset_live junk ok st (show d.toNat ≤ st.onSp by omega)
    rw [same] at cut
    rw [if_pos inside, cut]
  · rw [if_neg inside, pliOnResetError, dif_neg inside]

theorem source_seen (t : TaskOn) : pliOnSource t = newSource t.seen := by
  unfold pliOnSource newSource TaskOn.seen
  by_cases some : 0 < t.st.onSp
  · have top : t.st.live.getLast? = t.st.onStack[t.st.onSp - 1]? := by
      rw [List.getLast?_eq_getElem?, live_length, OnState.live, List.getElem?_take,
        if_pos (by omega)]
    have bound := live_bound t.st
    rw [if_pos some, top, List.getElem?_eq_getElem (by omega)]
    rfl
  · rw [if_neg some, (live_nil_iff t.st).mpr some]
    rfl

theorem setSource_seen (t : TaskOn) (key : Int) :
    (pliSetOnSource t key).seen = newSetSource t.seen key := by
  unfold pliSetOnSource newSetSource TaskOn.seen
  by_cases some : 0 < t.st.onSp
  · have units : t.st.live ≠ [] := fun none => (live_nil_iff t.st).mp none some
    rw [if_pos some, if_neg units, live_length]
    simp only [setSource, OnState.live, NewOn.mk.injEq, and_true]
    exact (List.take_modify ..)
  · rw [if_neg some, if_pos ((live_nil_iff t.st).mpr some)]

theorem finish_seen (t : TaskOn) (fn : Option Nat) :
    pliSignalFinish t fn = newFinish t.seen fn := by
  unfold pliSignalFinish newFinish TaskOn.seen
  cases fn with
  | none => simp
  | some fn =>
    by_cases target : t.finishFn = some fn
    · simp only [target, topFnPair_unit, ne_eq, not_true_eq_false, ↓reduceIte, reduceCtorEq,
        or_self]
      cases unitOf t.st.live rtFinishKey with
      | none => rfl
      | some f =>
        obtain ⟨key, src, id, fn, ctx⟩ := f
        cases fn <;> rfl
    · simp [target]

theorem onCall_seen {t t' : TaskOn} {op : OnOp} {reply : OnReply}
    (called : onCall junk ok t op = some (t', reply)) : newOn t.seen op = (t'.seen, reply) := by
  cases op with
  | push key id fn ctx =>
    obtain ⟨st, pushed, same⟩ := Option.map_eq_some_iff.mp called
    cases same
    simp only [newOn, TaskOn.seen, push_live pushed]
  | establish key id fn ctx base =>
    obtain ⟨st, established, same⟩ := Option.map_eq_some_iff.mp called
    cases same
    simp only [newOn, TaskOn.seen, establish_dropAbove established]
  | revert key base =>
    cases called
    simp only [newOn, TaskOn.seen, revert_dropAbove]
    rfl
  | pop key =>
    cases called
    simp only [newOn, TaskOn.seen, pop_dropAbove]
  | reset d =>
    cases called
    simp only [newOn, TaskOn.seen, reset_take]
    rfl
  | top key =>
    cases called
    simp only [newOn, topPair_unit, TaskOn.seen]
  | topFn key =>
    cases called
    simp only [newOn, topFnPair_unit, TaskOn.seen]
  | topCtx key | topPair key =>
    cases called
    simp only [newOn, topPair_unit, TaskOn.seen]
  | topFnPair key =>
    cases called
    simp only [newOn, topFnPair_unit, TaskOn.seen]
  | depth =>
    cases called
    simp only [newOn, TaskOn.seen, live_length, pliOnDepthError]
  | onkey =>
    cases called
    by_cases some : 0 < t.st.onSp <;> simp [newOn, TaskOn.seen, live_nil_iff, some]
  | oncode | setOncode c =>
    cases called
    rfl
  | onSource =>
    cases called
    simp only [newOn, source_seen]
  | setOnSource key =>
    cases called
    simp only [newOn, setSource_seen]
  | finishTarget fn =>
    cases called
    rfl
  | signalFinish fn =>
    cases called
    simp only [newOn, finish_seen]

end OnCalls

theorem init_coherent : Coherent Sys.init := by
  have nobody : ∀ x, owns Sys.init x = none := by
    rintro (t | t) <;> rfl
  refine ⟨⟨fun x y p held => ?_, fun x p held => ?_⟩, fun t => ⟨_, rfl⟩, fun t p n held => ?_,
    fun t => ⟨fun _ => [], [], ?_, rfl⟩⟩
  · rw [nobody] at held
    cases held
  · rw [nobody] at held
    cases held
  · cases held
  · exact start_inv

end PliTaskLocal
