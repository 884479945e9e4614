import PliLlvm.Lib.Run
import PliLlvm.Lib.Block

/- The ON-unit stack of one task (runtime/rt_cond.c). Code and context addresses
   are opaque numbers, none is NULL. The ON stack's int depth and capacity are
   Nat: a capacity that would not fit an int asks for a block no allocator
   grants, and a refused growth ends the process. -/
namespace PliOnStack
open Runs Blocks
open Function (update update_idem update_of_ne update_self)

/-- PLI_ON_INIT, the first capacity of a task's handler stack. -/
def pliOnInit : Nat := 16

structure OnFrame where
  key : Int
  src : Int
  id : Int
  fn : Option Nat
  ctx : Option Nat

/-- The ON part of pli_task_local: the allocated block, its depth and capacity. -/
structure OnState where
  onStack : List OnFrame
  onSp : Nat
  onCap : Nat
  sized : onStack.length = onCap
  room : onSp ≤ onCap

def OnState.live (st : OnState) : List OnFrame := st.onStack.take st.onSp

def OnState.empty : OnState := ⟨[], 0, 0, rfl, Nat.le_refl _⟩

def hasKey (key : Int) (f : OnFrame) : Bool := f.key == key

/- `ok` is realloc's answer: true when it granted the block. Cells a growth adds
   are indeterminate in C; they hold `junk` here. -/
section Operations
variable (junk : OnFrame) (ok : Bool)

def onShrink (st : OnState) : OnState :=
  if h : (pliOnInit < st.onCap ∧ st.onSp ≤ st.onCap / 4) ∧ ok = true then
    ⟨realloc junk st.onStack (st.onCap / 2), st.onSp, st.onCap / 2,
      realloc_length junk st.onStack (st.onCap / 2), by omega⟩
  else st

/-- The growth test at the head of rt_pli_on_push; none is the abort. -/
def onGrow (st : OnState) : Option OnState :=
  if st.onSp = st.onCap then
    if ok then
      let cap := if st.onCap = 0 then pliOnInit else st.onCap * 2
      some ⟨realloc junk st.onStack cap, st.onSp, cap, realloc_length junk st.onStack cap, by
        have := st.room
        simp only [cap]
        split <;> omega⟩
    else none
  else some st

def rtPliOnPush (st : OnState) (key id : Int) (fn ctx : Option Nat) : Option OnState :=
  (onGrow junk ok st).bind fun st =>
    if h : st.onSp < st.onCap then
      some ⟨st.onStack.set st.onSp ⟨key, 0, id, fn, ctx⟩, st.onSp + 1, st.onCap,
        by rw [List.length_set, st.sized], h⟩
    else none

/-- Close the gap at cell `i` and pop: the inner loop of ON and REVERT. -/
def closeGap (st : OnState) (i : Nat) : OnState :=
  ⟨shiftDown st.onStack i (st.onSp - 1 - i), st.onSp - 1, st.onCap,
    by rw [shiftDown_length, st.sized], by have := st.room; omega⟩

def pliOnEstablish (st : OnState) (key id : Int) (fn ctx : Option Nat) (base : Int) :
    Option OnState :=
  let base := if base < 0 then 0 else base
  let st := match scanDown (hasKey key) st.onStack base.toNat st.onSp with
    | some i => closeGap st i
    | none => st
  rtPliOnPush junk ok st key id fn ctx

def pliOnRevert (st : OnState) (key base : Int) : OnState :=
  if base < 0 ∨ (st.onSp : Int) < base then st
  else match scanDown (hasKey key) st.onStack base.toNat st.onSp with
    | some i => onShrink junk ok (closeGap st i)
    | none => st

def pliOnDepthError (st : OnState) : Int := st.onSp

def pliOnResetError (st : OnState) (d : Int) : OnState :=
  if h : 0 ≤ d ∧ d ≤ st.onSp then
    onShrink junk ok ⟨st.onStack, d.toNat, st.onCap, st.sized, by have := st.room; omega⟩
  else st

end Operations

def pliOnTopFnPair (st : OnState) (key : Int) : Option Nat × Option Nat :=
  match (scanDown (hasKey key) st.onStack 0 st.onSp).bind (st.onStack[·]?) with
  | some f => (f.fn, f.ctx)
  | none => (none, none)

def pliOnTopPair (st : OnState) (key : Int) : Int × Option Nat :=
  match (scanDown (hasKey key) st.onStack 0 st.onSp).bind (st.onStack[·]?) with
  | some f => (f.id, f.ctx)
  | none => (0, none)

theorem live_bound (st : OnState) : st.onSp ≤ st.onStack.length := by
  rw [st.sized]
  exact st.room

theorem live_length (st : OnState) : st.live.length = st.onSp := by
  simp [OnState.live, live_bound st]

theorem shrink_live (junk : OnFrame) (ok : Bool) (st : OnState) :
    (onShrink junk ok st).live = st.live := by
  unfold onShrink
  split
  · have fits : st.onSp ≤ st.onCap / 2 := by omega
    exact realloc_take junk st.onStack fits (live_bound st)
  · rfl

variable {junk : OnFrame} {ok : Bool} {st st' : OnState}

theorem grow_live
    (h : onGrow junk ok st = some st') : st'.live = st.live ∧ st'.onSp < st'.onCap := by
  unfold onGrow at h
  split at h
  · rename_i full
    split at h
    · cases h
      have larger : st.onSp < if st.onCap = 0 then pliOnInit else st.onCap * 2 := by
        split
        · simp only [pliOnInit]
          omega
        · omega
      exact ⟨realloc_take junk st.onStack (Nat.le_of_lt larger) (live_bound st), larger⟩
    · simp at h
  · cases h
    have := st.room
    exact ⟨rfl, by omega⟩

variable {key : Int}

theorem push_live {id : Int} {fn ctx : Option Nat}
    (h : rtPliOnPush junk ok st key id fn ctx = some st') :
    st'.live = st.live ++ [⟨key, 0, id, fn, ctx⟩] := by
  obtain ⟨grown, hgrow, h⟩ := Option.bind_eq_some_iff.mp h
  obtain ⟨same, space⟩ := grow_live hgrow
  rw [dif_pos space] at h
  cases h
  rw [← same]
  simp only [OnState.live]
  have bound : grown.onSp < grown.onStack.length := by rw [grown.sized]; exact space
  exact set_take_succ _ bound

theorem push_granted (junk : OnFrame) (st : OnState) (key id : Int) (fn ctx : Option Nat) :
    ∃ st', rtPliOnPush junk true st key id fn ctx = some st' := by
  cases hgrow : onGrow junk true st with
  | none =>
    unfold onGrow at hgrow
    split at hgrow <;> simp at hgrow
  | some grown =>
    obtain ⟨_, space⟩ := grow_live hgrow
    simp [rtPliOnPush, hgrow, space]

variable {base : Nat}

theorem closeGap_live {p : OnFrame → Bool} {i : Nat}
    (h : scanDown p st.onStack base st.onSp = some i) :
    (closeGap st i).live = st.live.take base ++ dropTopmost p (st.live.drop base) :=
  scanDown_shiftDown (live_bound st) h

theorem unmatched_live {p : OnFrame → Bool} (h : scanDown p st.onStack base st.onSp = none) :
    st.live = st.live.take base ++ dropTopmost p (st.live.drop base) := by
  have absent : ∀ x ∈ st.live.drop base, p x = false := scanDown_none (live_bound st) h
  rw [dropTopmost_absent absent, List.take_append_drop]

theorem establish_live {id : Int} {fn ctx : Option Nat}
    (h : pliOnEstablish junk ok st key id fn ctx base = some st') :
    st'.live = st.live.take base ++ dropTopmost (hasKey key) (st.live.drop base) ++
      [⟨key, 0, id, fn, ctx⟩] := by
  have nonneg : ¬ ((base : Int) < 0) := by omega
  simp only [pliOnEstablish, nonneg, ↓reduceIte, Int.toNat_natCast] at h
  rw [push_live h]
  congr 1
  split
  · rename_i i found
    exact closeGap_live found
  · rename_i missing
    exact unmatched_live missing

theorem revert_live (junk : OnFrame) (ok : Bool) (st : OnState) (key : Int) {base : Nat}
    (inside : base ≤ st.onSp) :
    (pliOnRevert junk ok st key base).live =
      st.live.take base ++ dropTopmost (hasKey key) (st.live.drop base) := by
  have legal : ¬ ((base : Int) < 0 ∨ (st.onSp : Int) < base) := by omega
  simp only [pliOnRevert, legal, ↓reduceIte, Int.toNat_natCast]
  split
  · rename_i i found
    rw [shrink_live]
    exact closeGap_live found
  · rename_i missing
    exact unmatched_live missing

theorem reset_live (junk : OnFrame) (ok : Bool) (st : OnState) {d : Nat} (inside : d ≤ st.onSp) :
    (pliOnResetError junk ok st d).live = st.live.take d := by
  have legal : 0 ≤ (d : Int) ∧ (d : Int) ≤ st.onSp := by omega
  rw [pliOnResetError, dif_pos legal, shrink_live]
  simp [OnState.live, List.take_take, inside]

theorem topFnPair_live (st : OnState) (key : Int) :
    pliOnTopFnPair st key =
      match topmost (hasKey key) st.live with
      | some f => (f.fn, f.ctx)
      | none => (none, none) := by
  rw [pliOnTopFnPair, scanDown_topmost (live_bound st)]
  rfl

/- The block structure of a run. An activation saves the depth at its entry and
   passes it to every ON and REVERT it executes, and to the reset on leaving. -/
inductive Action where
  | enter
  | on (key id : Int) (fn ctx : Option Nat)
  | revert (key : Int)
  | leave

structure Event where
  action : Action
  granted : Bool

structure Task where
  st : OnState
  saved : List Int

def Task.start : Task := ⟨OnState.empty, []⟩

def step (junk : OnFrame) (t : Task) (e : Event) : Option Task :=
  match e.action, t.saved with
  | .enter, saved => some ⟨t.st, pliOnDepthError t.st :: saved⟩
  | .on key id fn ctx, d :: rest =>
    (pliOnEstablish junk e.granted t.st key id fn ctx d).map fun st => ⟨st, d :: rest⟩
  | .revert key, d :: rest => some ⟨pliOnRevert junk e.granted t.st key d, d :: rest⟩
  | .leave, d :: rest => some ⟨pliOnResetError junk e.granted t.st d, rest⟩
  | _, [] => none

abbrev Scope := Int → Option (Option Nat × Option Nat)

/-- Block-scoped handlers, said without a stack of frames: every active block has
    its own table, and only the innermost block's table changes. -/
def scopeStep (scopes : List Scope) (e : Event) : Option (List Scope) :=
  match e.action, scopes with
  | .enter, scopes => some ((fun _ => none) :: scopes)
  | .on key _ fn ctx, sc :: rest => some (update sc key (some (fn, ctx)) :: rest)
  | .revert key, sc :: rest => some (update sc key none :: rest)
  | .leave, _ :: rest => some rest
  | _, [] => none

def handlerOf : List Scope → Int → Option Nat × Option Nat
  | [], _ => (none, none)
  | sc :: rest, key => (sc key).getD (handlerOf rest key)

def unitOf (f : OnFrame) : Option Nat × Option Nat := (f.fn, f.ctx)

structure SegmentHolds (seg : List OnFrame) (sc : Scope) : Prop where
  distinct : (seg.map (·.key)).Nodup
  table : ∀ key, sc key = (topmost (hasKey key) seg).map unitOf

inductive Holds : List OnFrame → List Int → List Scope → Prop where
  | nil : Holds [] [] []
  | cons {below seg : List OnFrame} {saved : List Int} {sc : Scope} {scopes : List Scope}
      (outer : Holds below saved scopes) (inner : SegmentHolds seg sc) :
      Holds (below ++ seg) (below.length :: saved) (sc :: scopes)

variable {seg : List OnFrame}

theorem dropTopmost_distinct (distinct : (seg.map (·.key)).Nodup) :
    dropTopmost (hasKey key) seg = seg.filter fun f => !hasKey key f := by
  apply dropTopmost_eq_filter
  refine (List.pairwise_map.mp distinct).imp ?_
  intro f g ne hit
  simp only [hasKey, beq_iff_eq] at hit
  simpa [hasKey, ← hit] using ne

theorem segment_drop {sc : Scope} (holds : SegmentHolds seg sc) (key : Int) :
    SegmentHolds (dropTopmost (hasKey key) seg) (update sc key none) := by
  rw [dropTopmost_distinct holds.distinct]
  constructor
  · exact holds.distinct.sublist (List.filter_sublist.map _)
  · intro other
    rw [topmost, ← List.filter_reverse, List.find?_filter]
    by_cases same : other = key
    · subst same
      rw [update_self, List.find?_eq_none.mpr (by simp)]
      rfl
    · rw [update_of_ne same, holds.table other, topmost]
      congr 2
      funext f
      by_cases hit : f.key = other
      · simp [hasKey, hit, same]
      · simp [hasKey, hit]

theorem segment_push {sc : Scope} (id : Int)
    (fn ctx : Option Nat) (holds : SegmentHolds seg sc) (free : sc key = none) :
    SegmentHolds (seg ++ [⟨key, 0, id, fn, ctx⟩]) (update sc key (some (fn, ctx))) := by
  have absent : topmost (hasKey key) seg = none := by
    have := holds.table key
    rw [free] at this
    exact Option.map_eq_none_iff.mp this.symm
  constructor
  · rw [List.map_append, List.nodup_append]
    refine ⟨holds.distinct, by simp, ?_⟩
    intro k mem last here same
    obtain ⟨f, hf, rfl⟩ := List.mem_map.mp mem
    simp only [List.map_cons, List.map_nil, List.mem_singleton] at here
    have miss := List.find?_eq_none.mp absent f (List.mem_reverse.mpr hf)
    simp [hasKey, same, here] at miss
  · intro other
    rw [topmost_append]
    by_cases same : other = key
    · subst same
      simp [topmost, hasKey, unitOf]
    · have miss : topmost (hasKey other) [OnFrame.mk key 0 id fn ctx] = none := by
        simp [topmost, hasKey, Ne.symm same]
      rw [update_of_ne same, miss, Option.none_or, holds.table other]

variable {scopes : List Scope}

theorem holds_handler {live : List OnFrame} {saved : List Int}
    (holds : Holds live saved scopes) (key : Int) :
    ((topmost (hasKey key) live).map unitOf).getD (none, none) = handlerOf scopes key := by
  induction holds with
  | nil => rfl
  | @cons below seg saved sc scopes outer inner ih =>
    rw [topmost_append, handlerOf, inner.table key, ← ih]
    cases topmost (hasKey key) seg <;> simp

theorem step_holds (junk : OnFrame) (t : Task) (scopes : List Scope) (e : Event) (t' : Task)
    (holds : Holds t.st.live t.saved scopes) (h : step junk t e = some t') :
    ∃ scopes', scopeStep scopes e = some scopes' ∧ Holds t'.st.live t'.saved scopes' := by
  obtain ⟨action, granted⟩ := e
  obtain ⟨st, saved⟩ := t
  generalize hlive : st.live = live at holds
  cases action with
  | enter =>
    cases h
    refine ⟨_, rfl, ?_⟩
    have fresh : SegmentHolds [] fun _ => none := ⟨by simp, fun _ => rfl⟩
    have opened := Holds.cons holds fresh
    rw [List.append_nil] at opened
    have depth : pliOnDepthError st = live.length := by
      rw [← hlive, live_length]
      rfl
    simpa [depth, hlive] using opened
  | on key id fn ctx =>
    cases holds with
    | nil => simp [step] at h
    | @cons below seg saved sc scopes outer inner =>
      simp only [step, Option.map_eq_some_iff] at h
      obtain ⟨st', established, rfl⟩ := h
      refine ⟨_, rfl, ?_⟩
      have result := establish_live established
      rw [hlive, List.take_left, List.drop_left, List.append_assoc] at result
      have placed := segment_push id fn ctx (segment_drop inner key) (update_self ..)
      rw [update_idem] at placed
      dsimp only
      rw [result]
      exact Holds.cons outer placed
  | revert key =>
    cases holds with
    | nil => simp [step] at h
    | @cons below seg saved sc scopes outer inner =>
      cases h
      refine ⟨_, rfl, ?_⟩
      have inside : below.length ≤ st.onSp := by
        rw [← live_length, hlive]
        simp
      dsimp only
      rw [revert_live junk granted st key inside, hlive, List.take_left, List.drop_left]
      exact Holds.cons outer (segment_drop inner key)
  | leave =>
    cases holds with
    | nil => simp [step] at h
    | @cons below seg saved sc scopes outer inner =>
      cases h
      refine ⟨_, rfl, ?_⟩
      have inside : below.length ≤ st.onSp := by
        rw [← live_length, hlive]
        simp
      dsimp only
      rw [reset_live junk granted st inside, hlive, List.take_left]
      exact outer

theorem step_granted (junk : OnFrame) (t : Task) (scopes : List Scope) (e : Event)
    (scopes' : List Scope) (holds : Holds t.st.live t.saved scopes)
    (h : scopeStep scopes e = some scopes') (granted : e.granted = true) :
    ∃ t', step junk t e = some t' := by
  obtain ⟨action, answer⟩ := e
  obtain ⟨st, saved⟩ := t
  cases granted
  generalize st.live = live at holds
  cases action with
  | enter => exact ⟨_, rfl⟩
  | on key id fn ctx =>
    cases holds with
    | nil => simp [scopeStep] at h
    | @cons below seg saved sc scopes outer inner =>
      obtain ⟨st', pushed⟩ := push_granted junk
        (match scanDown (hasKey key) st.onStack below.length st.onSp with
          | some i => closeGap st i
          | none => st) key id fn ctx
      refine ⟨⟨st', below.length :: saved⟩, ?_⟩
      have nonneg : ¬ ((below.length : Int) < 0) := by omega
      simp only [step, pliOnEstablish, nonneg, ↓reduceIte, Int.toNat_natCast, pushed,
        Option.map_some]
  | revert key | leave =>
    cases holds with
    | nil => simp [scopeStep] at h
    | cons outer inner => exact ⟨_, rfl⟩

def activationEntries (live : List OnFrame) : List Int → List (List OnFrame)
  | [] => []
  | d :: saved => live.drop d.toNat :: activationEntries (live.take d.toNat) saved

theorem holds_distinct {live : List OnFrame} {saved : List Int} (holds : Holds live saved scopes) :
    ∀ seg ∈ activationEntries live saved, (seg.map (·.key)).Nodup := by
  induction holds with
  | nil => simp [activationEntries]
  | @cons below seg saved sc scopes outer inner ih =>
    intro part mem
    simp only [activationEntries, Int.toNat_natCast, List.take_left, List.drop_left,
      List.mem_cons] at mem
    rcases mem with rfl | mem
    · exact inner.distinct
    · exact ih part mem

inductive Balanced : List Event → Prop where
  | nil : Balanced []
  | act {e : Event} {rest : List Event} (open' : e.action ≠ .enter) (close : e.action ≠ .leave)
      (tail : Balanced rest) : Balanced (e :: rest)
  | block {e f : Event} {inner rest : List Event} (opens : e.action = .enter)
      (body : Balanced inner) (closes : f.action = .leave) (tail : Balanced rest) :
      Balanced (e :: (inner ++ f :: rest))

/-- The block with saved depth `d` is active and owns everything above `d`. -/
structure Entered (t : Task) (d : Nat) (outer : List Int) : Prop where
  chain : t.saved = (d : Int) :: outer
  depth : d ≤ t.st.onSp

variable {t t' : Task} {e : Event}

theorem act_frame {d : Nat} {outer : List Int}
    (active : Entered t d outer) (opens : e.action ≠ .enter) (closes : e.action ≠ .leave)
    (h : step junk t e = some t') :
    Entered t' d outer ∧ t'.st.live.take d = t.st.live.take d := by
  obtain ⟨action, granted⟩ := e
  obtain ⟨st, saved⟩ := t
  obtain ⟨chain, depth⟩ := active
  dsimp only at chain depth opens closes
  subst chain
  have exact' : (st.live.take d).length = d := by
    rw [List.length_take, live_length]
    omega
  cases action with
  | enter | leave => contradiction
  | on key id fn ctx =>
    simp only [step, Option.map_eq_some_iff] at h
    obtain ⟨st', established, rfl⟩ := h
    have result := establish_live established
    rw [List.append_assoc] at result
    refine ⟨⟨rfl, ?_⟩, ?_⟩
    · dsimp only
      rw [← live_length st', result, List.length_append, exact']
      omega
    · dsimp only
      rw [result, List.take_append_of_le_length (by omega), List.take_take, Nat.min_self]
  | revert key =>
    cases h
    have result := revert_live junk granted st key depth
    refine ⟨⟨rfl, ?_⟩, ?_⟩
    · dsimp only
      rw [← live_length, result, List.length_append, exact']
      omega
    · dsimp only
      rw [result, List.take_append_of_le_length (by omega), List.take_take, Nat.min_self]

theorem enter_entered (opens : e.action = .enter) (h : step junk t e = some t') :
    Entered t' t.st.onSp t.saved ∧ t'.st.live = t.st.live := by
  obtain ⟨action, granted⟩ := e
  cases opens
  cases h
  exact ⟨⟨rfl, Nat.le_refl _⟩, rfl⟩

theorem leave_frame {d : Nat} {outer : List Int}
    (active : Entered t d outer) (closes : e.action = .leave) (h : step junk t e = some t') :
    t'.saved = outer ∧ t'.st.live = t.st.live.take d := by
  obtain ⟨action, granted⟩ := e
  obtain ⟨st, saved⟩ := t
  obtain ⟨chain, depth⟩ := active
  cases closes
  dsimp only at chain depth
  subst chain
  cases h
  exact ⟨rfl, reset_live junk granted st depth⟩

theorem balanced_frame {es : List Event} (balanced : Balanced es) :
    ∀ {t t' : Task} {d : Nat} {outer : List Int}, Entered t d outer →
      run (step junk) t es = some t' →
      Entered t' d outer ∧ t'.st.live.take d = t.st.live.take d := by
  induction balanced with
  | nil =>
    intro t t' d outer active h
    cases h
    exact ⟨active, rfl⟩
  | act opens closes tail ih =>
    intro t t' d outer active h
    obtain ⟨mid, hstep, rest⟩ := run_cons_iff.mp h
    obtain ⟨active', same⟩ := act_frame active opens closes hstep
    obtain ⟨final, same'⟩ := ih active' rest
    exact ⟨final, same'.trans same⟩
  | block opens body closes tail ihBody ihTail =>
    intro t t' d outer active h
    obtain ⟨inside, hopen, rest⟩ := run_cons_iff.mp h
    obtain ⟨filled, hbody, rest⟩ := run_append_iff.mp rest
    obtain ⟨closed, hclose, rest⟩ := run_cons_iff.mp rest
    obtain ⟨activeIn, sameIn⟩ := enter_entered opens hopen
    obtain ⟨activeOut, kept⟩ := ihBody activeIn hbody
    obtain ⟨chain, restored⟩ := leave_frame activeOut closes hclose
    have live_same : closed.st.live = t.st.live := by
      rw [restored, kept, sameIn]
      exact List.take_of_length_le (Nat.le_of_eq (live_length t.st))
    have activeClosed : Entered closed d outer := by
      refine ⟨chain.trans active.chain, ?_⟩
      rw [← live_length, live_same, live_length]
      exact active.depth
    obtain ⟨final, same⟩ := ihTail activeClosed rest
    exact ⟨final, by rw [same, live_same]⟩

theorem activation_restores {inner : List Event} {f : Event}
    (opens : e.action = .enter) (body : Balanced inner) (closes : f.action = .leave)
    (h : run (step junk) t (e :: (inner ++ [f])) = some t') :
    t'.saved = t.saved ∧ t'.st.live = t.st.live := by
  obtain ⟨inside, hopen, rest⟩ := run_cons_iff.mp h
  obtain ⟨filled, hbody, rest⟩ := run_append_iff.mp rest
  obtain ⟨closed, hclose, last⟩ := run_cons_iff.mp rest
  cases last
  obtain ⟨activeIn, sameIn⟩ := enter_entered opens hopen
  obtain ⟨activeOut, kept⟩ := balanced_frame body activeIn hbody
  obtain ⟨chain, restored⟩ := leave_frame activeOut closes hclose
  refine ⟨chain, ?_⟩
  rw [restored, kept, sameIn]
  exact List.take_of_length_le (Nat.le_of_eq (live_length t.st))

theorem topFnPair_of_holds (holds : Holds t.st.live t.saved scopes) (key : Int) :
    pliOnTopFnPair t.st key = handlerOf scopes key := by
  rw [topFnPair_live, ← holds_handler holds key]
  cases topmost (hasKey key) t.st.live <;> rfl

/-- Every well-bracketed run of block activations: as long as the allocator grants
    its blocks the run completes; after it the unit found for each key is the one
    block scoping gives; every activation owns at most one entry to a key; and an
    activation entered and left again changes nothing its callers can find. -/
theorem on_stack_block_scoped (junk : OnFrame) (es : List Event) (scopes : List Scope)
    (bracketed : run scopeStep [] es = some scopes) :
    ((∀ e ∈ es, e.granted = true) → ∃ t, run (step junk) Task.start es = some t) ∧
    ∀ t, run (step junk) Task.start es = some t →
      (∀ key, pliOnTopFnPair t.st key = handlerOf scopes key) ∧
      (∀ seg ∈ activationEntries t.st.live t.saved, (seg.map (·.key)).Nodup) ∧
      ∀ e inner f t', e.action = .enter → Balanced inner → f.action = .leave →
        run (step junk) t (e :: (inner ++ [f])) = some t' →
        t'.saved = t.saved ∧ t'.st.live = t.st.live ∧
          ∀ key, pliOnTopFnPair t'.st key = pliOnTopFnPair t.st key := by
  have start : Holds Task.start.st.live Task.start.saved [] := Holds.nil
  constructor
  · intro granted
    exact run_progress (step_holds junk) (step_granted junk) start bracketed granted
  · intro t h
    obtain ⟨found, hfound, holds⟩ := run_simulates (step_holds junk) start h
    have same : found = scopes := Option.some.inj (hfound.symm.trans bracketed)
    subst same
    refine ⟨topFnPair_of_holds holds, holds_distinct holds, ?_⟩
    intro e inner f t' opens body closes h'
    obtain ⟨chain, live⟩ := activation_restores opens body closes h'
    refine ⟨chain, live, ?_⟩
    intro key
    rw [topFnPair_live, topFnPair_live, live]

/-- A block replaces its own unit, an inner block covers it and is left again. -/
theorem nested_activation_run :
    ∃ t, run (step ⟨0, 0, 0, none, none⟩) Task.start
        [⟨.enter, true⟩, ⟨.on 0 1 (some 7) none, true⟩, ⟨.on 0 2 (some 8) (some 3), true⟩,
          ⟨.enter, true⟩, ⟨.on 0 3 (some 9) none, true⟩, ⟨.leave, false⟩] = some t ∧
      pliOnTopFnPair t.st 0 = (some 8, some 3) := by
  have spec := on_stack_block_scoped ⟨0, 0, 0, none, none⟩
    [⟨.enter, true⟩, ⟨.on 0 1 (some 7) none, true⟩, ⟨.on 0 2 (some 8) (some 3), true⟩,
      ⟨.enter, true⟩, ⟨.on 0 3 (some 9) none, true⟩, ⟨.leave, false⟩] _ rfl
  refine ⟨_, rfl, ?_⟩
  rw [(spec.2 _ rfl).1 0]
  rfl

end PliOnStack
