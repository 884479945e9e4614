import PliLlvm.Hir.EffectFacts
import PliLlvm.Lib.Sweep

/- When the bounded rounds of analyzeEffects reach their fixed point: a round is one sweep
   over the facts of all procedures. The rounds stop after as many sweeps as there are
   procedures, and two; a chain of calls takes one sweep more at every step to a caller that
   is listed before its callee. -/
namespace PliEffects
open PliHir

def known (bits : Nat → Bits) : Sweep.Known Fact := fun p f => (bits p).has f

def Caught (keys : Finset Int) (k : Int) : Prop := k ∈ keys ∨ 0 ∈ keys

def spread (calls : Nat → List (Nat × Reach)) (keys : Finset Int) (n : Nat) : Sweep.Rules Fact where
  nodes := n
  gives p c g f := ∃ reach, (c, reach) ∈ calls p ∧ carry reach g = f
  late p g f := p < n ∧ (∃ k, g = .raises k ∧ Caught keys k) ∧
    (f = .access .other true ∨ f = .unwinds)

section Round
variable {calls : Nat → List (Nat × Reach)} {keys : Finset Int} {n : Nat}

theorem dispatch_has (b : Bits) (f : Fact) :
    (dispatch keys b).has f ↔
      b.has f ∨ ((∃ k, b.has (.raises k) ∧ Caught keys k) ∧
        (f = .access .other true ∨ f = .unwinds)) := by
  unfold dispatch
  split
  · rename_i handled
    have handled' : ∃ k, b.has (.raises k) ∧ Caught keys k := handled
    rw [and_iff_right handled']
    rcases f with ⟨r, wr⟩ | _ | _ | _ | k
    case access => cases r <;> cases wr <;> simp [Bits.has]
    all_goals simp [Bits.has]
  · rename_i unhandled
    have unhandled' : ¬ ∃ k, b.has (.raises k) ∧ Caught keys k := unhandled
    simp [unhandled']

theorem update_known (s : (Nat → Bits) × Bool) (p : Nat) :
    known (Rounds.update (absorbCalls calls) s p).1 =
      Sweep.visit (spread calls keys n) p (known s.1) := by
  funext q f
  refine propext ?_
  unfold known Sweep.visit
  by_cases same : q = p
  · subst same
    rw [Rounds.update_at, absorbCalls_has]
    constructor
    · rintro (here | ⟨call, mem, g, there, carried⟩)
      · exact Or.inl here
      · exact Or.inr ⟨rfl, call.1, g, ⟨call.2, mem, carried⟩, there⟩
    · rintro (here | ⟨-, c, g, ⟨reach, mem, carried⟩, there⟩)
      · exact Or.inl here
      · exact Or.inr ⟨(c, reach), mem, g, there, carried⟩
  · rw [Rounds.update_other s same]
    simp [same]

theorem called_known (s : (Nat → Bits) × Bool) (k : Nat) :
    known (Rounds.sweep (absorbCalls calls) (List.range k) s).1 =
      Sweep.turns (spread calls keys n) k (known s.1) := by
  induction k with
  | zero => rfl
  | succ k ih =>
    unfold Rounds.sweep at ih ⊢
    rw [List.range_succ, List.foldl_append, Sweep.turns, ← ih]
    exact update_known _ k

theorem handled_at (s : (Nat → Bits) × Bool) (k p : Nat) :
    (Rounds.sweep (fun bits p => dispatch keys (bits p)) (List.range k) s).1 p =
      if p < k then dispatch keys (s.1 p) else s.1 p := by
  induction k with
  | zero => rfl
  | succ k ih =>
    unfold Rounds.sweep at ih ⊢
    rw [List.range_succ, List.foldl_append]
    change (Rounds.update (fun bits p => dispatch keys (bits p)) _ k).1 p = _
    by_cases same : p = k
    · subst same
      rw [Rounds.update_at, ih, if_neg (Nat.lt_irrefl p), if_pos (Nat.lt_succ_self p)]
    · rw [Rounds.update_other _ same, ih]
      have : p < k ↔ p < k + 1 := by omega
      simp only [this]

theorem handled_known (s : (Nat → Bits) × Bool) :
    known (Rounds.sweep (fun bits p => dispatch keys (bits p)) (List.range n) s).1 =
      Sweep.closing (spread calls keys n) (known s.1) := by
  funext p f
  refine propext ?_
  unfold known Sweep.closing
  rw [handled_at]
  split
  · rename_i inside
    rw [dispatch_has]
    constructor
    · rintro (here | ⟨⟨k, raised, caught⟩, new⟩)
      · exact Or.inl here
      · exact Or.inr ⟨_, ⟨inside, ⟨k, rfl, caught⟩, new⟩, raised⟩
    · rintro (here | ⟨g, ⟨-, ⟨k, rfl, caught⟩, new⟩, raised⟩)
      · exact Or.inl here
      · exact Or.inr ⟨⟨k, raised, caught⟩, new⟩
  · rename_i outside
    simp [spread, outside]

theorem round_known (bits : Nat → Bits) :
    known (round calls keys n bits).1 = Sweep.sweep (spread calls keys n) (known bits) := by
  unfold round Sweep.sweep
  rw [handled_known, called_known]
  rfl

theorem repeatRounds_known (left : Nat) (bits : Nat → Bits) :
    known (Rounds.repeatRounds (round calls keys n) left bits) =
      (Sweep.sweep (spread calls keys n))^[left] (known bits) := by
  induction left generalizing bits with
  | zero => rfl
  | succ left ih =>
    unfold Rounds.repeatRounds
    split
    · rw [ih, round_known, Function.iterate_succ_apply]
    · rename_i unchanged
      have still := round_still bits (by simpa using unchanged)
      have fixed : Sweep.sweep (spread calls keys n) (known bits) = known bits := by
        rw [← round_known, still]
      rw [still, Function.iterate_fixed fixed]

def SameMarks (b c : Bits) : Prop :=
  c.io = b.io ∧ c.hasOnUnit = b.hasOnUnit ∧ c.nameEscapes = b.nameEscapes

theorem SameMarks.trans {a b c : Bits} (first : SameMarks a b) (second : SameMarks b c) :
    SameMarks a c :=
  ⟨second.1.trans first.1, second.2.1.trans first.2.1, second.2.2.trans first.2.2⟩

theorem noteReach_marks (b : Bits) (r : Reach) (isWrite : Bool) :
    (noteReach b r isWrite).io = b.io ∧ (noteReach b r isWrite).hasOnUnit = b.hasOnUnit ∧
      (noteReach b r isWrite).nameEscapes = b.nameEscapes := by
  cases r <;> cases isWrite <;> exact ⟨rfl, rfl, rfl⟩

theorem absorb_marks (next cb : Bits) (reach : Reach) : SameMarks next (absorb next cb reach) := by
  refine ⟨?_, ?_, ?_⟩
  · simp [absorb, apply_ite Bits.io, noteReach_marks]
  · simp [absorb, apply_ite Bits.hasOnUnit, noteReach_marks]
  · simp [absorb, apply_ite Bits.nameEscapes, noteReach_marks]

theorem absorbCalls_marks (bits : Nat → Bits) (self : Nat) :
    SameMarks (bits self) (absorbCalls calls bits self) := by
  unfold absorbCalls
  generalize bits self = b
  induction calls self generalizing b with
  | nil => exact ⟨rfl, rfl, rfl⟩
  | cons call rest ih => exact (absorb_marks b (bits call.1) call.2).trans (ih _)

theorem dispatch_marks (b : Bits) : SameMarks b (dispatch keys b) := by
  unfold dispatch
  split <;> exact ⟨rfl, rfl, rfl⟩

theorem round_marks (bits : Nat → Bits) (p : Nat) :
    SameMarks (bits p) ((round calls keys n bits).1 p) := by
  have kept : ∀ q, SameMarks (bits q) ((round calls keys n bits).1 q) := by
    refine @Rounds.sweep_keeps _ _ _ (fun q b => SameMarks (bits q) b) ?_ _ _ ?_
    · intro s q each
      exact (each q).trans (dispatch_marks (s q))
    · refine @Rounds.sweep_keeps _ _ _ (fun q b => SameMarks (bits q) b) ?_ _ _ ?_
      · intro s q each
        exact (each q).trans (absorbCalls_marks s q)
      · exact fun q => ⟨rfl, rfl, rfl⟩
  exact kept p

theorem bits_ext {b c : Bits} (marks : SameMarks b c) (facts : c.has = b.has) : c = b := by
  have bit (f : Fact) : c.has f ↔ b.has f := iff_of_eq (congrFun facts f)
  obtain ⟨io, unit, escapes⟩ := marks
  have keys : c.raiseKeys = b.raiseKeys := Finset.ext fun k => bit (.raises k)
  have readsOther := bit (.access .other false)
  have writesOther := bit (.access .other true)
  have readsArg := bit (.access .arg false)
  have writesArg := bit (.access .arg true)
  have unknown := bit .unknown
  have unwinds := bit .unwinds
  have endless := bit .endless
  cases b
  cases c
  simp only [Bits.has, Bool.coe_iff_coe] at *
  simp only [Bits.mk.injEq]
  exact ⟨readsOther, writesOther, readsArg, writesArg, unknown, io, unit, escapes, unwinds,
    endless, keys⟩

theorem round_fixed_iff (bits : Nat → Bits) :
    (round calls keys n bits).1 = bits ↔
      Sweep.sweep (spread calls keys n) (known bits) = known bits := by
  rw [← round_known]
  constructor
  · intro fixed
    rw [fixed]
  · intro facts
    funext p
    exact bits_ext (round_marks bits p) (congrFun facts p)

end Round

section Program
variable (prog : HProgram) (byValue : Symbol → Bool) (opts : EffectOptions)

def programRound : (Nat → Bits) → (Nat → Bits) × Bool :=
  round (callsOf prog byValue opts) (handlerKeysOf prog byValue opts) prog.procs.length

def programSpread : Sweep.Rules Fact :=
  spread (callsOf prog byValue opts) (handlerKeysOf prog byValue opts) prog.procs.length

inductive Reachable : Nat → Fact → Prop where
  | own {p : Nat} {f : Fact} (has : (walkedBits prog byValue opts p).has f) : Reachable p f
  | call {p c : Nat} {reach : Reach} {f : Fact} (there : Reachable c f)
      (edge : (c, reach) ∈ callsOf prog byValue opts p) : Reachable p (carry reach f)
  | handler {p : Nat} {k : Int} {f : Fact} (there : Reachable p (.raises k))
      (inside : p < prog.procs.length) (caught : Caught (handlerKeysOf prog byValue opts) k)
      (effect : f = .access .other true ∨ f = .unwinds) : Reachable p f

/-- The facts left when the round loop ends are a fixed point: a further round changes none,
    they are closed under the call rule and the handler rule, and nothing reachable is
    missing. -/
structure AtFixpoint : Prop where
  still : (programRound prog byValue opts (finalBits prog byValue opts)).1 =
    finalBits prog byValue opts
  called : ∀ p c reach f, (c, reach) ∈ callsOf prog byValue opts p →
    (finalBits prog byValue opts c).has f → (finalBits prog byValue opts p).has (carry reach f)
  handled : ∀ p k, p < prog.procs.length → k ∈ (finalBits prog byValue opts p).raiseKeys →
    Caught (handlerKeysOf prog byValue opts) k →
      (finalBits prog byValue opts p).writesOther = true ∧
        (finalBits prog byValue opts p).mayUnwind = true
  complete : ∀ p f, Reachable prog byValue opts p f → (finalBits prog byValue opts p).has f

/-- Every fact that chains of calls and handlers bring to a procedure is there within as
    many sweeps as there are procedures, and two. A step to a caller listed behind its callee
    stays in the sweep, every other one waits for the next. -/
def ChainsShort : Prop :=
  Sweep.Timely (programSpread prog byValue opts) (known (walkedBits prog byValue opts))
    (prog.procs.length + 2)

variable {prog byValue opts}

theorem still_iff_short :
    (programRound prog byValue opts (finalBits prog byValue opts)).1 = finalBits prog byValue opts ↔
      ChainsShort prog byValue opts := by
  unfold programRound ChainsShort
  rw [round_fixed_iff, ← Sweep.finished_iff_timely]
  unfold finalBits
  rw [repeatRounds_known]
  rfl

theorem still_called (still : (programRound prog byValue opts (finalBits prog byValue opts)).1 =
      finalBits prog byValue opts) {p c : Nat} {reach : Reach} {f : Fact}
    (edge : (c, reach) ∈ callsOf prog byValue opts p)
    (has : (finalBits prog byValue opts c).has f) :
    (finalBits prog byValue opts p).has (carry reach f) := by
  have closed := Sweep.finished_closed ((round_fixed_iff _).mp still)
  exact closed.1 p c f _ (callsOf_inside p _ edge) ⟨reach, edge, rfl⟩ has

theorem still_handled (still : (programRound prog byValue opts (finalBits prog byValue opts)).1 =
      finalBits prog byValue opts) {p : Nat} {k : Int} {f : Fact} (inside : p < prog.procs.length)
    (raised : (finalBits prog byValue opts p).has (.raises k))
    (caught : Caught (handlerKeysOf prog byValue opts) k)
    (effect : f = .access .other true ∨ f = .unwinds) : (finalBits prog byValue opts p).has f := by
  have closed := Sweep.finished_closed ((round_fixed_iff _).mp still)
  exact closed.2 p _ f ⟨inside, ⟨k, rfl, caught⟩, effect⟩ raised

theorem finalBits_own {p : Nat} {f : Fact} (has : (walkedBits prog byValue opts p).has f) :
    (finalBits prog byValue opts p).has f :=
  finalBits_has (Nat.zero_le _) (.here has)

theorem still_complete (still : (programRound prog byValue opts (finalBits prog byValue opts)).1 =
      finalBits prog byValue opts) {p : Nat} {f : Fact} (there : Reachable prog byValue opts p f) :
    (finalBits prog byValue opts p).has f := by
  induction there with
  | own has => exact finalBits_own has
  | call _ edge ih => exact still_called still edge ih
  | handler _ inside caught effect ih => exact still_handled still inside ih caught effect

/-- The round loop ends at the fixed point just when the chains are short enough. -/
theorem fixpoint_reached_iff (prog : HProgram) (byValue : Symbol → Bool) (opts : EffectOptions) :
    AtFixpoint prog byValue opts ↔ ChainsShort prog byValue opts := by
  rw [← still_iff_short]
  refine ⟨fun fixpoint => fixpoint.still, fun still => ?_⟩
  constructor
  · exact still
  · intro p c reach f edge has
    exact still_called still edge has
  · intro p k inside raised caught
    exact ⟨still_handled (f := .access .other true) still inside raised caught (Or.inl rfl),
      still_handled (f := .unwinds) still inside raised caught (Or.inr rfl)⟩
  · intro p f there
    exact still_complete still there

theorem arrives_reachable {r k p : Nat} {f : Fact}
    (there : Sweep.Arrives (programSpread prog byValue opts) (known (walkedBits prog byValue opts))
      r k p f) : Reachable prog byValue opts p f := by
  induction there with
  | own has => exact .own has
  | gives _ rule _ ih =>
    obtain ⟨reach, edge, rfl⟩ := rule
    exact .call ih edge
  | late _ rule ih =>
    obtain ⟨inside, ⟨k, rfl, caught⟩, effect⟩ := rule
    exact .handler ih inside caught effect

theorem final_arrives (p : Nat) (f : Fact) : (finalBits prog byValue opts p).has f ↔
    ∃ r k, Sweep.Arrives (programSpread prog byValue opts) (known (walkedBits prog byValue opts))
      r k p f ∧ r ≤ prog.procs.length + 2 := by
  have facts : known (finalBits prog byValue opts) =
      (Sweep.sweep (programSpread prog byValue opts))^[prog.procs.length + 2]
        (known (walkedBits prog byValue opts)) := repeatRounds_known _ _
  rw [← Sweep.sweeps_iff, ← facts]
  rfl

theorem final_reachable {p : Nat} {f : Fact} (has : (finalBits prog byValue opts p).has f) :
    Reachable prog byValue opts p f := by
  obtain ⟨r, k, there, -⟩ := (final_arrives p f).mp has
  exact arrives_reachable there

/-- The rounds find nothing that is not reachable, and they end at their fixed point just when
    they find all of it. -/
theorem final_facts_reachable (prog : HProgram) (byValue : Symbol → Bool) (opts : EffectOptions) :
    (∀ p f, (finalBits prog byValue opts p).has f → Reachable prog byValue opts p f) ∧
      ((programRound prog byValue opts (finalBits prog byValue opts)).1 =
          finalBits prog byValue opts ↔
        ∀ p f, Reachable prog byValue opts p f → (finalBits prog byValue opts p).has f) := by
  refine ⟨fun p f => final_reachable, fun still p f => still_complete still, fun complete => ?_⟩
  refine still_iff_short.mpr fun r k p f there => ?_
  exact (final_arrives p f).mp (complete p f (arrives_reachable there))

end Program

section Ring

def ringStatic : Symbol := { num := 0, isStatic := true, owner := some ⟨0, false⟩ }

def ringParam (i : Nat) : Symbol := { num := i, kind := .param, owner := some ⟨i, false⟩ }

def ringName (i : Nat) : Symbol := { num := 10 + i, kind := .procName, proc := some ⟨i, false⟩ }

def ringCall (i : Nat) (s : Symbol) : HStmt :=
  .mk { kind := .callS, sym := some (ringName i),
        args := [.mk { kind := .varRef, sym := some s } .null .null .null []] } .null .null .null []

def ringStore (i : Nat) : HStmt :=
  .mk { kind := .assign,
        target := .mk { kind := .varRef, sym := some (ringParam i) } .null .null .null [],
        value := intLit 1 } .null .null .null []

def ringProc (i : Nat) (body : List HStmt) : HProc :=
  { body := body, paramSyms := [ringParam i], src := some ⟨i, false⟩ }

/-- The outermost procedure and P1 call P1 and P2; each of P1 to P5 hands its parameter to the
    next; P6 stores to its parameter and calls P1 with S. -/
def ring : HProgram :=
  { procs :=
      [{ body := [ringCall 1 ringStatic], src := some ⟨0, false⟩ },
        ringProc 1 [ringCall 2 (ringParam 1)], ringProc 2 [ringCall 3 (ringParam 2)],
        ringProc 3 [ringCall 4 (ringParam 3)], ringProc 4 [ringCall 5 (ringParam 4)],
        ringProc 5 [ringCall 6 (ringParam 5)],
        ringProc 6 [ringStore 6, ringCall 1 ringStatic]] }

/-- P1 stores to S through the chain, but the rounds end before it hears of it. -/
theorem ring_unfinished : ¬ AtFixpoint ring (fun _ => false) {} := by
  intro fixpoint
  have before : (finalBits ring (fun _ => false) {} 1).writesOther = false := by decide +kernel
  have after : ((programRound ring (fun _ => false) {}
      (finalBits ring (fun _ => false) {})).1 1).writesOther = true := by decide +kernel
  rw [fixpoint.still, before] at after
  cases after

end Ring

end PliEffects
