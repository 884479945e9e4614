import PliLlvm.Hir.WalkCoverage
import PliLlvm.Hir.Exec
import Mathlib.Algebra.Order.Archimedean.Basic

/- Runs that return. A run can fail to return in ways the walk of a body does not look at: a
   DO without TO, a control variable that is stored to while its DO runs or that cannot
   hold its next value, a condition raised by a store. Without these, a task that is safe
   hands control back to the work left, whatever part of it that is. -/
namespace PliEffects
open PliHir

def controls (ts : List Task) : List Nat :=
  ts.filterMap fun
    | .again l | .choose l => if l.node.kind = .doIter then some l.ctl else none
    | _ => none

/-- The condition on a step: a store leaves the control variables of the DO statements under
    way as they are, and so does the step of another DO, whose own variable can hold its
    next value; a DO that is entered has a TO, and a literal BY its variable can hold; a
    condition is raised only by an expression that is checked for it. -/
def Meets (opts : EffectOptions) : Config → Event → Config → Prop
  | .run (_ :: ts) m, .wrote, .run _ m' => ∀ c ∈ controls ts, m' c = m c
  | .run (.again l :: ts) m, .stepped, .run _ m' =>
    FitsIn (ctlTy l.node) (m l.ctl + l.step) ∧ ∀ c ∈ controls ts, m' c = m c
  | .run (.enter node _ _ :: _) _, .entered, _ =>
    node.toE.isNull = false ∧
      ∀ lit locPtr a b args, node.byE = .mk lit locPtr a b args → lit.kind = .intLit →
        FitsIn (ctlTy node) lit.ival
  | _, .raised source k, _ => ∃ e, source = some e ∧ k ∈ checks opts e
  | _, _, _ => True

section Continuations
variable {prog : HProgram} {opts : EffectOptions}

inductive Ret (prog : HProgram) (opts : EffectOptions) : Config → Prop where
  | done {m} : Ret prog opts (.run [] m)
  | next {c} : (∃ ev c', Step prog c ev c') →
      (∀ ev c', Step prog c ev c' → Meets opts c ev c' → Ret prog opts c') → Ret prog opts c

def Fine (prog : HProgram) (opts : EffectOptions) (ts : List Task) (m : Mem) : Prop :=
  ∀ rest, rest <:+ ts → ∀ m', (∀ c ∈ controls rest, m' c = m c) → Ret prog opts (.run rest m')

def Safe (prog : HProgram) (opts : EffectOptions) (t : Task) : Prop :=
  ∀ ts m, Fine prog opts ts m → Ret prog opts (.run (t :: ts) m)

variable {rest ts : List Task}

theorem controls_suffix (suffix : rest <:+ ts) {c : Nat}
    (member : c ∈ controls rest) : c ∈ controls ts := by
  obtain ⟨front, rfl⟩ := suffix
  unfold controls at member ⊢
  rw [List.filterMap_append]
  exact List.mem_append_right _ member

theorem fine_nil (m : Mem) : Fine prog opts [] m := by
  intro rest suffix m' _
  rw [List.suffix_nil.mp suffix]
  exact .done

variable {m : Mem}

theorem Fine.ret (fine : Fine prog opts ts m) :
    Ret prog opts (.run ts m) := fine ts List.suffix_rfl m fun _ _ => rfl

theorem Fine.suffix (fine : Fine prog opts ts m)
    (suffix : rest <:+ ts) : Fine prog opts rest m := by
  intro inner part m' agree
  exact fine inner (part.trans suffix) m' agree

theorem Fine.change {m' : Mem} (fine : Fine prog opts ts m)
    (agree : ∀ c ∈ controls ts, m' c = m c) : Fine prog opts ts m' := by
  intro rest suffix m'' agree'
  apply fine rest suffix m''
  intro c member
  rw [agree' c member, agree c (controls_suffix suffix member)]

theorem Fine.cons {t : Task} {ts : List Task} {m : Mem} (fine : Fine prog opts ts m)
    (here : ∀ m', (∀ c ∈ controls (t :: ts), m' c = m c) → Ret prog opts (.run (t :: ts) m')) :
    Fine prog opts (t :: ts) m := by
  intro rest suffix m' agree
  rcases List.suffix_cons_iff.mp suffix with rfl | inner
  · exact here m' agree
  · exact fine rest inner m' agree

theorem Fine.before {t : Task} (fine : Fine prog opts ts m)
    (safe : Safe prog opts t) : Fine prog opts (t :: ts) m := by
  apply fine.cons
  intro m' agree
  apply safe
  apply fine.change
  intro c member
  exact agree c (controls_suffix (List.suffix_cons t ts) member)

theorem Fine.append {front : List Task} (safe : ∀ t ∈ front, Safe prog opts t)
    (fine : Fine prog opts ts m) : Fine prog opts (front ++ ts) m := by
  induction front with
  | nil => exact fine
  | cons t rest ih =>
    have tail := ih fun t' member => safe t' (List.mem_cons_of_mem t member)
    exact tail.before (safe t List.mem_cons_self)

theorem loopAt_suffix {name : String} {l : Loop}
    (h : loopAt name ts = some (l, rest)) : .again l :: rest <:+ ts := by
  induction ts with
  | nil => cases h
  | cons t ts ih =>
    cases t with
    | again l' =>
      rw [loopAt] at h
      split at h
      · cases h
        exact List.suffix_rfl
      · exact (ih h).trans (List.suffix_cons _ _)
    | endCall q => cases h
    | _ =>
      rw [loopAt] at h
      · exact (ih h).trans (List.suffix_cons _ _)
      all_goals intros; contradiction

theorem leaveTo_suffix (name : String) (ts : List Task) : leaveTo name ts <:+ ts := by
  unfold leaveTo
  cases found : loopAt name ts with
  | none => exact List.suffix_rfl
  | some place => exact (List.suffix_cons _ _).trans (loopAt_suffix found)

theorem iterateTo_suffix (name : String) (ts : List Task) : iterateTo name ts <:+ ts := by
  unfold iterateTo
  cases found : loopAt name ts with
  | none => exact List.suffix_rfl
  | some place => exact loopAt_suffix found

theorem afterCall_suffix (ts : List Task) : afterCall ts <:+ ts := by
  induction ts with
  | nil => exact List.suffix_rfl
  | cons t ts ih =>
    cases t with
    | endCall q => exact List.suffix_cons _ _
    | _ =>
      rw [afterCall]
      · exact ih.trans (List.suffix_cons _ _)
      all_goals intros; contradiction

end Continuations

section Tasks
variable {prog : HProgram} {opts : EffectOptions}

theorem safe_apply {e : HExpr} (calls : ∀ t ∈ applied prog e, Safe prog opts t)
    (unchecked : checks opts e = []) : Safe prog opts (.apply e) := by
  intro ts m fine
  refine .next ⟨_, _, .apply⟩ ?_
  intro ev c' step meets
  cases step with
  | apply => exact (fine.append calls).ret
  | raise =>
    obtain ⟨e', same, member⟩ := meets
    cases same
    rw [unchecked] at member
    cases member

theorem safe_eval {e : HExpr} (parts : ∀ inner ∈ operands e, Safe prog opts (.eval inner))
    (defined : ∀ s idx, placeOf e = some (.sym s) → DefinedIdx prog s idx →
      Safe prog opts (.eval idx))
    (action : Safe prog opts (.apply e)) : Safe prog opts (.eval e) := by
  intro ts m fine
  refine .next ⟨_, _, .skip⟩ ?_
  intro ev c' step _
  cases step with
  | skip => exact fine.ret
  | @eval _ _ _ idxs subscripts =>
    have own : Fine prog opts (.apply e :: ts) m := fine.before action
    refine (own.append ?_).ret
    intro t member
    obtain ⟨inner, among, rfl⟩ := List.mem_map.mp member
    rcases List.mem_append.mp among with part | idx
    · exact parts inner part
    · obtain ⟨s, place, idx⟩ := subscripts inner idx
      exact defined s inner place idx

theorem safe_write : Safe prog opts .write := by
  intro ts m fine
  refine .next ⟨_, _, .write m⟩ ?_
  intro ev c' step meets
  cases step with
  | write m' => exact (fine.change meets).ret
  | writeRaise =>
    obtain ⟨e, same, -⟩ := meets
    cases same

theorem safe_assign {t : HExpr} (defined : ∀ s idx, writtenPlace t = some (.sym s) →
    DefinedIdx prog s idx → Safe prog opts (.eval idx)) : Safe prog opts (.assign t) := by
  intro ts m fine
  refine .next ⟨_, _, @Step.assign prog t ts m [] (by simp)⟩ ?_
  intro ev c' step _
  cases step with
  | @assign _ _ _ idxs subscripts =>
    have own : Fine prog opts (.write :: ts) m := fine.before safe_write
    refine (own.append ?_).ret
    intro t member
    obtain ⟨idx, among, rfl⟩ := List.mem_map.mp member
    obtain ⟨s, place, idx⟩ := subscripts idx among
    exact defined s _ place idx

theorem safe_choice {thenS elseS : HStmt} (left : Safe prog opts (.exec thenS))
    (right : Safe prog opts (.exec elseS)) : Safe prog opts (.choice thenS elseS) := by
  intro ts m fine
  refine .next ⟨_, _, .choice (Or.inl rfl)⟩ ?_
  intro ev c' step _
  cases step with
  | choice taken =>
    rcases taken with rfl | rfl
    · exact left ts m fine
    · exact right ts m fine

theorem safe_ret : Safe prog opts .ret := by
  intro ts m fine
  refine .next ⟨_, _, .ret⟩ ?_
  intro ev c' step _
  cases step with
  | ret => exact (fine.suffix (afterCall_suffix ts)).ret

theorem safe_endCall (q : Nat) : Safe prog opts (.endCall q) := by
  intro ts m fine
  refine .next ⟨_, _, .endCall⟩ ?_
  intro ev c' step _
  cases step with
  | endCall => exact fine.ret

theorem safe_exec {st : HStmt} {first : List Task} (starts : begins prog st = some first)
    (safe : ∀ t ∈ first, Safe prog opts t) : Safe prog opts (.exec st) := by
  intro ts m fine
  refine .next ⟨_, _, .exec starts⟩ ?_
  intro ev c' step _
  cases step with
  | exec starts' =>
    rw [starts] at starts'
    cases starts'
    exact (fine.append safe).ret
  | leave kind | iterate kind | stop kind | goto kind => simp [begins, kind] at starts

theorem safe_leave {node : StmtNode} {thenS elseS unit : HStmt} {body : List HStmt}
    (kind : node.kind = .leave ∨ node.kind = .iterate) :
    Safe prog opts (.exec (.mk node thenS elseS unit body)) := by
  intro ts m fine
  refine .next ?_ ?_
  · rcases kind with leave | iterate
    · exact ⟨_, _, .leave leave⟩
    · exact ⟨_, _, .iterate iterate⟩
  · intro ev c' step _
    cases step with
    | exec starts => rcases kind with kind | kind <;> simp [begins, kind] at starts
    | leave _ => exact (fine.suffix (leaveTo_suffix _ ts)).ret
    | iterate _ => exact (fine.suffix (iterateTo_suffix _ ts)).ret
    | stop stops => rcases kind with kind | kind <;> simp [kind] at stops
    | goto jumps => rcases kind with kind | kind <;> simp [kind] at jumps

end Tasks

section Loops
variable {prog : HProgram} {opts : EffectOptions} {l : Loop}

def stepsLeft (l : Loop) (v : ℚ) : ℚ := (l.limit - v) / l.step

theorem goesOn_iff (kind : l.node.kind = .doIter) (bounded : l.node.toE.isNull = false)
    (moves : l.step ≠ 0) (m : Mem) : goesOn l m = true ↔ 0 ≤ stepsLeft l (m l.ctl) := by
  unfold goesOn stepsLeft
  rw [if_neg (by simp [kind, bounded])]
  rcases lt_or_gt_of_ne moves with down | up
  · rw [if_pos down, decide_eq_true_iff, div_nonneg_iff]
    constructor
    · intro above
      exact Or.inr ⟨by linarith, down.le⟩
    · rintro (⟨-, step⟩ | ⟨above, -⟩) <;> linarith
  · rw [if_neg up.le.not_gt, decide_eq_true_iff, div_nonneg_iff]
    constructor
    · intro below
      exact Or.inl ⟨by linarith, up.le⟩
    · rintro (⟨below, -⟩ | ⟨-, step⟩) <;> linarith

theorem stepsLeft_step (moves : l.step ≠ 0) (v : ℚ) :
    stepsLeft l (v + l.step) = stepsLeft l v - 1 := by
  unfold stepsLeft
  field_simp
  ring

theorem mem_controls_marker {t : Task} {ts : List Task} (kind : l.node.kind = .doIter)
    (marker : t = .again l ∨ t = .choose l) : l.ctl ∈ controls (t :: ts) := by
  rcases marker with rfl | rfl <;> simp [controls, kind]

theorem safe_top (kind : l.node.kind = .doIter) (bounded : l.node.toE.isNull = false)
    (moves : l.step ≠ 0) (body : ∀ st ∈ l.body, Safe prog opts (.exec st))
    (cond : Safe prog opts (.eval l.node.cond)) : Safe prog opts (.top l) := by
  intro ts m fine
  obtain ⟨n, few⟩ := exists_nat_gt (stepsLeft l (m l.ctl))
  induction n generalizing m with
  | zero =>
    have past : goesOn l m = false := by
      rw [Bool.eq_false_iff, ne_eq, goesOn_iff kind bounded moves]
      simpa using few
    refine .next ⟨_, _, .finish past⟩ ?_
    intro ev c' step _
    cases step with
    | finish _ => exact fine.ret
    | goOn on =>
      rw [past] at on
      cases on
  | succ n ih =>
    have back : Fine prog opts (.again l :: ts) m := by
      apply fine.cons
      intro m' agree
      refine .next ⟨_, _, .step (v := m' l.ctl + l.step) kind fun _ => rfl⟩ ?_
      intro ev c' step meets
      cases step with
      | @step _ _ _ v _ exact_ =>
        obtain ⟨fits, others⟩ := meets
        have moved := exact_ fits
        apply ih
        · apply fine.change
          intro c member
          rw [others c member, agree c (controls_suffix (List.suffix_cons _ ts) member)]
        · have same := agree l.ctl (mem_controls_marker kind (Or.inl rfl))
          have here : (m'.set l.ctl v) l.ctl = m l.ctl + l.step := by
            rw [Mem.set, if_pos rfl, moved, same]
          rw [here, stepsLeft_step moves]
          push_cast at few
          linarith
      | stepRaise _ =>
        obtain ⟨e, same, -⟩ := meets
        cases same
      | again other => exact absurd kind other
    have onceMore : ∀ m', (∀ c ∈ controls (.again l :: ts), m' c = m c) →
        Ret prog opts (.run (bodyOf l ++ ts) m') := by
      intro m' agree
      have again := back.change agree
      unfold bodyOf
      rw [List.append_assoc]
      refine (again.append ?_).ret
      intro t member
      obtain ⟨st, among, rfl⟩ := List.mem_map.mp member
      exact body st among
    have chosen : Fine prog opts (.choose l :: ts) m := by
      apply fine.cons
      intro m' agree
      refine .next ⟨_, _, .chooseEnd⟩ ?_
      intro ev c' step _
      cases step with
      | chooseBody => exact onceMore m' agree
      | chooseEnd =>
        refine (fine.change ?_).ret
        intro c member
        exact agree c (controls_suffix (List.suffix_cons _ ts) member)
    refine .next ?_ ?_
    · cases on : goesOn l m with
      | false => exact ⟨_, _, .finish on⟩
      | true => exact ⟨_, _, .goOn on⟩
    · intro ev c' step _
      cases step with
      | finish _ => exact fine.ret
      | goOn _ =>
        unfold pass
        split
        · exact onceMore m fun _ _ => rfl
        · exact cond _ m chosen

theorem safe_enter {node : StmtNode} {body : List HStmt} (kind : node.kind = .doIter)
    (moving : EffectWalker.byMayBeZero node.byE = false)
    (inner : ∀ st ∈ body, Safe prog opts (.exec st)) (cond : Safe prog opts (.eval node.cond))
    (c : Nat) : Safe prog opts (.enter node body c) := by
  intro ts m fine
  have some_step : ∃ step, StepValue (ctlTy node) node.byE step := by
    unfold StepValue
    cases node.byE with
    | null => exact ⟨_, rfl⟩
    | mk lit locPtr a b args => exact ⟨lit.ival, fun _ _ => rfl⟩
  obtain ⟨step, value⟩ := some_step
  refine .next ⟨_, _, @Step.enter prog node body c ts m 0 step value⟩ ?_
  intro ev c' taken meets
  cases taken with
  | @enter _ _ _ _ _ limit step value =>
    obtain ⟨bounded, literal⟩ := meets
    have moves : step ≠ 0 := by
      unfold StepValue at value
      cases byE : node.byE with
      | null =>
        simp only [byE] at value
        rw [value]
        exact (unitOf_pos _).ne'
      | mk lit locPtr a b args =>
        simp only [byE, EffectWalker.byMayBeZero, Bool.not_eq_eq_eq_not, Bool.not_false,
          Bool.and_eq_true, decide_eq_true_eq] at value moving
        rw [value moving.1 (literal lit locPtr a b args byE moving.1)]
        exact_mod_cast moving.2
    exact safe_top kind bounded moves inner cond ts m fine

theorem safe_start {node : StmtNode} {body : List HStmt}
    (limit : Safe prog opts (.eval node.toE)) (step : Safe prog opts (.eval node.byE))
    (entered : ∀ c, Safe prog opts (.enter node body c)) : Safe prog opts (.start node body) := by
  intro ts m fine
  refine .next ⟨_, _, .start 0 0⟩ ?_
  intro ev c' taken meets
  cases taken with
  | start c v =>
    have after : Fine prog opts ([.eval node.toE, .eval node.byE, .enter node body c] ++ ts)
        (m.set c v) := by
      apply (fine.change meets).append
      simp only [List.mem_cons, List.not_mem_nil, or_false]
      rintro t (rfl | rfl | rfl)
      · exact limit
      · exact step
      · exact entered c
    exact after.ret
  | startRaise =>
    obtain ⟨e, same, -⟩ := meets
    cases same

end Loops

end PliEffects
