import PliLlvm.Source.Preprocessor
import PliLlvm.Lib.Outcome

/- What a run of the preprocessor keeps. A family of relations says what holds between
   two states of a run, what a directive that gives a position to go on at may leave
   open, and what holds when the run ends with an error; relations that the few steps
   keep which change a variable, the labels, the value returned or the trace are kept by
   every scan, directive and loop. -/
namespace PliPreprocessor
open Outcome

structure Quiet (st st' : St) : Prop where
  vars : st'.pp.ppVars = st.pp.ppVars
  labels : st'.pp.labels = st.pp.labels
  result : st'.pp.procResult = st.pp.procResult
  returning : st'.pp.procReturning = st.pp.procReturning
  trace : st'.trace = st.trace
  assigned : st'.assigned = st.assigned
  returned : st'.returned = st.returned

theorem quiet_refl (st : St) : Quiet st st := ⟨rfl, rfl, rfl, rfl, rfl, rfl, rfl⟩

theorem quiet_trans {a b c : St} (first : Quiet a b) (second : Quiet b c) : Quiet a c where
  vars := second.vars.trans first.vars
  labels := second.labels.trans first.labels
  result := second.result.trans first.result
  returning := second.returning.trans first.returning
  trace := second.trace.trans first.trace
  assigned := second.assigned.trans first.assigned
  returned := second.returned.trans first.returned

theorem quiet_foldl {step : St → Cell → St} (each : ∀ st c, Quiet st (step st c))
    (cells : List Cell) (st : St) : Quiet st (cells.foldl step st) := by
  induction cells generalizing st with
  | nil => exact quiet_refl st
  | cons c cs ih => exact quiet_trans (each st c) (ih _)

theorem emitOne_quiet (path : Path) (st : St) (c : Cell) : Quiet st (emitOne path st c) := by
  unfold emitOne
  split <;> exact ⟨rfl, rfl, rfl, rfl, rfl, rfl, rfl⟩

theorem emit_quiet (path : Path) (text : List Cell) (st : St) : Quiet st (emit path text st) :=
  quiet_foldl (emitOne_quiet path) text st

theorem keepNewlines_quiet (f : Frame) (i j : Nat) (st : St) : Quiet st
    (keepNewlines f i j st) := by
  refine quiet_foldl (fun st c => ?_) _ st
  unfold keepOne
  split
  · exact emitOne_quiet _ _ _
  · exact ⟨rfl, rfl, rfl, rfl, rfl, rfl, rfl⟩

/-- What is said of a run: what a state knows of a text that is scanned in it, what
    holds between two states, between a state and one in which a directive has given a
    position to go on at, and between a state and an error. -/
structure Relations where
  knows : Text → St → Prop
  run : St → St → Prop
  jump : Frame → Nat → St → St → Prop
  ends : St → Stop → Prop

structure RunRule (fs : FileSystem) (K : Relations) : Prop where
  trans : ∀ {a b c}, K.run a b → K.run b c → K.run a c
  quiet : ∀ {a b}, Quiet a b → K.run a b
  reads : ∀ text i st, K.run st (note (.reads text i) st)
  assign : ∀ name value st, K.run st (setVar name value st)
  file : ∀ {path source st inner}, K.run (openFile path source st) inner →
    K.run st (closeFile st inner)
  call : ∀ {proc values st body}, K.run (enterCall proc values st) body →
    body.pp.procReturning = true → K.run st (closeCall proc st body)
  returned : ∀ {fuel path operand st cells mid value}, st.pp.procReturning = false →
    scanApart (callsWith fs fuel) .operand (stripParens operand) path st = .ok (cells, mid) →
    evalCondExpr mid.pp.ppVars (bytesOf cells) = .ok value → K.run st mid →
    K.run st (setReturned path st.pp operand (stripParens operand) value mid)
  jump_run : ∀ {f n a b}, K.run a b → K.jump f n a b
  jump_trans : ∀ {f n a b c}, K.run a b → K.jump f n b c → K.jump f n a c
  jump_quiet : ∀ {f n a b c}, K.jump f n a b → Quiet b c → K.jump f n a c
  goto : ∀ {f label target st}, K.knows f.text st → st.pp.labels label = some target →
    K.jump f target st (noteGoto f label st)
  goto_undefined : ∀ {f label st diag}, K.knows f.text st → st.pp.labels label = none →
    K.ends st ⟨diag, (noteGoto f label st).trace⟩
  resume : ∀ {f n a b}, K.jump f n a b → K.run a (note (.reads f.text n) b)
  resume_else : ∀ {f n a b}, K.jump f n a b →
    K.run a (note (.reads f.text (skip isWhite f.text.bytes n f.text.bytes.length)) b)
  lost : ∀ {f n a b}, K.jump f n a b →
    b.pp.procReturning = true ∨ n < f.start ∨ n > f.stop → K.run a b
  ends_jump : ∀ {f n a b diag}, K.jump f n a b → K.ends a ⟨diag, b.trace⟩
  ends_trans : ∀ {a b e}, K.run a b → K.ends b e → K.ends a e
  ends_file : ∀ {path source st e}, K.ends (openFile path source st) e → K.ends st e
  ends_call : ∀ {proc values st e}, K.ends (enterCall proc values st) e → K.ends st e
  ends_returned : ∀ {proc values st body diag}, K.run (enterCall proc values st) body →
    K.ends st ⟨diag, body.trace⟩
  knows_run : ∀ {text a b}, K.run a b → K.knows text a → K.knows text b
  knows_jump : ∀ {text f n a b}, K.jump f n a b → K.knows text a → K.knows text b
  knows_apart : ∀ {text} st, (∀ path, text.id ≠ .file path) → K.knows text st
  knows_file : ∀ path source st, K.knows ⟨.file path, source⟩ (openFile path source st)

structure Kept (K : Relations) (calls : Calls) : Prop where
  loop : ∀ {f mode i a b}, K.knows f.text b → K.jump f i a b →
    Ends (calls.loop f mode i b) (K.run a) (K.ends a)
  directive : ∀ {f active i st}, K.knows f.text st →
    Ends (calls.directive f active i st) (fun r => K.jump f r.1 st r.2.2) (K.ends st)
  iterate : ∀ {d iter st}, K.knows d.frame.text st →
    Ends (calls.iterate d iter st) (K.run st) (K.ends st)

section Rule

variable {fs : FileSystem} {K : Relations} {calls : Calls} {st : St} (rule : RunRule fs K)
include rule

theorem rule_refl (st : St) : K.run st st := rule.quiet (quiet_refl st)

theorem rule_fails {a b : St} (run : K.run a b) (diag : Option Diag) :
    K.ends a ⟨diag, b.trace⟩ :=
  rule.ends_jump (f := wholeFrame .operand [] "" true) (n := 0) (rule.jump_run run)

theorem rule_stops (diag : Option Diag) : K.ends st ⟨diag, st.trace⟩ :=
  rule_fails rule (rule_refl rule st) diag

theorem ends_from {a b : St} (run : K.run a b) {x : Res St}
    (ends : Ends x (K.run b) (K.ends b)) : Ends x (K.run a) (K.ends a) :=
  ends_mono ends (fun _ _ more => rule.trans run more) fun _ stops => rule.ends_trans run stops

theorem scan_kept (kept : Kept K calls) {f : Frame}
    (known : K.knows f.text st) : Ends (scan calls f st) (K.run st) (K.ends st) := by
  unfold scan
  split
  · exact rule_stops rule _
  · have deeper : K.run st { st with pp := { st.pp with scanDepth := st.pp.scanDepth + 1 } } :=
      rule.quiet ⟨rfl, rfl, rfl, rfl, rfl, rfl, rfl⟩
    refine ends_map (kept.loop (rule.knows_run deeper known) (rule.jump_run deeper)) ?_
    intro st' _ run
    exact rule.trans run (rule.quiet ⟨rfl, rfl, rfl, rfl, rfl, rfl, rfl⟩)

theorem scanApart_kept (kept : Kept K calls) {id : TextId} {bytes : Bytes}
    {path : Path} (elsewhere : ∀ path, id ≠ .file path) :
    Ends (scanApart calls id bytes path st) (fun r => K.run st r.2) (K.ends st) := by
  have emptied : K.run st { st with output := [] } := rule.quiet ⟨rfl, rfl, rfl, rfl, rfl, rfl, rfl⟩
  have inside := scan_kept rule kept (f := wholeFrame id bytes path true)
    (rule.knows_apart { st with output := [] } elsewhere)
  refine ends_map (ends_from rule emptied inside) fun st' _ run => ?_
  exact rule.trans run (rule.quiet ⟨rfl, rfl, rfl, rfl, rfl, rfl, rfl⟩)

theorem expand_kept (kept : Kept K calls) (input : Path) :
    Ends (expand fs calls input st) (K.run st) (K.ends st) := by
  unfold expand
  dsimp only
  split
  · exact rule_stops rule _
  · split
    · exact rule_stops rule _
    · rename_i source _
      have inside := scan_kept rule kept
        (f := wholeFrame (.file (fs.normalized input)) source (fs.normalized input) true)
        (rule.knows_file _ _ st)
      exact ends_map (ends_mono inside (fun _ _ run => run) fun _ => rule.ends_file)
        fun _ _ run => rule.file run

theorem expandOneInclude_kept (kept : Kept K calls) (input : Path) (once : Bool) (rawName : Bytes) :
    Ends (expandOneInclude fs calls input once st rawName) (K.run st) (K.ends st) := by
  unfold expandOneInclude
  dsimp only
  split
  · exact rule_stops rule _
  · split
    · split
      · exact rule_refl rule st
      · refine ends_from rule ?_ (expand_kept rule kept _)
        exact rule.quiet ⟨rfl, rfl, rfl, rfl, rfl, rfl, rfl⟩
    · exact expand_kept rule kept _

theorem foldlM_kept {β : Type} {step : St → β → Res St} {l : List β}
    (each : ∀ st b, Ends (step st b) (K.run st) (K.ends st)) :
    Ends (l.foldlM step st) (K.run st) (K.ends st) :=
  ends_foldlM (fun mid b run => ends_from rule run (each mid b)) (rule_refl rule st)

section
variable (path : Path)
include path

theorem evalHere_kept (text : Bytes) {a : St} (run : K.run a st) :
    Ends (evalHere path st text) (fun v => evalCondExpr st.pp.ppVars text = .ok v) (K.ends a) := by
  unfold evalHere liftError
  split
  · rename_i value
    exact value
  · exact rule_fails rule run _

theorem declareName_kept (st : St) (name : Name) (value : Int) :
    Ends (declareName path st name value) (K.run st) (K.ends st) := by
  unfold declareName
  repeat' split
  · exact rule_stops rule _
  · exact rule_stops rule _
  · exact rule_refl rule st
  · exact rule.assign name value st
  · exact rule_stops rule _

theorem declareItem_kept (st : St) (item : Bytes) :
    Ends (declareItem path st item) (K.run st) (K.ends st) := by
  unfold declareItem
  dsimp only
  split
  · exact declareName_kept rule path st _ _
  · repeat' split
    · exact rule_stops rule _
    · exact rule_stops rule _
    · exact ends_bind (evalHere_kept rule path _ (rule_refl rule st)) fun value _ _ =>
        declareName_kept rule path st _ value
    · exact rule_stops rule _

theorem handleDeclare_kept (operand : Bytes) :
    Ends (handleDeclare path operand st) (K.run st) (K.ends st) := by
  unfold handleDeclare
  split
  · exact rule_stops rule _
  · exact foldlM_kept rule (declareItem_kept rule path)

theorem handleAssignment_kept (name : Name) (operand : Bytes) :
    Ends (handleAssignment path name operand st) (K.run st) (K.ends st) := by
  unfold handleAssignment
  dsimp only
  repeat' split
  · exact ends_map (evalHere_kept rule path _ (rule_refl rule st)) fun value _ _ =>
      rule.assign name value st
  · exact rule_stops rule _
  · exact rule_stops rule _

theorem activateItem_kept (name : Name) (st : St)
    (item : Bytes) : Ends (activateItem path name st item) (K.run st) (K.ends st) := by
  unfold activateItem
  dsimp only
  repeat' split
  · exact rule_stops rule _
  · exact rule.quiet ⟨rfl, rfl, rfl, rfl, rfl, rfl, rfl⟩
  · exact rule_stops rule _

theorem handleActivation_kept (name : Name) (operand : Bytes) :
    Ends (handleActivation path name operand st) (K.run st) (K.ends st) := by
  unfold handleActivation
  split
  · exact rule_stops rule _
  · exact foldlM_kept rule (activateItem_kept rule path name)

theorem substituteRef_kept (name : Name) :
    Ends (substituteRef path name st) (K.run st) (K.ends st) := by
  unfold substituteRef
  repeat' split
  · exact rule_stops rule _
  · exact rule.quiet ⟨rfl, rfl, rfl, rfl, rfl, rfl, rfl⟩
  · exact rule_stops rule _

theorem handleReplace_kept (source : Bytes) (i wordEnd stop : Nat) :
    Ends (handleReplace path source i wordEnd stop st) (K.run st) (K.ends st) := by
  unfold handleReplace
  dsimp only
  repeat' split
  · exact rule_stops rule _
  · exact rule.quiet ⟨rfl, rfl, rfl, rfl, rfl, rfl, rfl⟩
  · exact rule_stops rule _
  · exact rule_stops rule _

theorem handleDefinition_kept (name : Name) (decl body : Bytes) :
    Ends (handleDefinition path name decl body st) (K.run st) (K.ends st) := by
  unfold handleDefinition
  split
  · exact rule_stops rule _
  · exact rule.quiet ⟨rfl, rfl, rfl, rfl, rfl, rfl, rfl⟩

theorem handleGoto_kept (f : Frame) (name : Name) (operand : Bytes) (known : K.knows f.text st) :
    Ends (handleGoto path f name operand st) (fun st' => K.jump f st'.pp.gotoTarget st st')
      (K.ends st) := by
  unfold handleGoto
  dsimp only
  split
  · exact rule_stops rule _
  · split
    · rename_i undefined_
      exact rule.goto_undefined known undefined_
    · rename_i target there
      exact rule.jump_quiet (rule.goto known there) ⟨rfl, rfl, rfl, rfl, rfl, rfl, rfl⟩

end

theorem runBody_kept (kept : Kept K calls) (path : Path) (proc : PPProc) (values : List Int) :
    Ends (runBody calls path proc values st) (K.run (enterCall proc values st))
      (K.ends (enterCall proc values st)) :=
  ends_map (scanApart_kept rule kept fun _ => by simp) fun _ _ run => run

theorem handleInvocation_kept (kept : Kept K calls) (path : Path) (name : Name)
    (args : Bytes) : Ends (handleInvocation calls path name args st) (K.run st) (K.ends st) := by
  unfold handleInvocation
  dsimp only
  split
  · exact rule_stops rule _
  rename_i proc _
  split
  · exact rule_stops rule _
  have arguments : ∀ given : List Bytes,
      Ends (evalArgs path st given) (fun _ => True) (K.ends st) := by
    intro given
    unfold evalArgs
    induction given with
    | nil => trivial
    | cons arg rest ih =>
      rw [List.mapM_cons]
      refine ends_bind (evalHere_kept rule path arg (rule_refl rule st)) fun _ _ _ => ?_
      exact ends_bind ih fun _ _ _ => trivial
  refine ends_bind (arguments _) fun values _ _ => ?_
  have ran : Ends (runBody calls path proc values st)
    (K.run (enterCall proc values st)) (K.ends st) :=
    ends_mono (runBody_kept rule kept path proc values) (fun _ _ run => run) fun _ => rule.ends_call
  refine ends_bind ran fun body _ run => ?_
  unfold finishCall
  split
  · rename_i returning
    have closed := rule.call run returning
    have result : Ends
        (scanApart calls .operand (resultText proc body.pp.procResult) path
          (closeCall proc st body))
        (fun r => K.run (closeCall proc st body) r.2) (K.ends (closeCall proc st body)) :=
      scanApart_kept rule kept fun _ => by simp
    refine ends_map (ends_mono result (fun _ _ more => rule.trans closed more) fun _ =>
      rule.ends_trans closed) fun r _ more => ?_
    exact rule.trans more (rule.quiet ⟨rfl, rfl, rfl, rfl, rfl, rfl, rfl⟩)
  · have stops : ∀ diag, K.ends st ⟨diag, body.trace⟩ := fun _ => rule.ends_returned run
    exact stops _

theorem handleReturn_kept {fuel : Nat} (kept : Kept K (callsWith fs fuel))
    (path : Path) (operand : Bytes) (first : st.pp.procReturning = false) :
    Ends (handleReturn (callsWith fs fuel) path operand st) (K.run st) (K.ends st) := by
  unfold handleReturn
  refine ends_bind (scanApart_kept rule kept fun _ => by simp) fun r scanned run => ?_
  refine ends_map (evalHere_kept rule path _ run) fun value _ evaluated => ?_
  exact rule.returned first scanned evaluated run

theorem handleDo_kept (kept : Kept K calls) {f : Frame} (endPos start : Nat)
    (spec : Bytes) (known : K.knows f.text st) :
    Ends (handleDo calls f endPos start spec st) (K.run st) (K.ends st) := by
  unfold handleDo
  have spec_ : Ends (liftError st f.path (doSpec st.pp.ppVars spec)) (fun _ =>
    True) (K.ends st) := by
    unfold liftError
    split
    · trivial
    · exact rule_stops rule _
  refine ends_bind spec_ fun iteration _ _ => ?_
  split
  · exact scan_kept rule kept known
  · exact kept.iterate known

theorem iterate_kept (kept : Kept K calls) {d : DoLoop} (iter : Int)
    (known : K.knows d.frame.text st) :
    Ends (iterate calls d iter st) (K.run st) (K.ends st) := by
  unfold iterate
  split
  · have assigned : K.run st { setVar d.varName iter st with output := [] } :=
      rule.trans (rule.assign d.varName iter st) (rule.quiet ⟨rfl, rfl, rfl, rfl, rfl, rfl, rfl⟩)
    refine ends_bind (ends_from rule assigned
      (scan_kept rule kept (rule.knows_run assigned known))) fun turn _ run => ?_
    have start : Quiet turn { turn with output := st.output, line := st.line, col := st.col } :=
      ⟨rfl, rfl, rfl, rfl, rfl, rfl, rfl⟩
    have copied := quiet_trans start (emit_quiet d.frame.path turn.output _)
    have whole := rule.trans run (rule.quiet (quiet_trans copied
      (c := { emit d.frame.path turn.output
        { turn with output := st.output, line := st.line, col := st.col } with
          line := turn.line, col := turn.col }) ⟨rfl, rfl, rfl, rfl, rfl, rfl, rfl⟩))
    exact ends_from rule whole (kept.iterate (rule.knows_run whole known))
  · exact rule_refl rule st

theorem gated_kept {active : Bool} {run : St → Res St}
    (each : active = true → Ends (run st) (K.run st) (K.ends st)) :
    Ends (gated active run st) (K.run st) (K.ends st) := by
  unfold gated
  split
  · rename_i on
    exact each on
  · exact rule_refl rule st

theorem ends_jump_run {f : Frame} {x : Res St} {next semPos : Nat}
    (ends : Ends x (K.run st) (K.ends st)) :
    Ends (x.map fun st' => (next, semPos, st')) (fun r => K.jump f r.1 st r.2.2) (K.ends st) :=
  ends_map ends fun _ _ run => rule.jump_run run

theorem ifCond_kept (kept : Kept K calls) (f : Frame) (active : Bool) (expr : Bytes) :
    Ends (ifCond calls f active expr st) (fun r => K.run st r.2) (K.ends st) := by
  unfold ifCond
  split
  · refine ends_bind (scanApart_kept rule kept fun _ => by simp) fun r _ run => ?_
    exact ends_map (evalHere_kept rule f.path _ run) fun _ _ _ => run
  · exact rule_refl rule st

theorem ifArm_kept (kept : Kept K calls) {f : Frame} (arm : Nat)
    (active : Bool) (known : K.knows f.text st) :
    Ends (ifArm calls f arm active st) (fun r => K.jump f r.1 st r.2) (K.ends st) := by
  have seen := rule.reads f.text arm st
  unfold ifArm
  dsimp only
  split
  · refine ends_map (ends_mono (kept.directive (rule.knows_run seen known)) (fun _ _ run => run)
      fun _ => rule.ends_trans seen) fun r _ jumped => ?_
    exact rule.jump_trans seen jumped
  · refine rule.jump_run (rule.trans seen ?_)
    dsimp only
    split
    · exact rule.quiet (emit_quiet _ _ _)
    · exact rule_refl rule _

theorem ifArms_kept (kept : Kept K calls) {f : Frame} (active : Bool)
    (arm : Nat) (cond : Bool) (at0 : St) (known : K.knows f.text st) :
    Ends (ifArms calls f active arm cond at0 st) (fun r => K.jump f r.1 st r.2.2) (K.ends st) := by
  unfold ifArms
  refine ends_bind (ifArm_kept rule kept arm _ known) fun taken _ jumped => ?_
  split
  · exact jumped
  · rename_i arm2 _
    split
    · have stops : ∀ diag, K.ends st ⟨diag, taken.2.trace⟩ := fun _ => rule.ends_jump jumped
      exact stops _
    · have resumed := rule.resume_else jumped
      have other := ifArm_kept rule kept arm2 (active && !cond) (rule.knows_run resumed known)
      exact ends_map (ends_mono other (fun _ _ run => run) fun _ => rule.ends_trans resumed)
        fun _ _ run => rule.jump_trans resumed run

theorem processIf_kept (kept : Kept K calls) {f : Frame} (active : Bool)
    (wordEnd : Nat) (known : K.knows f.text st) :
    Ends (processIf calls f active wordEnd st) (fun r => K.jump f r.1 st r.2.2) (K.ends st) := by
  unfold processIf
  dsimp only
  split
  · exact rule_stops rule _
  · refine ends_bind (ifCond_kept rule kept f active _) fun r _ run => ?_
    split
    · exact rule_fails rule run _
    · exact ends_mono (ifArms_kept rule kept active _ r.1 st (rule.knows_run run known))
        (fun _ _ jumped => rule.jump_trans run jumped) fun _ => rule.ends_trans run

theorem findMatchingEnd_kept (f : Frame) (source : Bytes) (i : Nat) :
    Ends (liftError st f.path (findMatchingEnd source i)) (fun _ => True) (K.ends st) := by
  unfold liftError
  split
  · trivial
  · exact rule_stops rule _

theorem labelDirective_kept (f : Frame) (active : Bool) (name : Name) (wordEnd : Nat) :
    Ends (labelDirective f active name wordEnd st) (fun r =>
      K.jump f r.1 st r.2.2) (K.ends st) := by
  unfold labelDirective
  dsimp only
  split
  · split
    · exact rule_stops rule _
    · refine ends_bind (findMatchingEnd_kept rule f _ _) fun m _ _ => ?_
      exact ends_jump_run rule (gated_kept rule fun _ => handleDefinition_kept rule _ _ _ _)
  · repeat' split
    all_goals exact rule.jump_run (rule_refl rule st)

theorem doDirective_kept (kept : Kept K calls) {f : Frame} (active : Bool)
    (wordEnd : Nat) (known : K.knows f.text st) :
    Ends (doDirective calls f active wordEnd st) (fun r => K.jump f r.1 st r.2.2) (K.ends st) := by
  unfold doDirective
  dsimp only
  split
  · exact rule_stops rule _
  · refine ends_bind (findMatchingEnd_kept rule f _ _) fun m _ _ => ?_
    split
    · exact ends_jump_run rule (handleDo_kept rule kept _ _ _ known)
    · exact rule.jump_run (rule.quiet (keepNewlines_quiet _ _ _ _))

theorem gotoDirective_kept {f : Frame} (active : Bool) (name : Name)
    (wordEnd : Nat) (known : K.knows f.text st) :
    Ends (gotoDirective f active name wordEnd st) (fun r => K.jump f r.1 st r.2.2) (K.ends st) := by
  unfold gotoDirective
  split
  · exact rule_stops rule _
  · split
    · exact ends_map (handleGoto_kept rule f.path f name _ known) fun _ _ jumped => jumped
    · exact rule.jump_run (rule_refl rule st)

theorem returnDirective_kept {fuel : Nat} (kept : Kept K (callsWith fs fuel))
    (f : Frame) (active : Bool) (wordEnd : Nat) :
    Ends (returnDirective (callsWith fs fuel) f active wordEnd st) (fun r => K.jump f r.1 st r.2.2)
      (K.ends st) := by
  unfold returnDirective
  split
  · exact rule_stops rule _
  · refine ends_jump_run rule (gated_kept rule fun open_ => ?_)
    exact handleReturn_kept rule kept _ _ (by simpa using (Bool.and_eq_true_iff.mp open_).2)

theorem callDirective_kept (kept : Kept K calls) (f : Frame) (active : Bool)
    (name : Name) (paren : Nat) :
    Ends (callDirective calls f active name paren st) (fun r => K.jump f r.1 st r.2.2)
      (K.ends st) := by
  unfold callDirective
  dsimp only
  split
  · exact rule_stops rule _
  · exact ends_jump_run rule (gated_kept rule fun _ => handleInvocation_kept rule kept _ _ _)

theorem plainDirective_kept (kept : Kept K calls) (f : Frame) (active : Bool)
    (name : Name) (i wordEnd : Nat) :
    Ends (plainDirective fs calls f active name i wordEnd st) (fun r => K.jump f r.1 st r.2.2)
      (K.ends st) := by
  unfold plainDirective
  dsimp only
  split
  · exact rule_stops rule _
  · repeat' split
    all_goals refine ends_jump_run rule (gated_kept rule fun _ => ?_)
    · unfold handleInclude
      split
      · exact rule_stops rule _
      · exact expandOneInclude_kept rule kept _ _ _
    · unfold handleXInclude
      dsimp only
      split
      · exact rule_stops rule _
      · exact foldlM_kept rule fun _ _ => expandOneInclude_kept rule kept _ _ _
    · exact handleDeclare_kept rule _ _
    · exact handleActivation_kept rule _ _ _
    · exact handleReplace_kept rule _ _ _ _ _
    · exact handleAssignment_kept rule _ _ _
    · exact substituteRef_kept rule _ _

theorem processDirective_kept {fuel : Nat} (kept : Kept K (callsWith fs fuel))
    {f : Frame} (active : Bool) (i : Nat) (known : K.knows f.text st) :
    Ends (processDirective fs (callsWith fs fuel) f active i st)
      (fun r => K.jump f r.1 st r.2.2) (K.ends st) := by
  unfold processDirective
  dsimp only
  split
  · exact rule_stops rule _
  split
  · exact processIf_kept rule kept _ _ known
  split
  · exact rule_stops rule _
  split
  · exact labelDirective_kept rule _ _ _ _
  split
  · exact doDirective_kept rule kept _ _ known
  split
  · split
    · exact rule_stops rule _
    · exact rule.jump_run (rule_refl rule st)
  split
  · exact gotoDirective_kept rule _ _ _ known
  split
  · exact returnDirective_kept rule kept _ _ _
  split
  · exact callDirective_kept rule kept _ _ _ _
  · exact plainDirective_kept rule kept _ _ _ _ _

theorem scanWord_kept (kept : Kept K calls) (f : Frame) (i : Nat) :
    Ends (scanWord calls f i st) (K.run st) (K.ends st) := by
  unfold scanWord
  dsimp only
  split
  · exact rule.quiet (emit_quiet _ _ _)
  · split
    · exact rule.quiet (emit_quiet _ _ _)
    · have guarded : ∀ key on (st : St), K.run st (setReplacing key on st) := fun key on st =>
        rule.quiet ⟨rfl, rfl, rfl, rfl, rfl, rfl, rfl⟩
      refine ends_map (ends_from rule (guarded _ true st)
        (scan_kept rule kept (rule.knows_apart _ fun _ => by simp [wholeFrame]))) ?_
      exact fun st' _ run => rule.trans run (guarded _ false st')

theorem afterDirective_kept (kept : Kept K calls) {f : Frame} (i : Nat)
    {r : Nat × Nat × St} (known : K.knows f.text st) (jumped : K.jump f r.1 st r.2.2) :
    Ends (afterDirective calls f i r) (K.run st) (K.ends st) := by
  have lines := rule.jump_quiet jumped (keepNewlines_quiet f i (r.2.1 + 1) r.2.2)
  unfold afterDirective
  dsimp only
  split
  · rename_i returning
    exact rule.lost lines (.inl returning)
  · split
    · rename_i outside
      exact rule.lost lines (.inr outside)
    · exact kept.loop (rule.knows_jump lines known) lines

theorem scanLoop_kept (kept : Kept K calls) {f : Frame} (mode : Mode) (i : Nat)
    {a : St} (known : K.knows f.text st) (jumped : K.jump f i a st) :
    Ends (scanLoop calls f mode i st) (K.run a) (K.ends a) := by
  have seen := rule.resume jumped
  have here := rule.knows_run (rule.reads f.text i st) known
  unfold scanLoop
  dsimp only
  split
  · split
    · refine ends_bind (ends_mono (kept.directive here) (fun _ _ next => next) fun _ =>
        rule.ends_trans seen) fun r _ next => ?_
      exact ends_from rule seen (afterDirective_kept rule kept i here next)
    split
    · refine ends_bind (ends_from rule seen (scanWord_kept rule kept f i)) fun mid same run => ?_
      have wordRun : K.run (note (.reads f.text i) st) mid := by
        have inside : Ends (scanWord calls f i (note (.reads f.text i) st))
            (K.run (note (.reads f.text i) st)) (K.ends (note (.reads f.text i) st)) :=
          scanWord_kept rule kept f i
        rw [same] at inside
        exact inside
      exact kept.loop (rule.knows_run wordRun here) (rule.jump_run run)
    split
    · exact rule_fails rule seen _
    · have written : ∀ cells, K.run (note (.reads f.text i) st)
          (emit f.path cells (note (.reads f.text i) st)) :=
        fun cells => rule.quiet (emit_quiet f.path cells _)
      exact kept.loop (rule.knows_run (written _) here)
        (rule.jump_run (rule.trans seen (written _)))
  · exact seen

theorem calls_kept : ∀ fuel, Kept K (callsWith fs fuel) := by
  intro fuel
  induction fuel with
  | zero =>
    exact {
      loop := fun _ jumped => rule.ends_jump jumped
      directive := fun _ => rule_fails rule (rule_refl rule _) none
      iterate := fun _ => rule_fails rule (rule_refl rule _) none }
  | succ fuel kept =>
    exact {
      loop := scanLoop_kept rule kept _ _
      directive := processDirective_kept rule kept _ _
      iterate := iterate_kept rule kept _ }

end Rule

end PliPreprocessor
