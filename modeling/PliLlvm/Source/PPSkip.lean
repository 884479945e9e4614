import PliLlvm.Source.PPMacro

/- A directive that is not active (Preprocessor::processDirective and processIf in
   src/preprocessor.cpp): what it leaves of the state, and that it ends where the same
   directive ends when it is active and jumps nowhere. -/
namespace PliPreprocessor
open Outcome
open Scan (Byte newline)
open PliLexer (ch word)

structure Unchanged (st st' : St) : Prop where
  pp : st'.pp = { st.pp with lineMap := st'.pp.lineMap }
  output : ∃ cells : List Cell, st'.output = st.output ++ cells ∧ ∀ c ∈ cells, c.byte = newline
  assigned : st'.assigned = st.assigned
  returned : st'.returned = st.returned

theorem unchanged_refl (st : St) : Unchanged st st :=
  ⟨rfl, ⟨[], (List.append_nil _).symm, fun c member => by cases member⟩, rfl, rfl⟩

theorem unchanged_trans {a b c : St} (first : Unchanged a b) (second : Unchanged b c) :
    Unchanged a c := by
  obtain ⟨cells, wrote, lines⟩ := first.output
  obtain ⟨more, wroteMore, linesMore⟩ := second.output
  refine ⟨?_, ⟨cells ++ more, ?_, fun d member => ?_⟩, second.assigned.trans first.assigned,
    second.returned.trans first.returned⟩
  · rw [second.pp, first.pp]
  · rw [wroteMore, wrote, List.append_assoc]
  · exact (List.mem_append.mp member).elim (lines d) (linesMore d)

theorem keepOne_unchanged (path : Path) (st : St) (c : Cell) :
    Unchanged st (keepOne path st c) := by
  unfold keepOne
  split
  · rename_i line
    simp only [emitOne, if_pos line]
    refine ⟨rfl, ⟨[c], rfl, fun d member => ?_⟩, rfl, rfl⟩
    rw [List.mem_singleton.mp member]
    exact line
  · exact ⟨rfl, (unchanged_refl st).output, rfl, rfl⟩

theorem keepNewlines_unchanged (f : Frame) (i j : Nat) (st : St) :
    Unchanged st (keepNewlines f i j st) := by
  unfold keepNewlines
  induction copied f i j generalizing st with
  | nil => exact unchanged_refl st
  | cons c cells ih => exact unchanged_trans (keepOne_unchanged f.path st c) (ih _)

theorem note_unchanged (e : Event) (st : St) : Unchanged st (note e st) :=
  ⟨rfl, (unchanged_refl st).output, rfl, rfl⟩

def Skips (calls : Calls) : Prop :=
  ∀ {f i st r}, calls.directive f false i st = .ok r → Unchanged st r.2.2

section Inactive

variable {fs : FileSystem} {calls : Calls} {f : Frame} {st : St}

theorem ifArm_skipped (skips : Skips calls) {arm : Nat} {r : Nat × St}
    (ran : ifArm calls f arm false st = .ok r) : Unchanged st r.2 := by
  unfold ifArm at ran
  dsimp only at ran
  split at ran
  · obtain ⟨q, called, rfl⟩ := map_ok.mp ran
    exact unchanged_trans (note_unchanged _ _) (skips called)
  · cases ran
    exact note_unchanged _ _

theorem processIf_skipped (skips : Skips calls) {wordEnd : Nat} {r : Nat × Nat × St}
    (ran : processIf calls f false wordEnd st = .ok r) : Unchanged st r.2.2 := by
  unfold processIf at ran
  dsimp only at ran
  split at ran
  · cases ran
  · obtain ⟨cond, evaluated, ran⟩ := bind_ok.mp ran
    cases evaluated
    split at ran
    · cases ran
    · obtain ⟨taken, first, ran⟩ := bind_ok.mp ran
      have before := ifArm_skipped skips first
      split at ran
      · cases ran
        exact before
      · split at ran
        · cases ran
        · obtain ⟨other, second, rfl⟩ := map_ok.mp ran
          rw [Bool.false_and] at second
          have after := unchanged_trans (note_unchanged _ _) (ifArm_skipped skips second)
          exact unchanged_trans before after

variable {r : Nat × Nat × St}

theorem gated_skipped {run : St → Res St} {next semPos : Nat}
    (ran : (gated false run st).map (fun st' => (next, semPos, st')) = .ok r) :
    Unchanged st r.2.2 := by
  cases ran
  exact unchanged_refl st

variable {wordEnd : Nat}

theorem labelDirective_skipped {name : Name}
    (ran : labelDirective f false name wordEnd st = .ok r) : Unchanged st r.2.2 := by
  unfold labelDirective at ran
  dsimp only at ran
  split at ran
  · split at ran
    · cases ran
    · obtain ⟨m, -, ran⟩ := bind_ok.mp ran
      exact gated_skipped ran
  · split at ran
    · cases ran
      exact unchanged_refl st
    · split at ran
      · cases ran
        exact unchanged_refl st
      · cases ran
        exact unchanged_refl st

theorem doDirective_skipped
    (ran : doDirective calls f false wordEnd st = .ok r) : Unchanged st r.2.2 := by
  unfold doDirective at ran
  dsimp only at ran
  split at ran
  · cases ran
  · obtain ⟨m, -, ran⟩ := bind_ok.mp ran
    cases ran
    exact keepNewlines_unchanged _ _ _ _

theorem plainDirective_skipped {name : Name} {i : Nat}
    (ran : plainDirective fs calls f false name i wordEnd st = .ok r) : Unchanged st r.2.2 := by
  unfold plainDirective at ran
  dsimp only at ran
  split at ran
  · cases ran
  · repeat' split at ran
    all_goals exact gated_skipped ran

theorem processDirective_skipped (skips : Skips calls) {i : Nat} {r : Nat × Nat × St}
    (ran : processDirective fs calls f false i st = .ok r) : Unchanged st r.2.2 := by
  unfold processDirective at ran
  dsimp only at ran
  split at ran
  · cases ran
  split at ran
  · exact processIf_skipped skips ran
  split at ran
  · cases ran
  split at ran
  · exact labelDirective_skipped ran
  split at ran
  · exact doDirective_skipped ran
  split at ran
  · split at ran
    · cases ran
    · cases ran
      exact unchanged_refl st
  split at ran
  · unfold gotoDirective at ran
    split at ran
    · cases ran
    · cases ran
      exact unchanged_refl st
  split at ran
  · unfold returnDirective at ran
    split at ran
    · cases ran
    · exact gated_skipped ran
  split at ran
  · unfold callDirective at ran
    dsimp only at ran
    split at ran
    · cases ran
    · exact gated_skipped ran
  · exact plainDirective_skipped ran

end Inactive

theorem calls_skip (fs : FileSystem) (fuel : Nat) : Skips (callsWith fs fuel) := by
  induction fuel with
  | zero =>
    intro f i st r ran
    cases ran
  | succ fuel skips =>
    intro f i st r ran
    exact processDirective_skipped skips ran

def traceRelations : Relations where
  knows := fun _ _ => True
  run := fun st st' => st.trace <+: st'.trace
  jump := fun _ _ st st' => st.trace <+: st'.trace
  ends := fun _ _ => True

theorem trace_rule (fs : FileSystem) : RunRule fs traceRelations where
  trans := List.IsPrefix.trans
  quiet := by
    intro a b quiet
    change a.trace <+: b.trace
    exact quiet.trace ▸ List.prefix_refl _
  reads := fun _ _ _ => List.prefix_append _ _
  assign := fun _ _ _ => List.prefix_refl _
  file := fun run => run
  call := fun run _ => (List.prefix_append _ _).trans run
  returned := fun _ _ _ run => run
  jump_run := fun run => run
  jump_trans := List.IsPrefix.trans
  jump_quiet := by
    intro f n a b c jumped quiet
    change a.trace <+: c.trace
    rw [quiet.trace]
    exact jumped
  goto := fun _ _ => List.prefix_append _ _
  goto_undefined := fun _ _ => trivial
  resume := fun jumped => jumped.trans (List.prefix_append _ _)
  resume_else := fun jumped => jumped.trans (List.prefix_append _ _)
  lost := fun jumped _ => jumped
  ends_jump := fun _ => trivial
  ends_trans := fun _ _ => trivial
  ends_file := fun _ => trivial
  ends_call := fun _ => trivial
  ends_returned := fun _ => trivial
  knows_run := fun _ _ => trivial
  knows_jump := fun _ _ => trivial
  knows_apart := fun _ _ => trivial
  knows_file := fun _ _ _ => trivial

def OwnGoto (f : Frame) : Event → Prop
  | .goto g _ _ _ => g = f
  | _ => False

instance (f : Frame) (e : Event) : Decidable (OwnGoto f e) :=
  match e with
  | .goto g _ _ _ => inferInstanceAs (Decidable (g = f))
  | .reads _ _ => isFalse id
  | .call _ _ => isFalse id

def Stays (f : Frame) (st st' : St) : Prop := ∀ e ∈ st'.trace.drop st.trace.length, ¬OwnGoto f e

instance (f : Frame) (st st' : St) : Decidable (Stays f st st') :=
  inferInstanceAs (Decidable (∀ e ∈ _, _))

theorem Stays.part {f : Frame} {a b c d : St} (stays : Stays f a d) (first : a.trace <+: b.trace)
    (mid : b.trace <+: c.trace) (last : c.trace <+: d.trace) : Stays f b c := by
  intro e member
  obtain ⟨before, one⟩ := first
  obtain ⟨during, two⟩ := mid
  obtain ⟨after, three⟩ := last
  refine stays e ?_
  rw [← two, List.drop_left] at member
  rw [← three, ← two, ← one, List.append_assoc, List.append_assoc, List.drop_left]
  exact List.mem_append_right _ (List.mem_append_left _ member)

def Agree (calls calls' : Calls) : Prop :=
  ∀ {f active active' i st st' r r'}, calls.directive f active i st = .ok r →
    calls'.directive f active' i st' = .ok r' → (active = true → Stays f st r.2.2) →
    (active' = true → Stays f st' r'.2.2) → r.1 = r'.1

section Position

variable {fs : FileSystem} {fuel fuel' : Nat} {f : Frame} {active active' : Bool} {st st' : St}

theorem kept_trace (fs : FileSystem) (fuel : Nat) : Kept traceRelations (callsWith fs fuel) :=
  calls_kept (trace_rule fs) fuel

variable {arm : Nat}

theorem ifArm_grows {r : Nat × St}
    (ran : ifArm (callsWith fs fuel) f arm active st = .ok r) : st.trace <+: r.2.trace := by
  have ends := @ifArm_kept fs traceRelations _ st (trace_rule fs) (kept_trace fs fuel) f arm active
    trivial
  have grown := ends_value ends ran
  exact grown

theorem ifArm_agree (agree : Agree (callsWith fs fuel) (callsWith fs fuel')) {arm : Nat}
    {r r' : Nat × St} (ran : ifArm (callsWith fs fuel) f arm active st = .ok r)
    (ran' : ifArm (callsWith fs fuel') f arm active' st' = .ok r')
    (stays : active = true → Stays f st r.2) (stays' : active' = true → Stays f st' r'.2) :
    r.1 = r'.1 := by
  unfold ifArm at ran ran'
  dsimp only at ran ran'
  split at ran
  · rename_i directive
    rw [if_pos directive] at ran'
    obtain ⟨q, called, rfl⟩ := map_ok.mp ran
    obtain ⟨q', called', rfl⟩ := map_ok.mp ran'
    have grows := ends_value ((kept_trace fs fuel).directive trivial) called
    have grows' := ends_value ((kept_trace fs fuel').directive trivial) called'
    refine agree called called' (fun on => ?_) (fun on => ?_)
    · exact (stays on).part (List.prefix_append _ _) grows (List.prefix_refl _)
    · exact (stays' on).part (List.prefix_append _ _) grows' (List.prefix_refl _)
  · rename_i statement
    rw [if_neg statement] at ran'
    cases ran
    cases ran'
    rfl

variable {r : Nat × Nat × St}

theorem ifArms_parts {cond : Bool} {at0 : St}
    (ran : ifArms (callsWith fs fuel) f active arm cond at0 st = .ok r) :
    ∃ taken, ifArm (callsWith fs fuel) f arm (active && cond) st = .ok taken ∧
      taken.2.trace <+: r.2.2.trace ∧
      ((elseArm f.text.bytes taken.1 = none ∧ r.1 = taken.1) ∨
        ∃ arm2 mid other, elseArm f.text.bytes taken.1 = some arm2 ∧
          taken.2.trace <+: mid.trace ∧
          ifArm (callsWith fs fuel) f arm2 (active && !cond) mid = .ok other ∧
          r.1 = other.1 ∧ r.2.2 = other.2) := by
  unfold ifArms at ran
  obtain ⟨taken, first, ran⟩ := bind_ok.mp ran
  refine ⟨taken, first, ?_⟩
  split at ran
  · rename_i none
    cases ran
    exact ⟨List.prefix_refl _, .inl ⟨none, rfl⟩⟩
  · rename_i arm2 some
    split at ran
    · cases ran
    · obtain ⟨other, second, rfl⟩ := map_ok.mp ran
      refine ⟨(List.prefix_append _ _).trans (ifArm_grows second), .inr ⟨arm2, _, other, some, ?_,
        second, rfl, rfl⟩⟩
      exact List.prefix_append _ _

theorem ifArms_grows {cond : Bool} {at0 : St}
    (ran : ifArms (callsWith fs fuel) f active arm cond at0 st = .ok r) :
    st.trace <+: r.2.2.trace := by
  obtain ⟨taken, first, grows, -⟩ := ifArms_parts ran
  exact (ifArm_grows first).trans grows

theorem ifArms_agree (agree : Agree (callsWith fs fuel) (callsWith fs fuel')) {arm : Nat}
    {cond cond' : Bool} {at0 at0' : St} {r r' : Nat × Nat × St}
    (ran : ifArms (callsWith fs fuel) f active arm cond at0 st = .ok r)
    (ran' : ifArms (callsWith fs fuel') f active' arm cond' at0' st' = .ok r')
    (stays : active = true → Stays f st r.2.2) (stays' : active' = true → Stays f st' r'.2.2) :
    r.1 = r'.1 := by
  have on : ∀ {a c : Bool}, (a && c) = true → a = true := fun both =>
    (Bool.and_eq_true_iff.mp both).1
  obtain ⟨taken, first, grows, parts⟩ := ifArms_parts ran
  obtain ⟨taken', first', grows', parts'⟩ := ifArms_parts ran'
  have same : taken.1 = taken'.1 := by
    refine ifArm_agree agree first first' (fun both => ?_) (fun both => ?_)
    · exact (stays (on both)).part (List.prefix_refl _) (ifArm_grows first) grows
    · exact (stays' (on both)).part (List.prefix_refl _) (ifArm_grows first') grows'
  rw [← same] at parts'
  rcases parts with ⟨none, last⟩ | ⟨arm2, mid, other, some, later, second, last, state⟩
  · rcases parts' with ⟨-, last'⟩ | ⟨arm2', mid', other', some', -⟩
    · rw [last, last', same]
    · rw [none] at some'
      cases some'
  · rcases parts' with ⟨none', -⟩ | ⟨arm2', mid', other', some', later', second', last', state'⟩
    · rw [some] at none'
      cases none'
    · rw [some] at some'
      cases some'
      rw [last, last']
      rw [state] at stays
      rw [state'] at stays'
      refine ifArm_agree agree second second' (fun both => ?_) (fun both => ?_)
      · exact (stays (on both)).part ((ifArm_grows first).trans later) (ifArm_grows second)
          (List.prefix_refl _)
      · exact (stays' (on both)).part ((ifArm_grows first').trans later') (ifArm_grows second')
          (List.prefix_refl _)

theorem processIf_agree (agree : Agree (callsWith fs fuel) (callsWith fs fuel')) {wordEnd : Nat}
    {r r' : Nat × Nat × St} (ran : processIf (callsWith fs fuel) f active wordEnd st = .ok r)
    (ran' : processIf (callsWith fs fuel') f active' wordEnd st' = .ok r')
    (stays : active = true → Stays f st r.2.2) (stays' : active' = true → Stays f st' r'.2.2) :
    r.1 = r'.1 := by
  unfold processIf at ran ran'
  dsimp only at ran ran'
  split at ran
  · cases ran
  · rename_i thenAt found
    simp only [found] at ran'
    obtain ⟨cond, evaluated, ran⟩ := bind_ok.mp ran
    obtain ⟨cond', evaluated', ran'⟩ := bind_ok.mp ran'
    have grows := ends_value (ifCond_kept (trace_rule fs) (kept_trace fs fuel) f active _) evaluated
    have grows' :=
      ends_value (ifCond_kept (trace_rule fs) (kept_trace fs fuel') f active' _) evaluated'
    split at ran
    · cases ran
    · rename_i inside
      rw [if_neg inside] at ran'
      refine ifArms_agree agree ran ran' (fun on => ?_) (fun on => ?_)
      · exact (stays on).part grows (ifArms_grows ran) (List.prefix_refl _)
      · exact (stays' on).part grows' (ifArms_grows ran') (List.prefix_refl _)

variable {r' : Nat × Nat × St}

theorem map_position {x x' : Res St} {next semPos semPos' : Nat}
    (ran : x.map (fun st' => (next, semPos, st')) = .ok r)
    (ran' : x'.map (fun st' => (next, semPos', st')) = .ok r') : r.1 = r'.1 := by
  obtain ⟨a, -, rfl⟩ := map_ok.mp ran
  obtain ⟨a', -, rfl⟩ := map_ok.mp ran'
  rfl

theorem liftError_ok {α : Type} {path : Path} {x : Except String α} {a : α}
    (lifted : liftError st path x = .ok a) : x = .ok a := by
  unfold liftError at lifted
  split at lifted
  · cases lifted
    rfl
  · cases lifted

variable {name : Name} {wordEnd : Nat}

theorem labelDirective_position (ran : labelDirective f active name wordEnd st = .ok r)
    (ran' : labelDirective f active' name wordEnd st' = .ok r') : r.1 = r'.1 := by
  unfold labelDirective at ran ran'
  dsimp only at ran ran'
  split at ran
  · rename_i proc
    rw [if_pos proc] at ran'
    split at ran
    · cases ran
    · rename_i procEnd found
      simp only [found] at ran'
      obtain ⟨m, matched, ran⟩ := bind_ok.mp ran
      obtain ⟨m', matched', ran'⟩ := bind_ok.mp ran'
      have same := (liftError_ok matched).symm.trans (liftError_ok matched')
      cases same
      exact map_position ran ran'
  · rename_i mark
    rw [if_neg mark] at ran'
    split at ran
    · rename_i directive
      rw [if_pos directive] at ran'
      cases ran
      cases ran'
      rfl
    · rename_i other
      rw [if_neg other] at ran'
      split at ran
      · rename_i semi found
        simp only [found] at ran'
        cases ran
        cases ran'
        rfl
      · rename_i none
        simp only [none] at ran'
        cases ran
        cases ran'
        rfl

theorem doDirective_position {calls calls' : Calls}
    (ran : doDirective calls f active wordEnd st = .ok r)
    (ran' : doDirective calls' f active' wordEnd st' = .ok r') : r.1 = r'.1 := by
  have ends : ∀ {calls : Calls} {active : Bool} {st : St} {r : Nat × Nat × St},
      doDirective calls f active wordEnd st = .ok r →
      ∃ doEnd m, findDirectiveEnd f.text.bytes wordEnd = some doEnd ∧
        findMatchingEnd f.text.bytes (doEnd + 1) = .ok m ∧ r.1 = m.2 + 1 := by
    intro calls active st r ran
    unfold doDirective at ran
    dsimp only at ran
    split at ran
    · cases ran
    · rename_i doEnd found
      obtain ⟨m, matched, ran⟩ := bind_ok.mp ran
      refine ⟨doEnd, m, found, liftError_ok matched, ?_⟩
      split at ran
      · obtain ⟨after, -, rfl⟩ := map_ok.mp ran
        rfl
      · cases ran
        rfl
  obtain ⟨doEnd, m, found, matched, last⟩ := ends ran
  obtain ⟨doEnd', m', found', matched', last'⟩ := ends ran'
  rw [found] at found'
  cases found'
  rw [matched] at matched'
  cases matched'
  rw [last, last']

theorem handleGoto_own {operand : Bytes} {path : Path} {after : St}
    (ran : handleGoto path f name operand st = .ok after) : ¬Stays f st after := by
  unfold handleGoto at ran
  dsimp only at ran
  split at ran
  · cases ran
  · split at ran
    · cases ran
    · cases ran
      intro stays
      refine stays (.goto f (upper (trim operand)) (st.pp.labels (upper (trim operand)))
        st.pp.procReturning) ?_ rfl
      simp [noteGoto, note]

theorem gotoDirective_position (ran : gotoDirective f active name wordEnd st = .ok r)
    (stays : active = true → Stays f st r.2.2) :
    ∃ semi, findDirectiveEnd f.text.bytes wordEnd = some semi ∧ r.1 = semi + 1 := by
  unfold gotoDirective at ran
  split at ran
  · cases ran
  · rename_i semi found
    refine ⟨semi, found, ?_⟩
    split at ran
    · rename_i on
      obtain ⟨after, jumped, rfl⟩ := map_ok.mp ran
      exact absurd (stays on) (handleGoto_own jumped)
    · cases ran
      rfl

theorem plainDirective_ends {i : Nat} {calls : Calls}
    (ran : plainDirective fs calls f active name i wordEnd st = .ok r) :
    ∃ semi, findDirectiveEnd f.text.bytes wordEnd = some semi ∧
      r.1 = if takesOperand name || sees f.text.bytes f.text.bytes.length
        (skip isBlank f.text.bytes wordEnd f.text.bytes.length) (ch '=') then semi + 1
        else wordEnd := by
  have mapped : ∀ {x : Res St} {next semPos : Nat},
      x.map (fun st' => (next, semPos, st')) = .ok r → r.1 = next := by
    intro x next semPos ran
    obtain ⟨after, -, rfl⟩ := map_ok.mp ran
    rfl
  unfold plainDirective at ran
  dsimp only at ran
  split at ran
  · cases ran
  rename_i semi found
  refine ⟨semi, found, ?_⟩
  split at ran
  · rename_i kind
    rw [mapped ran, if_pos (by simp [takesOperand, kind])]
  rename_i noInclude
  split at ran
  · rename_i kind
    rw [mapped ran, if_pos (by simp [takesOperand, kind])]
  rename_i noXInclude
  split at ran
  · rename_i kind
    rw [mapped ran, if_pos]
    rcases kind with kind | kind <;> simp [takesOperand, kind]
  rename_i noDeclare
  split at ran
  · rename_i kind
    rw [mapped ran, if_pos]
    rcases kind with kind | kind <;> simp [takesOperand, kind]
  rename_i noActivation
  split at ran
  · rename_i kind
    rw [mapped ran, if_pos (by simp [takesOperand, kind])]
  rename_i noReplace
  split at ran
  · rename_i assigns
    rw [mapped ran, if_pos (by rw [assigns, Bool.or_true])]
  · rename_i reference
    rw [mapped ran, if_neg]
    simp only [takesOperand]
    simp_all

theorem both_arms {α : Type} {c P : Prop} [Decidable c] {x y z x' y' z' : α}
    (ran : (if c then x else y) = z) (ran' : (if c then x' else y') = z')
    (yes : x = z → x' = z' → P) (no : y = z → y' = z' → P) : P := by
  by_cases holds : c
  · rw [if_pos holds] at ran ran'
    exact yes ran ran'
  · rw [if_neg holds] at ran ran'
    exact no ran ran'

theorem processDirective_agree (agree : Agree (callsWith fs fuel) (callsWith fs fuel')) {i : Nat}
    {r r' : Nat × Nat × St} (ran : processDirective fs (callsWith fs fuel) f active i st = .ok r)
    (ran' : processDirective fs (callsWith fs fuel') f active' i st' = .ok r')
    (stays : active = true → Stays f st r.2.2) (stays' : active' = true → Stays f st' r'.2.2) :
    r.1 = r'.1 := by
  unfold processDirective at ran ran'
  dsimp only at ran ran'
  refine both_arms ran ran' (fun ran => nomatch ran) fun ran ran' => ?_
  refine both_arms ran ran'
    (fun ran ran' => processIf_agree agree ran ran' stays stays') fun ran ran' => ?_
  refine both_arms ran ran' (fun ran => nomatch ran) fun ran ran' => ?_
  refine both_arms ran ran' labelDirective_position fun ran ran' => ?_
  refine both_arms ran ran' doDirective_position fun ran ran' => ?_
  refine both_arms ran ran' (fun ran ran' => ?_) fun ran ran' => ?_
  · split at ran
    · cases ran
    · rename_i semi found
      simp only [found] at ran'
      cases ran
      cases ran'
      rfl
  refine both_arms ran ran' (fun ran ran' => ?_) fun ran ran' => ?_
  · obtain ⟨semi, found, last⟩ := gotoDirective_position ran stays
    obtain ⟨semi', found', last'⟩ := gotoDirective_position ran' stays'
    rw [found] at found'
    cases found'
    rw [last, last']
  refine both_arms ran ran' (fun ran ran' => ?_) fun ran ran' => ?_
  · unfold returnDirective at ran ran'
    split at ran
    · cases ran
    · rename_i semi found
      simp only [found] at ran'
      exact map_position ran ran'
  refine both_arms ran ran' (fun ran ran' => ?_) fun ran ran' => ?_
  · unfold callDirective at ran ran'
    dsimp only at ran ran'
    split at ran
    · cases ran
    · rename_i last found
      simp only [found] at ran'
      exact map_position ran ran'
  · obtain ⟨semi, found, last⟩ := plainDirective_ends ran
    obtain ⟨semi', found', last'⟩ := plainDirective_ends ran'
    rw [found] at found'
    cases found'
    rw [last, last']

end Position

theorem calls_agree (fs : FileSystem) (fuel fuel' : Nat) :
    Agree (callsWith fs fuel) (callsWith fs fuel') := by
  induction fuel generalizing fuel' with
  | zero =>
    intro f active active' i st st' r r' ran
    cases ran
  | succ fuel ih =>
    cases fuel' with
    | zero =>
      intro f active active' i st st' r r' ran ran'
      cases ran'
    | succ fuel' =>
      intro f active active' i st st' r r' ran ran' stays stays'
      exact processDirective_agree (ih fuel') ran ran' stays stays'

/-- A directive that is not active leaves all of the state but the newlines it writes, and
    ends where the active one ends that takes no %GOTO, in any state and with any fuel. -/
theorem inactive_no_effect {fs : FileSystem} {fuel fuel' : Nat} {f : Frame} {i : Nat} {st : St}
    {r : Nat × Nat × St}
    (skipped : processDirective fs (callsWith fs fuel) f false i st = .ok r) :
    Unchanged st r.2.2 ∧ ∀ r',
      processDirective fs (callsWith fs fuel') f true i st = .ok r' → Stays f st r'.2.2 →
        r'.1 = r.1 := by
  refine ⟨processDirective_skipped (calls_skip fs fuel) skipped, fun r' ran stays => ?_⟩
  exact processDirective_agree (calls_agree fs fuel' fuel) ran skipped (fun _ => stays) fun on => by
    cases on

def onText (source : String) (active : Bool) : Res (Nat × Nat × St) :=
  processDirective noFiles (callsWith noFiles 20)
    ⟨⟨.file "m", word source⟩, 0, source.length, "m", true⟩ active 0 (caller (word "N"))

theorem onText_ends (source : String) (active : Bool)
    (ends : (onText source active).toOption.isSome = true) : ∃ r, onText source active = .ok r := by
  cases result : onText source active with
  | ok r => exact ⟨r, rfl⟩
  | error e => rw [result] at ends; cases ends

def doubled : String := "%IF N > 2 %THEN %DO; %N = N * 2; %END; %ELSE %GOTO L;"

theorem inactive_assignment_skipped :
    ∃ r r', onText doubled false = .ok r ∧ onText doubled true = .ok r' ∧
      r'.2.2.pp.ppVars (word "N") = some 6 ∧ Unchanged (caller (word "N")) r.2.2 ∧
      r'.1 = r.1 := by
  obtain ⟨r, skipped⟩ := onText_ends doubled false (by decide +kernel)
  obtain ⟨r', ran⟩ := onText_ends doubled true (by decide +kernel)
  have seen : (onText doubled true).toOption.map (fun r' => (r'.2.2.pp.ppVars (word "N"),
      decide (Stays ⟨⟨.file "m", word doubled⟩, 0, doubled.length, "m", true⟩ (caller (word "N"))
        r'.2.2))) = some (some 6, true) := by decide +kernel
  rw [ran] at seen
  obtain ⟨value, stays⟩ := Prod.mk.inj (Option.some.inj seen)
  have same := @inactive_no_effect _ _ 20 _ _ _ _ skipped
  exact ⟨r, r', skipped, ran, value, same.1, same.2 r' ran (of_decide_eq_true stays)⟩

end PliPreprocessor
