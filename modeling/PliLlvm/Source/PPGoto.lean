import PliLlvm.Source.PPRun
import PliLlvm.Source.PPSpans
import Mathlib.Data.List.Chain

/- Where a %GOTO of the preprocessor goes on (src/preprocessor.cpp): the text that is
   read next, in runs of any length and whether they end with an output, with a
   diagnostic or not at all. A text's labels are said apart from collectLabels: a directive is
   passed over as a whole, and what is in a macro's definition is the macro's text. -/
namespace PliPreprocessor
open PliLexer (ch word)
open Outcome

def labelsOf (text : Text) : Name → Option Nat := collectLabels text.bytes fun _ => none

def behind (source : Bytes) (found : Option Nat) : Nat := (found.map (· + 1)).getD source.length

/-- The macro whose definition has its PROCEDURE at `i` ends behind the ';' of its %END. -/
def pastDefinition (source : Bytes) (i : Nat) : Nat :=
  match findMatchingEnd source (behind source (findDirectiveEnd source i)) with
  | .ok ends => ends.2 + 1
  | .error _ => source.length

def pastCall (source : Bytes) (paren : Nat) : Nat :=
  match argsEnd source .text (paren + 1) 1 with
  | some last => ((findDirectiveEnd source last).map (· + 1)).getD last
  | none => source.length

/-- The position behind a directive that is no label: an %IF ends at its %THEN, a %THEN, an %ELSE
    and the name of a variable behind the word, every other one behind its ';'. -/
def pastDirective (source : Bytes) (i : Nat) : Nat :=
  let w := directiveWord source i source.length
  let name := upper (slice source w.1 w.2)
  let paren := skip isWhite source w.2 source.length
  let colon := skip isBlank source w.2 source.length
  if name = word "IF" then (findThen source .text w.2).getD w.2
  else if name = word "THEN" ∨ name = word "ELSE" then w.2
  else if sees source source.length colon (ch ':') then
    pastDefinition source (skip isWhite source (colon + 1) source.length)
  else if takesOperand name ∨
      [word "DO", word "END", word "GO", word "GOTO", word "RETURN"].contains name = true ∨
      sees source source.length colon (ch '=') = true then
    behind source (findDirectiveEnd source w.2)
  else if sees source source.length paren (ch '(') then pastCall source paren
  else w.2

def isDefinition (source : Bytes) (i : Nat) : Bool :=
  let kind := upper (slice source i (skip isWordChar source i source.length))
  kind = word "PROCEDURE" || kind = word "PROC"

/-- A label behind the percent sign at `i`: its name, and the text it labels. -/
def labelAt (source : Bytes) (i : Nat) : Option (Name × Nat) :=
  let w := directiveWord source i source.length
  let colon := skip isBlank source w.2 source.length
  if sees source source.length colon (ch ':') then
    some (upper (slice source w.1 w.2), skip isWhite source (colon + 1) source.length)
  else none

theorem labelAt_gt {source : Bytes} {i : Nat} {l : Name × Nat} (found : labelAt source i = some l) :
    i < l.2 := by
  unfold labelAt at found
  dsimp only at found
  split at found
  · cases found
    have after := directiveWord_gt source i source.length
    have colon := skip_ge isBlank source (directiveWord source i source.length).2 source.length
    have target := skip_ge isWhite source
      (skip isBlank source (directiveWord source i source.length).2 source.length + 1) source.length
    dsimp only
    omega
  · cases found

/-- A label that is not a macro's name. -/
def ownAt (source : Bytes) (i : Nat) : Option (Name × Nat) :=
  (labelAt source i).filter fun l => !isDefinition source l.2

theorem ownAt_label {source : Bytes} {i : Nat} {l : Name × Nat} (found : ownAt source i = some l) :
    labelAt source i = some l :=
  (Option.filter_eq_some_iff.mp found).1

/-- The labels that the text's own directives define; of two of one name it is the last. -/
def ownLabelsFrom (source : Bytes) (mode : Mode) (i : Nat) (labels : Name → Option Nat) :
    Name → Option Nat :=
  if _inside : i < source.length then
    if mode = .text ∧ byteAt source i = ch '%' then
      match found : ownAt source i with
      | some l => ownLabelsFrom source .text l.2 (Function.update labels l.1 (some l.2))
      | none => ownLabelsFrom source .text (max (pastDirective source i) (i + 1)) labels
    else
      let next := turn source source.length mode i
      ownLabelsFrom source next.1 next.2 labels
  else labels
termination_by source.length - i
decreasing_by
  · have after := labelAt_gt (ownAt_label found)
    omega
  · omega
  · have after := turn_gt source source.length mode i
    omega

def ownLabels (text : Text) : Name → Option Nat := ownLabelsFrom text.bytes .text 0 fun _ => none

/-- From `i` on nothing before `stop` looks like the label, and no string or comment is open
    there. -/
def silentTo (source : Bytes) (label : Name) (stop : Nat) (mode : Mode) (i : Nat) : Bool :=
  if i = stop then decide (mode = .text)
  else if _inside : i < source.length then
    if mode = .text ∧ byteAt source i = ch '%' then
      match _found : labelAt source i with
      | some l => l.1 != label && silentTo source label stop .text l.2
      | none => silentTo source label stop .text (directiveWord source i source.length).2
    else
      let next := turn source source.length mode i
      silentTo source label stop next.1 next.2
  else false
termination_by source.length - i
decreasing_by
  · have after := labelAt_gt _found
    omega
  · have after := directiveWord_gt source i source.length
    omega
  · have after := turn_gt source source.length mode i
    omega

/-- No directive of the text that is no label has the label in it. -/
def silentIn (source : Bytes) (label : Name) (mode : Mode) (i : Nat) : Bool :=
  if _inside : i < source.length then
    if mode = .text ∧ byteAt source i = ch '%' then
      match found : ownAt source i with
      | some l => silentIn source label .text l.2
      | none =>
        silentTo source label (max (pastDirective source i) (i + 1)) .text i &&
          silentIn source label .text (max (pastDirective source i) (i + 1))
    else
      let next := turn source source.length mode i
      silentIn source label next.1 next.2
  else true
termination_by source.length - i
decreasing_by
  · have after := labelAt_gt (ownAt_label found)
    omega
  · omega
  · have after := turn_gt source source.length mode i
    omega

section Labels

variable {source : Bytes} {label : Name}

theorem labelsBy_label {i : Nat} (inside : i < source.length) (percent : byteAt source i = ch '%')
    {l : Name × Nat} (found : labelAt source i = some l) (labels : Name → Option Nat) :
    labelsBy source .text i labels =
      labelsBy source .text l.2 (Function.update labels l.1 (some l.2)) := by
  unfold labelAt at found
  dsimp only at found
  split at found
  · rename_i colon
    cases found
    rw [labelsBy, dif_pos inside, if_pos ⟨rfl, percent⟩, if_pos colon]
  · cases found

theorem labelsBy_other {i : Nat} (inside : i < source.length) (percent : byteAt source i = ch '%')
    (found : labelAt source i = none) (labels : Name → Option Nat) :
    labelsBy source .text i labels =
      labelsBy source .text (directiveWord source i source.length).2 labels := by
  unfold labelAt at found
  dsimp only at found
  split at found
  · cases found
  · rename_i noColon
    rw [labelsBy, dif_pos inside, if_pos ⟨rfl, percent⟩, if_neg noColon]

theorem labelsBy_same (mode : Mode) (i : Nat) (labels other : Name → Option Nat) :
    labels label = other label →
      labelsBy source mode i labels label = labelsBy source mode i other label := by
  fun_induction labelsBy source mode i labels generalizing other with
  | case1 mode i labels inside percent w colon isLabel target ih =>
    intro same
    obtain ⟨rfl, percent⟩ := percent
    have further : ∀ name, Function.update labels name (some target) label =
        Function.update other name (some target) label := by
      intro name
      by_cases here : label = name
      · rw [here, Function.update_self, Function.update_self]
      · rw [Function.update_of_ne here, Function.update_of_ne here, same]
    conv_rhs => rw [labelsBy, dif_pos inside, if_pos ⟨rfl, percent⟩, if_pos isLabel]
    exact ih _ (further _)
  | case2 mode i labels inside percent w colon noLabel ih =>
    intro same
    conv_rhs => rw [labelsBy, dif_pos inside, if_pos percent, if_neg noLabel]
    exact ih _ same
  | case3 mode i labels inside noPercent next ih =>
    intro same
    conv_rhs => rw [labelsBy, dif_pos inside, if_neg noPercent]
    exact ih _ same
  | case4 mode i labels outside =>
    intro same
    rw [labelsBy, dif_neg outside]
    exact same

/-- Where nothing looks like the label, collectLabels goes on as if it had begun behind. -/
theorem silentTo_labels {stop : Nat} {mode : Mode} {i : Nat}
    (silent : silentTo source label stop mode i = true) (labels : Name → Option Nat) :
    labelsBy source mode i labels label = labelsBy source .text stop labels label := by
  fun_induction silentTo source label stop mode i generalizing labels with
  | case1 mode => rw [of_decide_eq_true silent]
  | case2 mode i before inside percent l found ih =>
    obtain ⟨rfl, percent⟩ := percent
    obtain ⟨other, rest⟩ := Bool.and_eq_true_iff.mp silent
    rw [labelsBy_label inside percent found, ih rest]
    exact labelsBy_same _ _ _ _ (Function.update_of_ne (Ne.symm (bne_iff_ne.mp other)) ..)
  | case3 mode i before inside percent found ih =>
    obtain ⟨rfl, percent⟩ := percent
    rw [labelsBy_other inside percent found, ih silent]
  | case4 mode i before inside noPercent next ih =>
    rw [labelsBy, dif_pos inside, if_neg noPercent]
    exact ih silent labels
  | case5 => cases silent

theorem ownLabelsFrom_label {i : Nat} (inside : i < source.length)
    (percent : byteAt source i = ch '%') {l : Name × Nat} (found : ownAt source i = some l)
    (labels : Name → Option Nat) :
    ownLabelsFrom source .text i labels =
      ownLabelsFrom source .text l.2 (Function.update labels l.1 (some l.2)) := by
  rw [ownLabelsFrom, dif_pos inside, if_pos ⟨rfl, percent⟩]
  split
  · rename_i other
    cases found.symm.trans other
    rfl
  · rename_i none_
    cases found.symm.trans none_

theorem ownLabelsFrom_directive {i : Nat} (inside : i < source.length)
    (percent : byteAt source i = ch '%') (found : ownAt source i = none)
    (labels : Name → Option Nat) :
    ownLabelsFrom source .text i labels =
      ownLabelsFrom source .text (max (pastDirective source i) (i + 1)) labels := by
  rw [ownLabelsFrom, dif_pos inside, if_pos ⟨rfl, percent⟩]
  split
  · rename_i other
    cases found.symm.trans other
  · rfl

theorem silentIn_own {mode : Mode} {i : Nat} (silent : silentIn source label mode i = true)
    (labels : Name → Option Nat) :
    labelsBy source mode i labels label = ownLabelsFrom source mode i labels label := by
  fun_induction silentIn source label mode i generalizing labels with
  | case1 mode i inside percent l found ih =>
    obtain ⟨rfl, percent⟩ := percent
    rw [labelsBy_label inside percent (ownAt_label found), ih silent,
      ownLabelsFrom_label inside percent found]
  | case2 mode i inside percent found ih =>
    obtain ⟨rfl, percent⟩ := percent
    obtain ⟨here, rest⟩ := Bool.and_eq_true_iff.mp silent
    rw [silentTo_labels here, ih rest, ownLabelsFrom_directive inside percent found]
  | case3 mode i inside noPercent next ih =>
    rw [labelsBy, dif_pos inside, if_neg noPercent, ih silent]
    conv_rhs => rw [ownLabelsFrom, dif_pos inside, if_neg noPercent]
  | case4 mode i outside => rw [labelsBy, dif_neg outside, ownLabelsFrom, dif_neg outside]

theorem labelsOf_own {text : Text} (silent : silentIn text.bytes label .text 0 = true) :
    labelsOf text label = ownLabels text label := by
  unfold labelsOf collectLabels ownLabels
  rw [labelsFrom_eq, silentIn_own silent]

end Labels

def follows : Event → Event → Bool
  | .goto f _ found _, .reads text i => decide (text = f.text) && found == some i
  | .goto _ _ _ _, .call _ _ => false
  | .goto _ _ _ _, .goto _ _ _ _ => false
  | .reads _ _, _ => true
  | .call _ _, _ => true

def OwnLabel : Event → Prop
  | .goto f label found _ => found = ownLabels f.text label
  | _ => True

structure Transfers (trace : List Event) : Prop where
  own : ∀ e ∈ trace, OwnLabel e
  next : trace.IsChain fun a b => follows a b = true

def isGoto : Event → Bool
  | .goto _ _ _ _ => true
  | _ => false

structure Settled (trace : List Event) : Prop where
  transfers : Transfers trace
  last : ∀ e, trace.getLast? = some e → isGoto e = false

/-- A %GOTO of a file, to a position in the range under scan, with no value returned; and in the
    file nothing looks like its label inside a directive or the definition of a macro. -/
def Meets : Event → Prop
  | .goto f label found returning =>
    f.text.id.isFile = true ∧ (∀ target ∈ found, f.start ≤ target ∧ target ≤ f.stop) ∧
      returning = false ∧ silentIn f.text.bytes label .text 0 = true
  | _ => True

instance : DecidablePred Meets
  | .goto _ _ _ _ => inferInstanceAs (Decidable (_ ∧ _ ∧ _ ∧ _))
  | .reads _ _ => .isTrue trivial
  | .call _ _ => .isTrue trivial

theorem settled_note {trace : List Event} {e : Event} (settled : Settled trace)
    (plain : isGoto e = false) : Settled (trace ++ [e]) := by
  refine ⟨⟨?_, ?_⟩, ?_⟩
  · intro other member
    rcases List.mem_append.mp member with before | new
    · exact settled.transfers.own other before
    · rw [List.mem_singleton.mp new]
      cases e with
      | goto => cases plain
      | reads | call => trivial
  · rw [List.isChain_append]
    refine ⟨settled.transfers.next, List.isChain_singleton _, ?_⟩
    intro last there _ _
    have done := settled.last last (Option.mem_def.mp there)
    cases last with
    | goto => cases done
    | reads | call => rfl
  · intro last there
    rw [List.getLast?_concat, Option.some.injEq] at there
    rw [← there]
    exact plain

structure Pending (f : Frame) (target : Nat) (st : St) : Prop where
  transfers : Transfers st.trace
  last : ∃ label, st.trace.getLast? = some (.goto f label (some target) false)
  inside : f.start ≤ target ∧ target ≤ f.stop
  returning : st.pp.procReturning = false
  black : skip isWhite f.text.bytes target f.text.bytes.length = target

variable {f : Frame}

theorem pending_reads {target : Nat} {st : St} (pending : Pending f target st) :
    Settled (st.trace ++ [.reads f.text target]) := by
  obtain ⟨label, last⟩ := pending.last
  refine ⟨⟨?_, ?_⟩, ?_⟩
  · intro e member
    rcases List.mem_append.mp member with before | new
    · exact pending.transfers.own e before
    · rw [List.mem_singleton.mp new]
      trivial
  · rw [List.isChain_append]
    refine ⟨pending.transfers.next, List.isChain_singleton _, ?_⟩
    intro a isLast b isNext
    rw [last, Option.mem_some_iff] at isLast
    rw [List.head?_cons, Option.mem_some_iff] at isNext
    rw [← isLast, ← isNext]
    simp [follows]
  · intro e there
    rw [List.getLast?_concat, Option.some.injEq] at there
    rw [← there]
    rfl

theorem settled_goto {trace : List Event} (settled : Settled trace) {f : Frame} {label : Name}
    {found : Option Nat} {returning : Bool} (own : found = ownLabels f.text label) :
    Transfers (trace ++ [.goto f label found returning]) := by
  refine ⟨?_, ?_⟩
  · intro e member
    rcases List.mem_append.mp member with before | new
    · exact settled.transfers.own e before
    · rw [List.mem_singleton.mp new]
      exact own
  · rw [List.isChain_append]
    refine ⟨settled.transfers.next, List.isChain_singleton _, ?_⟩
    intro last there _ _
    have done := settled.last last (Option.mem_def.mp there)
    cases last with
    | goto => cases done
    | reads | call => rfl

theorem skip_skip (p : Scan.Byte → Bool) (source : Bytes) (i stop : Nat) :
    skip p source (skip p source i stop) stop = skip p source i stop := by
  unfold skip
  have rest : ((source.take stop).drop (i + (((source.take stop).drop i).takeWhile p).length)) =
      ((source.take stop).drop i).dropWhile p := by
    rw [← List.drop_drop]
    conv_lhs =>
      arg 2
      rw [← List.takeWhile_append_dropWhile (p := p) (l := (source.take stop).drop i)]
    rw [List.drop_left]
  have none_ : ((((source.take stop).drop i).dropWhile p).takeWhile p).length = 0 := by
    have whole := congrArg List.length
      (List.takeWhile_append_dropWhile (p := p) (l := ((source.take stop).drop i).dropWhile p))
    rw [List.dropWhile_idempotent, List.length_append] at whole
    omega
  rw [rest, none_, Nat.add_zero]

theorem labelsOf_black {text : Text} {label : Name} {target : Nat}
    (found : labelsOf text label = some target) :
    skip isWhite text.bytes target text.bytes.length = target := by
  suffices all : ∀ mode i labels,
      (∀ name t, labels name = some t → skip isWhite text.bytes t text.bytes.length = t) →
      ∀ name t, labelsFrom text.bytes text.bytes.length mode i labels name = some t →
        skip isWhite text.bytes t text.bytes.length = t from
    all .text 0 _ (fun _ _ none_ => by cases none_) label target found
  intro mode i labels
  fun_induction labelsFrom text.bytes text.bytes.length mode i labels with
  | case1 mode i labels inside percent w colon isLabel target ih =>
    intro known
    refine ih fun name t entry => ?_
    by_cases same : name = upper (slice text.bytes w.1 w.2)
    · rw [same, Function.update_self, Option.some.injEq] at entry
      rw [← entry]
      exact skip_skip _ _ _ _
    · rw [Function.update_of_ne same] at entry
      exact known name t entry
  | case2 mode i labels inside percent w colon noLabel ih
  | case3 mode i labels inside noPercent next ih => exact ih
  | case4 mode i labels outside => exact fun known => known

theorem meets_earlier {before after : List Event} (grows : before <+: after)
    (meets : ∀ e ∈ after, Meets e) : ∀ e ∈ before, Meets e :=
  fun e member => meets e (grows.subset member)

/-- Between two states: the labels are the same, and where every %GOTO meets the
    condition none is left open. -/
structure GotoRun (st st' : St) : Prop where
  labels : st'.pp.labels = st.pp.labels
  trace : st.trace <+: st'.trace
  settled : (∀ e ∈ st'.trace, Meets e) → Settled st.trace → Settled st'.trace

structure GotoJump (f : Frame) (n : Nat) (st st' : St) : Prop where
  labels : st'.pp.labels = st.pp.labels
  trace : st.trace <+: st'.trace
  ready : (∀ e ∈ st'.trace, Meets e) → Settled st.trace → Settled st'.trace ∨ Pending f n st'

structure GotoEnds (st : St) (stop : Stop) : Prop where
  trace : st.trace <+: stop.trace
  transfers : (∀ e ∈ stop.trace, Meets e) → Settled st.trace → Transfers stop.trace

def gotoRelations : Relations where
  knows := fun text st => ∀ path, text.id = .file path → st.pp.labels = labelsOf text
  run := GotoRun
  jump := GotoJump
  ends := GotoEnds

variable {a b : St}

theorem gotoRun_trans {c : St} (first : GotoRun a b) (second : GotoRun b c) : GotoRun a c where
  labels := second.labels.trans first.labels
  trace := first.trace.trans second.trace
  settled := fun meets settled =>
    second.settled meets (first.settled (meets_earlier second.trace meets) settled)

theorem gotoRun_same {st st' : St} (labels : st'.pp.labels = st.pp.labels)
    (trace : st'.trace = st.trace) : GotoRun st st' :=
  ⟨labels, by simp [trace], fun _ settled => by rw [trace]; exact settled⟩

theorem gotoRun_note {e : Event} (st : St) (plain : isGoto e = false) : GotoRun st (note e st) :=
  ⟨rfl, List.prefix_append _ _, fun _ settled => settled_note settled plain⟩

theorem gotoJump_resume {n : Nat} (jumped : GotoJump f n a b) :
    GotoRun a (note (.reads f.text n) b) := by
  refine ⟨jumped.labels, jumped.trace.trans (List.prefix_append _ _), fun meets settled => ?_⟩
  rcases jumped.ready (meets_earlier (List.prefix_append _ _) meets) settled with done | pending
  · exact settled_note done rfl
  · exact pending_reads pending

theorem gotoJump_else {n : Nat} (jumped : GotoJump f n a b) :
    GotoRun a (note (.reads f.text (skip isWhite f.text.bytes n f.text.bytes.length)) b) := by
  refine ⟨jumped.labels, jumped.trace.trans (List.prefix_append _ _), fun meets settled => ?_⟩
  rcases jumped.ready (meets_earlier (List.prefix_append _ _) meets) settled with done | pending
  · exact settled_note done rfl
  · rw [pending.black]
    exact pending_reads pending

section Jump

variable {f : Frame} {label : Name} {st : St}

theorem noteGoto_own (known : ∀ path, f.text.id = .file path → st.pp.labels = labelsOf f.text)
    (meets : ∀ e ∈ (noteGoto f label st).trace, Meets e) :
    Meets (.goto f label (st.pp.labels label) st.pp.procReturning) ∧
      st.pp.labels label = labelsOf f.text label ∧
      st.pp.labels label = ownLabels f.text label := by
  have met := meets _ (List.mem_append_right _ (List.mem_singleton_self _))
  suffices collected : st.pp.labels label = labelsOf f.text label from
    ⟨met, collected, collected.trans (labelsOf_own met.2.2.2)⟩
  cases file : f.text.id with
  | file path => rw [known path file]
  | _ =>
    have isFile := met.1
    rw [file] at isFile
    cases isFile

theorem gotoJump_goto {target : Nat}
    (known : ∀ path, f.text.id = .file path → st.pp.labels = labelsOf f.text)
    (there : st.pp.labels label = some target) : GotoJump f target st (noteGoto f label st) := by
  refine ⟨rfl, List.prefix_append _ _, fun meets settled => .inr ?_⟩
  obtain ⟨⟨-, inside, running, -⟩, collected, own⟩ := noteGoto_own known meets
  refine ⟨settled_goto settled own, ⟨label, ?_⟩, inside target there, running, ?_⟩
  · dsimp only [noteGoto, note]
    rw [List.getLast?_concat, there, running]
  · exact labelsOf_black (collected.symm.trans there)

theorem gotoEnds_undefined {diag : Option Diag}
    (known : ∀ path, f.text.id = .file path → st.pp.labels = labelsOf f.text) :
    GotoEnds st ⟨diag, (noteGoto f label st).trace⟩ :=
  ⟨List.prefix_append _ _, fun meets settled => settled_goto settled (noteGoto_own known meets).2.2⟩

end Jump

theorem goto_rule (fs : FileSystem) : RunRule fs gotoRelations where
  trans := gotoRun_trans
  quiet := fun quiet => gotoRun_same quiet.labels quiet.trace
  reads := fun _ _ st => gotoRun_note st rfl
  assign := fun _ _ _ => gotoRun_same rfl rfl
  file := fun run => ⟨rfl, run.trace, run.settled⟩
  call := fun {proc values st _} run _ =>
    have entered : GotoRun st (enterCall proc values st) :=
      gotoRun_trans (gotoRun_note st rfl) (gotoRun_same rfl rfl)
    gotoRun_trans (gotoRun_trans entered run) (gotoRun_same rfl rfl)
  returned := fun _ _ _ run => gotoRun_trans run (gotoRun_same rfl rfl)
  jump_run := fun run => ⟨run.labels, run.trace, fun meets settled =>
    .inl (run.settled meets settled)⟩
  jump_trans := fun run jumped =>
    ⟨jumped.labels.trans run.labels, run.trace.trans jumped.trace, fun meets settled =>
      jumped.ready meets (run.settled (meets_earlier jumped.trace meets) settled)⟩
  jump_quiet := by
    intro f n a b c jumped quiet
    refine ⟨quiet.labels.trans jumped.labels, by rw [quiet.trace]; exact jumped.trace, ?_⟩
    rw [quiet.trace]
    intro meets settled
    refine (jumped.ready meets settled).imp id fun pending => ?_
    exact ⟨by rw [quiet.trace]; exact pending.transfers, by rw [quiet.trace]; exact pending.last,
      pending.inside, quiet.returning.trans pending.returning, pending.black⟩
  goto := gotoJump_goto
  goto_undefined := fun known _ => gotoEnds_undefined known
  resume := gotoJump_resume
  resume_else := gotoJump_else
  lost := by
    intro f n a b jumped lost
    refine ⟨jumped.labels, jumped.trace, fun meets settled => ?_⟩
    rcases jumped.ready meets settled with done | pending
    · exact done
    · obtain ⟨low, high⟩ := pending.inside
      rcases lost with returning | before | beyond
      · rw [pending.returning] at returning
        cases returning
      · exact absurd low (Nat.not_le_of_lt before)
      · exact absurd high (Nat.not_le_of_lt beyond)
  ends_jump := fun jumped => ⟨jumped.trace, fun meets settled =>
    (jumped.ready meets settled).elim (·.transfers) (·.transfers)⟩
  ends_trans := fun run ends => ⟨run.trace.trans ends.trace, fun meets settled =>
    ends.transfers meets (run.settled (meets_earlier ends.trace meets) settled)⟩
  ends_file := fun ends => ⟨ends.trace, ends.transfers⟩
  ends_call := fun ends => ⟨(List.prefix_append _ _).trans ends.trace, fun meets settled =>
    ends.transfers meets (settled_note settled rfl)⟩
  ends_returned := fun run => ⟨(List.prefix_append _ _).trans run.trace, fun meets settled =>
    (run.settled meets (settled_note settled rfl)).transfers⟩
  knows_run := fun run known path isFile => run.labels.trans (known path isFile)
  knows_jump := fun jumped known path isFile => jumped.labels.trans (known path isFile)
  knows_apart := fun _ elsewhere path isFile => absurd isFile (elsewhere path)
  knows_file := fun _ _ _ _ _ => rfl

def traceOf : Res St → List Event
  | .ok st => st.trace
  | .error stop => stop.trace

/-- In a run whose %GOTOs all meet the condition every one of them goes to its own text's
    label and the text there is read next; none is left open when the run succeeds. -/
theorem goto_transfers (fs : FileSystem) (fuel : Nat) (input : Path)
    (meets : ∀ e ∈ traceOf (run fs fuel input), Meets e) :
    Transfers (traceOf (run fs fuel input)) ∧
      ∀ st, run fs fuel input = .ok st → ∀ e, st.trace.getLast? = some e → isGoto e = false := by
  have kept := @expand_kept fs gotoRelations (callsWith fs fuel) St.initial (goto_rule fs)
    (calls_kept (goto_rule fs) fuel) input
  have start : Settled St.initial.trace :=
    ⟨⟨(fun _ member => by cases member), List.isChain_nil⟩, (fun _ last => by cases last)⟩
  unfold run at meets ⊢
  cases result : expand fs (callsWith fs fuel) input St.initial with
  | ok st =>
    rw [result] at meets kept
    have settled : Settled st.trace := kept.settled meets start
    refine ⟨settled.transfers, fun st' same => ?_⟩
    cases same
    exact settled.last
  | error stop =>
    rw [result] at meets kept
    exact ⟨kept.transfers meets start, (fun _ same => by cases same)⟩

def oneFile (source : String) : FileSystem :=
  ⟨fun p => p, fun _ => true, fun _ => some (word source), fun p => p, fun p _ => p,
    fun _ => true, []⟩

theorem goto_transfers_forward :
    Transfers (traceOf (run (oneFile "a %GOTO L; b %L: ; c") 30 "m")) ∧
      ∀ st, run (oneFile "a %GOTO L; b %L: ; c") 30 "m" = .ok st →
        ∀ e, st.trace.getLast? = some e → isGoto e = false :=
  goto_transfers _ _ _ (by decide +kernel)

/-- A %GOTO out of an iterative %DO: the next iterations are scanned before its label. -/
theorem goto_lost_in_do :
    ¬ Transfers
      (traceOf (run (oneFile "%DO I = 1 TO 2; a %GOTO L; b %END; c %L: ; d") 30 "m")) := by
  intro transfers
  exact absurd transfers.next (by decide +kernel)

end PliPreprocessor
