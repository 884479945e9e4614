import PliLlvm.Source.PPRun
import Mathlib.Tactic.IntervalCases

/- The call of a macro (Preprocessor::handleInvocation and handleReturn in
   src/preprocessor.cpp): what of the state survives it and which value it writes. -/
namespace PliPreprocessor
open Scan (Byte newline)
open PliLexer (ch isDigit word)
open Outcome

structure Copies (st : St) (cells : List Cell) (st' : St) : Prop where
  output : st'.output = st.output ++ cells
  vars : st'.pp.ppVars = st.pp.ppVars
  active : st'.pp.ppActive = st.pp.ppActive

variable {a b : St}

theorem copies_trans {c : St} {first second : List Cell} (one : Copies a first b)
    (two : Copies b second c) : Copies a (first ++ second) c where
  output := by rw [two.output, one.output, List.append_assoc]
  vars := two.vars.trans one.vars
  active := two.active.trans one.active

theorem emit_copies (path : Path) (cells : List Cell) (st : St) :
    Copies st cells (emit path cells st) := by
  induction cells generalizing st with
  | nil => exact ⟨(List.append_nil _).symm, rfl, rfl⟩
  | cons c cs ih =>
    have one : Copies st [c] (emitOne path st c) := by
      unfold emitOne
      split <;> exact ⟨rfl, rfl, rfl⟩
    exact copies_trans one (ih _)

def isPlain (c : Byte) : Bool := c != ch '%' && !isWordStart c && c != ch '"'

theorem slice_append (source : Bytes) {i j k : Nat} (first : i ≤ j) (second : j ≤ k) :
    slice source i k = slice source i j ++ slice source j k := by
  unfold slice
  have split : k - i = (j - i) + (k - j) := by omega
  have start : j = i + (j - i) := by omega
  rw [split, List.take_add, List.drop_drop, ← start]

theorem copied_generated (f : Frame) (i j : Nat) (elsewhere : ∀ path, f.text.id ≠ .file path) :
    copied f i j = generated (slice f.text.bytes i j) := by
  have same : (fun x : Byte × Nat => cellOf f.text.id (i + x.2) x.1) =
      (fun c => (⟨c, none⟩ : Cell)) ∘ Prod.fst := by
    funext x
    unfold cellOf
    split
    · rename_i path isFile
      exact absurd isFile (elsewhere path)
    · rfl
  unfold copied generated
  rw [same, ← List.map_map, List.zipIdx_map_fst]

theorem turn_le {source : Bytes} {stop : Nat} (mode : Mode) {i : Nat} (inside : i < stop) :
    (turn source stop mode i).2 ≤ stop := by
  have seen : ∀ c, sees source stop (i + 1) c = true → i + 2 ≤ stop := by
    intro c sees_c
    have there := (Bool.and_eq_true_iff.mp sees_c).1
    have before := of_decide_eq_true there
    omega
  unfold turn
  cases mode <;> dsimp only <;> (repeat' split)
  all_goals first
    | exact inside
    | (rename_i both; exact seen _ both.2)
    | (rename_i both; exact seen _ both)

variable {fs : FileSystem}

theorem loop_copies {f : Frame} (elsewhere : ∀ path, f.text.id ≠ .file path)
    (plain : ∀ k, k < f.stop → isPlain (byteAt f.text.bytes k) = true) :
    ∀ (fuel : Nat) {mode : Mode} {i : Nat} {st st' : St}, i ≤ f.stop →
      (callsWith fs fuel).loop f mode i st = .ok st' →
      Copies st (generated (slice f.text.bytes i f.stop)) st' := by
  intro fuel
  induction fuel with
  | zero =>
    intro mode i st st' inside done
    cases done
  | succ fuel ih =>
    intro mode i st st' inside done
    unfold callsWith scanLoop at done
    dsimp only at done
    split at done
    · rename_i before
      have here := plain i before
      unfold isPlain at here
      simp only [Bool.and_eq_true, bne_iff_ne, ne_eq, Bool.not_eq_true'] at here
      obtain ⟨⟨noDirective, noWord⟩, noQuote⟩ := here
      rw [if_neg (fun both => noDirective both.2), if_neg (fun both => by simp [noWord] at both),
        if_neg (fun both => noQuote both.2)] at done
      have after := turn_gt f.text.bytes f.stop mode i
      have bound : (turn f.text.bytes f.stop mode i).2 ≤ f.stop := turn_le mode before
      have rest := ih bound done
      have first : Copies (note (.reads f.text i) st)
          (generated (slice f.text.bytes i (turn f.text.bytes f.stop mode i).2))
          (emit f.path (copied f i (turn f.text.bytes f.stop mode i).2)
            (note (.reads f.text i) st)) := by
        rw [← copied_generated f _ _ elsewhere]
        exact emit_copies _ _ _
      have noted : Copies st [] (note (.reads f.text i) st) :=
        ⟨(List.append_nil _).symm, rfl, rfl⟩
      have whole := copies_trans noted (copies_trans first rest)
      have joined : generated (slice f.text.bytes i f.stop) =
          [] ++ (generated (slice f.text.bytes i (turn f.text.bytes f.stop mode i).2) ++
            generated (slice f.text.bytes (turn f.text.bytes f.stop mode i).2 f.stop)) := by
        unfold generated
        rw [List.nil_append, ← List.map_append,
          ← slice_append f.text.bytes (Nat.le_of_lt after) bound]
      rw [joined]
      exact whole
    · cases done
      have past : f.stop - i = 0 := by omega
      unfold slice generated
      rw [past, List.take_zero, List.map_nil]
      exact ⟨(List.append_nil _).symm, rfl, rfl⟩

variable {path : Path} {st : St}

theorem scanApart_copies {fuel : Nat} {id : TextId} {bytes : Bytes} {r : List Cell × St}
    (elsewhere : ∀ path, id ≠ .file path)
    (plain : ∀ c ∈ bytes, isPlain c = true)
    (done : scanApart (callsWith fs fuel) id bytes path st = .ok r) :
    r.1 = generated bytes ∧ r.2.pp.ppVars = st.pp.ppVars ∧ r.2.pp.ppActive = st.pp.ppActive := by
  obtain ⟨st', scanned, rfl⟩ := map_ok.mp done
  unfold scan at scanned
  split at scanned
  · cases scanned
  · obtain ⟨mid, loop, rfl⟩ := map_ok.mp scanned
    have bytesPlain : ∀ k, k < bytes.length → isPlain (byteAt bytes k) = true := by
      intro k inside
      unfold byteAt
      rw [List.getD_eq_getElem?_getD, List.getElem?_eq_getElem inside, Option.getD_some]
      exact plain _ (List.getElem_mem inside)
    have copies := loop_copies (f := wholeFrame id bytes path true) elsewhere bytesPlain fuel
      (Nat.zero_le _) loop
    have all : slice bytes 0 bytes.length = bytes := by
      unfold slice
      rw [List.drop_zero, Nat.sub_zero, List.take_length]
    refine ⟨?_, copies.vars, copies.active⟩
    have written := copies.output
    dsimp only [wholeFrame] at written
    rw [all, List.nil_append] at written
    exact written

theorem digit_plain {c : Char} (digit : c.isDigit = true) : isPlain (ch c) = true := by
  have range : 48 ≤ c.val.toNat ∧ c.val.toNat ≤ 57 := by
    unfold Char.isDigit at digit
    simpa [UInt32.le_iff_toNat_le] using digit
  have value : ch c = UInt8.ofNat c.val.toNat := rfl
  obtain ⟨low, high⟩ := range
  rw [value]
  generalize c.val.toNat = n at low high
  interval_cases n <;> decide

theorem decimal_plain (v : Int) : ∀ c ∈ decimal v, isPlain c = true := by
  have digits : ∀ c ∈ (Nat.toDigits 10 v.natAbs).map ch, isPlain c = true := by
    intro c member
    obtain ⟨d, inside, rfl⟩ := List.mem_map.mp member
    exact digit_plain (Nat.isDigit_of_mem_toDigits (by decide) (by decide) inside)
  unfold decimal
  split
  · intro c member
    rcases List.mem_cons.mp member with rfl | inside
    · decide
    · exact digits c inside
  · exact digits

theorem resultText_plain (proc : PPProc) (v : Int) : ∀ c ∈ resultText proc v, isPlain c = true := by
  unfold resultText
  split
  · intro c member
    rcases List.mem_append.mp member with front | back
    · rcases List.mem_cons.mp front with rfl | inside
      · decide
      · exact decimal_plain v c inside
    · rw [List.mem_singleton.mp back]
      decide
  · exact decimal_plain v

/-- The operand of a %RETURN is in parentheses as a whole: the one it starts with is
    closed by its last character. -/
def enclosed (operand : Bytes) : Bool :=
  operand.head? == some (ch '(') && closing operand 0 0 == some (operand.length - 1)

def asWritten (operand : Bytes) : Bytes :=
  if enclosed operand then (trim operand.tail).dropLast else operand

variable {s : Bytes}

theorem closing_last {i depth last : Nat} (found : closing s i depth = some last) :
    i ≤ last ∧ s[last - i]? = some (ch ')') := by
  induction s generalizing i depth with
  | nil => cases found
  | cons c cs ih =>
    have further : ∀ depth, closing cs (i + 1) depth = some last →
        i ≤ last ∧ (c :: cs)[last - i]? = some (ch ')') := by
      intro depth later
      obtain ⟨beyond, there⟩ := ih later
      have index : last - i = last - (i + 1) + 1 := by omega
      rw [index, List.getElem?_cons_succ]
      exact ⟨by omega, there⟩
    unfold closing at found
    split at found
    · exact further _ found
    · split at found
      · rename_i close
        split at found
        · cases found
          rw [Nat.sub_self, close]
          exact ⟨Nat.le_refl _, rfl⟩
        · exact further _ found
      · exact further _ found

theorem rdropWhile_kept {p : Byte → Bool} {c : Byte} (last : s.getLast? = some c)
    (stays : p c = false) : s.rdropWhile p = s := by
  obtain ⟨front, rfl⟩ := List.getLast?_eq_some_iff.mp last
  rw [List.rdropWhile_concat_neg _ _ _ (by simp [stays])]

theorem trim_last {c : Byte} (last : s.getLast? = some c) (stays : isWhite c = false) :
    (trim s).getLast? = some c := by
  have front : (s.dropWhile isWhite).getLast? = some c := by
    obtain ⟨before, rfl⟩ := List.getLast?_eq_some_iff.mp last
    induction before with
    | nil => simp [stays]
    | cons b bs ih =>
      rw [List.cons_append, List.dropWhile_cons]
      split
      · exact ih List.getLast?_concat
      · rw [← List.cons_append, List.getLast?_concat]
  unfold trim
  rw [rdropWhile_kept front stays]
  exact front

theorem trim_length (s : Bytes) : (trim s).length ≤ s.length := by
  unfold trim
  exact Nat.le_trans (List.rdropWhile_prefix _ _).length_le (List.dropWhile_sublist _).length_le

theorem stripParens_right_iff (operand : Bytes) :
    stripParens operand = asWritten operand ↔
      operand.head? ≠ some (ch '(') ∨ enclosed operand = true := by
  by_cases opens : operand.head? = some (ch '(')
  · have rest : operand = ch '(' :: operand.tail := by
      cases operand with
      | nil => cases opens
      | cons c cs => rw [List.head?_cons, Option.some.injEq] at opens; rw [opens, List.tail_cons]
    by_cases encloses : enclosed operand = true
    · have ends := encloses
      unfold enclosed at ends
      obtain ⟨-, last⟩ := closing_last (beq_iff_eq.mp (Bool.and_eq_true_iff.mp ends).2)
      have tailLast : operand.tail.getLast? = some (ch ')') := by
        have nonempty : operand.tail ≠ [] := by
          intro empty
          rw [rest, empty] at last
          exact absurd last (by decide)
        rw [Nat.sub_zero, ← List.getLast?_eq_getElem?, rest,
          List.getLast?_cons_of_ne_nil nonempty] at last
        exact last
      unfold stripParens asWritten
      rw [if_pos opens, if_pos encloses, if_pos (trim_last tailLast (by decide))]
      exact ⟨fun _ => .inr encloses, fun _ => rfl⟩
    · unfold asWritten
      rw [if_neg encloses]
      constructor
      · intro same
        have shorter : (stripParens operand).length < operand.length := by
          have tail := trim_length operand.tail
          have length : operand.length = operand.tail.length + 1 := by
            conv_lhs => rw [rest]
            rw [List.length_cons]
          unfold stripParens
          rw [if_pos opens]
          dsimp only
          split
          · rw [List.length_dropLast]
            omega
          · omega
        rw [same] at shorter
        exact absurd shorter (Nat.lt_irrefl _)
      · rintro (closed | closed)
        · exact absurd opens closed
        · exact absurd closed encloses
  · unfold stripParens asWritten
    have open_ : enclosed operand = false := by
      unfold enclosed
      rw [Bool.and_eq_false_iff]
      exact .inl (by simpa using opens)
    rw [if_neg opens, open_]
    simp [opens]

/-- The value of a %RETURN is that of the text scanned, expanded and evaluated in the state
    of the body there. -/
def Evaluates (fs : FileSystem) (r : Returned) : Prop :=
  ∃ fuel st cells mid, st.pp = r.before ∧ mid.pp = r.after ∧
    scanApart (callsWith fs fuel) .operand r.scanned r.path st = .ok (cells, mid) ∧
      evalCondExpr r.after.ppVars (bytesOf cells) = .ok r.value

/-- The argument of a parameter; of one that is listed twice, that of its last place. -/
def argument (proc : PPProc) (values : List Int) (x : Name) : Option Int :=
  ((proc.params.zip values).reverse.find? fun b => decide (b.1 = x)).map (·.2)

/-- What a variable is worth in the body: its argument, or what it was before the call. -/
def atEntry (proc : PPProc) (values : List Int) (before : PP) (x : Name) : Option Int :=
  (argument proc values x).or (before.ppVars x)

theorem bind_arguments (bindings : List (Name × Int)) (vars : Name → Option Int) (x : Name) :
    bindings.foldl (fun (vars : Name → Option Int) b => Function.update vars b.1 (some b.2))
        vars x =
      ((bindings.reverse.find? fun b => decide (b.1 = x)).map (·.2)).or (vars x) := by
  induction bindings generalizing vars with
  | nil => simp
  | cons b bs ih =>
    rw [List.foldl_cons, ih, List.reverse_cons, List.find?_append]
    cases bs.reverse.find? fun b => decide (b.1 = x) with
    | some found => simp
    | none =>
      by_cases same : b.1 = x
      · subst same
        simp
      · simp [same, Function.update_of_ne (Ne.symm same)]

theorem bound_vars (proc : PPProc) (values : List Int) (st : St) :
    (bound proc values st).pp.ppVars = atEntry proc values st.pp := by
  funext x
  exact bind_arguments _ _ _

/-- A call that is met in the body: no value has been returned yet and, apart from those
    that the body assigns, the declared variables are the parameters of the macro called. -/
def InOrder (assigned : Name → Bool) : Event → Prop
  | .call before proc =>
    before.procReturning = false ∧
      ∀ x, assigned x = false → ((before.ppVars x).isSome = true ↔ x ∈ proc.params)
  | _ => True

/-- A body under way: names it does not assign are as at its start, and once a value is
    returned it is the result. -/
structure Body (fs : FileSystem) (assigned : Name → Bool) (start : Name → Option Int) (st : St) :
    Prop where
  kept : ∀ x, assigned x = false → st.pp.ppVars x = start x
  result : st.pp.procReturning = true → ∃ r, st.returned = some r ∧ st.pp.procResult = r.value ∧
    Evaluates fs r ∧
    ∀ x, assigned x = false → r.before.ppVars x = start x ∧ r.after.ppVars x = start x

/-- Between two states of a run: what has been assigned stays so, an operand is scanned as it
    is stripped, and calls in order keep a body. -/
structure BodyRun (fs : FileSystem) (st st' : St) : Prop where
  assigned : ∀ x, st.assigned x = true → st'.assigned x = true
  stripped : (∀ r, st.returned = some r → r.scanned = stripParens r.operand) →
    ∀ r, st'.returned = some r → r.scanned = stripParens r.operand
  trace : ∃ events, st'.trace = st.trace ++ events ∧
    ∀ assigned, (∀ x, st'.assigned x = true → assigned x = true) →
      (∀ e ∈ events, InOrder assigned e) →
      ∀ start, Body fs assigned start st → Body fs assigned start st'

def bodyRelations (fs : FileSystem) : Relations where
  knows := fun _ _ => True
  run := BodyRun fs
  jump := fun _ _ => BodyRun fs
  ends := fun _ _ => True

theorem bodyRun_trans {c : St} (first : BodyRun fs a b)
    (second : BodyRun fs b c) : BodyRun fs a c := by
  obtain ⟨events, traced, keeps⟩ := first.trace
  obtain ⟨more, tracedMore, keepsMore⟩ := second.trace
  refine ⟨fun x was => second.assigned x (first.assigned x was),
    fun before => second.stripped (first.stripped before), events ++ more, ?_, ?_⟩
  · rw [tracedMore, traced, List.append_assoc]
  · intro assigned all inOrder start body
    have early : ∀ x, b.assigned x = true → assigned x = true := fun x was =>
      all x (second.assigned x was)
    exact keepsMore assigned all (fun e there => inOrder e (List.mem_append_right _ there)) start
      (keeps assigned early (fun e there => inOrder e (List.mem_append_left _ there)) start body)

theorem bodyRun_quiet (quiet : Quiet a b) : BodyRun fs a b := by
  refine ⟨fun x was => by rw [quiet.assigned]; exact was,
    fun before => by rw [quiet.returned]; exact before, [], ?_, fun _ _ _ start body => ⟨?_, ?_⟩⟩
  · rw [quiet.trace, List.append_nil]
  · rw [quiet.vars]
    exact body.kept
  · rw [quiet.returning, quiet.returned, quiet.result]
    exact body.result

theorem bodyRun_note (e : Event) (st : St) : BodyRun fs st (note e st) :=
  ⟨fun _ was => was, fun before => before, [e], rfl, fun _ _ _ _ body => ⟨body.1, body.2⟩⟩

theorem bodyRun_assign (name : Name) (value : Int) (st : St) :
    BodyRun fs st (setVar name value st) := by
  have marked : (setVar name value st).assigned name = true := by
    dsimp only [setVar]
    rw [Function.update_self]
  refine ⟨?_, fun before => before, [], (List.append_nil _).symm, fun assigned all _ start body =>
    ⟨?_, body.result⟩⟩
  · intro x was
    dsimp only [setVar]
    by_cases same : x = name
    · rw [same, Function.update_self]
    · rw [Function.update_of_ne same]
      exact was
  · intro x free
    have other : x ≠ name := by
      rintro rfl
      rw [all x marked] at free
      cases free
    dsimp only [setVar]
    rw [Function.update_of_ne other]
    exact body.kept x free

theorem bodyRun_call {proc : PPProc} {values : List Int} {body : St}
    (run : BodyRun fs (enterCall proc values st) body) : BodyRun fs st
    (closeCall proc st body) := by
  obtain ⟨events, traced, -⟩ := run.trace
  refine ⟨?_, fun before => before, .call st.pp proc :: events, ?_, ?_⟩
  · intro x was
    simp [closeCall, was]
  · dsimp only [closeCall]
    rw [traced]
    simp [enterCall, bound, note]
  · intro assigned _ inOrder start before
    obtain ⟨notYet, declared⟩ := inOrder _ (List.mem_cons_self ..)
    refine ⟨?_, ?_⟩
    · intro x free
      dsimp only [closeCall, savedVars]
      rw [← before.kept x free]
      split
      · rename_i isParam
        obtain ⟨v, some_v⟩ := Option.isSome_iff_exists.mp ((declared x free).mpr isParam)
        rw [some_v, Option.getD_some]
      · rename_i noParam
        cases value : st.pp.ppVars x with
        | none => rfl
        | some v => exact absurd ((declared x free).mp (by rw [value]; rfl)) noParam
    · intro later
      dsimp only [closeCall] at later
      rw [notYet] at later
      cases later

theorem bodyRun_returned {fuel : Nat} {operand : Bytes} {mid : St} {cells : List Cell} {value : Int}
    (scanned : scanApart (callsWith fs fuel) .operand (stripParens operand) path st =
      .ok (cells, mid))
    (evaluated : evalCondExpr mid.pp.ppVars (bytesOf cells) = .ok value) (run : BodyRun fs st mid) :
    BodyRun fs st (setReturned path st.pp operand (stripParens operand) value mid) := by
  obtain ⟨events, traced, keeps⟩ := run.trace
  refine ⟨run.assigned, ?_, events, traced, fun assigned all inOrder start body => ?_⟩
  · intro _ r shown
    cases shown
    rfl
  · have after := keeps assigned all inOrder start body
    exact ⟨after.kept, fun _ => ⟨_, rfl, rfl, ⟨fuel, st, cells, mid, rfl, rfl, scanned, evaluated⟩,
      fun x free => ⟨body.kept x free, after.kept x free⟩⟩⟩

theorem bodyRun_rule (fs : FileSystem) : RunRule fs (bodyRelations fs) where
  trans := bodyRun_trans
  quiet := bodyRun_quiet
  reads := fun text i => bodyRun_note (.reads text i)
  assign := bodyRun_assign
  file := by
    intro path source st inner run
    obtain ⟨events, traced, keeps⟩ := run.trace
    refine ⟨run.assigned, run.stripped, events, traced, fun assigned all inOrder start body => ?_⟩
    have inside := keeps assigned all inOrder start ⟨body.1, body.2⟩
    exact ⟨inside.1, inside.2⟩
  call := fun run _ => bodyRun_call run
  returned := fun _ scanned evaluated run => bodyRun_returned scanned evaluated run
  jump_run := fun run => run
  jump_trans := bodyRun_trans
  jump_quiet := fun jumped quiet => bodyRun_trans jumped (bodyRun_quiet quiet)
  goto := fun _ _ => bodyRun_note _ _
  goto_undefined := fun _ _ => trivial
  resume := fun jumped => bodyRun_trans jumped (bodyRun_note _ _)
  resume_else := fun jumped => bodyRun_trans jumped (bodyRun_note _ _)
  lost := fun jumped _ => jumped
  ends_jump := fun _ => trivial
  ends_trans := fun _ _ => trivial
  ends_file := fun _ => trivial
  ends_call := fun _ => trivial
  ends_returned := fun _ => trivial
  knows_run := fun _ _ => trivial
  knows_jump := fun _ _ => trivial
  knows_apart := fun _ _ => trivial
  knows_file := fun _ _ _ => trivial

theorem handleInvocation_ok {calls : Calls} {name : Name} {args : Bytes} {st' : St}
    (done : handleInvocation calls path name args st = .ok st') :
    ∃ proc values body r, st.pp.procTable name = some proc ∧
      evalArgs path st (argList args) = .ok values ∧
      runBody calls path proc values st = .ok body ∧ body.pp.procReturning = true ∧
      scanApart calls .operand (resultText proc body.pp.procResult) path (closeCall proc st body) =
        .ok r ∧ st' = { r.2 with output := st.output ++ r.1 } := by
  unfold handleInvocation at done
  dsimp only at done
  split at done
  · cases done
  · rename_i proc known
    split at done
    · cases done
    · obtain ⟨values, evaluated, called⟩ := bind_ok.mp done
      obtain ⟨body, ran, finished⟩ := bind_ok.mp called
      unfold finishCall at finished
      split at finished
      · rename_i returning
        obtain ⟨r, scanned, rfl⟩ := map_ok.mp finished
        exact ⟨proc, values, body, r, known, evaluated, ran, returning, scanned, rfl⟩
      · cases finished

/-- A call is hygienic: apart from variables that are no parameters and that the body has
    assigned, variables and activations are as before, and the text written is the value of
    the %RETURN expression as it is written, in the body's state there, where every name that
    the body does not assign is worth its argument or what it was before the call. -/
structure Hygienic (fs : FileSystem) (proc : PPProc) (values : List Int) (st body st' : St) :
    Prop where
  vars : ∀ x, x ∈ proc.params ∨ body.assigned x = false → st'.pp.ppVars x = st.pp.ppVars x
  active : ∀ x, x ∈ proc.params ∨ body.assigned x = false → st'.pp.ppActive x = st.pp.ppActive x
  text : ∃ r, body.returned = some r ∧ r.scanned = asWritten r.operand ∧ Evaluates fs r ∧
    (∀ x, body.assigned x = false → r.before.ppVars x = atEntry proc values st.pp x ∧
      r.after.ppVars x = atEntry proc values st.pp x) ∧
    st'.output = st.output ++ generated (resultText proc r.value)

/-- The parameters are declared and active before the call, and nothing else is except
    what the body assigns. -/
def Covered (proc : PPProc) (before : PP) (assigned : Name → Bool) : Prop :=
  (∀ x ∈ proc.params, (before.ppVars x).isSome = true ∧ before.ppActive x = true) ∧
    ∀ x, x ∉ proc.params → assigned x = false →
      before.ppVars x = none ∧ before.ppActive x = false

/-- The operand of the %RETURN does not start with a parenthesis that is closed before its
    end. -/
def ParensClose (body : St) : Prop :=
  ∀ r, body.returned = some r → r.operand.head? ≠ some (ch '(') ∨ enclosed r.operand = true

theorem frame_iff_covered {proc : PPProc} {st st' : St} {assigned : Name → Bool}
    (vars : st'.pp.ppVars = savedVars proc st.pp) (active : st'.pp.ppActive = savedActive proc) :
    ((∀ x, x ∈ proc.params ∨ assigned x = false → st'.pp.ppVars x = st.pp.ppVars x) ∧
      ∀ x, x ∈ proc.params ∨ assigned x = false → st'.pp.ppActive x = st.pp.ppActive x) ↔
      Covered proc st.pp assigned := by
  rw [vars, active]
  unfold savedVars savedActive Covered
  constructor
  · rintro ⟨sameVars, sameActive⟩
    refine ⟨fun x isParam => ⟨?_, ?_⟩, fun x noParam free => ⟨?_, ?_⟩⟩
    · rw [← sameVars x (.inl isParam), if_pos isParam, Option.isSome_some]
    · rw [← sameActive x (.inl isParam), decide_eq_true isParam]
    · rw [← sameVars x (.inr free), if_neg noParam]
    · rw [← sameActive x (.inr free), decide_eq_false noParam]
  · rintro ⟨params, others⟩
    constructor
    · intro x kept
      split
      · rename_i isParam
        obtain ⟨v, value⟩ := Option.isSome_iff_exists.mp (params x isParam).1
        rw [value, Option.getD_some]
      · rename_i noParam
        exact (others x noParam (kept.resolve_left noParam)).1.symm
    · intro x kept
      by_cases isParam : x ∈ proc.params
      · rw [decide_eq_true isParam, (params x isParam).2]
      · rw [decide_eq_false isParam, (others x isParam (kept.resolve_left isParam)).2]

/-- `%F: PROCEDURE(N) RETURNS(FIXED); %RETURN(N*2); %END;` -/
def doubling : PPProc := ⟨word "F", [word "N"], word "FIXED", word "%RETURN(N*2);"⟩

def noFiles : FileSystem :=
  ⟨fun p => p, fun _ => false, fun _ => none, fun p => p, fun p _ => p, fun _ => true, []⟩

def caller (x : Name) : St :=
  { St.initial with
    pp := { PP.initial with
      ppVars := Function.update (fun _ => none) x (some 3)
      ppActive := Function.update (fun _ => false) x true
      procTable := Function.update (fun _ => none) (word "F") (some doubling) } }

def calling (x : Name) : Res St :=
  handleInvocation (callsWith noFiles 20) "m" (word "F") (word "4") (caller x)

theorem calling_ends {x : Name} (ends : (calling x).toOption.isSome = true) :
    ∃ st', calling x = .ok st' := by
  cases result : calling x with
  | ok st' => exact ⟨st', rfl⟩
  | error e => rw [result] at ends; cases ends

def isCall : Event → Bool
  | .call _ _ => true
  | _ => false

end PliPreprocessor
