import PliLlvm.Source.PPState

/- The scan of the preprocessor and its directives (src/preprocessor.cpp). A
   directive gives the position to go on at and the last position of its own text,
   whose newlines the scan keeps. The functions call one another through a record,
   which has as much fuel as it was built with. -/
namespace PliPreprocessor
open Scan (Byte newline)
open PliLexer (ch word showText)

section Directives

variable (fs : FileSystem) (calls : Calls)

def scan (f : Frame) (st : St) : Res St :=
  if st.pp.scanDepth + 1 > kMaxScanDepth then
    failHere st f.path "preprocessor control-flow nesting is too deep (C28-6571-3 Ch.9)"
  else
    (calls.loop f .text f.start
        { st with pp := { st.pp with scanDepth := st.pp.scanDepth + 1 } }).map fun st' =>
      { st' with pp := { st'.pp with scanDepth := st'.pp.scanDepth - 1 } }

def wholeFrame (id : TextId) (bytes : Bytes) (path : Path) (active : Bool) : Frame :=
  ⟨⟨id, bytes⟩, 0, bytes.length, path, active⟩

/-- A scan of a text of its own into an output of its own, with copies of the line
    and the column. -/
def scanApart (id : TextId) (bytes : Bytes) (path : Path) (st : St) : Res (List Cell × St) :=
  (scan calls (wholeFrame id bytes path true) { st with output := [] }).map fun st' =>
    (st'.output, { st' with output := st.output, line := st.line, col := st.col })

def bytesOf (cells : List Cell) : Bytes := cells.map (·.byte)

def openFile (path : Path) (source : Bytes) (st : St) : St :=
  { st with
    line := 1
    col := 1
    pp := { st.pp with
      activeFiles := st.pp.activeFiles ++ [path]
      labels := collectLabels source fun _ => none
      gotoTarget := 0 } }

def closeFile (st inner : St) : St :=
  { inner with
    line := st.line
    col := st.col
    pp := { inner.pp with
      activeFiles := inner.pp.activeFiles.dropLast
      labels := st.pp.labels } }

def expand (input : Path) (st : St) : Res St :=
  let path := fs.normalized input
  if path ∈ st.pp.activeFiles then
    fail st input 0 0 ("recursive %INCLUDE of '" ++ path ++ "'")
  else
    match fs.read path with
    | none => fail st input 0 0 ("cannot open included source '" ++ path ++ "'")
    | some source =>
      (scan calls (wholeFrame (.file path) source path true) (openFile path source st)).map
        (closeFile st)

def withInc (path : Path) : Path :=
  if !fs.isThere path && !fs.hasExtension path then path ++ ".inc" else path

def resolve (input : Path) (name : Bytes) : Path :=
  let beside := withInc fs (fs.join (fs.parentPath input) name)
  if fs.isThere beside then beside
  else ((fs.includeDirs.map fun dir => withInc fs (fs.join dir name)).find? fs.isThere).getD beside

def unwrap (first last : Byte) (s : Bytes) : Option Bytes :=
  if 2 ≤ s.length ∧ s.head? = some first ∧ s.getLast? = some last then some s.tail.dropLast
  else none

def includeName (rawName : Bytes) : Bytes :=
  let name := trim rawName
  let name := ((unwrap (ch '(') (ch ')') name).map trim).getD name
  (unwrap (ch '\'') (ch '\'') name).getD name

def expandOneInclude (input : Path) (once : Bool) (st : St) (rawName : Bytes) : Res St :=
  let name := includeName rawName
  if name = [] ∨ name.any (fun c => c == ch ' ' || c == 9 || c == 13 || c == newline ||
      c == ch ',' || c == ch '(' || c == ch ')') then
    failHere st input (if once then "%XINCLUDE requires file or member names"
      else "%INCLUDE requires one file or member name")
  else
    let path := resolve fs input name
    if fs.isThere path then
      let canon := fs.normalized path
      if once ∧ (canon ∈ st.pp.included ∨ canon ∈ st.pp.activeFiles) then .ok st
      else expand fs calls path { st with pp := { st.pp with included := canon :: st.pp.included } }
    else expand fs calls path st

def handleInclude (input : Path) (operand : Bytes) (st : St) : Res St :=
  if trim operand = [] then failHere st input "%INCLUDE requires one file or member name"
  else expandOneInclude fs calls input false st (trim operand)

def handleXInclude (input : Path) (operand : Bytes) (st : St) : Res St :=
  let names := includeItems operand false 0 []
  if names.any fun item => trim item = [] then
    failHere st input "%XINCLUDE requires file or member names"
  else names.foldlM (expandOneInclude fs calls input true) st

def evalArgs (path : Path) (st : St) (args : List Bytes) : Res (List Int) :=
  args.mapM (evalHere path st)

/-- The state in which a macro's body is scanned: the parameters are bound and
    active, and no value has been returned. -/
def bound (proc : PPProc) (values : List Int) (st : St) : St :=
  { st with
    pp := { st.pp with
      ppVars := (proc.params.zip values).foldl
        (fun vars b => Function.update vars b.1 (some b.2)) st.pp.ppVars
      ppActive := fun x => decide (x ∈ proc.params) || st.pp.ppActive x
      procReturning := false
      procResult := 0 }
    assigned := fun _ => false
    returned := none }

def enterCall (proc : PPProc) (values : List Int) (st : St) : St :=
  bound proc values (note (.call st.pp proc) st)

def savedVars (proc : PPProc) (before : PP) : Name → Option Int := fun x =>
  if x ∈ proc.params then some ((before.ppVars x).getD 0) else none

def savedActive (proc : PPProc) : Name → Bool := fun x => decide (x ∈ proc.params)

def runBody (path : Path) (proc : PPProc) (values : List Int) (st : St) : Res St :=
  (scanApart calls (.body proc.name) proc.body path (enterCall proc values st)).map (·.2)

def resultText (proc : PPProc) (result : Int) : Bytes :=
  if proc.returns = word "CHARACTER" then ch '\'' :: decimal result ++ [ch '\'']
  else decimal result

def closeCall (proc : PPProc) (st body : St) : St :=
  { body with
    pp := { body.pp with
      ppActive := savedActive proc
      ppVars := savedVars proc st.pp
      procReturning := st.pp.procReturning }
    assigned := fun x => st.assigned x || body.assigned x
    returned := st.returned }

def finishCall (path : Path) (name : Name) (proc : PPProc) (st body : St) : Res St :=
  if body.pp.procReturning then
    (scanApart calls .operand (resultText proc body.pp.procResult) path
        (closeCall proc st body)).map fun r => { r.2 with output := st.output ++ r.1 }
  else fail { st with trace := body.trace } path st.line st.col
    ("%" ++ showText name ++ " did not return a value")

def handleInvocation (path : Path) (name : Name) (args : Bytes) (st : St) : Res St :=
  match st.pp.procTable name with
  | none => failHere st path ("%" ++ showText name ++ " is not a defined preprocessor procedure")
  | some proc =>
    let given := argList args
    if given.length ≠ proc.params.length then
      failHere st path ("%" ++ showText name ++ " expects " ++ toString proc.params.length ++
        " argument(s), got " ++ toString given.length)
    else
      (evalArgs path st given).bind fun values =>
        (runBody calls path proc values st).bind (finishCall calls path name proc st)

def stripParens (expr : Bytes) : Bytes :=
  if expr.head? = some (ch '(') then
    let expr := trim expr.tail
    if expr.getLast? = some (ch ')') then expr.dropLast else expr
  else expr

def setReturned (path : Path) (before : PP) (operand scanned : Bytes)
    (value : Int) (st : St) : St :=
  { st with
    pp := { st.pp with procResult := value, procReturning := true }
    returned := some ⟨operand, scanned, value, path, before, st.pp⟩ }

/-- `operand` is the text between the word and the ';'. -/
def handleReturn (path : Path) (operand : Bytes) (st : St) : Res St :=
  (scanApart calls .operand (stripParens (trim operand)) path st).bind fun r =>
    (evalHere path r.2 (bytesOf r.1)).map fun value =>
      setReturned path st.pp (trim operand) (stripParens (trim operand)) value r.2

def handleDo (f : Frame) (endPos : Nat) (bodyStart : Nat) (spec : Bytes) (st : St) : Res St :=
  let body := { f with start := bodyStart, stop := endPos }
  (liftError st f.path (doSpec st.pp.ppVars spec)).bind fun iteration =>
    match iteration with
    | none => scan calls body st
    | some (varName, e1, e2, e3) => calls.iterate ⟨body, varName, e2, e3⟩ e1 st

def goesOn (d : DoLoop) (iter : Int) : Bool :=
  if d.step > 0 then decide (iter ≤ d.last) else decide (iter ≥ d.last)

/-- The loop of an iterative %DO. The lines of a turn are recorded by its scan and
    again as its output is copied. -/
def iterate (d : DoLoop) (iter : Int) (st : St) : Res St :=
  if goesOn d iter then
    (scan calls d.frame { setVar d.varName iter st with output := [] }).bind fun turn =>
      let copy := emit d.frame.path turn.output
        { turn with output := st.output, line := st.line, col := st.col }
      calls.iterate d (longLong (iter + d.step)) { copy with line := turn.line, col := turn.col }
  else .ok st

def quoteEnd (source : Bytes) (i : Nat) : Nat := go (source.drop i) i
where
  go : Bytes → Nat → Nat
    | [], i => i
    | c :: cs, i =>
      if c = ch '\'' then
        match cs with
        | [] => i
        | d :: ds => if d = ch '\'' then go ds (i + 2) else i
      else go cs (i + 1)

theorem quoteEnd_ge (source : Bytes) (i : Nat) : i ≤ quoteEnd source i := by
  suffices all : ∀ cs i, i ≤ quoteEnd.go cs i from all _ i
  intro cs i
  fun_induction quoteEnd.go cs i with
  | case1 | case2 => exact Nat.le_refl _
  | case3 _ _ ih => exact Nat.le_trans (Nat.le_add_right _ 2) ih
  | case4 => exact Nat.le_refl _
  | case5 _ _ _ _ ih => exact Nat.le_trans (Nat.le_add_right _ 1) ih

/-- Past the argument list of a call in the expression of %IF. The quote that closes a
    string is looked at again. -/
def pastArgs (source : Bytes) (i depth : Nat) : Nat :=
  if inside : i < source.length ∧ 0 < depth then
    let c := byteAt source i
    if c = ch '\'' then
      if sees source source.length (i + 1) (ch '\'') then pastArgs source (i + 2) depth
      else pastArgs source (quoteEnd source (i + 1)) depth
    else if c = ch '(' then pastArgs source (i + 1) (depth + 1)
    else if c = ch ')' then pastArgs source (i + 1) (depth - 1)
    else pastArgs source (i + 1) depth
  else i
termination_by source.length - i
decreasing_by
  · omega
  · have after := quoteEnd_ge source (i + 1)
    omega
  all_goals omega

theorem pastArgs_ge (source : Bytes) (i depth : Nat) : i ≤ pastArgs source i depth := by
  fun_induction pastArgs source i depth with
  | case1 _ _ _ _ _ _ ih => exact Nat.le_trans (Nat.le_add_right _ 2) ih
  | case2 i _ _ _ _ _ ih =>
    exact Nat.le_trans (Nat.le_trans (Nat.le_add_right _ 1) (quoteEnd_ge source (i + 1))) ih
  | case3 _ _ _ _ _ _ ih | case4 _ _ _ _ _ _ _ ih | case5 _ _ _ _ _ _ _ ih =>
    exact Nat.le_trans (Nat.le_add_right _ 1) ih
  | case6 => exact Nat.le_refl _

/-- The %THEN of a %IF whose expression starts at `i`. -/
def findThen (source : Bytes) (mode : Mode) (i : Nat) : Option Nat :=
  if inside : i < source.length then
    if mode = .text ∧ byteAt source i = ch '%' then
      let w := directiveWord source i source.length
      if upper (slice source w.1 w.2) = word "THEN" then some i
      else
        let open_ := skip isBlank source w.2 source.length
        if sees source source.length open_ (ch '(') then
          findThen source .text (pastArgs source (open_ + 1) 1)
        else none
    else if mode = .text ∧ byteAt source i = ch ';' then none
    else
      let next := turn source source.length mode i
      findThen source next.1 next.2
  else none
termination_by source.length - i
decreasing_by
  · have word := directiveWord_gt source i source.length
    have blanks := skip_ge isBlank source (directiveWord source i source.length).2 source.length
    have args := pastArgs_ge source
      (skip isBlank source (directiveWord source i source.length).2 source.length + 1) 1
    omega
  · have after := turn_gt source source.length mode i
    omega

def ifArm (f : Frame) (arm : Nat) (active : Bool) (st : St) : Res (Nat × St) :=
  let st := note (.reads f.text arm) st
  if byteAt f.text.bytes arm = ch '%' then
    (calls.directive f active arm st).map fun r => (r.1, r.2.2)
  else
    let stmtEnd := statementEnd f.text.bytes .text arm
    .ok (stmtEnd, if active then emit f.path (copied f arm stmtEnd) st else st)

def elseArm (source : Bytes) (next : Nat) : Option Nat :=
  let e := skip isWhite source next source.length
  if sees source source.length e (ch '%') then
    let w := directiveWord source e source.length
    if upper (slice source w.1 w.2) = word "ELSE" then
      some (skip isWhite source w.2 source.length)
    else none
  else none

def ifCond (f : Frame) (active : Bool) (expr : Bytes) (st : St) : Res (Bool × St) :=
  if active then
    (scanApart calls .operand expr f.path st).bind fun r =>
      (evalHere f.path r.2 (bytesOf r.1)).map fun cond =>
        (cond != 0, r.2)
  else .ok (false, st)

def ifArms (f : Frame) (active : Bool) (arm : Nat) (cond : Bool) (at0 st : St) :
    Res (Nat × Nat × St) :=
  (ifArm calls f arm (active && cond) st).bind fun taken =>
    match elseArm f.text.bytes taken.1 with
    | none => .ok (taken.1, arm - 1, taken.2)
    | some arm2 =>
      if arm2 ≥ f.text.bytes.length then
        failHere { at0 with trace := taken.2.trace } f.path
          "expected a directive or statement after %ELSE"
      else
        (ifArm calls f arm2 (active && !cond)
            (note (.reads f.text (skip isWhite f.text.bytes taken.1 f.text.bytes.length))
              taken.2)).map
          fun other => (other.1, arm - 1, other.2)

def processIf (f : Frame) (active : Bool) (wordEnd : Nat) (st : St) : Res (Nat × Nat × St) :=
  let source := f.text.bytes
  match findThen source .text wordEnd with
  | none => failHere st f.path "expected %THEN in %IF directive"
  | some thenAt =>
    (ifCond calls f active (slice source wordEnd thenAt) st).bind fun r =>
      let arm := skip isWhite source (directiveWord source thenAt source.length).2 source.length
      if arm ≥ source.length then
        failHere { st with trace := r.2.trace } f.path
          "expected a directive or statement after %THEN"
      else ifArms calls f active arm r.1 st r.2

def gated (active : Bool) (run : St → Res St) (st : St) : Res St :=
  if active then run st else .ok st

def labelDirective (f : Frame) (active : Bool) (name : Name) (wordEnd : Nat) (st : St) :
    Res (Nat × Nat × St) :=
  let source := f.text.bytes
  let target := skip isWhite source (wordEnd + 1) source.length
  let we := skip isWordChar source target source.length
  let kind := upper (slice source target we)
  if kind = word "PROCEDURE" ∨ kind = word "PROC" then
    match findDirectiveEnd source we with
    | none => failHere st f.path "unterminated preprocessor directive"
    | some procEnd =>
      (liftError st f.path (findMatchingEnd source (procEnd + 1))).bind fun m =>
        (gated active (handleDefinition f.path name (slice source target procEnd)
            (slice source (procEnd + 1) m.1)) st).map fun st' => (m.2 + 1, m.2, st')
  else if sees source source.length target (ch '%') then .ok (target, target - 1, st)
  else
    match findDirectiveEnd source target with
    | some semi => .ok (semi + 1, target - 1, st)
    | none => .ok (target, target - 1, st)

def doDirective (f : Frame) (active : Bool) (wordEnd : Nat) (st : St) : Res (Nat × Nat × St) :=
  let source := f.text.bytes
  match findDirectiveEnd source wordEnd with
  | none => failHere st f.path "unterminated %DO (C28-6571-3 Ch.9)"
  | some doEnd =>
    (liftError st f.path (findMatchingEnd source (doEnd + 1))).bind fun m =>
      if active then
        (handleDo calls { f with active := active } m.1 (doEnd + 1) (slice source wordEnd doEnd)
          st).map fun st' => (m.2 + 1, doEnd, st')
      else .ok (m.2 + 1, doEnd, keepNewlines f m.1 (m.2 + 1) st)

def gotoOperand (name : Name) (operand : Bytes) : Bytes :=
  if name = word "GO" then
    match findWhole (word "TO") (upper (trim operand)) with
    | some i => trim ((trim operand).drop (i + 2))
    | none => trim operand
  else trim operand

def gotoDirective (f : Frame) (active : Bool) (name : Name) (wordEnd : Nat) (st : St) :
    Res (Nat × Nat × St) :=
  match findDirectiveEnd f.text.bytes wordEnd with
  | none => failHere st f.path "unterminated %GOTO (C28-6571-3 Ch.9)"
  | some semi =>
    if active then
      (handleGoto f.path f name (gotoOperand name (slice f.text.bytes wordEnd semi)) st).map
        fun st' => (st'.pp.gotoTarget, semi, st')
    else .ok (semi + 1, semi, st)

def returnDirective (f : Frame) (active : Bool) (wordEnd : Nat) (st : St) :
    Res (Nat × Nat × St) :=
  match findDirectiveEnd f.text.bytes wordEnd with
  | none => failHere st f.path "unterminated %RETURN (C28-6571-3 Ch.9)"
  | some semi =>
    (gated (active && !st.pp.procReturning)
      (handleReturn calls f.path (slice f.text.bytes wordEnd semi)) st).map
        fun st' => (semi + 1, semi, st')

def callDirective (f : Frame) (active : Bool) (name : Name) (paren : Nat) (st : St) :
    Res (Nat × Nat × St) :=
  let source := f.text.bytes
  match argsEnd source .text (paren + 1) 1 with
  | none => failHere st f.path ("unterminated argument list in %" ++ showText name)
  | some last =>
    let next := match findDirectiveEnd source last with
      | some semi => semi + 1
      | none => last
    (gated active (handleInvocation calls f.path name (slice source (paren + 1) (last - 1))) st).map
      fun st' => (next, next - 1, st')

def takesOperand (name : Name) : Bool :=
  name == word "INCLUDE" || name == word "XINCLUDE" || name == word "DECLARE" ||
    name == word "DCL" || name == word "ACTIVATE" || name == word "DEACTIVATE" ||
    name == word "REPLACE"

def plainDirective (f : Frame) (active : Bool) (name : Name) (i wordEnd : Nat) (st : St) :
    Res (Nat × Nat × St) :=
  let source := f.text.bytes
  match findDirectiveEnd source wordEnd with
  | none => failHere st f.path "unterminated preprocessor directive"
  | some semi =>
    let operand := slice source wordEnd semi
    let ends (run : St → Res St) := (gated active run st).map fun st' => (semi + 1, semi, st')
    if name = word "INCLUDE" then ends (handleInclude fs calls f.path operand)
    else if name = word "XINCLUDE" then ends (handleXInclude fs calls f.path operand)
    else if name = word "DECLARE" ∨ name = word "DCL" then ends (handleDeclare f.path operand)
    else if name = word "ACTIVATE" ∨ name = word "DEACTIVATE" then
      ends (handleActivation f.path name operand)
    else if name = word "REPLACE" then ends (handleReplace f.path source i wordEnd semi)
    else if sees source source.length (skip isBlank source wordEnd source.length) (ch '=') then
      ends (handleAssignment f.path name operand)
    else (gated active (substituteRef f.path name) st).map fun st' => (wordEnd, semi, st')

def processDirective (f : Frame) (active : Bool) (i : Nat) (st : St) : Res (Nat × Nat × St) :=
  let source := f.text.bytes
  let w := directiveWord source i source.length
  let name := upper (slice source w.1 w.2)
  let paren := skip isWhite source w.2 source.length
  if w.2 = w.1 then failHere st f.path "expected a preprocessor directive"
  else if name = word "IF" then processIf calls f active w.2 st
  else if name = word "THEN" ∨ name = word "ELSE" then
    failHere st f.path ("%" ++ showText name ++ " without %IF")
  else if sees source source.length w.2 (ch ':') then labelDirective f active name w.2 st
  else if name = word "DO" then doDirective calls f active w.2 st
  else if name = word "END" then
    match findDirectiveEnd source w.2 with
    | none => failHere st f.path "unterminated %END directive"
    | some semi => .ok (semi + 1, semi, st)
  else if name = word "GO" ∨ name = word "GOTO" then gotoDirective f active name w.2 st
  else if name = word "RETURN" then returnDirective calls f active w.2 st
  else if !takesOperand name && sees source source.length paren (ch '(') then
    callDirective calls f active name paren st
  else plainDirective fs calls f active name i w.2 st

def setReplacing (name : Name) (on : Bool) (st : St) : St :=
  { st with pp := { st.pp with replacing := Function.update st.pp.replacing name on } }

def scanWord (f : Frame) (i : Nat) (st : St) : Res St :=
  let j := skip isWordChar f.text.bytes (i + 1) f.stop
  let key := upper (slice f.text.bytes i j)
  match st.pp.replacements key with
  | none => .ok (emit f.path (copied f i j) st)
  | some text =>
    if st.pp.replacing key then .ok (emit f.path (copied f i j) st)
    else
      (scan calls (wholeFrame (.replacement key) text f.path f.active)
        (setReplacing key true st)).map (setReplacing key false)

def afterDirective (f : Frame) (i : Nat) (r : Nat × Nat × St) : Res St :=
  let st := keepNewlines f i (r.2.1 + 1) r.2.2
  if st.pp.procReturning then .ok st
  else if r.1 < f.start ∨ r.1 > f.stop then .ok st
  else calls.loop f .text r.1 st

def scanLoop (f : Frame) (mode : Mode) (i : Nat) (st : St) : Res St :=
  let source := f.text.bytes
  let st := note (.reads f.text i) st
  if i < f.stop then
    let c := byteAt source i
    if mode = .text ∧ c = ch '%' then
      (calls.directive f f.active i st).bind (afterDirective calls f i)
    else if mode = .text ∧ isWordStart c then
      (scanWord calls f i st).bind (calls.loop f .text (skip isWordChar source (i + 1) f.stop))
    else if mode = .text ∧ c = ch '"' then
      failHere st f.path
        "double-quoted strings are only valid as a %REPLACE operand (ADR-082)"
    else
      let next := turn source f.stop mode i
      calls.loop f next.1 next.2 (emit f.path (copied f i next.2) st)
  else .ok st

end Directives

def callsWith (fs : FileSystem) : Nat → Calls
  | 0 =>
    { loop := fun _ _ _ st => .error ⟨none, st.trace⟩
      directive := fun _ _ _ st => .error ⟨none, st.trace⟩
      iterate := fun _ _ st => .error ⟨none, st.trace⟩ }
  | fuel + 1 =>
    { loop := scanLoop (callsWith fs fuel)
      directive := processDirective fs (callsWith fs fuel)
      iterate := iterate (callsWith fs fuel) }

def PP.initial : PP where
  activeFiles := []
  included := []
  ppVars := fun _ => none
  ppActive := fun _ => false
  replacements := fun _ => none
  replacing := fun _ => false
  labels := fun _ => none
  gotoTarget := 0
  scanDepth := 0
  procTable := fun _ => none
  procResult := 0
  procReturning := false
  lineMap := []

def St.initial : St := ⟨PP.initial, [], 1, 1, [], fun _ => false, none⟩

def run (fs : FileSystem) (fuel : Nat) (input : Path) : Res St :=
  expand fs (callsWith fs fuel) input St.initial

end PliPreprocessor
