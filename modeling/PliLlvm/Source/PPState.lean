import PliLlvm.Source.PPExpr

/- The preprocessor (src/preprocessor.cpp, preprocessor.h). Every diagnostic makes
   the whole run fail, so a failure ends it here and what the callers would still
   restore is left out. The file system is a parameter. A %GOTO can run for ever:
   the recursion has fuel and a run that is out of it has diverged. Lines, columns
   and the depth are Nat. What a run reads, its jumps, its calls, the assignments and
   the value returned are kept beside the state for the theorems; no branch reads
   them. The sources kept for the echo of a diagnostic are left out. -/
namespace PliPreprocessor
open Scan (Byte newline)
open PliLexer (ch toUpper word showText)

abbrev Path := String

structure FileSystem where
  normalized : Path → Path
  isThere : Path → Bool
  read : Path → Option Bytes
  parentPath : Path → Path
  join : Path → Bytes → Path
  hasExtension : Path → Bool
  includeDirs : List Path

structure PPProc where
  name : Name
  params : List Name
  returns : Name
  body : Bytes

structure FileLoc where
  path : Path
  line : Nat

/-- Whose text it is: a file's, a macro's, a %REPLACE name's, or the operand of a
    directive that is scanned again. -/
inductive TextId where
  | file (path : Path)
  | body (name : Name)
  | replacement (name : Name)
  | operand
  deriving DecidableEq

def TextId.isFile : TextId → Bool
  | .file _ => true
  | _ => false

structure Text where
  id : TextId
  bytes : Bytes
  deriving DecidableEq

structure Frame where
  text : Text
  start : Nat
  stop : Nat
  path : Path
  active : Bool
  deriving DecidableEq

structure Cell where
  byte : Byte
  origin : Option (Path × Nat)

structure PP where
  activeFiles : List Path
  included : List Path
  ppVars : Name → Option Int
  ppActive : Name → Bool
  replacements : Name → Option Bytes
  replacing : Name → Bool
  labels : Name → Option Nat
  gotoTarget : Nat
  scanDepth : Nat
  procTable : Name → Option PPProc
  procResult : Int
  procReturning : Bool
  lineMap : List FileLoc

/-- A position that a scan comes to, a %GOTO with what its label is found to be, the
    call of a macro. -/
inductive Event where
  | reads (text : Text) (i : Nat)
  | goto (frame : Frame) (label : Name) (found : Option Nat) (returning : Bool)
  | call (before : PP) (proc : PPProc)

/-- A %RETURN executed, with the states before and after its operand is scanned. -/
structure Returned where
  operand : Bytes
  scanned : Bytes
  value : Int
  path : Path
  before : PP
  after : PP

structure St where
  pp : PP
  output : List Cell
  line : Nat
  col : Nat
  trace : List Event
  assigned : Name → Bool
  returned : Option Returned

structure Diag where
  path : Path
  line : Nat
  col : Nat
  msg : String

structure Stop where
  diag : Option Diag
  trace : List Event

abbrev Res (α : Type) := Except Stop α

structure DoLoop where
  frame : Frame
  varName : Name
  last : Int
  step : Int

/-- The recursive calls: the loop of scan from a position on, a directive, the loop of
    %DO from a value on. -/
structure Calls where
  loop : Frame → Mode → Nat → St → Res St
  directive : Frame → Bool → Nat → St → Res (Nat × Nat × St)
  iterate : DoLoop → Int → St → Res St

def fail {α : Type} (st : St) (path : Path) (line col : Nat) (msg : String) : Res α :=
  .error ⟨some ⟨path, line, col, msg⟩, st.trace⟩

def failHere {α : Type} (st : St) (path : Path) (msg : String) : Res α :=
  fail st path st.line st.col msg

def liftError {α : Type} (st : St) (path : Path) (r : Except String α) : Res α :=
  match r with
  | .ok a => .ok a
  | .error msg => failHere st path msg

def note (e : Event) (st : St) : St := { st with trace := st.trace ++ [e] }

def kMaxScanDepth : Nat := 256

def setVar (name : Name) (value : Int) (st : St) : St :=
  { st with
    pp := { st.pp with ppVars := Function.update st.pp.ppVars name (some value) }
    assigned := Function.update st.assigned name true }

def setActive (name : Name) (on : Bool) (st : St) : St :=
  { st with pp := { st.pp with ppActive := Function.update st.pp.ppActive name on } }

def cellOf (id : TextId) (pos : Nat) (c : Byte) : Cell :=
  match id with
  | .file path => ⟨c, some (path, pos)⟩
  | _ => ⟨c, none⟩

def copied (f : Frame) (i j : Nat) : List Cell :=
  (slice f.text.bytes i j).zipIdx.map fun x => cellOf f.text.id (i + x.2) x.1

def generated (s : Bytes) : List Cell := s.map fun c => ⟨c, none⟩

def emitOne (path : Path) (st : St) (c : Cell) : St :=
  if c.byte = newline then
    { st with
      output := st.output ++ [c]
      pp := { st.pp with lineMap := st.pp.lineMap ++ [⟨path, st.line⟩] }
      line := st.line + 1
      col := 1 }
  else { st with output := st.output ++ [c], col := st.col + 1 }

def emit (path : Path) (text : List Cell) (st : St) : St := text.foldl (emitOne path) st

def keepOne (path : Path) (st : St) (c : Cell) : St :=
  if c.byte = newline then emitOne path st c else { st with col := st.col + 1 }

def keepNewlines (f : Frame) (i j : Nat) (st : St) : St :=
  (copied f i j).foldl (keepOne f.path) st

def decimal (v : Int) : Bytes :=
  if v < 0 then ch '-' :: (Nat.toDigits 10 v.natAbs).map ch
  else (Nat.toDigits 10 v.natAbs).map ch

def items (s : Bytes) : List Bytes :=
  let all := s.splitOn (ch ',')
  if all.getLast? = some [] then all.dropLast else all

def findWord (w s : Bytes) (left right : Byte → Bool) : Option Nat :=
  (List.range (s.length + 1 - w.length)).find? fun i =>
    (s.drop i).take w.length == w &&
      (i == 0 || left (byteAt s (i - 1))) &&
      (i + w.length == s.length || right (byteAt s (i + w.length)))

def findWhole (w s : Bytes) : Option Nat :=
  findWord w s (fun c => !isWordChar c) (fun c => !isWordChar c)

section Handlers

variable (path : Path)

def evalHere (st : St) (text : Bytes) : Res Int :=
  liftError st path (evalCondExpr st.pp.ppVars text)

def closing : Bytes → Nat → Nat → Option Nat
  | [], _, _ => none
  | c :: cs, i, depth =>
    if c = ch '(' then closing cs (i + 1) (depth + 1)
    else if c = ch ')' then if depth = 1 then some i else closing cs (i + 1) (depth - 1)
    else closing cs (i + 1) depth

def declareName (st : St) (name : Name) (value : Int) : Res St :=
  if name = [] then failHere st path "expected a name in %DECLARE"
  else if name = word "CHARACTER" then
    failHere st path "CHARACTER preprocessor variables are not implemented"
  else if name.all isWordChar then
    if (st.pp.ppVars name).isSome then .ok st else .ok (setVar name value st)
  else failHere st path "expected a name in %DECLARE"

def declareItem (st : St) (item : Bytes) : Res St :=
  let name := upper (trim item)
  let blank := fun c => c == ch ' ' || c == 9
  match findWord (word "VALUE") name blank (fun c => blank c || c == ch '(') with
  | none => declareName path st name 0
  | some i =>
    let before := trim (name.take i)
    let after := trim (name.drop (i + 5))
    if before = [] then failHere st path "expected a name before VALUE in %DECLARE"
    else if after.head? = some (ch '(') then
      match closing after 0 0 with
      | none => failHere st path "unterminated VALUE expression in %DECLARE"
      | some last =>
        (evalHere path st (slice after 1 last)).bind (declareName path st (upper before))
    else failHere st path "expected '(' after VALUE in %DECLARE"

def handleDeclare (operand : Bytes) (st : St) : Res St :=
  if items operand = [] then failHere st path "expected a name in %DECLARE"
  else (items operand).foldlM (declareItem path) st

def notDeclared (name : Name) : String :=
  "%" ++ showText name ++ " is not a declared preprocessor variable"

def handleAssignment (name : Name) (operand : Bytes) (st : St) : Res St :=
  let rest := trim operand
  if rest.head? = some (ch '=') then
    if (st.pp.ppVars name).isSome then
      (evalHere path st rest.tail).map fun value => setVar name value st
    else failHere st path (notDeclared name)
  else failHere st path
    ("expected = after %" ++ showText name ++ " (only assignment is implemented)")

def activateItem (name : Name) (st : St) (item : Bytes) : Res St :=
  let var := upper (trim item)
  if var = [] then failHere st path ("expected a name in %" ++ showText name)
  else if (st.pp.ppVars var).isSome then .ok (setActive var (name == word "ACTIVATE") st)
  else failHere st path (notDeclared var)

def handleActivation (name : Name) (operand : Bytes) (st : St) : Res St :=
  if items operand = [] then failHere st path ("expected a name in %" ++ showText name)
  else (items operand).foldlM (activateItem path name) st

def substituteRef (name : Name) (st : St) : Res St :=
  match st.pp.ppVars name with
  | none => failHere st path (notDeclared name)
  | some value =>
    if st.pp.ppActive name then
      .ok { st with output := st.output ++ generated (decimal value) }
    else failHere st path ("%" ++ showText name ++ " is not an active preprocessor variable")

def unquote : Bytes → Option (Bytes × Bytes)
  | [] => none
  | c :: cs =>
    if c = ch '"' then
      match cs with
      | [] => some ([], [])
      | d :: ds =>
        if d = ch '"' then (unquote ds).map fun r => (ch '"' :: r.1, r.2)
        else some ([], d :: ds)
    else (unquote cs).map fun r => (c :: r.1, r.2)

def replacementText (text : Bytes) : Except String Bytes :=
  if text = [] then .error "empty replacement text in %REPLACE (ADR-077)"
  else if text.head? = some (ch '"') then
    match unquote text.tail with
    | none => .error "unterminated double-quoted string"
    | some (body, rest) =>
      if rest.dropWhile isSpace ≠ [] then
        .error "a quoted %REPLACE operand must be the whole replacement text (ADR-082)"
      else if trim body = [] then .error "empty replacement text in %REPLACE (ADR-077)"
      else .ok (trim body)
  else if ch '"' ∈ text then
    .error "a quoted %REPLACE operand must be the whole replacement text (ADR-082)"
  else .ok text

def handleReplace (source : Bytes) (i wordEnd stop : Nat) (st : St) : Res St :=
  let nameStart := skip isWhite source wordEnd stop
  if nameStart < stop ∧ isWordStart (byteAt source nameStart) then
    let nameEnd := skip isWordChar source nameStart stop
    let name := upper (slice source nameStart nameEnd)
    let loc : Scan.Loc := (⟨st.line, st.col⟩ : Scan.Loc).advance (slice source i nameStart)
    let byStart := skip isWhite source nameEnd stop
    let byEnd := skip isWordChar source byStart stop
    if upper (slice source byStart byEnd) = word "BY" then
      let text := (slice source (skip isWhite source byEnd stop) stop).rdropWhile isSpace
      match replacementText text with
      | .error msg => fail st path loc.line loc.col msg
      | .ok body =>
        .ok { st with
          pp := { st.pp with replacements := Function.update st.pp.replacements name (some body) } }
    else fail st path loc.line loc.col "expected BY after the %REPLACE identifier (ADR-077)"
  else failHere st path "expected an identifier after %REPLACE (ADR-077)"

def parenBody : Bytes → Nat → Bytes × Bytes
  | [], _ => ([], [])
  | c :: cs, depth =>
    if c = ch ')' ∧ depth = 1 then ([], cs)
    else
      let depth := if c = ch '(' then depth + 1 else if c = ch ')' then depth - 1 else depth
      let r := parenBody cs depth
      (c :: r.1, r.2)

def parenthesised (s : Bytes) : Bytes × Bytes :=
  if s.head? = some (ch '(') then parenBody s.tail 1 else ([], s)

def findReturns : Bytes → Option Bytes
  | [] => none
  | c :: cs =>
    if (c :: cs).take 7 = word "RETURNS" then some ((c :: cs).drop 7) else findReturns cs

def procOf (labelName : Name) (decl body : Bytes) : PPProc :=
  let up := upper (trim decl)
  let params := parenthesised ((up.dropWhile isWordChar).dropWhile isWhite)
  let returns :=
    match findReturns (params.2.dropWhile isWhite) with
    | none => []
    | some after => (parenthesised (after.dropWhile isWhite)).1
  { name := labelName
    params := (((trim params.1).splitOn (ch ',')).map fun p => upper (trim p)).filter (· ≠ [])
    returns := upper (trim returns)
    body := body }

def handleDefinition (labelName : Name) (decl body : Bytes) (st : St) : Res St :=
  if (st.pp.ppVars labelName).isSome then
    failHere st path ("%" ++ showText labelName ++ " conflicts with a preprocessor variable")
  else
    .ok { st with
      pp := { st.pp with
        procTable :=
          Function.update st.pp.procTable labelName (some (procOf labelName decl body)) } }

def noteGoto (f : Frame) (label : Name) (st : St) : St :=
  note (.goto f label (st.pp.labels label) st.pp.procReturning) st

def handleGoto (f : Frame) (name : Name) (operand : Bytes) (st : St) : Res St :=
  let label := upper (trim operand)
  if label = [] then failHere st path ("%" ++ showText name ++ " requires a label name")
  else
    match st.pp.labels label with
    | none =>
      failHere (noteGoto f label st) path
        ("undefined label in %" ++ showText name ++ ": '" ++ showText (trim operand) ++ "'")
    | some target =>
      .ok { noteGoto f label st with pp := { st.pp with gotoTarget := target } }

def includeItems : Bytes → Bool → Nat → Bytes → List Bytes
  | [], _, _, cur => [cur]
  | c :: cs, quoted, depth, cur =>
    if c = ch '\'' then
      match cs with
      | [] => [cur ++ [c]]
      | d :: ds =>
        if quoted ∧ d = ch '\'' then includeItems ds quoted depth (cur ++ [c, d])
        else includeItems (d :: ds) (!quoted) depth (cur ++ [c])
    else if quoted then includeItems cs quoted depth (cur ++ [c])
    else if c = ch '(' then includeItems cs quoted (depth + 1) (cur ++ [c])
    else if c = ch ')' ∧ 0 < depth then includeItems cs quoted (depth - 1) (cur ++ [c])
    else if c = ch ',' ∧ depth = 0 then cur :: includeItems cs quoted depth []
    else includeItems cs quoted depth (cur ++ [c])

def callArgs : Bytes → Bool → Int → Bytes → List Bytes
  | [], _, _, cur => [cur]
  | c :: cs, quoted, depth, cur =>
    if quoted then
      if c = ch '\'' then
        match cs with
        | [] => [cur ++ [c]]
        | d :: ds =>
          if d = ch '\'' then callArgs ds quoted depth (cur ++ [c, d])
          else callArgs (d :: ds) false depth (cur ++ [c])
      else callArgs cs quoted depth (cur ++ [c])
    else if c = ch '\'' then callArgs cs true depth (cur ++ [c])
    else if c = ch '(' then callArgs cs quoted (depth + 1) (cur ++ [c])
    else if c = ch ')' then callArgs cs quoted (depth - 1) (cur ++ [c])
    else if c = ch ',' ∧ depth = 0 then cur :: callArgs cs quoted depth []
    else callArgs cs quoted depth (cur ++ [c])

def argList (args : Bytes) : List Bytes := if trim args = [] then [] else callArgs args false 0 []

def doSpec (vars : Name → Option Int) (spec : Bytes) :
    Except String (Option (Name × Int × Int × Int)) :=
  if trim spec = [] then .ok none
  else
    let up := upper (trim spec)
    if ch '=' ∈ up then
      let varName := upper (trim (up.takeWhile (· != ch '=')))
      let rest := trim (up.dropWhile (· != ch '=')).tail
      match findWhole (word "TO") rest with
      | none => .error "expected TO in %DO iteration spec"
      | some i =>
        let afterTo := trim (rest.drop (i + 2))
        let exprs :=
          match findWhole (word "BY") afterTo with
          | none => (afterTo, word "1")
          | some j => (trim (afterTo.take j), trim (afterTo.drop (j + 2)))
        (evalCondExpr vars (rest.take i)).bind fun e1 =>
          (evalCondExpr vars exprs.1).bind fun e2 =>
            (evalCondExpr vars exprs.2).bind fun e3 =>
              if e3 = 0 then .error "BY step is zero in %DO loop"
              else .ok (some (varName, e1, e2, e3))
    else .error "expected 'var=start TO end [BY step]' in %DO, or bare %DO with no iteration"

end Handlers

end PliPreprocessor
