import PliLlvm.Hir.Touches
import Mathlib.Algebra.Order.Field.Rat

/- Running the HIR, as the code generator lays it out (emitStmt, emitDoWhile, emitDoIter and
   emitExpr in src/irgen.cpp). What is left to do is a list of tasks, the next one first;
   markers in it close a loop's body and a procedure's activation. The values of
   expressions and the addresses of references are left open, so that a run is one of the
   program on any data. Storage is kept for its numeric values, by address. A statement of
   input, output, storage or conditions may change any storage and need not come back. -/
namespace PliEffects
open PliHir

abbrev Mem := Nat → ℚ

def Mem.set (m : Mem) (c : Nat) (v : ℚ) : Mem := fun d => if d = c then v else m d

def unitOf (ct : Ty) : ℚ :=
  match ct.k with
  | .fixedBin => 2 ^ (-ct.scale)
  | .fixedDec => 10 ^ (-ct.scale)
  | _ => 1

theorem unitOf_pos (ct : Ty) : 0 < unitOf ct := by
  unfold unitOf
  split
  · exact zpow_pos (by decide) _
  · exact zpow_pos (by decide) _
  · decide

/-- The variable holds the number exactly; a FLOAT one is a double. -/
def FitsIn (ct : Ty) (v : ℚ) : Prop :=
  if ct.isFixed then ∃ raw : Int, v = raw * unitOf ct ∧ |raw| < 2 ^ (ct.intBits - 1)
  else ∃ raw e : Int, v = raw * 2 ^ e ∧ |raw| < 2 ^ 53 ∧ -1074 ≤ e ∧ e ≤ 971

/-- A DO statement that is running. The address of the control variable, the limit and the
    step are those of an iterative one. -/
structure Loop where
  node : StmtNode
  body : List HStmt
  ctl : Nat := 0
  limit : ℚ := 0
  step : ℚ := 0

def ctlTy (node : StmtNode) : Ty := (node.sym.map (·.ty)).getD {}

inductive Task where
  | eval (e : HExpr)
  /-- What an expression does after its parts: a call, or a check that raises. -/
  | apply (e : HExpr)
  | exec (st : HStmt)
  | assign (target : HExpr)
  | write
  | choice (thenS elseS : HStmt)
  /-- An iterative DO before its first value is stored, and before its first test. -/
  | start (node : StmtNode) (body : List HStmt)
  | enter (node : StmtNode) (body : List HStmt) (ctl : Nat)
  | top (l : Loop)
  | choose (l : Loop)
  | again (l : Loop)
  | outside
  | call (q : Nat)
  | ret
  | endCall (q : Nat)

inductive Config where
  | run (tasks : List Task) (m : Mem)
  | stopped
  | jumped
  | raised (k : Int)

/-- What a step does that matters to a loop: storage changed, a DO entered or stepped, a
    condition raised by an expression, or by a store. -/
inductive Event where
  | quiet
  | wrote
  | entered
  | stepped
  | raised (source : Option HExpr) (k : Int)

section
variable (prog : HProgram)

def callTask (s : Symbol) : Task :=
  if s.kind = .procName then
    match s.proc.bind prog.bySrc with
    | some q => .call q
    | none => .outside
  else .outside

def applied : HExpr → List Task
  | .null => []
  | .mk node _ _ _ _ =>
    if node.kind = .call && !isBuiltinCall node then
      match node.sym with
      | some s => [callTask prog s]
      | none => []
    else []

def isAsync (node : StmtNode) : Bool :=
  node.hasTaskOpt || !node.eventRef.isNull || !node.priorityExpr.isNull

def stores (node : StmtNode) : List Task :=
  (targets node).flatMap fun t => (targetOperands t).map .eval ++ [.assign t]

def bodyOf (l : Loop) : List Task := l.body.map .exec ++ [.again l]

def begins : HStmt → Option (List Task)
  | .null => some []
  | .mk node thenS elseS _ body =>
    match node.kind with
    | .null | .format | .entry => some []
    | .leave | .iterate | .stop | .goto => none
    | .declare => some ((valueFields node).map .eval ++ [.write])
    | .assign => some ((valueFields node).map .eval ++ stores node)
    | .ifS => some [.eval node.cond, .choice thenS elseS]
    | .group | .begin => some (body.map .exec)
    | .doWhile =>
      let l : Loop := { node := node, body := body }
      some (if node.forever || node.untilB then bodyOf l else [.top l])
    | .doIter => some (if node.sym.isSome then [.eval node.fromE, .start node body] else [])
    | .returnS => some [.eval node.value, .ret]
    | .callS =>
      some ((valueFields node).map .eval ++ stores node ++
        if isAsync node then []
        else
          match node.sym with
          | some s => [callTask prog s]
          | none => [.outside])
    | _ => some [.outside]

end

def loopAt (name : String) : List Task → Option (Loop × List Task)
  | [] => none
  | .endCall _ :: _ => none
  | .again l :: ts => if name = "" ∨ name ∈ l.node.labels then some (l, ts) else loopAt name ts
  | _ :: ts => loopAt name ts

def leaveTo (name : String) (ts : List Task) : List Task :=
  match loopAt name ts with
  | some (_, rest) => rest
  | none => ts

def iterateTo (name : String) (ts : List Task) : List Task :=
  match loopAt name ts with
  | some (l, rest) => .again l :: rest
  | none => ts

def afterCall : List Task → List Task
  | [] => []
  | .endCall _ :: ts => ts
  | _ :: ts => afterCall ts

/-- The test at the top: a DO without TO always passes, and so does a DO WHILE, whose
    condition comes next. -/
def goesOn (l : Loop) (m : Mem) : Bool :=
  if l.node.kind ≠ .doIter || l.node.toE.isNull then true
  else if l.step < 0 then l.limit ≤ m l.ctl
  else m l.ctl ≤ l.limit

def pass (l : Loop) : List Task :=
  if l.node.cond.isNull then bodyOf l else [.eval l.node.cond, .choose l]

def backTo (l : Loop) : List Task :=
  if l.node.forever then bodyOf l
  else if l.node.untilB then [.eval l.node.cond, .choose l]
  else [.top l]

/-- The step of a DO: one unit without BY, and a literal BY that the control variable can
    hold is not changed by its conversion. -/
def StepValue (ct : Ty) (byE : HExpr) (step : ℚ) : Prop :=
  match byE with
  | .null => step = unitOf ct
  | .mk node _ _ _ _ => node.kind = .intLit → FitsIn ct node.ival → step = node.ival

def EntryAt (proc : HProc) (i : Nat) : Prop :=
  i = 0 ∨ ∃ node thenS elseS unit body, proc.body[i]? = some (.mk node thenS elseS unit body) ∧
    node.kind = .entry

inductive Step (prog : HProgram) : Config → Event → Config → Prop where
  /-- A part that is not needed (a short circuit, a folded constant) is not evaluated. -/
  | skip {e ts m} : Step prog (.run (.eval e :: ts) m) .quiet (.run ts m)
  | eval {e ts m} {idxs : List HExpr} :
      (∀ idx ∈ idxs, ∃ s, placeOf e = some (.sym s) ∧ DefinedIdx prog s idx) →
      Step prog (.run (.eval e :: ts) m) .quiet
        (.run ((operands e ++ idxs).map .eval ++ .apply e :: ts) m)
  | apply {e ts m} : Step prog (.run (.apply e :: ts) m) .quiet (.run (applied prog e ++ ts) m)
  | raise {e ts m k} : Step prog (.run (.apply e :: ts) m) (.raised (some e) k) (.raised k)
  | exec {st first ts m} : begins prog st = some first →
      Step prog (.run (.exec st :: ts) m) .quiet (.run (first ++ ts) m)
  | leave {node thenS elseS unit body ts m} : node.kind = .leave →
      Step prog (.run (.exec (.mk node thenS elseS unit body) :: ts) m) .quiet
        (.run (leaveTo node.name ts) m)
  | iterate {node thenS elseS unit body ts m} : node.kind = .iterate →
      Step prog (.run (.exec (.mk node thenS elseS unit body) :: ts) m) .quiet
        (.run (iterateTo node.name ts) m)
  | stop {node thenS elseS unit body ts m} : node.kind = .stop →
      Step prog (.run (.exec (.mk node thenS elseS unit body) :: ts) m) .quiet .stopped
  | goto {node thenS elseS unit body ts m} : node.kind = .goto →
      Step prog (.run (.exec (.mk node thenS elseS unit body) :: ts) m) .quiet .jumped
  | assign {t ts m} {idxs : List HExpr} :
      (∀ idx ∈ idxs, ∃ s, writtenPlace t = some (.sym s) ∧ DefinedIdx prog s idx) →
      Step prog (.run (.assign t :: ts) m) .quiet (.run (idxs.map .eval ++ .write :: ts) m)
  | write {ts m} (m' : Mem) : Step prog (.run (.write :: ts) m) .wrote (.run ts m')
  | writeRaise {ts m k} : Step prog (.run (.write :: ts) m) (.raised none k) (.raised k)
  | choice {thenS elseS st ts m} : st = thenS ∨ st = elseS →
      Step prog (.run (.choice thenS elseS :: ts) m) .quiet (.run (.exec st :: ts) m)
  | start {node body ts m} (c : Nat) (v : ℚ) :
      Step prog (.run (.start node body :: ts) m) .wrote
        (.run (.eval node.toE :: .eval node.byE :: .enter node body c :: ts) (m.set c v))
  | startRaise {node body ts m k} :
      Step prog (.run (.start node body :: ts) m) (.raised none k) (.raised k)
  | enter {node body c ts m} {limit step : ℚ} : StepValue (ctlTy node) node.byE step →
      Step prog (.run (.enter node body c :: ts) m) .entered
        (.run (.top ⟨node, body, c, limit, step⟩ :: ts) m)
  | finish {l ts m} : goesOn l m = false →
      Step prog (.run (.top l :: ts) m) .quiet (.run ts m)
  | goOn {l ts m} : goesOn l m = true →
      Step prog (.run (.top l :: ts) m) .quiet (.run (pass l ++ ts) m)
  | chooseBody {l ts m} : Step prog (.run (.choose l :: ts) m) .quiet (.run (bodyOf l ++ ts) m)
  | chooseEnd {l ts m} : Step prog (.run (.choose l :: ts) m) .quiet (.run ts m)
  | step {l ts m} {v : ℚ} : l.node.kind = .doIter →
      (FitsIn (ctlTy l.node) (m l.ctl + l.step) → v = m l.ctl + l.step) →
      Step prog (.run (.again l :: ts) m) .stepped (.run (.top l :: ts) (m.set l.ctl v))
  | stepRaise {l ts m k} : l.node.kind = .doIter →
      Step prog (.run (.again l :: ts) m) (.raised none k) (.raised k)
  | again {l ts m} : l.node.kind ≠ .doIter →
      Step prog (.run (.again l :: ts) m) .quiet (.run (backTo l ++ ts) m)
  | outside {ts m} (m' : Mem) : Step prog (.run (.outside :: ts) m) .wrote (.run ts m')
  | outsideStops {ts m} : Step prog (.run (.outside :: ts) m) .quiet .stopped
  | call {q callee i ts m} : prog.procs[q]? = some callee → EntryAt callee i →
      Step prog (.run (.call q :: ts) m) .quiet
        (.run ((callee.body.drop i).map .exec ++ .endCall q :: ts) m)
  | ret {ts m} : Step prog (.run (.ret :: ts) m) .quiet (.run (afterCall ts) m)
  | endCall {q ts m} : Step prog (.run (.endCall q :: ts) m) .quiet (.run ts m)

def Returned : Config → Prop
  | .run [] _ => True
  | _ => False

/-- Every run whose steps are all allowed ends, and where it can go no further at all it
    has returned to the caller. -/
structure AlwaysReturns (prog : HProgram) (allowed : Config → Event → Config → Prop)
    (c : Config) : Prop where
  ends : ¬ ∃ run : Nat → Config, run 0 = c ∧
    ∀ i, ∃ ev, Step prog (run i) ev (run (i + 1)) ∧ allowed (run i) ev (run (i + 1))
  returns : ∀ c', Relation.ReflTransGen (fun a b => ∃ ev, Step prog a ev b ∧ allowed a ev b) c c' →
    Returned c' ∨ ∃ ev next, Step prog c' ev next

end PliEffects
