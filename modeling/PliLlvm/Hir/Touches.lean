import PliLlvm.Hir.Effects

/- What running a procedure can touch, read off the HIR and the code generator
   (src/irgen.cpp): every expression a statement evaluates, every reference it stores
   through, the units its checks run, and what its callees touch, seen from the caller. -/
namespace PliEffects
open PliHir

/-- Storage, as a procedure names it. `result` is its own hidden result. -/
inductive Place where
  | anywhere
  | result
  | sym (s : Symbol)

def EffectWalker.placeReach (w : EffectWalker) : Place → Reach
  | .anywhere => .other
  | .result => .arg
  | .sym s => w.reachOf (some s)

def placeOf : HExpr → Option Place
  | .null => none
  | .mk node locPtr _ _ _ =>
    if node.kind = .varRef || node.kind = .subscript then
      match node.sym with
      | none => none
      | some s =>
        if s.kind = .procName then none
        else
          match locPtr with
          | .mk .. => some .anywhere
          | .null => some (.sym s)
    else none

def argPlace : HExpr → Option Place
  | .null => none
  | .mk node locPtr a b args =>
    if node.kind = .call && node.name = "BYADDR" then
      match args with
      | [inner] => placeOf inner
      | _ => none
    else placeOf (.mk node locPtr a b args)

def isBuiltinCall (node : ExprNode) : Bool :=
  node.kind = .call &&
    match node.sym with
    | none => true
    | some s => s.kind ≠ .procName && !s.isEntryVar && !s.isEntry

def sizeKeys (opts : EffectOptions) : List Int := if opts.sizeChecks then [kSizeCondKey] else []

def zerodivideKeys (opts : EffectOptions) : List Int :=
  if opts.zerodivideChecks then [kZerodivideCondKey] else []

def resultKeys (opts : EffectOptions) (ty : Ty) : List Int :=
  if ty.k = .float then (if opts.overflowChecks then [kOverflowCondKey] else [])
  else if ty.k = .fixedDec then (if opts.fixedOverflowChecks then [kFixedoverflowCondKey] else [])
  else []

def isFixedOperand : HExpr → Bool
  | .null => false
  | .mk node .. => node.ty.isFixed

/-- The conditions an expression of its kind is checked for in a unit with these
    options. -/
def checks (opts : EffectOptions) : HExpr → List Int
  | .null => []
  | .mk node _ a _ _ =>
    match node.kind with
    | .subscript => if opts.subscriptChecks then [kSubscriptrangeCondKey] else []
    | .binary =>
      (if isFixedOperand a && isArithOp node.op then sizeKeys opts else []) ++
      (if isArithOp node.op then resultKeys opts node.ty else []) ++
      (if node.op = .slash then zerodivideKeys opts else [])
    | .unary => if isFixedOperand a && node.op = .minus then sizeKeys opts else []
    | .convert => if opts.conversionChecks then [kConversionCondKey] else []
    | .call =>
      if isBuiltinCall node then
        if node.name = "MOD" ∨ node.name = "DIVIDE" then zerodivideKeys opts
        else if node.name = "ADD" ∨ node.name = "SUBTRACT" ∨ node.name = "MULTIPLY" then
          sizeKeys opts ++ resultKeys opts node.ty
        else []
      else []
    | _ => []

/-- A check that only notifies: once a unit has run, the expression goes on. -/
def notices : HExpr → List Int
  | .null => []
  | .mk node .. =>
    if isBuiltinCall node && decide (node.name = "SUBSTR") then [kStringrangeCondKey] else []

/-- The storage an assignment to a target writes: a pseudo-variable writes its first
    argument, ONSOURCE the runtime's own record. -/
def writtenPlace : HExpr → Option Place
  | .null => none
  | .mk node locPtr a b args =>
    if node.kind = .call then
      if isBuiltinCall node then
        match args with
        | first :: _ => placeOf first
        | [] => none
      else none
    else if node.kind = .varRef && node.name = "ONSOURCE" then some .anywhere
    else placeOf (.mk node locPtr a b args)

def operands : HExpr → List HExpr
  | .null => []
  | .mk node locPtr a b args =>
    match node.kind with
    | .varRef =>
      match node.sym with
      | none => []
      | some s => if s.kind = .procName then [] else [locPtr]
    | .subscript => args ++ [locPtr]
    | .binary => [a, b]
    | .unary | .convert => [a]
    | .call => args
    | _ => []

def targetOperands : HExpr → List HExpr
  | .null => []
  | .mk node locPtr a b args =>
    if node.kind = .call then [.mk node locPtr a b args] else operands (.mk node locPtr a b args)

def bounds (d : HDeclItem) : List HExpr := d.dynBounds ++ d.dynLbBounds ++ d.dynMemberBounds

def valueFields (node : StmtNode) : List HExpr :=
  match node.kind with
  | .declare => node.decls.flatMap fun d => [d.init, d.initCall, d.dynLenBound] ++ bounds d
  | .assign => [node.value]
  | .ifS | .doWhile => [node.cond]
  | .doIter => [node.fromE, node.toE, node.byE, node.cond]
  | .returnS => [node.value]
  | .goto => [node.gotoTarget]
  | .callS => node.args ++ [node.priorityExpr]
  | _ => []

def targets (node : StmtNode) : List HExpr :=
  match node.kind with
  | .assign => node.target :: node.extraTargets
  | .callS => [node.taskRef, node.eventRef]
  | _ => []

def children : HStmt → List HStmt
  | .null => []
  | .mk node thenS elseS unit body =>
    match node.kind with
    | .ifS => [thenS, elseS]
    | .group | .begin | .doWhile | .doIter => body
    | .on => [unit]
    | _ => []

def reachesOut (node : StmtNode) : Bool :=
  match node.kind with
  | .on | .put | .get | .display | .read | .write | .rewrite | .delete | .openS | .close
  | .allocate | .free | .revert | .signal | .wait | .delay => true
  | _ => false

inductive InBody (proc : HProc) : HStmt → Prop where
  | top {st} : st ∈ proc.body → InBody proc st
  | child {st inner} : InBody proc st → inner ∈ children st → InBody proc inner

def DefinedIdx (prog : HProgram) (s : Symbol) (e : HExpr) : Prop :=
  ∃ proc ∈ prog.procs, ∃ node thenS elseS unit body, InBody proc (.mk node thenS elseS unit body) ∧
    node.kind = .declare ∧ ∃ d ∈ node.decls, d.sym = some s ∧ e ∈ d.definedIdxBounds

section
variable (prog : HProgram) (proc : HProc)

inductive Evaluated : HExpr → Prop where
  | field {node thenS elseS unit body e} : InBody proc (.mk node thenS elseS unit body) →
      e ∈ valueFields node → Evaluated e
  | target {node thenS elseS unit body t e} : InBody proc (.mk node thenS elseS unit body) →
      t ∈ targets node → e ∈ targetOperands t → Evaluated e
  | operand {e inner} : Evaluated e → inner ∈ operands e → Evaluated inner
  | definedRead {e s idx} : Evaluated e → placeOf e = some (.sym s) → DefinedIdx prog s idx →
      Evaluated idx
  | definedWrite {node thenS elseS unit body t s idx} :
      InBody proc (.mk node thenS elseS unit body) → t ∈ targets node →
      writtenPlace t = some (.sym s) → DefinedIdx prog s idx → Evaluated idx

inductive Calls : Nat → Symbol → List HExpr → Prop where
  | expr {node locPtr a b args s src q} : Evaluated prog proc (.mk node locPtr a b args) →
      node.kind = .call → node.sym = some s → s.kind = .procName → s.proc = some src →
      prog.bySrc src = some q → Calls q s args
  | stmt {node thenS elseS unit body s src q} : InBody proc (.mk node thenS elseS unit body) →
      node.kind = .callS → node.sym = some s → s.kind = .procName → s.proc = some src →
      prog.bySrc src = some q → Calls q s node.args

inductive CallsOut : Prop where
  | expr {node locPtr a b args s} : Evaluated prog proc (.mk node locPtr a b args) →
      node.kind = .call → node.sym = some s →
      (s.kind = .procName ∧ s.proc.bind prog.bySrc = none) ∨
        (s.kind ≠ .procName ∧ (s.isEntryVar || s.isEntry) = true) → CallsOut
  | stmt {node thenS elseS unit body} : InBody proc (.mk node thenS elseS unit body) →
      node.kind = .callS →
      (∀ s, node.sym = some s → s.kind ≠ .procName ∨ s.proc.bind prog.bySrc = none) → CallsOut

end

/-- The built-in functions whose code (emitBuiltin) reads its operands and nothing else of the
    program's storage: a string result stands in a temporary of the frame. -/
def selfContained : List String :=
  ["NULL", "DECLARESIZE", "EPSILON", "MAXVAL", "MINVAL", "OFFSETADD", "OFFSETSUBTRACT",
   "OFFSETDIFF", "ADDR", "BYADDR", "SUBSTR", "INDEX", "ABS", "SIGN", "EXPONENT", "FLOOR", "CEIL",
   "SQRT", "EXP", "LOG", "SIN", "COS", "TAN", "LOG2", "LOG10", "ATAN", "SINH", "COSH", "TANH",
   "ATANH", "ERF", "ERFC", "SIND", "COSD", "TAND", "ATAND", "ASIN", "ACOS", "CBRT", "ATAN2",
   "COMPLEX", "REAL", "IMAG", "CONJG", "OMITTED", "PRESENT", "LENGTH", "REVERSE", "TRUNC",
   "PRECISION", "MIN", "MAX", "MOD", "MULTIPLY", "DIVIDE", "ADD", "SUBTRACT", "ROUND", "REPEAT",
   "VERIFY", "TRANSLATE", "TRIM", "TALLY", "UPPERCASE", "HIGH", "LOW", "LOWERCASE", "CENTER",
   "SEARCH", "RANK", "COLLATE"]

/-- An ON statement of the program establishes a unit for the condition, or for ERROR. -/
def Handled (prog : HProgram) (k : Int) : Prop :=
  ∃ proc ∈ prog.procs, ∃ node thenS elseS unit body, InBody proc (.mk node thenS elseS unit body) ∧
    node.kind = .on ∧ (node.condKey = k ∨ node.condKey = 0)

/-- Storage that is no procedure's frame: STATIC, EXTERNAL, CONTROLLED, BASED, DEFINED or
    of a package. -/
def moduleWide (v : Symbol) : Bool :=
  v.external || v.isStatic || v.controlled || v.isBased || v.definedBase.isSome ||
    v.owner.all (·.isPackage)

/-- The caller's name for storage the callee names. The callee's own frame has none; a
    by-reference parameter is the argument; everything else is itself. -/
inductive Carried (byValue : Symbol → Bool) (callee : HProc) (s : Symbol) (args : List HExpr) :
    Place → Place → Prop where
  | anywhere : Carried byValue callee s args .anywhere .anywhere
  | outside {v} : moduleWide v = true → Carried byValue callee s args (.sym v) (.sym v)
  | link {v} : v.owner ≠ callee.src → Carried byValue callee s args (.sym v) (.sym v)
  | param {v a pl} {i : Nat} : v.owner = callee.src → v.kind = .param → byValue v = false →
      s.entry = none → callee.paramSyms[i]? = some v → args[i]? = some a → argPlace a = some pl →
      Carried byValue callee s args (.sym v) pl
  | entryParam {v a pl params} {i : Nat} : v.owner = callee.src → v.kind = .param →
      byValue v = false → s.entry = some params → params[i]? = some v.num → args[i]? = some a →
      argPlace a = some pl → Carried byValue callee s args (.sym v) pl

section
variable (prog : HProgram) (byValue : Symbol → Bool) (opts : EffectOptions)
variable (raises : Nat → Int → Prop)

/-- What procedure p touches. `raises p k`: its code can raise condition k other than by an
    expression checked for it (SIZE of a store or a quotient, CONVERSION of a stored text,
    UNDERFLOW). A unit that runs there can touch anything. -/
inductive Touches : Nat → Place → Bool → Prop where
  | read {p proc e pl} : prog.procs[p]? = some proc → Evaluated prog proc e →
      placeOf e = some pl → Touches p pl false
  | write {p proc node thenS elseS unit body t pl} : prog.procs[p]? = some proc →
      InBody proc (.mk node thenS elseS unit body) → t ∈ targets node → writtenPlace t = some pl →
      Touches p pl true
  | control {p proc node thenS elseS unit body s} {isWrite : Bool} : prog.procs[p]? = some proc →
      InBody proc (.mk node thenS elseS unit body) → node.kind = .doIter → node.sym = some s →
      Touches p (.sym s) isWrite
  | out {p proc node thenS elseS unit body} {isWrite : Bool} : prog.procs[p]? = some proc →
      InBody proc (.mk node thenS elseS unit body) → reachesOut node = true →
      Touches p .anywhere isWrite
  | builtin {p proc node locPtr a b args} {isWrite : Bool} : prog.procs[p]? = some proc →
      Evaluated prog proc (.mk node locPtr a b args) → isBuiltinCall node = true →
      node.name ∉ selfContained → Touches p .anywhere isWrite
  | callOut {p proc} {isWrite : Bool} : prog.procs[p]? = some proc → CallsOut prog proc →
      Touches p .anywhere isWrite
  | checked {p proc e k} {isWrite : Bool} : prog.procs[p]? = some proc → Evaluated prog proc e →
      k ∈ checks opts e ++ notices e → Handled prog k → Touches p .anywhere isWrite
  | raised {p k} {isWrite : Bool} : raises p k → Handled prog k → Touches p .anywhere isWrite
  | result {p proc} : prog.procs[p]? = some proc → proc.isFunction = true →
      (proc.retTy.isStruct || proc.retTy.isChar) = true → Touches p .result true
  | call {p proc q callee s args pl outer} {isWrite : Bool} : prog.procs[p]? = some proc →
      Calls prog proc q s args → prog.procs[q]? = some callee → Touches q pl isWrite →
      Carried byValue callee s args pl outer → Touches p outer isWrite

end

end PliEffects
