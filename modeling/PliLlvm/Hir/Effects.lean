import PliLlvm.Hir.Syntax
import PliLlvm.Lib.Rounds

/- The memory effects of a procedure (src/irgen_decisions.cpp). The walker of one body
   only ever turns bits on and adds to sets, so a walk is the list of what it notes, in
   order. The text a Bits record carries is never set and is left out. -/
namespace PliEffects
open PliHir

inductive Reach where
  | frame | arg | other
  deriving DecidableEq

def wider (a b : Reach) : Reach :=
  if a = .other || b = .other then .other
  else if a = .arg || b = .arg then .arg
  else .frame

def isArithOp (op : Tok) : Bool := op = .plus || op = .minus || op = .star || op = .power

inductive BuiltinEffect where
  | constant | pure | allocates | escapes | unknown
  deriving DecidableEq

def constants : List String :=
  ["DECLARESIZE", "EPSILON", "MAXVAL", "MINVAL", "NULL", "OMITTED", "PRESENT", "PRECISION",
   "REAL", "IMAG", "EXPONENT", "ABS", "SIGN", "MAX", "MIN", "TRUNC", "ROUND", "CEIL", "FLOOR",
   "ACOS", "ASIN", "ATAN", "ATAN2", "ATAND", "ATANH", "CBRT", "COS", "COSD", "COSH", "ERF",
   "ERFC", "EXP", "LOG", "LOG10", "LOG2", "SIN", "SIND", "SINH", "SQRT", "TAN", "TAND", "TANH",
   "COMPLEX", "CONJG"]

def readers : List String :=
  ["INDEX", "LENGTH", "SUBSTR", "VERIFY", "SEARCH", "TRANSLATE", "MOD", "ADD", "SUBTRACT",
   "MULTIPLY", "DIVIDE"]

def builtinEffect (op : String) : BuiltinEffect :=
  if op ∈ constants then .constant
  else if op ∈ readers then .pure
  else if op ∈ ["REPEAT", "REVERSE"] then .allocates
  else if op ∈ ["ADDR", "BYADDR"] then .escapes
  else .unknown

def kSizeCondKey : Int := -1
def kSubscriptrangeCondKey : Int := -2
def kZerodivideCondKey : Int := -3
def kConversionCondKey : Int := -4
def kStringrangeCondKey : Int := -5
def kOverflowCondKey : Int := -9
def kFixedoverflowCondKey : Int := -10

structure EffectOptions where
  sizeChecks : Bool := true
  subscriptChecks : Bool := true
  zerodivideChecks : Bool := true
  conversionChecks : Bool := true
  overflowChecks : Bool := true
  fixedOverflowChecks : Bool := true

inductive Note where
  | access (r : Reach) (isWrite : Bool)
  | opaqueB
  | io
  | hasOnUnit
  | mayUnwind
  | mayNotReturn
  | raiseKey (k : Int)
  | handlerKey (k : Int)
  | escaped (callee : Nat)
  | call (callee : Nat) (reach : Reach)
  deriving DecidableEq

structure EffectWalker where
  prog : HProgram
  p : HProc
  byValue : Symbol → Bool
  opts : EffectOptions

namespace EffectWalker

def reachOf (w : EffectWalker) : Option Symbol → Reach
  | none => .other
  | some s =>
    if s.kind = .procName then .frame
    else if s.external || s.isStatic || s.controlled then .other
    else if s.isBased then .other
    else if s.definedBase.isSome then .other
    else
      match s.owner with
      | none => .other
      | some o =>
        if o.isPackage then .other
        else if some o ≠ w.p.src then .arg
        else if s.kind = .param then (if w.byValue s then .frame else .arg)
        else .frame

def reachOfExpr (w : EffectWalker) : HExpr → Reach
  | .null => .frame
  | .mk node locPtr _ _ _ =>
    if node.kind = .varRef || node.kind = .subscript then
      match locPtr with
      | .mk .. => .other
      | .null => w.reachOf node.sym
    else .frame

def callArgReach (w : EffectWalker) : List Symbol → List HExpr → Reach
  | _, [] => .frame
  | [], a :: args => wider (w.reachOfExpr a) (w.callArgReach [] args)
  | s :: params, a :: args =>
    if w.byValue s then w.callArgReach params args
    else wider (w.reachOfExpr a) (w.callArgReach params args)

def markEscape (w : EffectWalker) (s : Symbol) : List Note :=
  match s.proc.bind w.prog.bySrc with
  | some i => [.escaped i]
  | none => []

def raiseSize (w : EffectWalker) : List Note :=
  if w.opts.sizeChecks then [.raiseKey kSizeCondKey] else []

def raiseOverflow (w : EffectWalker) : List Note :=
  if w.opts.overflowChecks then [.raiseKey kOverflowCondKey] else []

def raiseFixedOverflow (w : EffectWalker) : List Note :=
  if w.opts.fixedOverflowChecks then [.raiseKey kFixedoverflowCondKey] else []

def raiseResult (w : EffectWalker) (ty : Ty) : List Note :=
  if ty.k = .float then w.raiseOverflow
  else if ty.k = .fixedDec then w.raiseFixedOverflow
  else []

def callTarget (w : EffectWalker) (src : Proc) (args : List HExpr) : List Note :=
  match w.prog.bySrc src with
  | none => [.opaqueB]
  | some i =>
    match w.prog.procs[i]? with
    | none => [.opaqueB]
    | some callee => [.call i (w.callArgReach callee.paramSyms args)]

def walkBuiltin (w : EffectWalker) (name : String) (ty : Ty) (args : List HExpr) : List Note :=
  let r := args.foldr (fun a r => wider (w.reachOfExpr a) r) .frame
  match builtinEffect name with
  | .constant => []
  | .pure =>
    [.access r false] ++
    (if name = "MOD" ∨ name = "DIVIDE" then
      if w.opts.zerodivideChecks then [.raiseKey kZerodivideCondKey] else []
    else []) ++
    (if name = "SUBSTR" then [.raiseKey kStringrangeCondKey] else []) ++
    (if name = "ADD" ∨ name = "SUBTRACT" ∨ name = "MULTIPLY" then
      w.raiseSize ++ w.raiseResult ty
    else [])
  | .allocates => [.access .other true]
  | .escapes => if r = .frame then [.opaqueB] else [.access r false]
  | .unknown => [.opaqueB]

/-- A call in an expression; `walked` is the walk of its arguments. -/
def walkCallExpr (w : EffectWalker) (node : ExprNode) (args : List HExpr) (writeCtx : Bool)
    (walked : List Note) : List Note :=
  match node.sym with
  | some s =>
    if s.kind = .procName then
      walked ++
      (match s.proc with
      | none => [.opaqueB]
      | some src => w.callTarget src args)
    else if s.isEntryVar || s.isEntry then walked ++ [.opaqueB, .mayUnwind]
    else builtin
  | none => builtin
where
  builtin : List Note :=
    walked ++ [.mayUnwind] ++ w.walkBuiltin node.name node.ty args ++
    (match args with
    | a :: _ => if writeCtx then [.access (w.reachOfExpr a) true] else []
    | [] => [])

mutual

def walkExpr (w : EffectWalker) : HExpr → Bool → List Note
  | .null, _ => []
  | .mk node locPtr a b args, writeCtx =>
    match node.kind with
    | .intLit | .fltLit | .decLit | .charLit | .bitLit | .complexLit | .typeTag | .star => []
    | .varRef =>
      match node.sym with
      | none => []
      | some s =>
        if s.kind = .procName then w.markEscape s
        else
          match locPtr with
          | .mk .. => w.walkExpr locPtr false ++ [.access .other writeCtx]
          | .null => [.access (w.reachOf (some s)) writeCtx]
    | .subscript =>
      w.walkArgs args ++
      (match locPtr with
      | .mk .. => w.walkExpr locPtr false ++ [.access .other writeCtx]
      | .null => if node.sym.isSome then [.access (w.reachOf node.sym) writeCtx] else []) ++
      (if w.opts.subscriptChecks then [.raiseKey kSubscriptrangeCondKey] else [])
    | .binary =>
      w.walkExpr a false ++ w.walkExpr b false ++
      (match a with
      | .mk left .. => if left.ty.isFixed && isArithOp node.op then w.raiseSize else []
      | .null => []) ++
      (if isArithOp node.op then w.raiseResult node.ty else []) ++
      (if node.op = .slash && w.opts.zerodivideChecks then [.raiseKey kZerodivideCondKey] else [])
    | .unary =>
      w.walkExpr a false ++
      (match a with
      | .mk operand .. => if operand.ty.isFixed && node.op = .minus then w.raiseSize else []
      | .null => [])
    | .convert =>
      w.walkExpr a false ++
      (if w.opts.conversionChecks then [.raiseKey kConversionCondKey] else []) ++ [.mayUnwind]
    | .call => w.walkCallExpr node args writeCtx (w.walkArgs args)

def walkArgs (w : EffectWalker) : List HExpr → List Note
  | [] => []
  | a :: args => w.walkExpr a false ++ w.walkArgs args

end

def walkCallStmt (w : EffectWalker) (node : StmtNode) : List Note :=
  w.walkArgs node.args ++
  (match node.sym with
  | none => [.opaqueB, .mayUnwind]
  | some s =>
    match s.proc with
    | none => [.opaqueB, .mayUnwind]
    | some src =>
      if s.kind = .procName then w.callTarget src node.args else [.opaqueB, .mayUnwind])

def byMayBeZero : HExpr → Bool
  | .null => false
  | .mk node .. => !(node.kind = .intLit && node.ival ≠ 0)

def isCharTarget : HExpr → Bool
  | .null => false
  | .mk node .. => node.ty.isChar

mutual

def walkStmt (w : EffectWalker) : HStmt → List Note
  | .null => []
  | .mk node thenS elseS unit body =>
    match node.kind with
    | .null | .leave | .iterate | .format | .entry => []
    | .stop => [.mayNotReturn]
    | .goto => [.mayNotReturn]
    | .declare =>
      node.decls.flatMap fun d =>
        w.walkExpr d.init false ++ w.walkExpr d.initCall false ++ w.walkExpr d.dynLenBound false
    | .assign =>
      w.walkExpr node.target true ++ (node.extraTargets.flatMap fun t => w.walkExpr t true) ++
      w.walkExpr node.value false ++ (if isCharTarget node.target then w.raiseSize else [])
    | .ifS => w.walkExpr node.cond false ++ w.walkStmt thenS ++ w.walkStmt elseS
    | .group | .begin => w.walkBody body
    | .doWhile => [.mayNotReturn] ++ w.walkExpr node.cond false ++ w.walkBody body
    | .doIter =>
      (if byMayBeZero node.byE then [.mayNotReturn] else []) ++ w.walkExpr node.fromE false ++
      w.walkExpr node.toE false ++ w.walkExpr node.byE false ++ w.walkBody body
    | .returnS => w.walkExpr node.value false
    | .on => [.hasOnUnit, .opaqueB, .handlerKey node.condKey] ++ w.walkStmt unit
    | .callS => w.walkCallStmt node
    | .put | .get | .display | .read | .write | .rewrite | .delete | .openS | .close | .allocate
    | .free | .revert | .signal | .wait | .delay =>
      w.walkExpr node.target false ++ w.walkExpr node.value false ++ w.walkExpr node.cond false ++
      w.walkExpr node.fromE false ++ w.walkExpr node.toE false ++ w.walkExpr node.byE false ++
      w.walkArgs node.items ++ w.walkExpr node.stringTarget true ++
      w.walkExpr node.oncodeExpr false ++ [.io, .opaqueB]

def walkBody (w : EffectWalker) : List HStmt → List Note
  | [] => []
  | st :: rest => w.walkStmt st ++ w.walkBody rest

end

/-- The body of one procedure. A structure or character result is written through a
    hidden pointer argument. -/
def run (w : EffectWalker) : List Note :=
  w.walkBody w.p.body ++
  (if w.p.isFunction && (w.p.retTy.isStruct || w.p.retTy.isChar) then [.access .arg true] else [])

end EffectWalker

structure Bits where
  readsOther : Bool := false
  writesOther : Bool := false
  readsArg : Bool := false
  writesArg : Bool := false
  isOpaque : Bool := false
  io : Bool := false
  hasOnUnit : Bool := false
  nameEscapes : Bool := false
  mayUnwind : Bool := false
  mayNotReturn : Bool := false
  raiseKeys : Finset Int := ∅
  deriving DecidableEq

def noteReach (b : Bits) (r : Reach) (isWrite : Bool) : Bits :=
  match r, isWrite with
  | .other, true => { b with writesOther := true }
  | .other, false => { b with readsOther := true }
  | .arg, true => { b with writesArg := true }
  | .arg, false => { b with readsArg := true }
  | .frame, _ => b

def turnOn (b : Bits) : Note → Bits
  | .access r isWrite => noteReach b r isWrite
  | .opaqueB => { b with isOpaque := true }
  | .io => { b with io := true }
  | .hasOnUnit => { b with hasOnUnit := true }
  | .mayUnwind => { b with mayUnwind := true }
  | .mayNotReturn => { b with mayNotReturn := true }
  | .raiseKey k => { b with raiseKeys := insert k b.raiseKeys }
  | .handlerKey _ | .escaped _ | .call _ _ => b

def effectNote (b : Bits) : String :=
  if b.hasOnUnit then "establishes an ON unit"
  else if b.nameEscapes then "its name escapes"
  else if b.io then "does input or output"
  else if b.isOpaque then "calls something whose effects are unknown"
  else if b.writesOther then "writes memory outside its arguments"
  else if b.readsOther then "reads memory outside its arguments"
  else if b.writesArg then "writes its arguments"
  else if b.readsArg then "reads its arguments"
  else "touches no memory"

inductive MemEffect where
  | unknown | read | argRead | argReadWrite | none
  deriving DecidableEq

structure ProcEffects where
  effect : MemEffect
  nounwind : Bool
  willReturn : Bool
  note : String

inductive Colour where
  | white | grey | black
  deriving DecidableEq

structure Search where
  colour : Nat → Colour
  marked : Finset Nat

def Search.paint (s : Search) (n : Nat) (c : Colour) : Search :=
  { s with colour := fun m => if m = n then c else s.colour m }

/-- A visit goes no deeper than there are procedures, which bounds `depth`. -/
def visit (edges : Nat → List Nat) : Nat → Search → Nat → Search
  | 0, s, _ => s
  | depth + 1, s, n =>
    let met := fun (s : Search) (c : Nat) =>
      match s.colour c with
      | .grey => { s with marked := insert c s.marked }
      | .white => visit edges depth s c
      | .black => s
    ((edges n).foldl met (s.paint n .grey)).paint n .black

def markCycles (edges : Nat → List Nat) (n : Nat) : Finset Nat :=
  let start : Search := ⟨fun _ => .white, ∅⟩
  ((List.range n).foldl
    (fun s p => if s.colour p = .white then visit edges (n + 1) s p else s) start).marked

/-- What a caller takes over from a callee's bits; `reach` is that of what it passed. -/
def absorb (next cb : Bits) (reach : Reach) : Bits :=
  let next := if cb.isOpaque then { next with isOpaque := true } else next
  let next := if cb.readsOther then { next with readsOther := true } else next
  let next := if cb.writesOther then { next with writesOther := true } else next
  let next := if cb.readsArg then noteReach next reach false else next
  let next := if cb.writesArg then noteReach next reach true else next
  let next := { next with raiseKeys := next.raiseKeys ∪ cb.raiseKeys }
  let next := if cb.mayUnwind then { next with mayUnwind := true } else next
  if cb.mayNotReturn then { next with mayNotReturn := true } else next

def dispatch (handlerKeys : Finset Int) (b : Bits) : Bits :=
  if ∃ k ∈ b.raiseKeys, k ∈ handlerKeys ∨ 0 ∈ handlerKeys then
    { b with writesOther := true, mayUnwind := true }
  else b

section
variable (calls : Nat → List (Nat × Reach)) (handlerKeys : Finset Int)

def absorbCalls (bits : Nat → Bits) (self : Nat) : Bits :=
  (calls self).foldl (fun next call => absorb next (bits call.1) call.2) (bits self)

def round (n : Nat) (bits : Nat → Bits) : (Nat → Bits) × Bool :=
  let called := Rounds.sweep (absorbCalls calls) (List.range n) (bits, false)
  Rounds.sweep (fun bits p => dispatch handlerKeys (bits p)) (List.range n) called

end

def verdict (b : Bits) : ProcEffects :=
  { effect :=
      if b.isOpaque then .unknown
      else if b.writesOther then .unknown
      else if b.readsOther then .read
      else if b.writesArg then .argReadWrite
      else if b.readsArg then .argRead
      else .none
    nounwind := !b.isOpaque && !b.mayUnwind
    willReturn := !b.isOpaque && !b.mayNotReturn && b.raiseKeys = ∅
    note := effectNote b }

section
variable (prog : HProgram) (byValue : Symbol → Bool) (opts : EffectOptions)

def notesOf (p : Nat) : List Note :=
  match prog.procs[p]? with
  | some proc => EffectWalker.run ⟨prog, proc, byValue, opts⟩
  | none => []

def callsOf (p : Nat) : List (Nat × Reach) :=
  (notesOf prog byValue opts p).filterMap fun
    | .call callee reach => some (callee, reach)
    | _ => none

def allNotes : List Note := (List.range prog.procs.length).flatMap (notesOf prog byValue opts)

def handlerKeysOf : Finset Int :=
  ((allNotes prog byValue opts).filterMap fun
    | .handlerKey k => some k
    | _ => none).toFinset

def escapedOf : Finset Nat :=
  ((allNotes prog byValue opts).filterMap fun
    | .escaped i => some i
    | _ => none).toFinset

def cyclesOf : Finset Nat :=
  markCycles (fun p => (callsOf prog byValue opts p).map (·.1)) prog.procs.length

def walkedBits (p : Nat) : Bits :=
  let b := (notesOf prog byValue opts p).foldl turnOn {}
  let b := if p ∈ cyclesOf prog byValue opts then { b with mayNotReturn := true } else b
  if p ∈ escapedOf prog byValue opts then { b with isOpaque := true, nameEscapes := true } else b

def finalBits : Nat → Bits :=
  Rounds.repeatRounds
    (round (callsOf prog byValue opts) (handlerKeysOf prog byValue opts) prog.procs.length)
    (prog.procs.length + 2) (walkedBits prog byValue opts)

def analyzeEffects (p : Nat) : ProcEffects := verdict (finalBits prog byValue opts p)

end

end PliEffects
