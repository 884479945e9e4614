import PliLlvm.Lib.Worklist

/- The check that a procedure which may call itself carries RECURSIVE (src/sema.cpp,
   collectExprCallees to checkRecursion), on the typed program. A procedure is its index; a call
   node keeps the procedure its symbol resolves to, ENTRY and alias names included. Fields without
   an expression or a statement are left out. -/
namespace PliRecursion
open Worklist

inductive ExprKind where
  | intLit
  | fltLit
  | decLit
  | charLit
  | bitLit
  | varRef
  | binary
  | unary
  | call
  | subscript
  | star
  | complexLit
  | typeTag

inductive ExprP where
  | null
  | node (kind : ExprKind) (callee : Option Nat) (locPtr a b : ExprP) (args : List ExprP)

inductive InitItem where
  | mk (value : ExprP) (items : List InitItem)

inductive FormatItem where
  | mk (w d s count : ExprP) (subs items : List FormatItem)

structure DeclItem where
  init : ExprP := .null
  slenExpr : ExprP := .null
  valueInit : ExprP := .null
  initCall : ExprP := .null
  areaSize : ExprP := .null
  dynBounds : List ExprP := []
  dynLbBounds : List ExprP := []
  definedSubs : List ExprP := []
  initItems : List InitItem := []

inductive StmtKind where
  | declare
  | callS
  | other
  deriving DecidableEq

structure AllocBound where
  lb : ExprP
  ub : ExprP

structure Fields where
  kind : StmtKind := .other
  callee : Option Nat := none
  target : ExprP := .null
  value : ExprP := .null
  cond : ExprP := .null
  from_ : ExprP := .null
  to_ : ExprP := .null
  by_ : ExprP := .null
  extraTargets : List ExprP := []
  skipCount : ExprP := .null
  lineCount : ExprP := .null
  items : List ExprP := []
  formats : List FormatItem := []
  stringTarget : ExprP := .null
  openIdent : ExprP := .null
  openLinesize : ExprP := .null
  openPagesize : ExprP := .null
  keyOpt : ExprP := .null
  keyToOpt : ExprP := .null
  keyFromOpt : ExprP := .null
  replyTarget : ExprP := .null
  args : List ExprP := []
  gotoTarget : ExprP := .null
  taskRef : ExprP := .null
  eventRef : ExprP := .null
  priorityExpr : ExprP := .null
  waitEvents : List ExprP := []
  waitCount : ExprP := .null
  oncodeExpr : ExprP := .null
  allocBase : List ExprP := []
  allocSet : List ExprP := []
  allocBounds : List (List AllocBound) := []
  allocCharLen : List ExprP := []
  allocArea : List ExprP := []
  freeBase : List ExprP := []
  freeArea : List ExprP := []
  decls : List DeclItem := []

inductive StmtP where
  | null
  | node (fields : Fields) (thenS elseS unit : StmtP) (body : List StmtP)

structure Proc where
  name : String
  isRecursive : Bool
  body : List StmtP

abbrev Program := List Proc

/- The walk: every function extends the list of callees found so far. -/

def note (callee : Option Nat) (out : List Nat) : List Nat :=
  match callee with
  | some q => if q ∈ out then out else out ++ [q]
  | none => out

mutual
def collectExprCallees : ExprP → List Nat → List Nat
  | .null, out => out
  | .node kind callee locPtr a b args, out =>
    let out := collectExprCallees locPtr out
    match kind with
    | .call => collectEachExpr args (note callee out)
    | .binary => collectExprCallees b (collectExprCallees a out)
    | .unary => collectExprCallees a out
    | .subscript => collectEachExpr args out
    | _ => out

def collectEachExpr : List ExprP → List Nat → List Nat
  | [], out => out
  | e :: es, out => collectEachExpr es (collectExprCallees e out)
end

mutual
def collectInitItemCallees : InitItem → List Nat → List Nat
  | .mk value items, out => collectInitItems items (collectExprCallees value out)

def collectInitItems : List InitItem → List Nat → List Nat
  | [], out => out
  | item :: rest, out => collectInitItems rest (collectInitItemCallees item out)
end

def collectDecl (d : DeclItem) (out : List Nat) : List Nat :=
  let out := collectExprCallees d.init out
  let out := collectExprCallees d.initCall out
  let out := collectEachExpr d.dynBounds out
  let out := collectEachExpr d.dynLbBounds out
  collectInitItems d.initItems out

def collectFormat (f : FormatItem) (out : List Nat) : List Nat :=
  match f with
  | .mk w d _ _ _ _ => collectExprCallees d (collectExprCallees w out)

def collectFields (s : Fields) (out : List Nat) : List Nat :=
  let out := collectExprCallees s.target out
  let out := collectExprCallees s.value out
  let out := collectExprCallees s.cond out
  let out := collectExprCallees s.from_ out
  let out := collectExprCallees s.to_ out
  let out := collectExprCallees s.by_ out
  let out := collectExprCallees s.skipCount out
  let out := collectExprCallees s.stringTarget out
  let out := collectEachExpr s.items out
  let out := collectEachExpr s.extraTargets out
  let out := collectEachExpr s.args out
  let out := collectExprCallees s.taskRef out
  let out := collectExprCallees s.eventRef out
  let out := collectExprCallees s.priorityExpr out
  let out := collectExprCallees s.value out
  let out := collectEachExpr s.waitEvents out
  let out := collectExprCallees s.waitCount out
  let out := s.formats.foldl (fun out f => collectFormat f out) out
  let out := collectEachExpr s.allocBase out
  let out := collectEachExpr s.allocSet out
  let out := collectEachExpr s.freeBase out
  let out := if s.kind = .callS then note s.callee out else out
  if s.kind = .declare then s.decls.foldl (fun out d => collectDecl d out) out else out

mutual
def collectStmtCallees : StmtP → List Nat → List Nat
  | .null, out => out
  | .node fields thenS elseS unit body, out =>
    let out := collectFields fields out
    let out := collectStmtCallees thenS out
    let out := collectStmtCallees elseS out
    let out := collectStmtCallees unit out
    collectCallees body out

def collectCallees : List StmtP → List Nat → List Nat
  | [], out => out
  | s :: rest, out => collectCallees rest (collectStmtCallees s out)
end

def adj (prog : Program) (i : Nat) : List Nat :=
  match prog[i]? with
  | some p => collectCallees p.body []
  | none => []

def turns (prog : Program) (i : Nat) : Nat :=
  (adj prog i).length + pending (adj prog) (List.range prog.length) [] + 1

def cycle (prog : Program) (i : Nat) : Bool :=
  (returns (adj prog) i (turns prog i) (adj prog i).reverse []).getD false

def reported (prog : Program) : List Nat :=
  (List.range prog.length).filter fun i =>
    cycle prog i && !((prog[i]?).map Proc.isRecursive).getD false

def error (p : Proc) : String :=
  "procedure '" ++ p.name ++
    "' is invoked recursively but lacks the RECURSIVE attribute; add " ++
    "RECURSIVE to its PROCEDURE statement"

def checkRecursion (prog : Program) : List String :=
  (reported prog).filterMap fun i => (prog[i]?).map error

/- What the check is for: who calls whom. -/

inductive ExprCalls : ExprP → Nat → Prop
  | call {q locPtr a b args} : ExprCalls (.node .call (some q) locPtr a b args) q
  | locPtr {kind callee locPtr a b args q} (there : ExprCalls locPtr q) :
      ExprCalls (.node kind callee locPtr a b args) q
  | left {callee locPtr a b args q} (there : ExprCalls a q) :
      ExprCalls (.node .binary callee locPtr a b args) q
  | right {callee locPtr a b args q} (there : ExprCalls b q) :
      ExprCalls (.node .binary callee locPtr a b args) q
  | operand {callee locPtr a b args q} (there : ExprCalls a q) :
      ExprCalls (.node .unary callee locPtr a b args) q
  | argument {callee locPtr a b args e q} (member : e ∈ args) (there : ExprCalls e q) :
      ExprCalls (.node .call callee locPtr a b args) q
  | index {callee locPtr a b args e q} (member : e ∈ args) (there : ExprCalls e q) :
      ExprCalls (.node .subscript callee locPtr a b args) q

mutual
def initExprs : InitItem → List ExprP
  | .mk value items => value :: initListExprs items

def initListExprs : List InitItem → List ExprP
  | [] => []
  | item :: rest => initExprs item ++ initListExprs rest
end

mutual
def formatExprs : FormatItem → List ExprP
  | .mk w d s count subs items =>
    w :: d :: s :: count :: (formatListExprs subs ++ formatListExprs items)

def formatListExprs : List FormatItem → List ExprP
  | [] => []
  | f :: rest => formatExprs f ++ formatListExprs rest
end

inductive Position where
  | target | value | cond | from_ | to_ | by_ | skipCount | stringTarget | items | extraTargets
  | args | taskRef | eventRef | priorityExpr | waitEvents | waitCount | formatWidth | formatDigits
  | allocBase | allocSet | freeBase | declInit | declInitCall | declUpper |
    declLower | declInitItems
  | lineCount | formatScale | formatCount | formatNested | openIdent | openLinesize | openPagesize
  | keyOpt | keyToOpt | keyFromOpt | replyTarget | gotoTarget | oncodeExpr | allocBounds
  | allocCharLen | allocArea | freeArea | declLength | declValue | declAreaSize | declDefined

def exprsAt (s : Fields) : Position → List ExprP
  | .target => [s.target]
  | .value => [s.value]
  | .cond => [s.cond]
  | .from_ => [s.from_]
  | .to_ => [s.to_]
  | .by_ => [s.by_]
  | .skipCount => [s.skipCount]
  | .stringTarget => [s.stringTarget]
  | .items => s.items
  | .extraTargets => s.extraTargets
  | .args => s.args
  | .taskRef => [s.taskRef]
  | .eventRef => [s.eventRef]
  | .priorityExpr => [s.priorityExpr]
  | .waitEvents => s.waitEvents
  | .waitCount => [s.waitCount]
  | .formatWidth => s.formats.map fun (.mk w _ _ _ _ _) => w
  | .formatDigits => s.formats.map fun (.mk _ d _ _ _ _) => d
  | .allocBase => s.allocBase
  | .allocSet => s.allocSet
  | .freeBase => s.freeBase
  | .declInit => s.decls.map DeclItem.init
  | .declInitCall => s.decls.map DeclItem.initCall
  | .declUpper => s.decls.flatMap DeclItem.dynBounds
  | .declLower => s.decls.flatMap DeclItem.dynLbBounds
  | .declInitItems => s.decls.flatMap fun d => initListExprs d.initItems
  | .lineCount => [s.lineCount]
  | .formatScale => s.formats.map fun (.mk _ _ s _ _ _) => s
  | .formatCount => s.formats.map fun (.mk _ _ _ count _ _) => count
  | .formatNested => s.formats.flatMap fun (.mk _ _ _ _ subs items) =>
      formatListExprs subs ++ formatListExprs items
  | .openIdent => [s.openIdent]
  | .openLinesize => [s.openLinesize]
  | .openPagesize => [s.openPagesize]
  | .keyOpt => [s.keyOpt]
  | .keyToOpt => [s.keyToOpt]
  | .keyFromOpt => [s.keyFromOpt]
  | .replyTarget => [s.replyTarget]
  | .gotoTarget => [s.gotoTarget]
  | .oncodeExpr => [s.oncodeExpr]
  | .allocBounds => s.allocBounds.flatMap fun axes => axes.flatMap fun b => [b.lb, b.ub]
  | .allocCharLen => s.allocCharLen
  | .allocArea => s.allocArea
  | .freeArea => s.freeArea
  | .declLength => s.decls.map DeclItem.slenExpr
  | .declValue => s.decls.map DeclItem.valueInit
  | .declAreaSize => s.decls.map DeclItem.areaSize
  | .declDefined => s.decls.flatMap DeclItem.definedSubs

inductive StmtCalls (at_ : StmtKind → Position → Prop) : StmtP → Nat → Prop
  | called {fields thenS elseS unit body q} (kind : fields.kind = .callS)
      (callee : fields.callee = some q) : StmtCalls at_ (.node fields thenS elseS unit body) q
  | expr {fields thenS elseS unit body pos e q} (place : at_ fields.kind pos)
      (member : e ∈ exprsAt fields pos) (there : ExprCalls e q) :
      StmtCalls at_ (.node fields thenS elseS unit body) q
  | thenS {fields thenS elseS unit body q} (there : StmtCalls at_ thenS q) :
      StmtCalls at_ (.node fields thenS elseS unit body) q
  | elseS {fields thenS elseS unit body q} (there : StmtCalls at_ elseS q) :
      StmtCalls at_ (.node fields thenS elseS unit body) q
  | unit {fields thenS elseS unit body q} (there : StmtCalls at_ unit q) :
      StmtCalls at_ (.node fields thenS elseS unit body) q
  | body {fields thenS elseS unit body st q} (member : st ∈ body) (there : StmtCalls at_ st q) :
      StmtCalls at_ (.node fields thenS elseS unit body) q

def Calls (at_ : StmtKind → Position → Prop) (prog : Program) (i q : Nat) : Prop :=
  ∃ p, prog[i]? = some p ∧ ∃ st ∈ p.body, StmtCalls at_ st q

def anywhere (_ : StmtKind) (_ : Position) : Prop := True

def LacksRecursive (prog : Program) (i : Nat) : Prop :=
  ∃ p, prog[i]? = some p ∧ p.isRecursive = false

def Exact (prog : Program) : Prop :=
  ∀ i, i ∈ reported prog ↔
    LacksRecursive prog i ∧ Relation.TransGen (Calls anywhere prog) i i

/-- The places the walk leaves out: LINE counts, the scale, the repetition and the groups of a
    format, OPEN and key options, REPLY, GO TO, ONCODE, bounds, lengths and areas of ALLOCATE and
    FREE, and lengths, VALUE, sizes and DEFINED subscripts of declarations. -/
def walked (kind : StmtKind) : Position → Bool
  | .declInit | .declInitCall | .declUpper | .declLower | .declInitItems => kind = .declare
  | .lineCount | .formatScale | .formatCount | .formatNested | .openIdent | .openLinesize
  | .openPagesize | .keyOpt | .keyToOpt | .keyFromOpt | .replyTarget | .gotoTarget | .oncodeExpr
  | .allocBounds | .allocCharLen | .allocArea | .freeArea | .declLength | .declValue | .declAreaSize
  | .declDefined => false
  | _ => true

def Walked (kind : StmtKind) (pos : Position) : Prop := walked kind pos = true

/-- A procedure that lacks RECURSIVE and may come back may do so by calls at the walked places. -/
def Covered (prog : Program) : Prop :=
  ∀ i, LacksRecursive prog i → Relation.TransGen (Calls anywhere prog) i i →
    Relation.TransGen (Calls Walked prog) i i

/- The walk finds the calls at its places. -/

variable {q : Nat}

theorem mem_note {callee : Option Nat} {out : List Nat} :
    q ∈ note callee out ↔ q ∈ out ∨ callee = some q := by
  cases callee with
  | none => simp [note]
  | some r =>
    rw [note]
    split
    · rename_i old
      constructor
      · exact Or.inl
      · rintro (there | same)
        · exact there
        · cases same
          exact old
    · rw [List.mem_append, List.mem_singleton, Option.some.injEq, eq_comm (a := q)]

theorem not_exprCalls_null : ¬ExprCalls .null q := by rintro ⟨⟩

theorem exprCalls_node_iff {kind : ExprKind} {callee : Option Nat} {locPtr a b : ExprP}
    {args : List ExprP} :
    ExprCalls (.node kind callee locPtr a b args) q ↔
      ExprCalls locPtr q ∨ kind = .call ∧ callee = some q ∨
        kind = .binary ∧ (ExprCalls a q ∨ ExprCalls b q) ∨ kind = .unary ∧ ExprCalls a q ∨
        (kind = .call ∨ kind = .subscript) ∧ ∃ e ∈ args, ExprCalls e q := by
  constructor
  · intro calls
    cases calls with
    | call => exact Or.inr (Or.inl ⟨rfl, rfl⟩)
    | locPtr there => exact Or.inl there
    | left there => exact Or.inr (Or.inr (Or.inl ⟨rfl, Or.inl there⟩))
    | right there => exact Or.inr (Or.inr (Or.inl ⟨rfl, Or.inr there⟩))
    | operand there => exact Or.inr (Or.inr (Or.inr (Or.inl ⟨rfl, there⟩)))
    | argument member there =>
      exact Or.inr (Or.inr (Or.inr (Or.inr ⟨Or.inl rfl, _, member, there⟩)))
    | index member there =>
      exact Or.inr (Or.inr (Or.inr (Or.inr ⟨Or.inr rfl, _, member, there⟩)))
  · rintro (there | ⟨rfl, rfl⟩ | ⟨rfl, there | there⟩ | ⟨rfl, there⟩ | ⟨rfl | rfl,
      e, member, there⟩)
    · exact .locPtr there
    · exact .call
    · exact .left there
    · exact .right there
    · exact .operand there
    · exact .argument member there
    · exact .index member there

mutual
theorem mem_collectExprCallees (e : ExprP) (out : List Nat) (q : Nat) :
    q ∈ collectExprCallees e out ↔ q ∈ out ∨ ExprCalls e q := by
  cases e with
  | null => simp [collectExprCallees, not_exprCalls_null]
  | node kind callee locPtr a b args =>
    rw [exprCalls_node_iff]
    cases kind <;>
      simp [collectExprCallees, mem_collectExprCallees locPtr, mem_collectExprCallees a,
        mem_collectExprCallees b, mem_collectEachExpr args, mem_note, or_assoc, or_left_comm]

theorem mem_collectEachExpr (es : List ExprP) (out : List Nat) (q : Nat) :
    q ∈ collectEachExpr es out ↔ q ∈ out ∨ ∃ e ∈ es, ExprCalls e q := by
  cases es with
  | nil => simp [collectEachExpr]
  | cons e es =>
    rw [collectEachExpr, mem_collectEachExpr es, mem_collectExprCallees e]
    simp [or_assoc]
end

mutual
theorem mem_collectInitItemCallees (item : InitItem) (out : List Nat) (q : Nat) :
    q ∈ collectInitItemCallees item out ↔ q ∈ out ∨ ∃ e ∈ initExprs item, ExprCalls e q := by
  cases item with
  | mk value items =>
    rw [collectInitItemCallees, mem_collectInitItems items, mem_collectExprCallees]
    simp [initExprs, or_assoc]

theorem mem_collectInitItems (items : List InitItem) (out : List Nat) (q : Nat) :
    q ∈ collectInitItems items out ↔ q ∈ out ∨ ∃ e ∈ initListExprs items, ExprCalls e q := by
  cases items with
  | nil => simp [collectInitItems, initListExprs]
  | cons item rest =>
    rw [collectInitItems, mem_collectInitItems rest, mem_collectInitItemCallees item]
    simp [initListExprs, or_and_right, exists_or, or_assoc]
end

theorem mem_foldl {α : Type} {step : List Nat → α → List Nat} {finds : α → Nat → Prop}
    (one : ∀ out x q, q ∈ step out x ↔ q ∈ out ∨ finds x q) (xs : List α)
    (out : List Nat) (q : Nat) :
    q ∈ xs.foldl step out ↔ q ∈ out ∨ ∃ x ∈ xs, finds x q := by
  induction xs generalizing out with
  | nil => simp
  | cons x xs ih =>
    rw [List.foldl_cons, ih, one]
    simp [or_assoc]

theorem mem_collectFormat (f : FormatItem) (out : List Nat) (q : Nat) :
    q ∈ collectFormat f out ↔
      q ∈ out ∨ match f with | .mk w d _ _ _ _ => ExprCalls w q ∨ ExprCalls d q := by
  cases f
  rw [collectFormat, mem_collectExprCallees, mem_collectExprCallees, or_assoc]

theorem mem_collectDecl (d : DeclItem) (out : List Nat) (q : Nat) :
    q ∈ collectDecl d out ↔
      q ∈ out ∨ ExprCalls d.init q ∨ ExprCalls d.initCall q ∨ (∃ e ∈ d.dynBounds, ExprCalls e q) ∨
        (∃ e ∈ d.dynLbBounds, ExprCalls e q) ∨
        ∃ e ∈ initListExprs d.initItems, ExprCalls e q := by
  rw [collectDecl, mem_collectInitItems, mem_collectEachExpr, mem_collectEachExpr,
    mem_collectExprCallees, mem_collectExprCallees]
  simp only [or_assoc]

theorem exists_walked {kind : StmtKind} {P : Position → Prop} :
    (∃ pos, walked kind pos = true ∧ P pos) ↔
      (P .target ∨ P .value ∨ P .cond ∨ P .from_ ∨ P .to_ ∨ P .by_ ∨ P .skipCount ∨
        P .stringTarget ∨ P .items ∨ P .extraTargets ∨ P .args ∨ P .taskRef ∨ P .eventRef ∨
        P .priorityExpr ∨ P .waitEvents ∨ P .waitCount ∨ (P .formatWidth ∨ P .formatDigits) ∨
        P .allocBase ∨ P .allocSet ∨ P .freeBase) ∨
      kind = .declare ∧
        (P .declInit ∨ P .declInitCall ∨ P .declUpper ∨ P .declLower ∨ P .declInitItems) := by
  constructor
  · rintro ⟨pos, place, there⟩
    cases pos <;> simp_all [walked]
  · rintro (there | ⟨rfl, there⟩)
    · rcases there with h | h | h | h | h | h | h | h | h | h | h | h | h | h | h | h |
        (h | h) | h |
        h | h <;> exact ⟨_, rfl, h⟩
    · rcases there with h | h | h | h | h <;> exact ⟨_, rfl, h⟩

theorem mem_collectFields (s : Fields) (out : List Nat) (q : Nat) :
    q ∈ collectFields s out ↔
      q ∈ out ∨ s.kind = .callS ∧ s.callee = some q ∨
        ∃ pos, walked s.kind pos = true ∧ ∃ e ∈ exprsAt s pos, ExprCalls e q := by
  have called (found : List Nat) : q ∈ (if s.kind = .callS then note s.callee found else found) ↔
      q ∈ found ∨ s.kind = .callS ∧ s.callee = some q := by
    by_cases call : s.kind = .callS <;> simp [call, mem_note]
  have declared (found : List Nat) :
      q ∈ (if s.kind = .declare then s.decls.foldl (fun out d => collectDecl d out) found
          else found) ↔
        q ∈ found ∨ s.kind = .declare ∧ ((∃ e ∈ exprsAt s .declInit, ExprCalls e q) ∨
          (∃ e ∈ exprsAt s .declInitCall, ExprCalls e q) ∨
          (∃ e ∈ exprsAt s .declUpper, ExprCalls e q) ∨
          (∃ e ∈ exprsAt s .declLower, ExprCalls e q) ∨
          ∃ e ∈ exprsAt s .declInitItems, ExprCalls e q) := by
    by_cases declare : s.kind = .declare
    · rw [if_pos declare, mem_foldl (fun out d q => mem_collectDecl d out q)]
      have inside (list : DeclItem → List ExprP) :
          (∃ d ∈ s.decls, ∃ e ∈ list d, ExprCalls e q) ↔
            ∃ e ∈ s.decls.flatMap list, ExprCalls e q := by
        simp only [List.mem_flatMap]
        exact ⟨fun ⟨d, known, e, member, there⟩ => ⟨e, ⟨d, known, member⟩, there⟩,
          fun ⟨e, ⟨d, known, member⟩, there⟩ => ⟨d, known, e, member, there⟩⟩
      simp only [declare, true_and, exprsAt, ← inside, List.mem_map, exists_exists_and_eq_and,
        and_or_left, exists_or]
    · simp [declare]
  have formatted (found : List Nat) :
      q ∈ s.formats.foldl (fun out f => collectFormat f out) found ↔
        q ∈ found ∨ (∃ e ∈ exprsAt s .formatWidth, ExprCalls e q) ∨
          ∃ e ∈ exprsAt s .formatDigits, ExprCalls e q := by
    rw [mem_foldl (fun out f q => mem_collectFormat f out q)]
    simp only [exprsAt, List.mem_map, exists_exists_and_eq_and, ← exists_or, ← and_or_left]
    refine or_congr_right (exists_congr ?_)
    rintro ⟨w, d, scale, count, subs, items⟩
    rfl
  rw [exists_walked]
  simp only [collectFields, called, declared, formatted, mem_collectExprCallees,
    mem_collectEachExpr]
  simp only [exprsAt, List.mem_singleton, exists_eq_left, or_assoc]
  constructor
  · rintro (h | h | h | h | h | h | h | h | h | h | h | h | h | h | h | h | h | h | h | h | h | h |
      h | h | h) <;> simp only [h, and_self, true_or, or_true]
  · rintro (h | h | h | h | h | h | h | h | h | h | h | h | h | h | h | h | h | h | h | h | h | h |
      h | h) <;> simp only [h, and_self, true_or, or_true]

theorem stmtCalls_node_iff {at_ : StmtKind → Position → Prop} {fields : Fields}
    {thenS elseS unit : StmtP} {body : List StmtP} :
    StmtCalls at_ (.node fields thenS elseS unit body) q ↔
      (fields.kind = .callS ∧ fields.callee = some q ∨
        ∃ pos, at_ fields.kind pos ∧ ∃ e ∈ exprsAt fields pos, ExprCalls e q) ∨
      StmtCalls at_ thenS q ∨ StmtCalls at_ elseS q ∨ StmtCalls at_ unit q ∨
        ∃ st ∈ body, StmtCalls at_ st q := by
  constructor
  · intro calls
    cases calls with
    | called kind callee => exact Or.inl (Or.inl ⟨kind, callee⟩)
    | expr place member there => exact Or.inl (Or.inr ⟨_, place, _, member, there⟩)
    | thenS there => exact Or.inr (Or.inl there)
    | elseS there => exact Or.inr (Or.inr (Or.inl there))
    | unit there => exact Or.inr (Or.inr (Or.inr (Or.inl there)))
    | body member there => exact Or.inr (Or.inr (Or.inr (Or.inr ⟨_, member, there⟩)))
  · rintro ((⟨kind, callee⟩ | ⟨pos, place, e, member, there⟩) | there | there | there |
      ⟨st, member, there⟩)
    · exact .called kind callee
    · exact .expr place member there
    · exact .thenS there
    · exact .elseS there
    · exact .unit there
    · exact .body member there

mutual
theorem mem_collectStmtCallees (s : StmtP) (out : List Nat) (q : Nat) :
    q ∈ collectStmtCallees s out ↔ q ∈ out ∨ StmtCalls Walked s q := by
  cases s with
  | null =>
    have none : ¬StmtCalls Walked .null q := by rintro ⟨⟩
    simp [collectStmtCallees, none]
  | node fields thenS elseS unit body =>
    rw [collectStmtCallees, mem_collectCallees body, mem_collectStmtCallees unit,
      mem_collectStmtCallees elseS, mem_collectStmtCallees thenS, mem_collectFields,
      stmtCalls_node_iff]
    simp only [Walked, or_assoc]

theorem mem_collectCallees (body : List StmtP) (out : List Nat) (q : Nat) :
    q ∈ collectCallees body out ↔ q ∈ out ∨ ∃ s ∈ body, StmtCalls Walked s q := by
  cases body with
  | nil => simp [collectCallees]
  | cons s rest =>
    rw [collectCallees, mem_collectCallees rest, mem_collectStmtCallees s]
    simp [or_assoc]
end

variable {prog : Program} {i : Nat}

theorem mem_adj : q ∈ adj prog i ↔ Calls Walked prog i q := by
  unfold adj Calls
  cases prog[i]? with
  | none => simp
  | some p => simp [mem_collectCallees]

theorem cycle_iff : (∃ b, returns (adj prog) i (turns prog i) (adj prog i).reverse [] = some b) ∧
      (cycle prog i = true ↔ Relation.TransGen (Calls Walked prog) i i) := by
  have leaf : ∀ q, q ∉ List.range prog.length → adj prog q = [] := by
    intro q outside
    have absent : prog[q]? = none := by
      rw [List.getElem?_eq_none_iff]
      simpa using outside
    rw [adj, absent]
  have ends : ∃ b, returns (adj prog) i (turns prog i) (adj prog i).reverse [] = some b :=
    returns_ends leaf (by rw [List.length_reverse, turns]; omega)
  refine ⟨ends, ?_⟩
  obtain ⟨b, done⟩ := ends
  have edges : Edge (adj prog) = Calls Walked prog := by
    funext a q
    exact propext mem_adj
  rw [cycle, done, Option.getD_some, ← edges]
  exact returns_iff frontier_start done

theorem mem_reported_iff : i ∈ reported prog ↔
      LacksRecursive prog i ∧ Relation.TransGen (Calls Walked prog) i i := by
  rw [reported, List.mem_filter, List.mem_range, Bool.and_eq_true, cycle_iff.2, LacksRecursive]
  constructor
  · rintro ⟨inside, back, lacks⟩
    refine ⟨⟨_, List.getElem?_eq_getElem inside, ?_⟩, back⟩
    simpa [List.getElem?_eq_getElem inside] using lacks
  · rintro ⟨⟨p, found, lacks⟩, back⟩
    exact ⟨(List.getElem?_eq_some_iff.mp found).1, back, by simp [found, lacks]⟩

theorem calls_mono (calls : Calls Walked prog i q) : Calls anywhere prog i q := by
  obtain ⟨p, found, st, member, there⟩ := calls
  refine ⟨p, found, st, member, ?_⟩
  clear member found
  induction there with
  | called kind callee => exact .called kind callee
  | expr place member there => exact .expr trivial member there
  | thenS _ ih => exact .thenS ih
  | elseS _ ih => exact .elseS ih
  | unit _ ih => exact .unit ih
  | body member _ ih => exact .body member ih

/-- RECURSIVE is demanded exactly where recursion is possible if and only if no procedure that
    lacks it comes back by calls at the places left out alone. -/
theorem recursion_exact_iff (prog : Program) : Exact prog ↔ Covered prog := by
  constructor
  · intro exact_ i lacks back
    exact (mem_reported_iff.mp ((exact_ i).mpr ⟨lacks, back⟩)).2
  · intro covered i
    rw [mem_reported_iff]
    constructor
    · rintro ⟨lacks, back⟩
      exact ⟨lacks, back.lift id fun _ _ => calls_mono⟩
    · rintro ⟨lacks, back⟩
      exact ⟨lacks, covered i lacks back⟩

def lineCaller : Program :=
  [{ name := "F", isRecursive := false
     body := [.node { lineCount := .node .call (some 0) .null .null .null
                        [.node .varRef none .null .null .null []]
                      items := [.node .varRef none .null .null .null []] }
       .null .null .null []] }]

/-- F calls itself in the LINE option and gets no error. -/
theorem line_recursion_unreported :
    checkRecursion lineCaller = [] ∧ reported lineCaller = [] ∧ LacksRecursive lineCaller 0 ∧
      Relation.TransGen (Calls anywhere lineCaller) 0 0 ∧ ¬Exact lineCaller := by
  have none : reported lineCaller = [] := by decide +kernel
  have lacks : LacksRecursive lineCaller 0 := ⟨_, rfl, rfl⟩
  have back : Relation.TransGen (Calls anywhere lineCaller) 0 0 := by
    refine .single ⟨_, rfl, _, List.mem_singleton_self _, ?_⟩
    exact @StmtCalls.expr anywhere _ _ _ _ _ .lineCount _ _ trivial
      (List.mem_singleton_self _) .call
  refine ⟨by decide +kernel, none, lacks, back, ?_⟩
  intro exact_
  have there := (exact_ 0).mpr ⟨lacks, back⟩
  rw [none] at there
  cases there

end PliRecursion
