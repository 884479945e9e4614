import PliLlvm.Hir.StmtExprs
import PliLlvm.Hir.Touches
import PliLlvm.Runtime.Controlled

/- CONTROLLED addresses read once before a DO group (src/irgen.cpp). What the group runs
   is any sequence of events: the stack calls a statement makes for a variable it names,
   and whatever user code does that a call, a unit or an INITIAL attribute enters. The
   expressions and statements an event comes from are in the group; the order of events,
   and which of them happen, is left open. -/
namespace PliCtlHoist
open PliHir PliControlled Runs
open PliStmtExprs (allExprs targetExprs formatSeen)
open PliEffects (children)

structure CtlFacts where
  /-- ctlKeyOf: the slot, or for a parameter the key its caller passed. -/
  key : Symbol → Int
  ctlDirect : Symbol → Bool
  inHandler : Bool
  curProc : Option HProc
  ctlDeclaredExtent : Symbol → Int
  /-- dims.size() of an isCtlNDynArray variable, 0 for any other. -/
  axes : Symbol → Nat

def CtlFacts.anchored (facts : CtlFacts) (sym : Symbol) : Bool :=
  facts.ctlDirect sym && !facts.inHandler &&
    (facts.curProc.any fun p => decide (p.src = sym.owner))

structure Info where
  uses : List Symbol := []
  muts : List Symbol := []
  hasCall : Bool := false

def Info.use (info : Info) (node : ExprNode) : Info :=
  match node.sym with
  | some sym =>
    if (node.kind = .varRef || node.kind = .subscript) && sym.controlled then
      { info with uses := info.uses.insert sym }
    else info
  | none => info

def Info.called (info : Info) (call : Bool) : Info :=
  if call then { info with hasCall := true } else info

mutual

def collectCtlExprUses (info : Info) : HExpr → Info
  | .null => info
  | .mk node locPtr a b args =>
    let info := (info.called (node.kind = .call)).use node
    let info := collectCtlExprUses info a
    let info := collectCtlExprUses info b
    let info := collectCtlExprUses info locPtr
    collectCtlArgsUses info args

def collectCtlArgsUses (info : Info) : List HExpr → Info
  | [] => info
  | e :: rest => collectCtlArgsUses (collectCtlExprUses info e) rest

end

def symOf : HExpr → Option Symbol
  | .null => none
  | .mk node _ _ _ _ => node.sym

def restackedSym (e : HExpr) : Option Symbol := (symOf e).filter fun sym => sym.controlled

def regrownSym (e : HExpr) : Option Symbol :=
  (symOf e).filter fun sym => sym.controlled && sym.ty.isChar && sym.ty.starLen

def Info.mutate (info : Info) (sym : Option Symbol) : Info :=
  { info with muts := sym.toList ++ info.muts }

def noteTarget (changed : HExpr → Option Symbol) (info : Info) (e : HExpr) : Info :=
  collectCtlExprUses (info.mutate (changed e)) e

def boundExprs (st : StmtNode) : List HExpr :=
  st.allocBounds.flatMap fun bb => bb.flatMap fun bnd => [bnd.lb, bnd.ub]

def formatWalked : HFormatItem → List HExpr
  | .mk w d s _ subs _ => [w, d, s] ++ subs.flatMap formatSeen

def walkedExprs (st : StmtNode) : List HExpr :=
  [st.target, st.value, st.cond, st.fromE, st.toE, st.byE, st.skipCount, st.stringTarget,
    st.oncodeExpr, st.waitCount] ++
  st.extraTargets ++ st.items ++ st.args ++ st.waitEvents ++ st.formats.flatMap formatWalked

def collectCtlStmtInfo (info : Info) (st : StmtNode) : Info :=
  match st.kind with
  | .allocate =>
    let info := st.allocBase.foldl (noteTarget restackedSym) info
    (st.allocSet ++ st.allocArea ++ st.allocCharLen ++ boundExprs st).foldl collectCtlExprUses info
  | .free =>
    let info := st.freeBase.foldl (noteTarget restackedSym) info
    st.freeArea.foldl collectCtlExprUses info
  | .callS =>
    (st.args ++ [st.taskRef, st.eventRef, st.priorityExpr]).foldl collectCtlExprUses
      (info.called true)
  | .on => collectCtlExprUses (info.called true) st.oncodeExpr
  | .wait => (st.waitEvents ++ [st.waitCount]).foldl collectCtlExprUses (info.called true)
  | .assign =>
    let info := (st.target :: st.extraTargets).foldl (noteTarget regrownSym) info
    (walkedExprs st).foldl collectCtlExprUses info
  | _ => (walkedExprs st).foldl collectCtlExprUses info

def isLeaf (kind : StmtKind) : Bool :=
  kind = .allocate || kind = .free || kind = .callS || kind = .on || kind = .wait

mutual

def collectCtlLoopInfo (info : Info) : HStmt → Info
  | .null => info
  | .mk st thenS elseS unit body =>
    let info := collectCtlStmtInfo info st
    if isLeaf st.kind then info
    else
      let info := collectCtlLoopInfo info thenS
      let info := collectCtlLoopInfo info elseS
      let info := collectCtlLoopInfo info unit
      collectCtlBodyInfo info body

def collectCtlBodyInfo (info : Info) : List HStmt → Info
  | [] => info
  | s :: rest => collectCtlBodyInfo (collectCtlLoopInfo info s) rest

end

def loopInfo (body : List HStmt) (cond : HExpr) : Info :=
  collectCtlExprUses (collectCtlBodyInfo {} body) cond

/-- The variables whose address is read before the group; an enclosing group's are in
    `ctlAddrHoist` already. -/
def hoistCtlForLoopBody (body : List HStmt) (cond : HExpr) (ctlAddrHoist : List Symbol) :
    List Symbol :=
  let info := loopInfo body cond
  if info.hasCall || info.uses.isEmpty then []
  else info.uses.filter fun sym =>
    sym.controlled && !info.muts.contains sym && !ctlAddrHoist.contains sym

structure Hoist where
  sym : Symbol
  addr : Option Nat
  len : Int
  exts : List Int
  deriving DecidableEq

def hoistExts (s : Ctl) (key : Int) : List Nat → Except Halt (Ctl × List Int)
  | [] => .ok (s, [])
  | k :: rest =>
    match pliCtlExtent s key k with
    | .error h => .error h
    | .ok (s, ext) => (hoistExts s key rest).map fun (s, exts) => (s, ext :: exts)

def hoistBase (facts : CtlFacts) (anchor : Symbol → Option Nat) (s : Ctl) (sym : Symbol) :
    Except Halt (Ctl × Option Nat × Int) :=
  if facts.anchored sym then .ok (s, anchor sym, facts.ctlDeclaredExtent sym)
  else
    match pliCtlAddr s (facts.key sym) with
    | .error h => .error h
    | .ok (s, addr) => (pliCtlLen s (facts.key sym)).map fun (s, len) => (s, addr, len)

def hoistSym (facts : CtlFacts) (anchor : Symbol → Option Nat) (s : Ctl) (sym : Symbol) :
    Except Halt (Ctl × Hoist) :=
  match hoistBase facts anchor s sym with
  | .error h => .error h
  | .ok (s, addr, len) =>
    (hoistExts s (facts.key sym) (List.range (facts.axes sym))).map fun (s, exts) =>
      (s, ⟨sym, addr, len, exts⟩)

def preheader (facts : CtlFacts) (anchor : Symbol → Option Nat) (s : Ctl) :
    List Symbol → Except Halt (Ctl × List Hoist)
  | [] => .ok (s, [])
  | sym :: rest =>
    match hoistSym facts anchor s sym with
    | .error h => .error h
    | .ok (s, hoist) => (preheader facts anchor s rest).map fun (s, table) => (s, hoist :: table)

section Walk

structure Info.Le (a b : Info) : Prop where
  uses : a.uses ⊆ b.uses
  muts : a.muts ⊆ b.muts
  hasCall : a.hasCall = true → b.hasCall = true

theorem Info.Le.refl (a : Info) : a.Le a :=
  ⟨List.Subset.refl _, List.Subset.refl _, id⟩

theorem Info.Le.trans {a b c : Info} (first : a.Le b) (second : b.Le c) : a.Le c := by
  constructor
  · exact List.Subset.trans first.uses second.uses
  · exact List.Subset.trans first.muts second.muts
  · intro h
    exact second.hasCall (first.hasCall h)

theorem called_le (info : Info) (call : Bool) : info.Le (info.called call) := by
  cases call
  · exact Info.Le.refl info
  · exact ⟨List.Subset.refl _, List.Subset.refl _, fun _ => rfl⟩

theorem use_le (info : Info) (node : ExprNode) : info.Le (info.use node) := by
  unfold Info.use
  cases node.sym with
  | none => exact Info.Le.refl info
  | some sym =>
    dsimp only
    split
    · constructor
      · intro s member
        exact List.mem_insert_of_mem member
      · exact List.Subset.refl _
      · exact id
    · exact Info.Le.refl info

theorem mutate_le (info : Info) (sym : Option Symbol) : info.Le (info.mutate sym) := by
  constructor
  · exact List.Subset.refl _
  · intro s member
    exact List.mem_append_right _ member
  · exact id

mutual

theorem collectCtlExprUses_le (info : Info) : (e : HExpr) → info.Le (collectCtlExprUses info e)
  | .null => Info.Le.refl info
  | .mk node locPtr a b args => by
    unfold collectCtlExprUses
    have own := (called_le info (node.kind = .call)).trans (use_le _ node)
    have left := own.trans (collectCtlExprUses_le _ a)
    have right := left.trans (collectCtlExprUses_le _ b)
    have loc := right.trans (collectCtlExprUses_le _ locPtr)
    exact loc.trans (collectCtlArgsUses_le _ args)

theorem collectCtlArgsUses_le (info : Info) :
    (args : List HExpr) → info.Le (collectCtlArgsUses info args)
  | [] => Info.Le.refl info
  | e :: rest => by
    unfold collectCtlArgsUses
    exact (collectCtlExprUses_le info e).trans (collectCtlArgsUses_le _ rest)

end

theorem foldl_le {α : Type} {walk : Info → α → Info}
    (adds : ∀ (info : Info) x, info.Le (walk info x))
    (info : Info) (xs : List α) :
    info.Le (xs.foldl walk info) ∧
      ∀ x ∈ xs, ∃ before, info.Le before ∧ (walk before x).Le (xs.foldl walk info) := by
  induction xs generalizing info with
  | nil => exact ⟨Info.Le.refl info, by simp⟩
  | cons first rest ih =>
    obtain ⟨later, each⟩ := ih (walk info first)
    constructor
    · exact (adds info first).trans later
    · intro x member
      rcases List.mem_cons.mp member with rfl | among
      · exact ⟨info, Info.Le.refl info, later⟩
      · obtain ⟨before, le, inside⟩ := each x among
        exact ⟨before, (adds info first).trans le, inside⟩

theorem noteTarget_le (changed : HExpr → Option Symbol) (info : Info) (e : HExpr) :
    info.Le (noteTarget changed info e) :=
  (mutate_le info (changed e)).trans (collectCtlExprUses_le _ e)

inductive Part (node : ExprNode) : HExpr → Prop where
  | here {locPtr a b args} : Part node (.mk node locPtr a b args)
  | inner {outer locPtr a b args e} : (e = a ∨ e = b ∨ e = locPtr ∨ e ∈ args) → Part node e →
      Part node (.mk outer locPtr a b args)

variable {info : Info} {e : HExpr}

theorem collectCtlArgsUses_each {args : List HExpr} (member : e ∈ args) :
    ∃ before, (collectCtlExprUses before e).Le (collectCtlArgsUses info args) := by
  induction args generalizing info with
  | nil => cases member
  | cons first rest ih =>
    unfold collectCtlArgsUses
    rcases List.mem_cons.mp member with rfl | later
    · exact ⟨info, collectCtlArgsUses_le _ rest⟩
    · exact ih later

theorem parts_walked {node : ExprNode} {locPtr a b : HExpr} {args : List HExpr}
    (part : e = a ∨ e = b ∨ e = locPtr ∨ e ∈ args) :
    ∃ before, (collectCtlExprUses before e).Le
      (collectCtlExprUses info (.mk node locPtr a b args)) := by
  conv =>
    enter [1, before]
    rw [collectCtlExprUses.eq_def info]
  dsimp only
  rcases part with rfl | rfl | rfl | arg
  · exact ⟨_, ((collectCtlExprUses_le _ b).trans (collectCtlExprUses_le _ locPtr)).trans
      (collectCtlArgsUses_le _ args)⟩
  · exact ⟨_, (collectCtlExprUses_le _ locPtr).trans (collectCtlArgsUses_le _ args)⟩
  · exact ⟨_, collectCtlArgsUses_le _ args⟩
  · exact collectCtlArgsUses_each arg

theorem call_found {node : ExprNode} (part : Part node e) (call : node.kind = .call)
    (info : Info) : (collectCtlExprUses info e).hasCall = true := by
  induction part generalizing info with
  | @here locPtr a b args =>
    unfold collectCtlExprUses
    have found : (info.called (node.kind = .call)).hasCall = true := by simp [call, Info.called]
    have own := (use_le _ node).hasCall found
    have left := (collectCtlExprUses_le _ a).hasCall own
    have right := (collectCtlExprUses_le _ b).hasCall left
    have loc := (collectCtlExprUses_le _ locPtr).hasCall right
    exact (collectCtlArgsUses_le _ args).hasCall loc
  | inner part _ ih =>
    obtain ⟨before, walked⟩ := parts_walked part
    exact walked.hasCall (ih before)

def seenExprs (st : StmtNode) : List HExpr :=
  match st.kind with
  | .allocate => st.allocBase ++ st.allocSet ++ st.allocArea ++ st.allocCharLen ++ boundExprs st
  | .free => st.freeBase ++ st.freeArea
  | .callS => st.args ++ [st.taskRef, st.eventRef, st.priorityExpr]
  | .on => [st.oncodeExpr]
  | .wait => st.waitEvents ++ [st.waitCount]
  | _ => walkedExprs st

def seenMuts (st : StmtNode) : List Symbol :=
  match st.kind with
  | .allocate => st.allocBase.filterMap restackedSym
  | .free => st.freeBase.filterMap restackedSym
  | .assign => (st.target :: st.extraTargets).filterMap regrownSym
  | _ => []

def isCaller (kind : StmtKind) : Bool := kind = .callS || kind = .on || kind = .wait

structure Seen (st : StmtNode) (info : Info) : Prop where
  exprs : ∀ e ∈ seenExprs st, ∃ before, (collectCtlExprUses before e).Le info
  muts : seenMuts st ⊆ info.muts
  caller : isCaller st.kind = true → info.hasCall = true

variable {st : StmtNode}

theorem Seen.later {after : Info} (seen : Seen st info) (le : info.Le after) : Seen st after := by
  constructor
  · intro e member
    obtain ⟨before, walked⟩ := seen.exprs e member
    exact ⟨before, walked.trans le⟩
  · exact List.Subset.trans seen.muts le.muts
  · intro caller
    exact le.hasCall (seen.caller caller)

theorem exprs_walked (info : Info) (es : List HExpr) :
    info.Le (es.foldl collectCtlExprUses info) ∧
      ∀ e ∈ es, ∃ before, (collectCtlExprUses before e).Le (es.foldl collectCtlExprUses info) := by
  obtain ⟨le, each⟩ := foldl_le collectCtlExprUses_le info es
  refine ⟨le, ?_⟩
  intro e member
  obtain ⟨before, -, walked⟩ := each e member
  exact ⟨before, walked⟩

theorem targets_walked (changed : HExpr → Option Symbol) (info : Info) (es : List HExpr) :
    info.Le (es.foldl (noteTarget changed) info) ∧
      (∀ e ∈ es, ∃ before,
        (collectCtlExprUses before e).Le (es.foldl (noteTarget changed) info)) ∧
      es.filterMap changed ⊆ (es.foldl (noteTarget changed) info).muts := by
  obtain ⟨le, each⟩ := foldl_le (noteTarget_le changed) info es
  refine ⟨le, ?_, ?_⟩
  · intro e member
    obtain ⟨before, -, walked⟩ := each e member
    exact ⟨_, walked⟩
  · intro sym member
    obtain ⟨e, among, changes⟩ := List.mem_filterMap.mp member
    obtain ⟨before, -, walked⟩ := each e among
    have noted : sym ∈ (before.mutate (changed e)).muts := by simp [Info.mutate, changes]
    exact walked.muts ((collectCtlExprUses_le _ e).muts noted)

theorem targets_then_exprs (changed : HExpr → Option Symbol) (info : Info) (ts es : List HExpr) :
    info.Le (es.foldl collectCtlExprUses (ts.foldl (noteTarget changed) info)) ∧
      (∀ e ∈ ts ++ es, ∃ before, (collectCtlExprUses before e).Le
        (es.foldl collectCtlExprUses (ts.foldl (noteTarget changed) info))) ∧
      ts.filterMap changed ⊆
        (es.foldl collectCtlExprUses (ts.foldl (noteTarget changed) info)).muts := by
  obtain ⟨le, walked, noted⟩ := targets_walked changed info ts
  obtain ⟨later, rest⟩ := exprs_walked (ts.foldl (noteTarget changed) info) es
  refine ⟨le.trans later, ?_, List.Subset.trans noted later.muts⟩
  intro e member
  rcases List.mem_append.mp member with first | second
  · obtain ⟨before, inside⟩ := walked e first
    exact ⟨before, inside.trans later⟩
  · exact rest e second

theorem stmt_seen (info : Info) (st : StmtNode) :
    info.Le (collectCtlStmtInfo info st) ∧ Seen st (collectCtlStmtInfo info st) := by
  have called := called_le info true
  have plain : collectCtlStmtInfo info st = (walkedExprs st).foldl collectCtlExprUses info →
      seenExprs st = walkedExprs st → seenMuts st = [] → isCaller st.kind = false →
      info.Le (collectCtlStmtInfo info st) ∧ Seen st (collectCtlStmtInfo info st) := by
    intro walk exprs muts caller
    obtain ⟨le, each⟩ := exprs_walked info (walkedExprs st)
    rw [walk]
    refine ⟨le, ?_, ?_, ?_⟩
    · rwa [exprs]
    · simp [muts]
    · simp [caller]
  have caller : ∀ es, collectCtlStmtInfo info st = es.foldl collectCtlExprUses (info.called true) →
      seenExprs st = es → seenMuts st = [] →
      info.Le (collectCtlStmtInfo info st) ∧ Seen st (collectCtlStmtInfo info st) := by
    intro es walk exprs muts
    obtain ⟨le, each⟩ := exprs_walked (info.called true) es
    rw [walk]
    refine ⟨called.trans le, ?_, ?_, ?_⟩
    · rwa [exprs]
    · simp [muts]
    · intro _
      exact le.hasCall rfl
  cases kind : st.kind
  case allocate =>
    obtain ⟨le, each, noted⟩ := targets_then_exprs restackedSym info st.allocBase
      (st.allocSet ++ st.allocArea ++ st.allocCharLen ++ boundExprs st)
    simp only [collectCtlStmtInfo, kind]
    refine ⟨le, ?_, ?_, ?_⟩
    · simpa [seenExprs, kind] using each
    · simpa [seenMuts, kind] using noted
    · simp [isCaller, kind]
  case free =>
    obtain ⟨le, each, noted⟩ := targets_then_exprs restackedSym info st.freeBase st.freeArea
    simp only [collectCtlStmtInfo, kind]
    refine ⟨le, ?_, ?_, ?_⟩
    · simpa [seenExprs, kind] using each
    · simpa [seenMuts, kind] using noted
    · simp [isCaller, kind]
  case assign =>
    obtain ⟨le, each, noted⟩ := targets_then_exprs regrownSym info
      (st.target :: st.extraTargets) (walkedExprs st)
    simp only [collectCtlStmtInfo, kind]
    refine ⟨le, ?_, ?_, ?_⟩
    · intro e member
      refine each e (List.mem_append_right _ ?_)
      simpa [seenExprs, kind] using member
    · simpa [seenMuts, kind] using noted
    · simp [isCaller, kind]
  case callS =>
    exact caller (st.args ++ [st.taskRef, st.eventRef, st.priorityExpr])
      (by simp [collectCtlStmtInfo, kind]) (by simp [seenExprs, kind]) (by simp [seenMuts, kind])
  case on =>
    exact caller [st.oncodeExpr] (by simp [collectCtlStmtInfo, kind])
      (by simp [seenExprs, kind]) (by simp [seenMuts, kind])
  case wait =>
    exact caller (st.waitEvents ++ [st.waitCount]) (by simp [collectCtlStmtInfo, kind])
      (by simp [seenExprs, kind]) (by simp [seenMuts, kind])
  all_goals
    exact plain (by simp [collectCtlStmtInfo, kind]) (by simp [seenExprs, kind])
      (by simp [seenMuts, kind]) (by simp [isCaller, kind])

mutual

theorem collectCtlLoopInfo_le (info : Info) : (s : HStmt) → info.Le (collectCtlLoopInfo info s)
  | .null => Info.Le.refl info
  | .mk st thenS elseS unit body => by
    unfold collectCtlLoopInfo
    dsimp only
    have own := (stmt_seen info st).1
    split
    · exact own
    · have first := own.trans (collectCtlLoopInfo_le _ thenS)
      have second := first.trans (collectCtlLoopInfo_le _ elseS)
      have third := second.trans (collectCtlLoopInfo_le _ unit)
      exact third.trans (collectCtlBodyInfo_le _ body)

theorem collectCtlBodyInfo_le (info : Info) :
    (body : List HStmt) → info.Le (collectCtlBodyInfo info body)
  | [] => Info.Le.refl info
  | s :: rest => by
    unfold collectCtlBodyInfo
    exact (collectCtlLoopInfo_le info s).trans (collectCtlBodyInfo_le _ rest)

end

theorem collectCtlBodyInfo_each {info : Info} {body : List HStmt} {s : HStmt} (member : s ∈ body) :
    ∃ before, (collectCtlLoopInfo before s).Le (collectCtlBodyInfo info body) := by
  induction body generalizing info with
  | nil => cases member
  | cons first rest ih =>
    unfold collectCtlBodyInfo
    rcases List.mem_cons.mp member with rfl | later
    · exact ⟨info, collectCtlBodyInfo_le _ rest⟩
    · exact ih later

inductive Executes (st : StmtNode) : HStmt → Prop where
  | here {thenS elseS unit body} : Executes st (.mk st thenS elseS unit body)
  | inner {outer s} : s ∈ children outer → Executes st s → Executes st outer

variable {body : List HStmt}

theorem children_inside {node : StmtNode} {thenS elseS unit s : HStmt}
    (member : s ∈ children (.mk node thenS elseS unit body)) (on : node.kind ≠ .on) :
    (s = thenS ∨ s = elseS ∨ s ∈ body) ∧ isLeaf node.kind = false := by
  unfold children at member
  cases kind : node.kind <;> simp only [kind, List.not_mem_nil] at member
  case ifS =>
    simp only [List.mem_cons, List.not_mem_nil, or_false] at member
    exact ⟨member.imp_right Or.inl, by decide⟩
  case on => exact absurd kind on
  all_goals exact ⟨Or.inr (Or.inr member), by decide⟩

theorem executed_seen {s : HStmt} (executed : Executes st s) (info : Info) :
    Seen st (collectCtlLoopInfo info s) ∨ (collectCtlLoopInfo info s).hasCall = true := by
  induction executed generalizing info with
  | @here thenS elseS unit body =>
    left
    have own := (stmt_seen info st).2
    unfold collectCtlLoopInfo
    dsimp only
    split
    · exact own
    · have first := own.later (collectCtlLoopInfo_le _ thenS)
      have second := first.later (collectCtlLoopInfo_le _ elseS)
      have third := second.later (collectCtlLoopInfo_le _ unit)
      exact third.later (collectCtlBodyInfo_le _ body)
  | @inner outer s member _ ih =>
    cases outer with
    | null => cases member
    | mk node thenS elseS unit body =>
      by_cases on : node.kind = .on
      · right
        have caller := (stmt_seen info node).2.caller (by simp [isCaller, on])
        unfold collectCtlLoopInfo
        simpa [isLeaf, on] using caller
      · have walked : ∃ before, (collectCtlLoopInfo before s).Le
            (collectCtlLoopInfo info (.mk node thenS elseS unit body)) := by
          conv =>
            enter [1, before]
            rw [collectCtlLoopInfo.eq_def info]
          dsimp only
          obtain ⟨inside, walks⟩ := children_inside member on
          rw [walks]
          simp only [Bool.false_eq_true, ↓reduceIte]
          rcases inside with rfl | rfl | among
          · exact ⟨_, ((collectCtlLoopInfo_le _ elseS).trans (collectCtlLoopInfo_le _ unit)).trans
              (collectCtlBodyInfo_le _ body)⟩
          · exact ⟨_, (collectCtlLoopInfo_le _ unit).trans (collectCtlBodyInfo_le _ body)⟩
          · exact collectCtlBodyInfo_each among
        obtain ⟨before, le⟩ := walked
        rcases ih before with seen | call
        · exact Or.inl (seen.later le)
        · exact Or.inr (le.hasCall call)

def InBody (body : List HStmt) (st : StmtNode) : Prop := ∃ s ∈ body, Executes st s

theorem body_seen {cond : HExpr} (inside : InBody body st)
    (clear : (loopInfo body cond).hasCall = false) : Seen st (loopInfo body cond) := by
  obtain ⟨s, member, executed⟩ := inside
  obtain ⟨before, walked⟩ := @collectCtlBodyInfo_each {} body s member
  have le := walked.trans (collectCtlExprUses_le (collectCtlBodyInfo {} body) cond)
  rcases executed_seen executed before with seen | call
  · exact seen.later le
  · have found := le.hasCall call
    rw [show (collectCtlExprUses (collectCtlBodyInfo {} body) cond).hasCall = false from clear]
      at found
    cases found

theorem hoisted_clear {cond : HExpr} {outer : List Symbol} {sym : Symbol}
    (hoisted : sym ∈ hoistCtlForLoopBody body cond outer) :
    (loopInfo body cond).hasCall = false ∧ sym ∉ (loopInfo body cond).muts := by
  unfold hoistCtlForLoopBody at hoisted
  dsimp only at hoisted
  split at hoisted
  · cases hoisted
  · rename_i passes
    simp only [Bool.or_eq_true, not_or, Bool.not_eq_true] at passes
    obtain ⟨-, kept⟩ := List.mem_filter.mp hoisted
    simp only [Bool.and_eq_true, Bool.not_eq_true', List.contains_eq_mem, decide_eq_false_iff_not]
      at kept
    exact ⟨passes.1, kept.1.2⟩

end Walk

section Events

def changedKey : Op → Option Int
  | .alloc key _ | .allocDims key _ _ | .setDim key _ _ | .ensure key _ | .freeAddr key => some key
  | _ => none

theorem genStep_frame {st st' : Stacks} {op : Op} {reply : Reply}
    (stepped : GenStep st op st' reply)
    {k : Int} (other : changedKey op ≠ some k) : st' k = st k := by
  cases stepped with
  | alloc | allocDims | setDim | ensureNew | free =>
    refine Function.update_of_ne ?_ _ _
    intro same
    exact other (by rw [same]; rfl)
  | _ => rfl

def stepOp (s : Ctl) (op : Op) : Option Ctl :=
  match perform s op with
  | .ok (s, _) => some s
  | .error _ => none

inductive Cause where
  /-- A reference that asks the runtime. -/
  | reference
  /-- A statement's ALLOCATE, FREE or store of a variable. -/
  | own (st : StmtNode) (sym : Symbol)
  /-- The group's own store to its control variable. -/
  | control (sym : Symbol)
  /-- A function reference in a field of a statement. -/
  | call (st : StmtNode) (e : HExpr)
  /-- The procedure of a CALL, what a WAIT lets run, the unit of an ON statement. -/
  | statement (st : StmtNode)
  /-- A unit entered by SIGNAL, and one entered by a raised condition. -/
  | signal (st : StmtNode)
  | raised
  /-- The INITIAL attribute of a variable that is allocated. -/
  | initial (st : StmtNode) (sym : Symbol)
  /-- The subscripts of a DEFINED variable, and the bounds of a BASED one. -/
  | declared

structure Event where
  cause : Cause
  ops : List Op

def stepEvent (s : Ctl) (event : Event) : Option Ctl := run stepOp s event.ops

/-- The variables whose stack a statement changes itself: those of an ALLOCATE or a FREE
    and, for any that stores, each CHAR(*) variable it stores to. -/
def changedSyms (st : StmtNode) : List Symbol :=
  match st.kind with
  | .allocate => st.allocBase.filterMap restackedSym ++ st.allocSet.filterMap regrownSym
  | .free => st.freeBase.filterMap restackedSym
  | .assign => (st.target :: st.extraTargets).filterMap regrownSym
  | _ =>
    (targetExprs st ++ [st.keyToOpt, st.replyTarget]).filterMap regrownSym ++ st.sym.toList

inductive Possible (facts : CtlFacts) (group : StmtNode) (body : List HStmt) : Event → Prop where
  | reference {ops} : (∀ op ∈ ops, changedKey op = none) →
      Possible facts group body ⟨.reference, ops⟩
  | own {st sym ops} : InBody body st → sym ∈ changedSyms st →
      (∀ op ∈ ops, ∀ k, changedKey op = some k → k = facts.key sym) →
      Possible facts group body ⟨.own st sym, ops⟩
  | control {sym ops} : group.sym = some sym →
      (∀ op ∈ ops, ∀ k, changedKey op = some k → k = facts.key sym) →
      Possible facts group body ⟨.control sym, ops⟩
  | call {st e node ops} : InBody body st → e ∈ allExprs st → Part node e → node.kind = .call →
      Possible facts group body ⟨.call st e, ops⟩
  | condCall {node ops} : Part node group.cond → node.kind = .call →
      Possible facts group body ⟨.call group group.cond, ops⟩
  | statement {st ops} : InBody body st → isCaller st.kind = true →
      Possible facts group body ⟨.statement st, ops⟩
  | signal {st ops} : InBody body st → st.kind = .signal →
      Possible facts group body ⟨.signal st, ops⟩
  | raised {ops} : Possible facts group body ⟨.raised, ops⟩
  | initial {st sym ops} : InBody body st → st.kind = .allocate →
      sym ∈ st.allocBase.filterMap restackedSym → Possible facts group body ⟨.initial st sym, ops⟩
  | declared {ops} : Possible facts group body ⟨.declared, ops⟩

def Spares (facts : CtlFacts) (hoisted : List Symbol) (ops : List Op) : Prop :=
  ∀ op ∈ ops, ∀ h ∈ hoisted, changedKey op ≠ some (facts.key h)

/-- What an event must keep to. A statement that the walk took a change from may change
    that variable, if no hoisted one shares its key; a call or a statement that the walk
    looked at is free; every other one spares the hoisted variables. -/
def Meets (facts : CtlFacts) (hoisted : List Symbol) (event : Event) : Prop :=
  match event.cause with
  | .reference | .statement _ => True
  | .own st sym => ∀ h ∈ hoisted, h ≠ sym ∨ sym ∉ seenMuts st → facts.key h ≠ facts.key sym
  | .control sym => ∀ h ∈ hoisted, facts.key h ≠ facts.key sym
  | .call st e => e ∈ seenExprs st ∨ Spares facts hoisted event.ops
  | .signal _ | .raised | .initial _ _ | .declared => Spares facts hoisted event.ops

def Current (facts : CtlFacts) (s : Ctl) (h : Hoist) : Prop :=
  (pliCtlAddr s (facts.key h.sym)).map (·.2) = .ok h.addr ∧
    (pliCtlLen s (facts.key h.sym)).map (·.2) = .ok h.len ∧
    ∀ axis < facts.axes h.sym,
      (pliCtlExtent s (facts.key h.sym) axis).map (·.2) = .ok (h.exts.getD axis 0)

/-- The anchor slots of the hoisted variables hold their latest generations, of the
    declared length. -/
def AnchorsCurrent (facts : CtlFacts) (anchor : Symbol → Option Nat) (s : Ctl)
    (hoisted : List Symbol) : Prop :=
  ∀ sym ∈ hoisted, facts.anchored sym = true →
    (pliCtlAddr s (facts.key sym)).map (·.2) = .ok (anchor sym) ∧
      (pliCtlLen s (facts.key sym)).map (·.2) = .ok (facts.ctlDeclaredExtent sym)

def Matches (facts : CtlFacts) (st : Stacks) (h : Hoist) : Prop :=
  h.addr = topAddr (st (facts.key h.sym)) ∧ h.len = topLen (st (facts.key h.sym)) ∧
    h.exts = (List.range (facts.axes h.sym)).map fun (k : Nat) =>
      topExtent (st (facts.key h.sym)) k

variable {s : Ctl}

theorem addr_answer (inv : Inv s) (key : Int) :
    (pliCtlAddr s key).map (·.2) = .ok (topAddr (stacksOf s key)) := by
  obtain ⟨s', answer, -⟩ := addr_spec inv key
  rw [answer]
  rfl

theorem len_answer (inv : Inv s) (key : Int) :
    (pliCtlLen s key).map (·.2) = .ok (topLen (stacksOf s key)) := by
  obtain ⟨s', answer, -⟩ := len_spec inv key
  rw [answer]
  rfl

variable {facts : CtlFacts}

theorem matches_current {h : Hoist} (inv : Inv s)
    (same : Matches facts (stacksOf s) h) : Current facts s h := by
  obtain ⟨addr, len, exts⟩ := same
  refine ⟨?_, ?_, ?_⟩
  · rw [addr_answer inv, addr]
  · rw [len_answer inv, len]
  · intro axis bound
    obtain ⟨s', answer, -⟩ := extent_spec inv (facts.key h.sym) axis
    rw [answer, exts]
    simp [Except.map, List.getD_eq_getElem?_getD, bound]

theorem hoistExts_spec (inv : Inv s) (key : Int) (axes : List Nat) : ∃ s', hoistExts s key axes =
        .ok (s', axes.map fun (k : Nat) => topExtent (stacksOf s key) k) ∧
      Inv s' ∧ stacksOf s' = stacksOf s := by
  induction axes generalizing s with
  | nil => exact ⟨s, rfl, inv, rfl⟩
  | cons k rest ih =>
    obtain ⟨s1, answer, inv1, stacked1⟩ := extent_spec inv key k
    obtain ⟨s2, others, inv2, stacked2⟩ := ih inv1
    refine ⟨s2, ?_, inv2, stacked2.trans stacked1⟩
    simp [hoistExts, answer, others, Except.map, stacked1]

theorem hoistBase_spec {anchor : Symbol → Option Nat} (inv : Inv s)
    (sym : Symbol) (current : AnchorsCurrent facts anchor s [sym]) :
    ∃ s', hoistBase facts anchor s sym = .ok (s', topAddr (stacksOf s (facts.key sym)),
        topLen (stacksOf s (facts.key sym))) ∧ Inv s' ∧ stacksOf s' = stacksOf s := by
  unfold hoistBase
  by_cases direct : facts.anchored sym = true
  · obtain ⟨addr, len⟩ := current sym (by simp) direct
    rw [addr_answer inv] at addr
    rw [len_answer inv] at len
    rw [if_pos direct]
    rw [← Except.ok.inj addr, ← Except.ok.inj len]
    exact ⟨s, rfl, inv, rfl⟩
  · rw [if_neg direct]
    obtain ⟨s1, addr, inv1, stacked1⟩ := addr_spec inv (facts.key sym)
    obtain ⟨s2, len, inv2, stacked2⟩ := len_spec inv1 (facts.key sym)
    refine ⟨s2, ?_, inv2, stacked2.trans stacked1⟩
    simp [addr, len, Except.map, stacked1]

theorem preheader_spec {anchor : Symbol → Option Nat} (inv : Inv s)
    {hoisted : List Symbol} (current : AnchorsCurrent facts anchor s hoisted) :
    ∃ s' table, preheader facts anchor s hoisted = .ok (s', table) ∧ Inv s' ∧
      stacksOf s' = stacksOf s ∧ table.map (·.sym) = hoisted ∧
      ∀ h ∈ table, Matches facts (stacksOf s) h := by
  induction hoisted generalizing s with
  | nil => exact ⟨s, [], rfl, inv, rfl, rfl, by simp⟩
  | cons sym rest ih =>
    obtain ⟨s1, base, inv1, stacked1⟩ := hoistBase_spec inv sym (by
      intro other member direct
      rw [List.mem_singleton] at member
      exact current other (by simp [member]) direct)
    obtain ⟨s2, exts, inv2, stacked2⟩ :=
      hoistExts_spec inv1 (facts.key sym) (List.range (facts.axes sym))
    have stacked := stacked2.trans stacked1
    obtain ⟨s3, table, others, inv3, stacked3, syms, all⟩ := ih inv2 (by
      intro other member direct
      obtain ⟨addr, len⟩ := current other (by simp [member]) direct
      rw [addr_answer inv] at addr
      rw [len_answer inv] at len
      rw [addr_answer inv2, len_answer inv2, stacked]
      exact ⟨addr, len⟩)
    refine ⟨s3, ⟨sym, topAddr (stacksOf s (facts.key sym)), topLen (stacksOf s (facts.key sym)),
        (List.range (facts.axes sym)).map fun (k : Nat) =>
          topExtent (stacksOf s1 (facts.key sym)) k⟩ :: table,
      ?_, inv3, stacked3.trans stacked, ?_, ?_⟩
    · simp only [preheader, hoistSym, base, exts, others, Except.map]
    · simp [syms]
    · intro h member
      rcases List.mem_cons.mp member with rfl | later
      · rw [stacked1]
        exact ⟨rfl, rfl, rfl⟩
      · have matched := all h later
        rwa [stacked] at matched

theorem spared_ops {hoisted : List Symbol} (inv : Inv s)
    {ops : List Op} (spares : Spares facts hoisted ops) :
    ∃ s', run stepOp s ops = some s' ∧ Inv s' ∧
      ∀ h ∈ hoisted, stacksOf s' (facts.key h) = stacksOf s (facts.key h) := by
  induction ops generalizing s with
  | nil => exact ⟨s, rfl, inv, fun _ _ => rfl⟩
  | cons op rest ih =>
    obtain ⟨mid, reply, performed, kept, stepped⟩ := perform_spec inv op
    obtain ⟨s', tail, inv', same⟩ := ih kept (fun other member => spares other (by simp [member]))
    refine ⟨s', run_cons_iff.mpr ⟨mid, by simp [stepOp, performed], tail⟩, inv', ?_⟩
    intro h member
    rw [same h member]
    exact genStep_frame stepped (spares op (by simp) h member)

theorem meets_spares {group : StmtNode} {body : List HStmt} {outer : List Symbol} {event : Event}
    (possible : Possible facts group body event)
    (meets : Meets facts (hoistCtlForLoopBody body group.cond outer) event) :
    Spares facts (hoistCtlForLoopBody body group.cond outer) event.ops := by
  intro op among h hoisted
  obtain ⟨clear, unchanged⟩ := hoisted_clear hoisted
  cases possible with
  | reference reads =>
    rw [reads op among]
    exact nofun
  | @own st sym ops inside changed keys =>
    intro touches
    refine meets h hoisted ?_ (keys op among _ touches)
    by_cases same : h = sym
    · right
      intro noted
      rw [same] at unchanged
      exact unchanged ((body_seen inside clear).muts noted)
    · exact Or.inl same
  | @control sym ops control keys =>
    intro touches
    exact meets h hoisted (keys op among _ touches)
  | call inside field part call =>
    rcases meets with seen | spares
    · obtain ⟨before, walked⟩ := (body_seen inside clear).exprs _ seen
      have found := walked.hasCall (call_found part call before)
      rw [clear] at found
      cases found
    · exact spares op among h hoisted
  | condCall part call =>
    have found : (loopInfo body group.cond).hasCall = true := call_found part call _
    rw [clear] at found
    cases found
  | statement inside caller =>
    have found := (body_seen inside clear).caller caller
    rw [clear] at found
    cases found
  | signal | raised | initial | declared => exact meets op among h hoisted

theorem event_keeps {hoisted : List Symbol} {event : Event}
    (st : Stacks) (spares : Spares facts hoisted event.ops)
    (kept : Inv s ∧ ∀ h ∈ hoisted, stacksOf s (facts.key h) = st (facts.key h)) :
    ∃ s', stepEvent s event = some s' ∧
      Inv s' ∧ ∀ h ∈ hoisted, stacksOf s' (facts.key h) = st (facts.key h) := by
  obtain ⟨inv, same⟩ := kept
  obtain ⟨s', performed, inv', stay⟩ := spared_ops inv spares
  refine ⟨s', performed, inv', ?_⟩
  intro h member
  rw [stay h member, same h member]

/-- What a run of the group performs, with the values it started from: the storage is
    `s` at the end and every reference then uses what the runtime would answer. -/
def EndsCurrent (facts : CtlFacts) (group : StmtNode) (body : List HStmt) (outer : List Symbol)
    (anchor : Symbol → Option Nat) (start : Ctl) (events : List Event) : Prop :=
  ∃ entered table s,
    preheader facts anchor start (hoistCtlForLoopBody body group.cond outer) =
      .ok (entered, table) ∧
    table.map (·.sym) = hoistCtlForLoopBody body group.cond outer ∧
    run stepEvent entered events = some s ∧ ∀ h ∈ table, Current facts s h

theorem step_inv {t t' : Ctl × List Reply} {op : Op} (inv : Inv t.1)
    (stepped : step t op = some t') : Inv t'.1 := by
  obtain ⟨s', reply, performed, inv', -⟩ := perform_spec inv op
  simp only [step, performed, Option.some.injEq] at stepped
  rw [← stepped]
  exact inv'

/- A group that signals ERROR and stores to an element of X, with an ALLOCATE of Y. -/
def symX : Symbol := { num := 1, controlled := true, ty := { isArray := true } }

def symY : Symbol := { num := 2, controlled := true }

def loopFacts : CtlFacts where
  key := fun sym => sym.num
  ctlDirect := fun _ => false
  inHandler := false
  curProc := none
  ctlDeclaredExtent := fun _ => 40
  axes := fun _ => 0

def refTo (sym : Symbol) (kind : ExprKind) (args : List HExpr) : HExpr :=
  .mk { kind := kind, sym := some sym } .null .null .null args

def signalStmt : StmtNode := { kind := .signal, condKey := 1 }

def allocateY : StmtNode := { kind := .allocate, allocBase := [refTo symY .varRef []] }

def clearX : StmtNode :=
  { kind := .assign, target := refTo symX .subscript [intLit 1], value := intLit 0 }

def signalGroup : StmtNode := { kind := .doWhile, cond := refTo symX .subscript [intLit 1] }

def signalBody : List HStmt :=
  [.mk signalStmt .null .null .null [], .mk allocateY .null .null .null [],
    .mk clearX .null .null .null []]

theorem inBody_leaf {body : List HStmt} {st : StmtNode}
    (member : HStmt.mk st .null .null .null [] ∈ body) : InBody body st :=
  ⟨_, member, Executes.here⟩

def allocated : Ctl :=
  { Ctl.start with
    vars := [⟨1, [⟨some 0, 40, 0, none⟩, GenSlot.unused, GenSlot.unused, GenSlot.unused], 1⟩]
    table := 1
    last := some (1, 0)
    nextBuf := 1 }

theorem signal_hoists : hoistCtlForLoopBody signalBody signalGroup.cond [] = [symX] := by
  decide +kernel

theorem signal_preheader :
    preheader loopFacts (fun _ => none) allocated [symX] =
      .ok (allocated, [⟨symX, some 0, 40, []⟩]) := by
  decide +kernel

end Events

end PliCtlHoist
