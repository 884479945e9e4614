import PliLlvm.Hir.Syntax

/- The expression fields of a statement, in four lists: those evaluated for a value, those
   stored through, the handles of a CALL or a WAIT, and the rest. -/
namespace PliStmtExprs
open PliHir

mutual

def formatExprs : HFormatItem → List HExpr
  | .mk w d s count subs items => [w, d, s, count] ++ formatsExprs subs ++ formatsExprs items

def formatsExprs : List HFormatItem → List HExpr
  | [] => []
  | f :: rest => formatExprs f ++ formatsExprs rest

end

def formatSeen : HFormatItem → List HExpr
  | .mk w d s _ _ _ => [w, d, s]

def formatUnseen : HFormatItem → List HExpr
  | .mk _ _ _ count subs items => count :: (formatsExprs subs ++ formatsExprs items)

def declExprs (d : HDeclItem) : List HExpr :=
  d.dynBounds ++ d.dynLbBounds ++ d.dynMemberBounds ++ [d.dynLenBound, d.init, d.initCall]

def valueExprs (st : StmtNode) : List HExpr :=
  [st.value, st.cond, st.fromE, st.toE, st.byE, st.gotoTarget, st.skipCount, st.waitCount,
    st.priorityExpr, st.oncodeExpr] ++
  (if st.kind = .get then [] else st.items) ++ (if st.kind = .put then [] else [st.stringTarget]) ++
  st.args ++ st.formats.flatMap formatSeen ++ st.allocBase ++ st.allocArea ++
  (st.allocBounds.flatMap fun bb => bb.flatMap fun bnd => [bnd.lb, bnd.ub]) ++ st.allocCharLen ++
  st.freeBase ++ st.freeArea ++ st.decls.flatMap declExprs

def targetExprs (st : StmtNode) : List HExpr :=
  st.target :: st.extraTargets ++ (if st.kind = .get then st.items else []) ++
  (if st.kind = .put then [st.stringTarget] else []) ++ st.allocSet

def handleExprs (st : StmtNode) : List HExpr := st.taskRef :: st.eventRef :: st.waitEvents

def unseenExprs (st : StmtNode) : List HExpr :=
  [st.lineCount, st.openIdent, st.openLinesize, st.openPagesize, st.keyOpt, st.keyToOpt,
    st.keyFromOpt, st.replyTarget] ++
  st.formats.flatMap formatUnseen ++ st.decls.flatMap (·.definedIdxBounds)

def allExprs (st : StmtNode) : List HExpr :=
  valueExprs st ++ targetExprs st ++ handleExprs st ++ unseenExprs st

end PliStmtExprs
