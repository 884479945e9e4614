import Mathlib.Data.Finset.Basic

/- The high-level IR (src/hir.h) and the symbols it refers to (src/sema.h). A node has
   every field of the source whatever its kind; a null pointer to a node is `null`. A
   procedure of the AST and a symbol are known by their numbers, an HProc by its place in
   the program. Source positions, literal texts and the fields of a type or a symbol that
   no function here reads are left out. -/
namespace PliHir

inductive TK where
  | fixedBin | fixedDec | float | char | bit | struct | pointer | entry | area | offset
  | complex | task | event | label | void
  deriving DecidableEq

structure Ty where
  k : TK := .fixedBin
  prec : Nat := 15
  scale : Int := 0
  wideDec : Bool := false
  isArray : Bool := false
  /-- The first axis is a '*' extent. -/
  adj : Bool := false
  starLen : Bool := false
  deriving DecidableEq

namespace Ty

def isStruct (t : Ty) : Bool := t.k = .struct
def isChar (t : Ty) : Bool := t.k = .char
def isFixed (t : Ty) : Bool := t.k = .fixedBin || t.k = .fixedDec

def intBits (t : Ty) : Nat :=
  match t.k with
  | .fixedBin => if t.prec ≤ 31 then 32 else 64
  | .fixedDec => if t.wideDec then 128 else if t.prec ≤ 9 then 32 else 64
  | _ => 32

end Ty

structure Proc where
  num : Nat
  isPackage : Bool := false
  deriving DecidableEq

inductive SymbolKind where
  | var | param | procName | generic
  deriving DecidableEq

structure Symbol where
  num : Nat
  kind : SymbolKind := .var
  ty : Ty := {}
  isStatic : Bool := false
  external : Bool := false
  controlled : Bool := false
  isEntry : Bool := false
  isEntryVar : Bool := false
  isOptional : Bool := false
  /-- The pointer a BASED variable is declared with, and the base of a DEFINED one. -/
  basedBase : Option Nat := none
  basedNoPtr : Bool := false
  definedBase : Option Nat := none
  /-- The procedure a ProcName names, and the one that declares a variable. -/
  proc : Option Proc := none
  owner : Option Proc := none
  /-- The parameters of the ENTRY statement a ProcName names, if it names one. -/
  entry : Option (List Nat) := none
  deriving DecidableEq

def Symbol.isBased (s : Symbol) : Bool := s.basedBase.isSome || s.basedNoPtr

inductive Tok where
  | eof | eq | plus | minus | star | slash | power | concat | amp | bar | not
  | lt | le | gt | ge | ne | ngt | nlt
  deriving DecidableEq

inductive ExprKind where
  | intLit | fltLit | decLit | charLit | bitLit | varRef | binary | unary | call
  | subscript | star | complexLit | convert | typeTag
  deriving DecidableEq

structure ExprNode where
  kind : ExprKind := .intLit
  ty : Ty := {}
  ival : Int := 0
  name : String := ""
  memberPath : List Nat := []
  sym : Option Symbol := none
  op : Tok := .eof

inductive HExpr where
  | null
  | mk (node : ExprNode) (locPtr a b : HExpr) (args : List HExpr)
  deriving Inhabited

structure HDeclItem where
  sym : Option Symbol := none
  dynBounds : List HExpr := []
  dynLbBounds : List HExpr := []
  dynMemberBounds : List HExpr := []
  dynLenBound : HExpr := .null
  definedIdxBounds : List HExpr := []
  init : HExpr := .null
  initCall : HExpr := .null

inductive HFormatItem where
  | mk (w d s count : HExpr) (subs items : List HFormatItem)

structure HAllocBound where
  lb : HExpr := .null
  ub : HExpr := .null

inductive StmtKind where
  | null | declare | assign | ifS | group | begin | doWhile | doIter | put | get | callS
  | returnS | stop | goto | entry | allocate | free | openS | close | leave | iterate | on
  | revert | signal | display | read | write | rewrite | delete | wait | delay | format
  deriving DecidableEq

structure StmtNode where
  kind : StmtKind := .null
  labels : List String := []
  decls : List HDeclItem := []
  target : HExpr := .null
  value : HExpr := .null
  cond : HExpr := .null
  fromE : HExpr := .null
  toE : HExpr := .null
  byE : HExpr := .null
  untilB : Bool := false
  forever : Bool := false
  extraTargets : List HExpr := []
  noSize : Bool := false
  noSub : Bool := false
  noZdiv : Bool := false
  noConv : Bool := false
  noOver : Bool := false
  noFOver : Bool := false
  chkSize : Bool := false
  chkSub : Bool := false
  chkZdiv : Bool := false
  chkConv : Bool := false
  chkOver : Bool := false
  chkFOver : Bool := false
  name : String := ""
  sym : Option Symbol := none
  skipCount : HExpr := .null
  lineCount : HExpr := .null
  items : List HExpr := []
  formats : List HFormatItem := []
  stringTarget : HExpr := .null
  gotoTarget : HExpr := .null
  fileSym : Option Symbol := none
  openIdent : HExpr := .null
  openLinesize : HExpr := .null
  openPagesize : HExpr := .null
  keyOpt : HExpr := .null
  keyToOpt : HExpr := .null
  keyFromOpt : HExpr := .null
  replyTarget : HExpr := .null
  args : List HExpr := []
  hasTaskOpt : Bool := false
  taskRef : HExpr := .null
  eventRef : HExpr := .null
  priorityExpr : HExpr := .null
  waitEvents : List HExpr := []
  waitCount : HExpr := .null
  condKey : Int := 0
  oncodeExpr : HExpr := .null
  allocBase : List HExpr := []
  allocSet : List HExpr := []
  allocArea : List HExpr := []
  allocBounds : List (List HAllocBound) := []
  allocCharLen : List HExpr := []
  freeBase : List HExpr := []
  freeArea : List HExpr := []

inductive HStmt where
  | null
  | mk (node : StmtNode) (thenS elseS unit : HStmt) (body : List HStmt)
  deriving Inhabited

structure HProc where
  isMain : Bool := false
  isExternal : Bool := false
  isPackage : Bool := false
  isFunction : Bool := false
  retTy : Ty := {}
  entryNames : List String := []
  body : List HStmt := []
  parent : Option Nat := none
  paramSyms : List Symbol := []
  src : Option Proc := none

structure HProgram where
  procs : List HProc

def intLit (n : Int) : HExpr := .mk { kind := .intLit, ival := n } .null .null .null []

def HExpr.isNull : HExpr → Bool
  | .null => true
  | .mk .. => false

def HProgram.bySrc (prog : HProgram) (src : Proc) : Option Nat :=
  (List.range prog.procs.length).reverse.find? fun i =>
    (prog.procs[i]?).any fun p => p.src = some src

theorem bySrc_valid {prog : HProgram} {src : Proc} {i : Nat} (h : prog.bySrc src = some i) :
    i < prog.procs.length := by
  have mem := List.mem_of_find?_eq_some h
  simpa using mem

end PliHir
