import PliLlvm.Lib.Naming
import PliLlvm.Lib.Decimal

/- The names of globals and functions in the LLVM module (src/sema.cpp, src/irgen.cpp). A name is
   its bytes, in upper case as the lexer leaves it. A declaration is a call of `declare` with what
   is set on its symbol afterwards; a procedure is its place in the list of the program's
   procedures. A FILE variable has a marker in place of a global. Calls of entries declared with
   ENTRY, which have no body here, are left out. -/
namespace PliSymbolNames
open Naming

abbrev Name := List UInt8

def text (s : String) : Name := s.toList.map fun c => c.toNat.toUInt8

def dollar : Name := text "$"

def idChar (c : UInt8) : Bool :=
  (65 ≤ c && c ≤ 90) || (48 ≤ c && c ≤ 57) || c = 95 || c = 36 || c = 35 || c = 64

inductive Kind where
  | param | var | procName
  deriving DecidableEq

inductive Storage where
  | plain | controlled | based | defined | file
  deriving DecidableEq

/-- `isStatic` is the argument; `parameter` a variable that turns out to be a parameter, `package`
    one that a package owns. -/
structure DeclCall where
  scope : Nat
  name : Name
  kind : Kind
  isStatic : Bool
  parameter : Bool
  package : Bool
  external : Bool
  extName : Name
  storage : Storage

structure Symbol where
  call : DeclCall
  irName : Name

def DeclCall.base (d : DeclCall) : Name :=
  match d.kind with
  | .param => text "%" ++ d.name ++ text ".ptr"
  | _ => if d.isStatic then text "@pli_g_" ++ d.name else text "%" ++ d.name ++ text ".addr"

def digits (n : Nat) : Name := (Decimal.image n).map fun k => 48 + k.toUInt8

def numbered (base : Name) : Nat → Name
  | 0 => base
  | d + 1 => base ++ dollar ++ digits (d + 1)

def DeclCall.linkName (d : DeclCall) : Name :=
  if d.extName = [] then text "pli_g_" ++ d.name else d.extName

def DeclCall.irNameFrom (d : DeclCall) (ir : Name) : Name :=
  if d.parameter then text "%" ++ d.name ++ text ".ptr"
  else if d.external then text "@" ++ d.linkName
  else ir

/-- The symbols of a list of calls of `declare`, with the names there are already. -/
def declareAll : List Name → List DeclCall → List Symbol
  | _, [] => []
  | irNames, d :: rest =>
      let ir := firstFree irNames (numbered d.base)
      ⟨d, d.irNameFrom ir⟩ :: declareAll (ir :: irNames) rest

def DeclCall.stored (d : DeclCall) : Bool :=
  d.kind = .var && !d.parameter && d.storage ≠ .file

def DeclCall.isStaticSym (d : DeclCall) : Bool :=
  d.external || (d.isStatic && d.storage ≠ .controlled)

def DeclCall.hasGlobal (d : DeclCall) : Bool := d.stored && d.isStaticSym

structure ProcInfo where
  name : Name
  parent : Option Nat
  isPackage : Bool
  isMain : Bool
  exports : List Name
  entryNames : List Name
  entries : List Name

inductive Callable where
  | proc (p : Nat)
  | entry (p k : Nat)
  deriving DecidableEq

def Callable.procedure : Callable → Nat
  | .proc p | .entry p _ => p

def infoAt (procs : List ProcInfo) (p : Nat) : ProcInfo :=
  procs[p]?.getD ⟨[], none, true, false, [], [], []⟩

def callablesOf (procs : List ProcInfo) : List Callable :=
  (List.range procs.length).flatMap fun p =>
    if (infoAt procs p).isPackage then []
    else .proc p :: (List.range (infoAt procs p).entries.length).map (.entry p)

/-- An established ON-unit: the key of its condition, and its number among the key's units. -/
structure OnHandler where
  condKey : Int
  id : Nat
  deriving DecidableEq

def OnHandler.name (h : OnHandler) : Name :=
  (match h.condKey with
    | 0 => text "PLI_ON_"
    | -1 => text "PLI_ON_SIZE_"
    | -2 => text "PLI_ON_SUBSCRIPT_"
    | -3 => text "PLI_ON_ZERODIVIDE_"
    | -4 => text "PLI_ON_CONVERSION_"
    | -5 => text "PLI_ON_STRINGRANGE_"
    | key => text "PLI_ONC_" ++ (if key < 0 then text "-" else []) ++ digits key.natAbs ++
        text "_") ++ digits h.id

/-- `references` are the declarations that are referred to, by their places in the list of
    symbols, and `calls` the procedures called. -/
structure CompUnit where
  procs : List ProcInfo
  decls : List DeclCall
  references : List Nat
  calls : List Callable
  handlers : List OnHandler
  identifiers : ∀ p ∈ procs, ∀ n ∈ p.name :: (p.entryNames ++ p.entries),
    n ≠ [] ∧ n.all idChar = true
  callees : ∀ c ∈ calls, c ∈ callablesOf procs

namespace CompUnit
variable (u : CompUnit)

def info (p : Nat) : ProcInfo := infoAt u.procs p

def parentOf (p : Nat) : Option ProcInfo := (u.info p).parent.bind (u.procs[·]?)

def procCalls : List DeclCall :=
  (List.range u.procs.length).flatMap fun p =>
    if (u.info p).isPackage then []
    else ((u.info p).name :: ((u.info p).entryNames ++ (u.info p).entries)).map fun n =>
      ⟨((u.info p).parent.map (· + 1)).getD 0, n, .procName, false, false, false, false, [],
        .plain⟩

def symbols : List Symbol := declareAll [] (u.procCalls ++ u.decls)

def accepted : Bool := decide (((u.procCalls ++ u.decls).map fun d => (d.scope, d.name)).Nodup)

def isExternal (p : Nat) : Bool :=
  match u.parentOf p with
  | none => !(u.info p).isMain
  | some package =>
      package.isPackage && (u.info p).name ∈ package.exports && !(u.info p).isMain

def parentPart (p : Nat) : Name :=
  match u.parentOf p with
  | none => []
  | some parent => parent.name ++ dollar

def irName (p : Nat) : Name :=
  if u.isExternal p then text "@" ++ (u.info p).name
  else text "@PLI_" ++ u.parentPart p ++ (u.info p).name

def entryIrName (proc parent entry : Name) : Name :=
  text "@PLI_" ++ (if parent = [] then [] else parent ++ dollar) ++ proc ++ text "$entry$" ++ entry

def aliasName (p : Nat) (en : Name) : Name := text "PLI_" ++ u.parentPart p ++ en

def functionName : Callable → Name
  | .proc p => (u.irName p).drop 1
  | .entry p k =>
      (entryIrName (u.info p).name (((u.parentOf p).map (·.name)).getD [])
        ((u.info p).entries[k]?.getD [])).drop 1

def implName (p : Nat) : Name := (u.irName p).drop 1 ++ text ".impl"

end CompUnit

/-- What has a name in the module: the global of a declaration, the function of an ON-unit, that of
    a procedure (a thunk when it has ENTRY statements), the shared implementation, the thunk of an
    ENTRY statement, an alias. -/
inductive Entity where
  | global (i : Nat)
  | handler (h : OnHandler)
  | fn (p : Nat)
  | impl (p : Nat)
  | entryFn (p k : Nat)
  | alias (p : Nat) (en : Name)
  deriving DecidableEq

namespace CompUnit
variable (u : CompUnit)

def emitGlobals : List (Name × Entity) :=
  (u.symbols.zipIdx.filter fun s => s.1.call.hasGlobal).map fun s =>
    (s.1.irName.drop 1, .global s.2)

def declareOnHandlers : List (Name × Entity) := u.handlers.map fun h => (h.name, .handler h)

def declareProc (p : Nat) : List (Name × Entity) :=
  if (u.info p).isPackage then []
  else
    let aliases := (u.info p).entryNames.map fun en => (u.aliasName p en, .alias p en)
    if (u.info p).entries = [] then (u.functionName (.proc p), .fn p) :: aliases
    else (u.implName p, .impl p) :: (u.functionName (.proc p), .fn p) :: (aliases ++
      (List.range (u.info p).entries.length).map fun k =>
        (u.functionName (.entry p k), .entryFn p k))

def declareProcs (ps : List Nat) : List (Name × Entity) := ps.flatMap u.declareProc

def asked : List (Name × Entity) :=
  u.emitGlobals ++ (u.declareOnHandlers ++ u.declareProcs (List.range u.procs.length))

end CompUnit

section Module
variable (rename : List Name → Name → Name) (u : CompUnit)

def lookupModule (n : Name) : Option Entity := valueOf (table rename u.asked) n

def symAddr (i : Nat) : Option Nat :=
  match u.symbols[i]? with
  | none => none
  | some s =>
      if s.call.hasGlobal then
        match lookupModule rename u (s.irName.drop 1) with
        | some (.global j) => some j
        | _ => none
      else none

def getFunction (n : Name) : Option Entity :=
  match lookupModule rename u n with
  | some (.handler h) => some (.handler h)
  | some (.fn p) => some (.fn p)
  | some (.impl p) => some (.impl p)
  | some (.entryFn p k) => some (.entryFn p k)
  | _ => none

def procsWith (thunks : Bool) : List Nat :=
  (List.range u.procs.length).filter fun q =>
    !(u.info q).isPackage && decide ((u.info q).entries ≠ []) == thunks

/-- The procedure whose body a function begins with: a body is put where its procedure's name is
    found. -/
def plainBody (p : Nat) : Option Nat :=
  (procsWith u false).find? fun q =>
    getFunction rename u (u.functionName (.proc q)) = some (.fn p)

def implBody (p : Nat) : Option Nat :=
  (procsWith u true).find? fun q => getFunction rename u (u.implName q) = some (.impl p)

/-- A handler is its ON-unit's, whatever body is put there too. -/
def runs : Entity → Option Callable
  | .fn p =>
      if (u.info p).entries = [] then (plainBody rename u p).map .proc
      else (implBody rename u p).map .proc
  | .entryFn p k => (implBody rename u p).map (.entry · k)
  | _ => none

def reaches (c : Callable) : Option Callable :=
  (getFunction rename u (u.functionName c)).bind (runs rename u)

def SameExternal (i j : Nat) : Prop :=
  ∃ s t, u.symbols[i]? = some s ∧ u.symbols[j]? = some t ∧ s.call.stored = true ∧
    t.call.stored = true ∧ s.call.external = true ∧ t.call.external = true ∧
    s.call.linkName = t.call.linkName

def DeclCall.isFile (d : DeclCall) : Bool :=
  d.kind = .var && !d.parameter && d.storage = .file

/-- The marker of a FILE is found by its symbol, not by its name. -/
def fileMarker (i : Nat) : Option Nat :=
  if u.symbols[i]?.any fun s => s.call.isFile then some i else none

def SameFile (i j : Nat) : Prop :=
  ∃ s t, u.symbols[i]? = some s ∧ u.symbols[j]? = some t ∧ s.call.isFile = true ∧
    t.call.isFile = true ∧ s.call.external = true ∧ t.call.external = true ∧
    s.call.linkName = t.call.linkName

def DeclCall.needsGlobal (d : DeclCall) : Bool :=
  d.stored && (d.isStaticSym || (d.package && d.storage = .plain))

def FunctionsApart : Prop :=
  ∀ c ∈ callablesOf u.procs, ∀ d ∈ callablesOf u.procs, c ≠ d →
    u.functionName c ≠ u.functionName d

structure OwnSymbols : Prop where
  globals : ∀ i j, i ≠ j →
    ((∃ g, symAddr rename u i = some g ∧ symAddr rename u j = some g) ↔ SameExternal u i j)
  files : ∀ i j, i ≠ j →
    ((∃ g, fileMarker u i = some g ∧ fileMarker u j = some g) ↔ SameFile u i j)
  references : ∀ i ∈ u.references, ∀ s, u.symbols[i]? = some s → s.call.needsGlobal = true →
    ∃ g, symAddr rename u i = some g ∧ (g = i ∨ SameExternal u g i)
  functions : FunctionsApart u
  calls : ∀ c ∈ u.calls, reaches rename u c = some c

structure Uniques : Prop where
  suffix : ∀ taken n, n ∈ taken →
    ∃ number : Name, number.all (fun c => 48 ≤ c && c ≤ 57) = true ∧
      rename taken n = n ++ text "." ++ number

end Module

end PliSymbolNames
