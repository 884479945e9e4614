import Mathlib.Data.List.Pairwise
import Mathlib.Data.List.Nodup

/- The keys of CONTROLLED generation stacks (src/sema.cpp). A program is a list of compilation
   units, each with its external procedures and packages; a statement is kept as far as names are
   declared by it. A name is its bytes, in upper case as the lexer leaves it. -/
namespace PliCtlKeys

abbrev Name := List UInt8

structure DeclItem where
  name : Name
  controlled : Bool
  external : Bool
  extName : Name

inductive Stmt where
  | declare (item : DeclItem)
  | begin (body : List Stmt)
  | group (body : List Stmt)
  | procedure (name : Name) (body : List Stmt)

structure Proc where
  name : Name
  isPackage : Bool
  body : List Stmt

abbrev CompUnit := List Proc

/-- A CONTROLLED declaration in the procedure `proc`, whose enclosing procedure or package is
    `parent`. -/
structure CtlDecl where
  parent : Option Name
  proc : Name
  item : DeclItem

mutual

def collectDecls (parent : Option Name) (proc : Name) : Stmt → List CtlDecl
  | .declare item => if item.controlled then [⟨parent, proc, item⟩] else []
  | .begin body | .group body => collectBody parent proc body
  | .procedure name body => collectBody (some proc) name body

def collectBody (parent : Option Name) (proc : Name) : List Stmt → List CtlDecl
  | [] => []
  | s :: rest => collectDecls parent proc s ++ collectBody parent proc rest

end

def ctlDecls (units : List CompUnit) : List CtlDecl :=
  units.flatMap fun unit => unit.flatMap fun p => collectBody none p.name p.body

def fnv1a (s : Name) : UInt32 :=
  s.foldl (fun h c => (h ^^^ c.toUInt32) * 16777619) 2166136261

def dollar : UInt8 := 36

def CtlDecl.qname (d : CtlDecl) : Name :=
  (match d.parent with
    | some parent => parent ++ [dollar]
    | none => []) ++ d.proc ++ [dollar] ++ d.item.name

def CtlDecl.ctlSlot (d : CtlDecl) : Nat := (fnv1a d.qname &&& 0x7FFFFFFF).toNat

mutual

def declared : Stmt → List Name
  | .declare item => [item.name]
  | .begin _ => []
  | .group body => declaredIn body
  | .procedure name _ => [name]

def declaredIn : List Stmt → List Name
  | [] => []
  | s :: rest => declared s ++ declaredIn rest

end

mutual

def scopesOk : Stmt → Bool
  | .declare _ => true
  | .begin body => decide (declaredIn body).Nodup && scopesOkIn body
  | .group body => scopesOkIn body
  | .procedure _ body => decide (declaredIn body).Nodup && scopesOkIn body

def scopesOkIn : List Stmt → Bool
  | [] => true
  | s :: rest => scopesOk s && scopesOkIn rest

end

def rootNames (unit : CompUnit) : List Name :=
  unit.flatMap fun p =>
    if p.isPackage then p.body.flatMap fun s =>
      match s with
      | .declare item => [item.name]
      | _ => []
    else [p.name]

/-- `declare` refuses nothing in the unit. -/
def accepted (unit : CompUnit) : Bool :=
  decide (rootNames unit).Nodup &&
    unit.all fun p => (p.isPackage || decide (declaredIn p.body).Nodup) && scopesOkIn p.body

def DeclItem.externalName (item : DeclItem) : Name :=
  if item.extName = [] then item.name else item.extName

def SameExternal (d e : CtlDecl) : Prop :=
  d.item.external = true ∧ e.item.external = true ∧
    d.item.externalName = e.item.externalName

instance (d e : CtlDecl) : Decidable (SameExternal d e) := by
  unfold SameExternal
  infer_instance

def OwnStacks (units : List CompUnit) : Prop :=
  (ctlDecls units).Pairwise fun d e => d.ctlSlot = e.ctlSlot ↔ SameExternal d e

def KeysInjective (units : List CompUnit) : Prop :=
  ∀ d ∈ ctlDecls units, ∀ e ∈ ctlDecls units, d.ctlSlot = e.ctlSlot → d.qname = e.qname

def CtlDecl.names (d : CtlDecl) : List Name := d.parent.toList ++ [d.proc, d.item.name]

/-- The names as the key shows them: a dollar sign in a name cannot be told from one between
    two names. -/
def CtlDecl.spelling (d : CtlDecl) : List Name := d.names.flatMap (List.splitOn dollar)

theorem qname_split (d : CtlDecl) : d.qname.splitOn dollar = d.spelling := by
  obtain ⟨parent, proc, item⟩ := d
  cases parent with
  | none =>
    simp only [CtlDecl.qname, CtlDecl.spelling, CtlDecl.names, Option.toList_none, List.nil_append,
      List.append_assoc, List.singleton_append, List.splitOn_append_cons_self, List.flatMap_cons,
      List.flatMap_nil, List.append_nil]
  | some parent =>
    simp only [CtlDecl.qname, CtlDecl.spelling, CtlDecl.names, Option.toList_some,
      List.append_assoc, List.cons_append, List.nil_append, List.splitOn_append_cons_self,
      List.flatMap_cons, List.flatMap_nil, List.append_nil]

theorem qname_eq_iff (d e : CtlDecl) : d.qname = e.qname ↔ d.spelling = e.spelling := by
  constructor
  · intro same
    rw [← qname_split, ← qname_split, same]
  · intro same
    rw [← qname_split, ← qname_split] at same
    have joined := congrArg (List.intercalate [dollar]) same
    rwa [List.intercalate_splitOn, List.intercalate_splitOn] at joined

/-- Names that keep the stacks apart: different variables have different spellings, and the
    declarations of an EXTERNAL variable have one. -/
structure ToldApart (units : List CompUnit) : Prop where
  different : (ctlDecls units).Pairwise fun d e => ¬ SameExternal d e → d.spelling ≠ e.spelling
  together : (ctlDecls units).Pairwise fun d e => SameExternal d e → d.spelling = e.spelling

theorem own_stacks_iff (units : List CompUnit) (injective : KeysInjective units) :
    OwnStacks units ↔ ToldApart units := by
  have slots : ∀ d ∈ ctlDecls units, ∀ e ∈ ctlDecls units,
      (d.ctlSlot = e.ctlSlot ↔ d.spelling = e.spelling) := by
    intro d first e second
    rw [← qname_eq_iff]
    constructor
    · exact injective d first e second
    · intro same
      simp only [CtlDecl.ctlSlot, same]
  constructor
  · intro own
    refine ⟨own.imp_of_mem ?_, own.imp_of_mem ?_⟩
    · intro d e first second right different same
      exact different (right.mp ((slots d first e second).mpr same))
    · intro d e first second right external
      exact (slots d first e second).mp (right.mpr external)
  · intro apart
    refine (apart.different.and apart.together).imp_of_mem ?_
    intro d e first second ⟨different, together⟩
    rw [slots d first e second]
    constructor
    · intro same
      by_contra other
      exact different other same
    · exact together

/-- `DECLARE X CONTROLLED;` -/
def controlledX : Stmt :=
  .declare { name := [88], controlled := true, external := false, extName := [] }

def twoBlocks : CompUnit :=
  [{ name := [80], isPackage := false, body := [.begin [controlledX], .begin [controlledX]] }]

def twoProcedures : CompUnit :=
  [{ name := [80], isPackage := false, body := [controlledX] },
    { name := [81], isPackage := false, body := [controlledX] }]

theorem own_stacks_two_procedures :
    KeysInjective [twoProcedures] ∧ OwnStacks [twoProcedures] := by
  have injective : KeysInjective [twoProcedures] := by
    unfold KeysInjective
    decide +kernel
  exact ⟨injective,
    (own_stacks_iff [twoProcedures] injective).mpr ⟨by decide +kernel, by decide +kernel⟩⟩

theorem blocks_share_stack :
    accepted twoBlocks = true ∧ KeysInjective [twoBlocks] ∧ ¬ OwnStacks [twoBlocks] := by
  refine ⟨by decide +kernel, ?_, ?_⟩
  · unfold KeysInjective
    decide +kernel
  · unfold OwnStacks
    decide +kernel

end PliCtlKeys
