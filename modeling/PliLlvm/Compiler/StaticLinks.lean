import Mathlib.Data.List.Dedup
import Mathlib.Logic.Relation

/- Static links (src/sema.cpp, src/irgen.cpp). A procedure is its place in the list of the
   program's procedures, its parent the enclosing procedure or package. An address is kept as
   what it stands for. A procedure's code is the symbols it addresses and the calls in it;
   an asynchronous CALL passes the arguments of an ordinary one, and any activation there has been
   may go on at any time, so that runs of several tasks are included. -/
namespace PliStaticLinks

inductive Symbol where
  | plain (id owner : Nat)
  | ofStatic (id owner : Nat)
  | controlled (id owner : Nat)
  | bareBased (id owner : Nat)
  | based (id owner : Nat) (base : Symbol)
  | defined (id owner : Nat) (base : Symbol)
  deriving DecidableEq

def Symbol.owner : Symbol → Nat
  | .plain _ owner | .ofStatic _ owner | .controlled _ owner | .bareBased _ owner
  | .based _ owner _ | .defined _ owner _ => owner

structure Param where
  sym : Symbol
  adjustable : Bool
  deriving DecidableEq

structure EntryPoint where
  params : List Param
  sret : Bool

/-- `noted` are the references `typeExpr` notes, `addressed` the symbols the code addresses;
    a call is a procedure and the number of its entry point, 0 for the primary one. -/
structure ProcInfo where
  parent : Option Nat
  isPackage : Bool
  noted : List Symbol
  addressed : List Symbol
  primary : EntryPoint
  entries : List EntryPoint
  calls : List (Nat × Nat)

def parentOf (procs : List ProcInfo) (p : Nat) : Option Nat := (procs[p]?).bind (·.parent)

structure Program where
  procs : List ProcInfo
  earlier : ∀ p r : Nat, parentOf procs p = some r → r < p
  packages : ∀ (p : Nat) (info : ProcInfo), procs[p]? = some info → info.isPackage = true →
    info.parent = none

namespace Program
variable (prog : Program)

def parent (p : Nat) : Option Nat := parentOf prog.procs p

def isPackage (p : Nat) : Bool := ((prog.procs[p]?).map (·.isPackage)).getD false

def noted (p : Nat) : List Symbol := ((prog.procs[p]?).map (·.noted)).getD []

def addressed (p : Nat) : List Symbol := ((prog.procs[p]?).map (·.addressed)).getD []

def calls (p : Nat) : List (Nat × Nat) := ((prog.procs[p]?).map (·.calls)).getD []

def ancestors (p : Nat) : List Nat :=
  p :: match _up : prog.parent p with
    | none => []
    | some r => ancestors r
termination_by p
decreasing_by exact prog.earlier p r _up

def isDescendantOf (p anc : Nat) : Bool := anc ∈ prog.ancestors p

end Program

def addEnv (env : List Symbol) (s : Symbol) : List Symbol := if s ∈ env then env else env ++ [s]

namespace Program
variable (prog : Program)

def noteStaticUse (p : Nat) (uses : List Symbol) (s : Symbol) : List Symbol :=
  let uses :=
    if s.owner ≠ p && prog.isDescendantOf p s.owner && !prog.isPackage s.owner then
      addEnv uses s
    else uses
  match s with
  | .based _ _ base | .defined _ _ base => noteStaticUse p uses base
  | _ => uses

def directUses (p : Nat) : List Symbol := (prog.noted p).foldl (prog.noteStaticUse p) []

def children (p : Nat) : List Nat :=
  (List.range prog.procs.length).filter fun q => prog.parent q == some p

variable {p : Nat}

theorem mem_children {q : Nat} (member : q ∈ prog.children p) :
    q < prog.procs.length ∧ prog.parent q = some p := by
  obtain ⟨inRange, isParent⟩ := List.mem_filter.mp member
  exact ⟨List.mem_range.mp inRange, by simpa using isParent⟩

def threadThrough (p : Nat) (env inner : List Symbol) : List Symbol :=
  inner.foldl (fun env s => if s.owner ≠ p then addEnv env s else env) env

def computeEnv (p : Nat) : List Symbol :=
  (prog.children p).attach.foldl (fun env q => threadThrough p env (computeEnv q.1))
    ((prog.directUses p).foldl addEnv [])
termination_by prog.procs.length - p
decreasing_by
  obtain ⟨q, member⟩ := q
  obtain ⟨bound, up⟩ := prog.mem_children member
  have := prog.earlier q p up
  show prog.procs.length - q < prog.procs.length - p
  omega

end Program

/-- What an address stands for: a place in an activation's frame, a global, the current
    generation of a CONTROLLED variable, what a pointer at an address points to. -/
inductive Addr where
  | null
  | frame (act : Nat) (s : Symbol)
  | global (s : Symbol)
  | generation (s : Symbol)
  | deref (pointer : Addr)
  | within (base : Addr) (s : Symbol)
  deriving DecidableEq

/-- An activation. `lexical` is the activation of the enclosing procedure it belongs to; the
    code has no such field. -/
structure Activation where
  proc : Nat
  lexical : Option Nat
  links : List Addr
  deriving DecidableEq

section Code
variable (prog : Program)

def linkOf (act : Activation) (s : Symbol) : Option Addr :=
  ((prog.computeEnv act.proc).zip act.links).lookup s

/-- The address code of the activation `a` uses. -/
def addressOf (act : Activation) (a : Nat) : Symbol → Option Addr
  | .based _ _ base => (addressOf act a base).map .deref
  | .defined id owner base => (addressOf act a base).map (.within · (.defined id owner base))
  | .controlled id owner => some (.generation (.controlled id owner))
  | .ofStatic id owner =>
      (linkOf prog act (.ofStatic id owner)).or (some (.global (.ofStatic id owner)))
  | .bareBased id owner => linkOf prog act (.bareBased id owner)
  | .plain id owner =>
      (linkOf prog act (.plain id owner)).or
        (if owner = act.proc then some (.frame a (.plain id owner)) else none)

/-- Whether the generator has an address for a symbol in the code of procedure `c`. -/
def addressable (c : Nat) : Symbol → Bool
  | .based _ _ base | .defined _ _ base => addressable c base
  | .controlled _ _ | .ofStatic _ _ => true
  | .bareBased id owner => .bareBased id owner ∈ prog.computeEnv c
  | .plain id owner => .plain id owner ∈ prog.computeEnv c || owner = c

def Symbol.isBare : Symbol → Bool
  | .bareBased _ _ => true
  | _ => false

/-- The code of a procedure is generated without a diagnostic: what it addresses has an address,
    and so has each link of a call, but for a BASED variable without a pointer. -/
def procOk (c : Nat) : Bool :=
  (prog.addressed c).all (addressable prog c) &&
    (prog.calls c).all fun call =>
      (prog.computeEnv call.1).all fun v =>
        (v.owner = c || v ∈ prog.computeEnv c) && (addressable prog c v || v.isBare)

def compiles : Bool :=
  (List.range prog.procs.length).all fun c => prog.isPackage c || procOk prog c

def appendStaticLinks (act : Activation) (a callee : Nat) : List Addr :=
  (prog.computeEnv callee).map fun v => (addressOf prog act a v).getD .null

end Code

/-- An argument: the hidden result pointer, an actual, a null for one left out, a hidden extent,
    an undefined value, a static link, the entry selector or the result buffer. -/
inductive Arg where
  | result | actual (i : Nat) | omitted | extent (p : Param) | undef
  | link (addr : Addr) | selector (n : Nat) | buffer

def EntryPoint.adjustables (e : EntryPoint) : List Param := e.params.filter (·.adjustable)

/-- The arguments of a call with `given` actuals. -/
def callArgs (e : EntryPoint) (given : Nat) (links : List Addr) : List Arg :=
  (if e.sret then [.result] else []) ++
    (List.range (min given e.params.length)).map .actual ++
    List.replicate (e.params.length - given) .omitted ++
    e.adjustables.map .extent ++ links.map .link

def firstLink (e : EntryPoint) : Nat :=
  (if e.sret then 1 else 0) + e.params.length + e.adjustables.length

def argLinks (args : List Arg) : List Addr :=
  args.map fun arg =>
    match arg with
    | .link addr => addr
    | _ => .null

/-- The links a function binds: `nLinks` arguments from the place `first` on. -/
def bindLinks (first nLinks : Nat) (args : List Arg) : List Addr :=
  argLinks ((args.drop first).take nLinks)

def ProcInfo.union (info : ProcInfo) : List Param :=
  (info.primary :: info.entries).foldl
    (fun uni e => e.params.foldl (fun uni s => if s ∈ uni then uni else uni ++ [s]) uni) []

def implArgs (info : ProcInfo) (mine : EntryPoint) (selector : Nat) (links : List Addr) :
    List Arg :=
  info.union.map (fun u => if u ∈ mine.params then .actual 0 else .undef) ++
    (info.union.filter (·.adjustable)).map
      (fun u => if u ∈ mine.params then .extent u else .undef) ++
    links.map .link ++ [.selector selector, .buffer]

def implFirstLink (info : ProcInfo) : Nat :=
  info.union.length + (info.union.filter (·.adjustable)).length

def ProcInfo.entryPoint (info : ProcInfo) (entry : Nat) : EntryPoint :=
  ((info.primary :: info.entries)[entry]?).getD info.primary

/-- The links the body of a procedure ends up with: a procedure with ENTRY statements has a thunk
    for each entry point in front of it. -/
def receivedLinks (info : ProcInfo) (entry given nLinks : Nat) (links : List Addr) :
    List Addr :=
  let mine := info.entryPoint entry
  let own := bindLinks (firstLink mine) nLinks (callArgs mine given links)
  if info.entries = [] then own
  else bindLinks (implFirstLink info) nLinks (implArgs info mine entry own)

variable {env : List Symbol} {s : Symbol}

theorem mem_addEnv {t : Symbol} : s ∈ addEnv env t ↔ s ∈ env ∨ s = t := by
  unfold addEnv
  split
  · rename_i member
    constructor
    · exact Or.inl
    · rintro (inside | rfl)
      · exact inside
      · exact member
  · simp

theorem mem_foldl_addEnv {l : List Symbol} : s ∈ l.foldl addEnv env ↔ s ∈ env ∨ s ∈ l := by
  induction l generalizing env with
  | nil => simp
  | cons t l ih => rw [List.foldl_cons, ih, mem_addEnv, List.mem_cons, or_assoc]

namespace Program
variable {prog : Program}

theorem mem_threadThrough {inner : List Symbol} :
    s ∈ threadThrough p env inner ↔ s ∈ env ∨ (s ∈ inner ∧ s.owner ≠ p) := by
  unfold threadThrough
  induction inner generalizing env with
  | nil => simp
  | cons t inner ih =>
    rw [List.foldl_cons, ih]
    by_cases above : t.owner ≠ p
    · rw [if_pos above, mem_addEnv, List.mem_cons]
      constructor
      · rintro ((old | rfl) | ⟨later, other⟩)
        · exact Or.inl old
        · exact Or.inr ⟨Or.inl rfl, above⟩
        · exact Or.inr ⟨Or.inr later, other⟩
      · rintro (old | ⟨rfl | later, other⟩)
        · exact Or.inl (Or.inl old)
        · exact Or.inl (Or.inr rfl)
        · exact Or.inr ⟨later, other⟩
    · rw [if_neg above, List.mem_cons]
      constructor
      · rintro (old | ⟨later, other⟩)
        · exact Or.inl old
        · exact Or.inr ⟨Or.inr later, other⟩
      · rintro (old | ⟨rfl | later, other⟩)
        · exact Or.inl old
        · exact absurd other above
        · exact Or.inr ⟨later, other⟩

theorem mem_foldl_thread {inner : Nat → List Symbol} {qs : List Nat} :
    s ∈ qs.foldl (fun env q => threadThrough p env (inner q)) env ↔
      s ∈ env ∨ ∃ q ∈ qs, s ∈ inner q ∧ s.owner ≠ p := by
  induction qs generalizing env with
  | nil => simp
  | cons q qs ih =>
    rw [List.foldl_cons, ih, mem_threadThrough, or_assoc]
    simp only [List.mem_cons, exists_eq_or_imp]

theorem mem_computeEnv : s ∈ prog.computeEnv p ↔
      s ∈ prog.directUses p ∨ ∃ q ∈ prog.children p, s ∈ prog.computeEnv q ∧ s.owner ≠ p := by
  rw [computeEnv]
  have plain := List.foldl_attach (l := prog.children p)
    (f := fun env q => threadThrough p env (prog.computeEnv q))
    (b := (prog.directUses p).foldl addEnv [])
  rw [plain, mem_foldl_thread, mem_foldl_addEnv]
  simp

theorem ancestors_eq (p : Nat) :
    prog.ancestors p = p :: ((prog.parent p).map prog.ancestors).getD [] := by
  rw [ancestors]
  split
  · rename_i up
    rw [up]
    rfl
  · rename_i r up
    rw [up]
    rfl

theorem self_ancestor (p : Nat) : p ∈ prog.ancestors p := by
  rw [ancestors_eq]
  exact List.mem_cons_self

theorem ancestors_parent {m : Nat} (up : prog.parent p = some m) :
    prog.ancestors p = p :: prog.ancestors m := by
  rw [ancestors_eq, up]
  rfl

theorem ancestors_top (top : prog.parent p = none) : prog.ancestors p = [p] := by
  rw [ancestors_eq, top]
  rfl

theorem ancestor_le {r : Nat} (above : r ∈ prog.ancestors p) : r ≤ p := by
  induction p using Nat.strongRecOn with
  | ind p ih =>
    cases up : prog.parent p with
    | none =>
      rw [ancestors_top up] at above
      exact Nat.le_of_eq (List.mem_singleton.mp above)
    | some m =>
      have smaller := prog.earlier p m up
      rw [ancestors_parent up] at above
      rcases List.mem_cons.mp above with rfl | higher
      · exact Nat.le_refl r
      · exact Nat.le_trans (ih m smaller higher) (Nat.le_of_lt smaller)

theorem ancestor_trans {m r : Nat} (first : m ∈ prog.ancestors p)
    (second : r ∈ prog.ancestors m) : r ∈ prog.ancestors p := by
  induction p using Nat.strongRecOn with
  | ind p ih =>
    cases up : prog.parent p with
    | none =>
      rw [ancestors_top up] at first
      rw [List.mem_singleton.mp first] at second
      exact second
    | some m' =>
      rw [ancestors_parent up] at first
      rcases List.mem_cons.mp first with rfl | higher
      · exact second
      · rw [ancestors_parent up]
        exact List.mem_cons_of_mem _ (ih m' (prog.earlier p m' up) higher)

end Program

end PliStaticLinks
