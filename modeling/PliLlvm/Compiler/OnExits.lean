import PliLlvm.Hir.Touches
import PliLlvm.Runtime.OnStack

/- The code emitted for blocks and for the ways out of them (src/irgen.cpp), as far as it
   touches the ON stack. A run performs actions: those of the statements of the innermost
   active block, calls, and units that a raised condition enters; which of the statements
   come next is left open. `units` records beside each active block the keys of the units
   it has established and not reverted; the emitted code does not read it. Nothing clears
   onEscapeCode. An escape that finds its raiser in another unit has no code to go to. -/
namespace PliOnExits
open PliHir PliOnStack Runs Blocks
open PliEffects (children)

mutual

def hasOnAtLevel : HStmt → Bool
  | .null => false
  | .mk st thenS elseS unit body =>
    if st.kind = .begin then false
    else if st.kind = .on || st.kind = .revert then true
    else hasOnAtLevel thenS || hasOnAtLevel elseS || hasOnAtLevel unit || anyOnAtLevel body

def anyOnAtLevel : List HStmt → Bool
  | [] => false
  | s :: rest => hasOnAtLevel s || anyOnAtLevel rest

end

def procEstablishesOn (p : HProc) : Bool := anyOnAtLevel p.body

mutual

def hasGotoStmt : HStmt → Bool
  | .null => false
  | .mk st thenS elseS unit body =>
    st.kind = .goto || hasGotoStmt thenS || hasGotoStmt elseS || hasGotoStmt unit ||
      anyGotoStmt body

def anyGotoStmt : List HStmt → Bool
  | [] => false
  | s :: rest => hasGotoStmt s || anyGotoStmt rest

end

mutual

def hasHandlerGotoStmt : HStmt → Bool
  | .null => false
  | .mk st thenS elseS unit body =>
    (st.kind = .on && hasGotoStmt unit) || hasHandlerGotoStmt thenS ||
      hasHandlerGotoStmt elseS || hasHandlerGotoStmt unit || anyHandlerGotoStmt body

def anyHandlerGotoStmt : List HStmt → Bool
  | [] => false
  | s :: rest => hasHandlerGotoStmt s || anyHandlerGotoStmt rest

end

def pollsEscape (p : HProc) : Bool := p.isFunction || anyHandlerGotoStmt p.body

structure Scope where
  id : Nat
  body : List HStmt
  entryDepth : Option Int
  units : List Int := []

inductive Level where
  | scope (s : Scope)
  | loop (labels : List String)

/-- An activation of a procedure, or of an ON-unit in its procedure's text. A unit's
    raiser is the activation below it, and `polls` says that the raising site tests the
    escape code when the unit returns to it. -/
structure Activation where
  proc : HProc
  unit : Option HStmt
  polls : Bool := false
  curOnDepth : Option Int := none
  curOnUnitDepth : Option Int := none
  units : List Int := []
  path : List Level := []
  /-- It evaluates the value of its RETURN. -/
  returning : Bool := false

structure Machine where
  on : OnState
  acts : List Activation

/-- onEscapeCode: 0, 1 and 2. -/
inductive Escape where
  | none
  | ret
  | goto
  deriving DecidableEq

structure Module extends Machine where
  onEscapeCode : Escape := .none

def scopesOf : List Level → List Scope
  | [] => []
  | .scope s :: path => s :: scopesOf path
  | .loop _ :: path => scopesOf path

def Activation.onScopes (a : Activation) : List Scope := (scopesOf a.path).reverse

def Activation.text (a : Activation) : List HStmt :=
  match scopesOf a.path with
  | s :: _ => s.body
  | [] =>
    match a.unit with
    | some unit => [unit]
    | none => a.proc.body

def onBaseDepth (a : Activation) (on : OnState) : Int :=
  match a.curOnUnitDepth with
  | some d => d
  | none =>
    match (a.onScopes.getLast?).bind (·.entryDepth) with
    | some d => d
    | none =>
      match a.curOnDepth with
      | some d => d
      | none => pliOnDepthError on

/-- The depth to restore for a label in the blocks `target`, the outermost first. -/
def onExitDepth (onScopes : List Scope) (target : List Nat) : Option Int :=
  if onScopes.length ≤ target.length then none
  else if (onScopes.take target.length).map (·.id) = target then
    (onScopes[target.length]?).bind (·.entryDepth)
  else none

def leavePath (name : String) : List Level → Option (List Level)
  | [] => none
  | .scope _ :: path => leavePath name path
  | .loop labels :: path => if name = "" || labels.contains name then some path
    else leavePath name path

def iteratePath (name : String) : List Level → Option (List Level)
  | [] => none
  | .scope _ :: path => iteratePath name path
  | .loop labels :: path => if name = "" || labels.contains name then some (.loop labels :: path)
    else iteratePath name path

/-- Where a label is: the blocks around it, and the path to it as what stays of the
    present path with the groups that are entered. -/
structure Label where
  chain : List Nat
  left : Nat
  groups : List (List String) := []

def labelPath (path : List Level) (label : Label) : Option (List Level) :=
  if (scopesOf (path.drop label.left)).reverse.map (·.id) = label.chain then
    some (label.groups.map Level.loop ++ path.drop label.left)
  else none

inductive Action where
  | call (p : HProc)
  /-- A condition is raised and its unit entered. -/
  | raise (p : HProc) (unit : HStmt) (polls : Bool)
  | enterBegin (id : Nat) (body : List HStmt)
  | exitBegin
  | enterLoop (labels : List String)
  | exitLoop
  | on (key id : Int) (fn ctx : Option Nat)
  | revert (key : Int)
  /-- The end of the procedure or of the unit. -/
  | exit
  | ret (value : Bool)
  /-- The value of a RETURN is evaluated and returned. -/
  | returned
  | leave (name : String)
  | iterate (name : String)
  | goto (label : Label)
  /-- A GO TO whose operand is a label variable. -/
  | gotoVar (label : Label)

/-- `stale` is the raiser's label of the index that the last escape GO TO has left. -/
structure Event where
  action : Action
  granted : Bool := true
  stale : Label := ⟨[], 0, []⟩

def startProc (on : OnState) (p : HProc) : Activation :=
  { proc := p
    unit := none
    curOnDepth := if procEstablishesOn p then some (pliOnDepthError on) else none }

def startUnit (on : OnState) (p : HProc) (unit : HStmt) (polls : Bool) : Activation :=
  { proc := p, unit := some unit, polls := polls, curOnUnitDepth := some (pliOnDepthError on) }

def startScope (on : OnState) (id : Nat) (body : List HStmt) : Scope :=
  { id := id
    body := body
    entryDepth := if anyOnAtLevel body then some (pliOnDepthError on) else none }

def changeScope (change : List Int → List Int) : List Level → Option (List Level)
  | [] => none
  | .scope s :: path => some (.scope { s with units := change s.units } :: path)
  | .loop labels :: path => (changeScope change path).map (Level.loop labels :: ·)

def Activation.change (change : List Int → List Int) (a : Activation) : Activation :=
  match changeScope change a.path with
  | some path => { a with path := path }
  | none => { a with units := change a.units }

def establishKey (key : Int) (units : List Int) : List Int := units.erase key ++ [key]

section Steps
variable (junk : OnFrame) (granted : Bool)

def resetTo (on : OnState) : Option Int → OnState
  | some d => pliOnResetError junk granted on d
  | none => on

/-- The raising site behind a unit's return: where it tests the code, an escape is taken by the
    raiser whichever unit it is from. -/
def unitReturns (on : OnState) (polls : Bool) (escape : Escape) (label : Label) :
    List Activation → Option Machine
  | [] => none
  | raiser :: rest =>
    if polls = false ∨ escape = .none then some ⟨on, raiser :: rest⟩
    else if raiser.unit.isSome then none
    else if escape = .ret then
      if raiser.proc.isFunction then some ⟨resetTo junk granted on raiser.curOnDepth, rest⟩
      else none
    else if anyHandlerGotoStmt raiser.proc.body then
      (labelPath raiser.path label).map fun path =>
        ⟨on, { raiser with path := path, returning := false } :: rest⟩
    else none

/-- The code that is left by the action: a unit's RETURN with a value and its GO TO store it. -/
def escapeAfter (a : Activation) (escape : Escape) : Action → Escape
  | .ret value => if a.unit.isSome && value then .ret else escape
  | .goto _ => if a.unit.isSome then .goto else escape
  | _ => escape

/-- What the code of a statement, or of a block's end, does in the activation `a`. -/
def emitted (on : OnState) (escape : Escape) (stale : Label) (a : Activation)
    (rest : List Activation) : Action → Option Machine
  | .enterBegin id body =>
    some ⟨on, { a with path := .scope (startScope on id body) :: a.path } :: rest⟩
  | .exitBegin =>
    match a.path with
    | .scope s :: path =>
      some ⟨resetTo junk granted on s.entryDepth, { a with path := path } :: rest⟩
    | _ => none
  | .enterLoop labels => some ⟨on, { a with path := .loop labels :: a.path } :: rest⟩
  | .exitLoop =>
    match a.path with
    | .loop _ :: path => some ⟨on, { a with path := path } :: rest⟩
    | _ => none
  | .on key id fn ctx =>
    (pliOnEstablish junk granted on key id fn ctx (onBaseDepth a on)).map fun on =>
      ⟨on, a.change (establishKey key) :: rest⟩
  | .revert key =>
    some ⟨pliOnRevert junk granted on key (onBaseDepth a on),
      a.change (fun units => units.erase key) :: rest⟩
  | .exit =>
    match a.path with
    | [] =>
      match a.unit with
      | none => some ⟨resetTo junk granted on a.curOnDepth, rest⟩
      | some _ => unitReturns junk granted (resetTo junk granted on a.curOnUnitDepth) a.polls escape
          stale rest
    | _ :: _ => none
  | .ret value =>
    match a.unit with
    | some _ => unitReturns junk granted on a.polls (if value then .ret else escape) stale rest
    | none =>
      let on := resetTo junk granted on a.curOnDepth
      if value then some ⟨on, { a with returning := true } :: rest⟩ else some ⟨on, rest⟩
  | .leave name => (leavePath name a.path).map fun path => ⟨on, { a with path := path } :: rest⟩
  | .iterate name =>
    (iteratePath name a.path).map fun path => ⟨on, { a with path := path } :: rest⟩
  | .goto label =>
    match a.unit with
    | some _ => unitReturns junk granted on a.polls .goto label rest
    | none => (labelPath a.path label).map fun path =>
        ⟨resetTo junk granted on (onExitDepth a.onScopes label.chain),
          { a with path := path } :: rest⟩
  | .gotoVar label =>
    match a.unit with
    | some _ => none
    | none => (labelPath a.path label).map fun path => ⟨on, { a with path := path } :: rest⟩
  | .call _ | .raise _ _ _ | .returned => none

/-- A call and a raised condition can come anywhere in an activation, the value of its
    RETURN included; nothing else happens there but the return itself. -/
def step (m : Module) (e : Event) : Option Module :=
  match e.action, m.acts with
  | .call p, acts => some { m with acts := startProc m.on p :: acts }
  | .raise p unit polls, a :: rest =>
    some { m with acts := startUnit m.on p unit polls :: a :: rest }
  | .returned, a :: rest => if a.returning then some { m with acts := rest } else none
  | action, a :: rest =>
    if a.returning then none
    else (emitted junk e.granted m.on m.onEscapeCode e.stale a rest action).map fun after =>
      ⟨after, escapeAfter a m.onEscapeCode action⟩
  | _, [] => none

end Steps

/- What the ON stack should hold: the units of the active blocks, the outermost first. -/

def scopeUnits : List Scope → List Int
  | [] => []
  | s :: outer => scopeUnits outer ++ s.units

def Activation.allUnits (a : Activation) : List Int := a.units ++ scopeUnits (scopesOf a.path)

def activeUnits : List Activation → List Int
  | [] => []
  | a :: rest => activeUnits rest ++ a.allUnits

def DepthRight (m : Machine) : Prop := pliOnDepthError m.on = (activeUnits m.acts).length

instance (m : Machine) : Decidable (DepthRight m) := inferInstanceAs (Decidable (_ = _))

def Activation.innerUnits (a : Activation) : List Int :=
  match scopesOf a.path with
  | s :: _ => s.units
  | [] => a.units

def Activation.coveredUnits (a : Activation) : List Int :=
  match scopesOf a.path with
  | _ :: outer => a.units ++ scopeUnits outer
  | [] => []

def LeavesNone (path : List Level) (dest : Option (List Level)) : Prop :=
  ∀ path', dest = some path' → scopeUnits (scopesOf path) = scopeUnits (scopesOf path')

/-- For a unit's return: `own` are the units of its activation that are in force behind it. -/
def ReturnMeets (polls : Bool) (escape : Escape) (label : Label) (own : List Int) :
    List Activation → Prop
  | [] => True
  | raiser :: _ =>
    if polls = false ∨ escape = .none then own = []
    else if escape = .ret then raiser.curOnDepth = none → raiser.allUnits ++ own = []
    else own = [] ∧ LeavesNone raiser.path (labelPath raiser.path label)

def MeetsAt (escape : Escape) (stale : Label) (a : Activation) (rest : List Activation) :
    Action → Prop
  | .on key _ _ _ | .revert key =>
    a.unit.isSome → key ∈ a.innerUnits ∨ key ∉ a.coveredUnits
  | .exit => a.unit.isSome → ReturnMeets a.polls escape stale [] rest
  | .ret value =>
    match a.unit, value with
    | none, false => a.curOnDepth = none → a.allUnits = []
    | none, true => a.curOnDepth ≠ none → a.allUnits = []
    | some _, value =>
      ReturnMeets a.polls (if value then .ret else escape) stale a.allUnits rest
  | .leave name => LeavesNone a.path (leavePath name a.path)
  | .iterate name => LeavesNone a.path (iteratePath name a.path)
  | .goto label =>
    match a.unit with
    | none =>
      onExitDepth a.onScopes label.chain = none → LeavesNone a.path (labelPath a.path label)
    | some _ => ReturnMeets a.polls .goto label a.allUnits rest
  | .gotoVar label => LeavesNone a.path (labelPath a.path label)
  | _ => True

def Meets (m : Module) (e : Event) : Prop :=
  match e.action, m.acts with
  | .returned, a :: _ => a.allUnits = []
  | action, a :: rest => MeetsAt m.onEscapeCode e.stale a rest action
  | _, [] => True

inductive AtLevel (s : HStmt) : HStmt → Prop where
  | here : AtLevel s s
  | inner {node thenS elseS unit body next} : node.kind ≠ .begin → node.kind ≠ .on →
      next ∈ children (.mk node thenS elseS unit body) → AtLevel s next →
      AtLevel s (.mk node thenS elseS unit body)

def InText (a : Activation) (kind : StmtKind) (ok : StmtNode → Prop) (body : List HStmt) : Prop :=
  ∃ t ∈ a.text, ∃ node thenS elseS unit,
    AtLevel (.mk node thenS elseS unit body) t ∧ node.kind = kind ∧ ok node

/-- The text has the statement that performs the action. LEAVE and ITERATE are rejected
    in a unit. -/
def Possible (m : Module) (e : Event) : Prop :=
  match e.action, m.acts with
  | .raise _ _ polls, a :: _ => polls = true → a.unit = none → pollsEscape a.proc = true
  | .enterBegin _ body, a :: _ => InText a .begin (fun _ => True) body
  | .enterLoop labels, a :: _ =>
    ∃ body, InText a .doWhile (·.labels = labels) body ∨ InText a .doIter (·.labels = labels) body
  | .on _ _ _ _, a :: _ => ∃ body, InText a .on (fun _ => True) body
  | .revert _, a :: _ => ∃ body, InText a .revert (fun _ => True) body
  | .ret value, a :: _ => ∃ body, InText a .returnS (fun node => node.value.isNull = !value) body
  | .leave name, a :: _ => a.unit = none ∧ ∃ body, InText a .leave (·.name = name) body
  | .iterate name, a :: _ => a.unit = none ∧ ∃ body, InText a .iterate (·.name = name) body
  | .goto _, a :: _ => ∃ body, InText a .goto (fun node => node.gotoTarget.isNull = true) body
  | .gotoVar _, a :: _ => ∃ body, InText a .goto (fun node => node.gotoTarget.isNull = false) body
  | _, _ => True

section Keys

def keys (on : OnState) : List Int := on.live.map (·.key)

theorem depth_keys (on : OnState) : pliOnDepthError on = (keys on).length := by
  simp [pliOnDepthError, keys, live_length]

theorem keys_cut {on : OnState} {below above : List Int} (split : keys on = below ++ above) :
    below.length ≤ on.onSp ∧ (on.live.take below.length).map (·.key) = below ∧
      (on.live.drop below.length).map (·.key) = above := by
  have size : (keys on).length = on.onSp := by simp [keys, live_length]
  refine ⟨?_, ?_, ?_⟩
  · rw [← size, split]
    simp
  · rw [List.map_take, show on.live.map (·.key) = below ++ above from split, List.take_left]
  · rw [List.map_drop, show on.live.map (·.key) = below ++ above from split, List.drop_left]

theorem reset_keys (junk : OnFrame) (granted : Bool) {on : OnState} {below above : List Int}
    (split : keys on = below ++ above) :
    keys (resetTo junk granted on (some (below.length : Int))) = below := by
  obtain ⟨inside, low, -⟩ := keys_cut split
  unfold keys resetTo
  rw [reset_live junk granted on inside, low]

theorem dropTopmost_keys (key : Int) (frames : List OnFrame) :
    (dropTopmost (hasKey key) frames).map (·.key) =
      dropTopmost (· == key) (frames.map (·.key)) := by
  unfold dropTopmost
  have reversed : (frames.map (·.key)).reverse = frames.reverse.map (·.key) :=
    List.map_reverse.symm
  rw [List.map_reverse, reversed, List.eraseP_map]
  rfl

variable {key : Int}

theorem establish_keys {junk : OnFrame} {granted : Bool} {on on' : OnState} {id : Int}
    {fn ctx : Option Nat} {below above : List Int} (split : keys on = below ++ above)
    (call : pliOnEstablish junk granted on key id fn ctx below.length = some on') :
    keys on' = below ++ dropTopmost (· == key) above ++ [key] := by
  obtain ⟨-, low, high⟩ := keys_cut split
  unfold keys
  rw [establish_live call, List.map_append, List.map_append, low, dropTopmost_keys, high]
  rfl

theorem revert_keys (junk : OnFrame) (granted : Bool) {on : OnState} (key : Int)
    {below above : List Int} (split : keys on = below ++ above) :
    keys (pliOnRevert junk granted on key below.length) =
      below ++ dropTopmost (· == key) above := by
  obtain ⟨inside, low, high⟩ := keys_cut split
  unfold keys
  rw [revert_live junk granted on key inside, List.map_append, low, dropTopmost_keys, high]

theorem drop_absent {units : List Int} (absent : key ∉ units) :
    dropTopmost (· == key) units = units := by
  apply dropTopmost_absent
  intro x member
  have ne : x ≠ key := fun same => absent (same ▸ member)
  simpa using ne

theorem drop_inner {key : Int} {covered inner : List Int} (distinct : inner.Nodup)
    (meets : key ∈ inner ∨ key ∉ covered) :
    dropTopmost (· == key) (covered ++ inner) = covered ++ inner.erase key := by
  by_cases held : key ∈ inner
  · obtain ⟨pre, post, rfl⟩ := List.append_of_mem held
    have clear := List.nodup_append.mp distinct
    have later : key ∉ post := (List.nodup_cons.mp clear.2.1).1
    have earlier : key ∉ pre := fun member => clear.2.2 key member key (by simp) rfl
    rw [← List.append_assoc, dropTopmost_split (by simp), List.erase_append_right _ earlier,
      List.erase_cons_head, List.append_assoc]
    intro y member
    have ne : y ≠ key := fun same => later (same ▸ member)
    simpa using ne
  · have free : key ∉ covered := meets.resolve_left held
    rw [drop_absent (by simp [held, free]), List.erase_of_not_mem held]

theorem drop_covered {covered inner : List Int} (held : key ∈ covered) :
    (dropTopmost (· == key) (covered ++ inner)).length + 1 = (covered ++ inner).length := by
  have member : key ∈ (covered ++ inner).reverse := by simp [held]
  unfold dropTopmost
  rw [List.length_reverse, List.length_eraseP_of_mem member (by simp), List.length_reverse]
  have positive := List.length_pos_of_mem member
  rw [List.length_reverse] at positive
  omega

end Keys

section Invariant

/-- The depths the scopes saved, over the units below them. A scope without a saved depth
    has no ON or REVERT at its level. -/
def ScopesOk (below : Nat) : List Scope → Prop
  | [] => True
  | s :: outer => ScopesOk below outer ∧ s.units.Nodup ∧
    (∀ d, s.entryDepth = some d → d = (below + (scopeUnits outer).length : Nat)) ∧
    (s.entryDepth = none → anyOnAtLevel s.body = false ∧ s.units = [])

structure ActOk (below : Nat) (a : Activation) : Prop where
  scopes : ScopesOk (below + a.units.length) (scopesOf a.path)
  distinct : a.units.Nodup
  saved : ∀ d, a.curOnDepth = some d → d = (below : Int) ∧ a.unit = none
  proc : a.unit = none → a.curOnUnitDepth = none ∧
    (a.curOnDepth = none → procEstablishesOn a.proc = false ∧ a.units = [])
  unit : a.unit.isSome → a.curOnUnitDepth = some (below : Int)

def ActsOk : List Activation → Prop
  | [] => True
  | a :: rest => ActOk (activeUnits rest).length a ∧ ActsOk rest

/-- The ON stack holds the active blocks' units, and every depth saved is the depth of
    the units below. -/
structure Agrees (m : Machine) : Prop where
  holds : keys m.on = activeUnits m.acts
  acts : ActsOk m.acts

theorem agrees_right {m : Machine} (agrees : Agrees m) : DepthRight m := by
  unfold DepthRight
  rw [depth_keys, agrees.holds]

structure Left (acts acts' : List Activation) (gone : List Int) : Prop where
  split : activeUnits acts = activeUnits acts' ++ gone
  acts : ActsOk acts'

theorem leave_plain {on : OnState} {acts acts' : List Activation} {gone : List Int}
    (holds : keys on = activeUnits acts) (left : Left acts acts' gone) :
    (gone = [] → Agrees ⟨on, acts'⟩) ∧ (DepthRight ⟨on, acts'⟩ → gone = []) := by
  constructor
  · intro none
    refine ⟨?_, left.acts⟩
    rw [holds, left.split, none, List.append_nil]
  · intro right
    unfold DepthRight at right
    dsimp only at right
    rw [depth_keys, holds, left.split, List.length_append] at right
    apply List.eq_nil_of_length_eq_zero
    omega

theorem leave_reset (junk : OnFrame) (granted : Bool) {on : OnState}
    {acts acts' : List Activation} {gone : List Int} (holds : keys on = activeUnits acts)
    (left : Left acts acts' gone) :
    Agrees ⟨resetTo junk granted on (some ((activeUnits acts').length : Int)), acts'⟩ := by
  refine ⟨?_, left.acts⟩
  rw [left.split] at holds
  exact reset_keys junk granted holds

theorem scopeUnits_append (exited kept : List Scope) :
    scopeUnits (exited ++ kept) = scopeUnits kept ++ scopeUnits exited := by
  induction exited with
  | nil => simp [scopeUnits]
  | cons s exited ih => simp [scopeUnits, ih]

variable {exited : List Scope}

theorem scopesOk_kept {below : Nat} {kept : List Scope}
    (ok : ScopesOk below (exited ++ kept)) : ScopesOk below kept := by
  induction exited with
  | nil => exact ok
  | cons s exited ih => exact ih ok.1

variable {path path' : List Level}

theorem leavePath_kept {name : String}
    (found : leavePath name path = some path') : ∃ exited, scopesOf path =
      exited ++ scopesOf path' := by
  induction path with
  | nil => cases found
  | cons level path ih =>
    cases level with
    | scope s =>
      obtain ⟨exited, split⟩ := ih found
      exact ⟨s :: exited, by simp [scopesOf, split]⟩
    | loop labels =>
      unfold leavePath at found
      split at found
      · cases found
        exact ⟨[], rfl⟩
      · exact ih found

theorem iteratePath_kept {name : String} (found : iteratePath name path = some path') :
    ∃ exited, scopesOf path = exited ++ scopesOf path' := by
  induction path with
  | nil => cases found
  | cons level path ih =>
    cases level with
    | scope s =>
      obtain ⟨exited, split⟩ := ih found
      exact ⟨s :: exited, by simp [scopesOf, split]⟩
    | loop labels =>
      unfold iteratePath at found
      split at found
      · cases found
        exact ⟨[], rfl⟩
      · exact ih found

theorem scopesOf_groups (groups : List (List String)) (path : List Level) :
    scopesOf (groups.map Level.loop ++ path) = scopesOf path := by
  induction groups with
  | nil => rfl
  | cons labels groups ih => exact ih

theorem scopesOf_drop (path : List Level) (left : Nat) :
    ∃ exited, scopesOf path = exited ++ scopesOf (path.drop left) := by
  induction path generalizing left with
  | nil => exact ⟨[], by simp [scopesOf]⟩
  | cons level path ih =>
    cases left with
    | zero => exact ⟨[], rfl⟩
    | succ left =>
      obtain ⟨exited, split⟩ := ih left
      cases level with
      | scope s => exact ⟨s :: exited, by simp [scopesOf, split]⟩
      | loop labels => exact ⟨exited, by simp [scopesOf, split]⟩

theorem labelPath_kept {label : Label} (found : labelPath path label = some path') :
    (scopesOf path').reverse.map (·.id) = label.chain ∧
      ∃ exited, scopesOf path = exited ++ scopesOf path' := by
  unfold labelPath at found
  obtain ⟨chain, ⟨⟩⟩ := Option.ite_none_right_eq_some.mp found
  rw [scopesOf_groups]
  exact ⟨chain, scopesOf_drop path label.left⟩

theorem leavesNone_iff {dest : Option (List Level)} (found : dest = some path')
    (split : scopesOf path = exited ++ scopesOf path') :
    LeavesNone path dest ↔ scopeUnits exited = [] := by
  have same : LeavesNone path dest ↔ scopeUnits (scopesOf path) = scopeUnits (scopesOf path') := by
    rw [found]
    exact ⟨fun leaves => leaves path' rfl, fun same _ other => by cases other; exact same⟩
  rw [same, split, scopeUnits_append, List.append_right_eq_self]

variable {a : Activation} {rest : List Activation}

theorem left_jump (r : Bool) (path : List Level) (exited : List Scope) (ok : ActsOk (a :: rest))
    (split : scopesOf a.path = exited ++ scopesOf path) :
    Left (a :: rest) ({ a with path := path, returning := r } :: rest) (scopeUnits exited) := by
  obtain ⟨own, others⟩ := ok
  constructor
  · simp [activeUnits, Activation.allUnits, split, scopeUnits_append]
  · refine ⟨⟨?_, own.distinct, own.saved, own.proc, own.unit⟩, others⟩
    have scopes := own.scopes
    rw [split] at scopes
    exact scopesOk_kept scopes

theorem left_pop (ok : ActsOk (a :: rest)) : Left (a :: rest) rest a.allUnits :=
  ⟨rfl, ok.2⟩

theorem left_trans {acts mid acts' : List Activation} {own gone : List Int}
    (first : Left acts mid own) (outer : Left mid acts' gone) : Left acts acts' (gone ++ own) := by
  constructor
  · rw [first.split, outer.split, List.append_assoc]
  · exact outer.acts

theorem onExitDepth_right {chain : List Nat} {d : Int} (ok : ActsOk (a :: rest))
    (split : scopesOf a.path = exited ++ scopesOf path)
    (held : (scopesOf path).reverse.map (·.id) = chain)
    (found : onExitDepth a.onScopes chain = some d) :
    d = ((activeUnits ({ a with path := path } :: rest)).length : Int) := by
  have size : chain.length = (scopesOf path).reverse.length := by simp [← held]
  unfold onExitDepth Activation.onScopes at found
  rw [split, List.reverse_append] at found
  split at found
  · cases found
  · split at found
    · rw [size, List.getElem?_append_right (Nat.le_refl _), Nat.sub_self] at found
      obtain ⟨s, here, saved⟩ := Option.bind_eq_some_iff.mp found
      obtain ⟨front, rfl⟩ : ∃ front, exited = front ++ [s] := by
        rw [← List.head?_eq_getElem?, List.head?_reverse] at here
        exact ⟨exited.dropLast, (List.dropLast_append_getLast? s here).symm⟩
      have scopes := ok.1.scopes
      rw [split, List.append_assoc] at scopes
      have depth := (scopesOk_kept scopes).2.2.1 d saved
      rw [depth]
      simp [activeUnits, Activation.allUnits]
      omega
    · cases found

end Invariant

section Units

variable {body : List HStmt}

theorem anyOnAtLevel_of_mem {t : HStmt} (member : t ∈ body)
    (has : hasOnAtLevel t = true) : anyOnAtLevel body = true := by
  induction body with
  | nil => cases member
  | cons first rest ih =>
    rw [anyOnAtLevel, Bool.or_eq_true]
    rcases List.mem_cons.mp member with rfl | later
    · exact Or.inl has
    · exact Or.inr (ih later)

theorem atLevel_has {node : StmtNode} {thenS elseS unit t : HStmt}
    (level : AtLevel (.mk node thenS elseS unit body) t)
    (kind : node.kind = .on ∨ node.kind = .revert) : hasOnAtLevel t = true := by
  induction level with
  | here =>
    rw [hasOnAtLevel]
    rcases kind with on | revert
    · simp [on]
    · simp [revert]
  | @inner outer thenS' elseS' unit' body' next begin' on child _ ih =>
    have inside : next = thenS' ∨ next = elseS' ∨ next ∈ body' := by
      unfold children at child
      cases held : outer.kind <;> simp only [held, List.not_mem_nil] at child
      case ifS =>
        simp only [List.mem_cons, List.not_mem_nil, or_false] at child
        exact child.imp_right Or.inl
      case on => exact absurd held on
      all_goals exact Or.inr (Or.inr child)
    rw [hasOnAtLevel, if_neg begin']
    split
    · rfl
    · simp only [Bool.or_eq_true]
      rcases inside with rfl | rfl | among
      · exact Or.inl (Or.inl (Or.inl ih))
      · exact Or.inl (Or.inl (Or.inr ih))
      · exact Or.inr (anyOnAtLevel_of_mem among ih)

variable {a : Activation}

theorem inText_has {kind : StmtKind} {ok : StmtNode → Prop}
    (inside : InText a kind ok body) (on : kind = .on ∨ kind = .revert) :
    anyOnAtLevel a.text = true := by
  obtain ⟨t, member, node, thenS, elseS, unit, level, same, -⟩ := inside
  rw [← same] at on
  exact anyOnAtLevel_of_mem member (atLevel_has level on)

theorem allUnits_split (a : Activation) : a.allUnits = a.coveredUnits ++ a.innerUnits := by
  unfold Activation.allUnits Activation.coveredUnits Activation.innerUnits
  cases scopesOf a.path with
  | nil | cons s outer => simp [scopeUnits]

theorem changeScope_scopes (change : List Int → List Int) (path : List Level) :
    match scopesOf path with
    | [] => changeScope change path = none
    | s :: outer => ∃ path', changeScope change path = some path' ∧
        scopesOf path' = { s with units := change s.units } :: outer := by
  induction path with
  | nil => rfl
  | cons level path ih =>
    cases level with
    | scope s => exact ⟨_, rfl, rfl⟩
    | loop labels =>
      rw [scopesOf]
      cases scopes : scopesOf path with
      | nil =>
        rw [scopes] at ih
        dsimp only at ih ⊢
        rw [changeScope, ih]
        rfl
      | cons s outer =>
        rw [scopes] at ih
        obtain ⟨path', changed, after⟩ := ih
        exact ⟨.loop labels :: path', by rw [changeScope, changed]; rfl, by rw [scopesOf, after]⟩

theorem change_units (change : List Int → List Int) (a : Activation) :
    (a.change change).allUnits = a.coveredUnits ++ change a.innerUnits := by
  have after := changeScope_scopes change a.path
  unfold Activation.change Activation.allUnits Activation.coveredUnits Activation.innerUnits
  cases scopes : scopesOf a.path with
  | nil =>
    rw [scopes] at after
    dsimp only at after
    rw [after]
    simp [scopes, scopeUnits]
  | cons s outer =>
    rw [scopes] at after
    obtain ⟨path', changed, scopes'⟩ := after
    rw [changed]
    simp [scopes', scopeUnits]

variable {below : Nat}

theorem change_ok {change : List Int → List Int}
    (ok : ActOk below a) (flagged : anyOnAtLevel a.text = true)
    (distinct : ∀ units : List Int, units.Nodup → (change units).Nodup) :
    ActOk below (a.change change) := by
  have after := changeScope_scopes change a.path
  unfold Activation.change
  cases scopes : scopesOf a.path with
  | nil =>
    rw [scopes] at after
    dsimp only at after
    rw [after]
    refine ⟨?_, distinct _ ok.distinct, ok.saved, ?_, ok.unit⟩
    · rw [scopes]
      trivial
    · intro proc
      refine ⟨(ok.proc proc).1, ?_⟩
      intro unsaved
      have bare := ((ok.proc proc).2 unsaved).1
      have text : a.text = a.proc.body :=
        by simp [Activation.text, scopes, show a.unit = none from proc]
      rw [text, show anyOnAtLevel a.proc.body = false from bare] at flagged
      cases flagged
  | cons s outer =>
    rw [scopes] at after
    obtain ⟨path', changed, scopes'⟩ := after
    rw [changed]
    have old := ok.scopes
    rw [scopes] at old
    obtain ⟨others, own, saved, unsaved⟩ := old
    refine ⟨?_, ok.distinct, ok.saved, ok.proc, ok.unit⟩
    rw [scopes']
    refine ⟨others, distinct _ own, saved, ?_⟩
    intro none
    have text : a.text = s.body := by simp [Activation.text, scopes]
    rw [text, (unsaved none).1] at flagged
    cases flagged

theorem inner_distinct (ok : ActOk below a) : a.innerUnits.Nodup := by
  unfold Activation.innerUnits
  cases scopes : scopesOf a.path with
  | nil => exact ok.distinct
  | cons s outer =>
    have old := ok.scopes
    rw [scopes] at old
    exact old.2.1

theorem base_depth (ok : ActOk below a) (on : OnState) (flagged : anyOnAtLevel a.text = true) :
    onBaseDepth a on =
      if a.unit.isSome then (below : Int) else ((below + a.coveredUnits.length : Nat) : Int) := by
  cases unit : a.unit with
  | some u =>
    have saved := ok.unit (by simp [unit])
    simp [onBaseDepth, saved]
  | none =>
    obtain ⟨notUnit, proc⟩ := ok.proc unit
    have old := ok.scopes
    unfold onBaseDepth Activation.onScopes Activation.coveredUnits
    rw [notUnit, List.getLast?_reverse]
    cases scopes : scopesOf a.path with
    | nil =>
      have text : a.text = a.proc.body := by simp [Activation.text, scopes, unit]
      cases saved : a.curOnDepth with
      | none =>
        rw [text, show anyOnAtLevel a.proc.body = false from (proc saved).1] at flagged
        cases flagged
      | some d => simp [(ok.saved d saved).1]
    | cons s outer =>
      rw [scopes] at old
      obtain ⟨-, -, saved, unsaved⟩ := old
      have text : a.text = s.body := by simp [Activation.text, scopes]
      cases entry : s.entryDepth with
      | none =>
        rw [text, (unsaved entry).1] at flagged
        cases flagged
      | some d =>
        have depth := saved d entry
        simp [entry, depth]
        omega

variable {on : OnState} {rest : List Activation} {escape : Escape} {stale : Label}

theorem searched
    (agrees : Agrees ⟨on, a :: rest⟩) (flagged : anyOnAtLevel a.text = true) (key : Int) :
    ∃ below above, keys on = below ++ above ∧ onBaseDepth a on = (below.length : Int) ∧
      ((a.unit.isSome → key ∈ a.innerUnits ∨ key ∉ a.coveredUnits) →
        below ++ dropTopmost (· == key) above =
          activeUnits rest ++ (a.coveredUnits ++ a.innerUnits.erase key)) ∧
      (¬ (a.unit.isSome → key ∈ a.innerUnits ∨ key ∉ a.coveredUnits) →
        (dropTopmost (· == key) above).length + 1 = above.length ∧ key ∉ a.innerUnits) := by
  have ok : ActOk (activeUnits rest).length a := agrees.acts.1
  have holds : keys on = activeUnits rest ++ (a.coveredUnits ++ a.innerUnits) := by
    rw [agrees.holds, activeUnits, allUnits_split]
  have base := base_depth ok on flagged
  have distinct := inner_distinct ok
  cases unit : a.unit with
  | some u =>
    rw [unit] at base
    refine ⟨activeUnits rest, a.coveredUnits ++ a.innerUnits, holds, base, ?_, ?_⟩
    · intro meets
      rw [drop_inner distinct (meets rfl)]
    · intro fails
      have both : key ∉ a.innerUnits ∧ key ∈ a.coveredUnits := by
        by_contra other
        apply fails
        intro _
        by_cases held : key ∈ a.innerUnits
        · exact Or.inl held
        · exact Or.inr fun covered => other ⟨held, covered⟩
      exact ⟨drop_covered both.2, both.1⟩
  | none =>
    rw [unit] at base
    refine ⟨activeUnits rest ++ a.coveredUnits, a.innerUnits, by rw [holds, List.append_assoc],
      ?_, ?_, ?_⟩
    · rw [base, List.length_append]
      rfl
    · intro _
      have own := @drop_inner key [] a.innerUnits distinct (Or.inr (by simp))
      rw [List.nil_append, List.nil_append] at own
      rw [own, List.append_assoc]
    · intro fails
      exact absurd (fun isUnit => by cases isUnit) fails

theorem changed_acts {change : List Int → List Int} (ok : ActsOk (a :: rest))
    (flagged : anyOnAtLevel a.text = true)
    (distinct : ∀ units : List Int, units.Nodup → (change units).Nodup) :
    ActsOk (a.change change :: rest) :=
  ⟨change_ok ok.1 flagged distinct, ok.2⟩

theorem establish_nodup (key : Int) (units : List Int) (distinct : units.Nodup) :
    (establishKey key units).Nodup := by
  unfold establishKey
  rw [List.nodup_append]
  refine ⟨distinct.erase key, by simp, ?_⟩
  intro k member last here same
  simp only [List.mem_singleton] at here
  rw [same, here] at member
  exact distinct.not_mem_erase member

theorem on_spec {junk : OnFrame} {granted : Bool} {key id : Int} {fn ctx : Option Nat} {m : Machine}
    (agrees : Agrees ⟨on, a :: rest⟩) (flagged : anyOnAtLevel a.text = true)
    (h : emitted junk granted on escape stale a rest (.on key id fn ctx) = some m) :
    (MeetsAt escape stale a rest (.on key id fn ctx) → Agrees m) ∧
      (DepthRight m → MeetsAt escape stale a rest (.on key id fn ctx)) := by
  obtain ⟨below, above, split, base, meets, fails⟩ := searched agrees flagged key
  simp only [emitted, base, Option.map_eq_some_iff] at h
  obtain ⟨on', call, rfl⟩ := h
  have after := establish_keys split call
  constructor
  · intro condition
    refine ⟨?_, changed_acts agrees.acts flagged (establish_nodup key)⟩
    dsimp only
    rw [after, meets condition, activeUnits, change_units, establishKey]
    simp
  · intro right
    by_contra condition
    obtain ⟨shorter, absent⟩ := fails condition
    have total := congrArg List.length agrees.holds
    unfold DepthRight at right
    dsimp only at right total
    rw [depth_keys, after, activeUnits, change_units, establishKey,
      List.erase_of_not_mem absent] at right
    rw [split, activeUnits, allUnits_split] at total
    simp only [List.length_append, List.length_singleton] at right total
    omega

theorem revert_spec {junk : OnFrame} {granted : Bool} {key : Int} {m : Machine}
    (agrees : Agrees ⟨on, a :: rest⟩) (flagged : anyOnAtLevel a.text = true)
    (h : emitted junk granted on escape stale a rest (.revert key) = some m) :
    (MeetsAt escape stale a rest (.revert key) → Agrees m) ∧
      (DepthRight m → MeetsAt escape stale a rest (.revert key)) := by
  obtain ⟨below, above, split, base, meets, fails⟩ := searched agrees flagged key
  simp only [emitted, base, Option.some.injEq] at h
  subst h
  have after := revert_keys junk granted key split
  constructor
  · intro condition
    refine ⟨?_, changed_acts agrees.acts flagged (fun units => List.Nodup.erase key)⟩
    dsimp only
    rw [after, meets condition, activeUnits, change_units]
  · intro right
    by_contra condition
    obtain ⟨shorter, absent⟩ := fails condition
    have total := congrArg List.length agrees.holds
    unfold DepthRight at right
    dsimp only at right total
    rw [depth_keys, after, activeUnits, change_units, List.erase_of_not_mem absent] at right
    rw [split, activeUnits, allUnits_split] at total
    simp only [List.length_append] at right total
    omega

end Units

section Exits
variable {junk : OnFrame} {granted : Bool} {on : OnState} {a : Activation}
  {rest : List Activation} {m : Machine} {escape : Escape} {stale : Label}

theorem jump_spec {path : List Level} {dest : Option (List Level)} (r : Bool)
    (agrees : Agrees ⟨on, a :: rest⟩) (found : dest = some path)
    (kept : ∃ exited, scopesOf a.path = exited ++ scopesOf path) :
    (LeavesNone a.path dest → Agrees ⟨on, { a with path := path, returning := r } :: rest⟩) ∧
      (DepthRight ⟨on, { a with path := path, returning := r } :: rest⟩ →
        LeavesNone a.path dest) := by
  obtain ⟨exited, split⟩ := kept
  rw [leavesNone_iff found split]
  exact leave_plain agrees.holds (left_jump r _ _ agrees.acts split)

theorem enterBegin_spec {id : Nat} {body : List HStmt} (agrees : Agrees ⟨on, a :: rest⟩) :
    Agrees ⟨on, { a with path := .scope (startScope on id body) :: a.path } :: rest⟩ := by
  obtain ⟨own, others⟩ := agrees.acts
  constructor
  · rw [agrees.holds]
    simp [activeUnits, Activation.allUnits, scopesOf, scopeUnits, startScope]
  · refine ⟨⟨⟨own.scopes, List.nodup_nil, ?_, ?_⟩, own.distinct, own.saved, own.proc, own.unit⟩,
      others⟩
    · intro d saved
      simp only [startScope] at saved
      split at saved
      · cases saved
        rw [depth_keys, agrees.holds]
        simp [activeUnits, Activation.allUnits]
        omega
      · cases saved
    · intro unsaved
      simp only [startScope] at unsaved
      split at unsaved
      · cases unsaved
      · rename_i bare
        exact ⟨Bool.eq_false_iff.mpr bare, rfl⟩

theorem exitBegin_spec (agrees : Agrees ⟨on, a :: rest⟩)
    (h : emitted junk granted on escape stale a rest .exitBegin = some m) : Agrees m := by
  simp only [emitted] at h
  split at h
  · rename_i s path place
    cases h
    have split : scopesOf a.path = [s] ++ scopesOf path := by rw [place]; rfl
    have left := left_jump a.returning _ _ agrees.acts split
    have scopes := agrees.acts.1.scopes
    rw [split] at scopes
    obtain ⟨-, -, saved, unsaved⟩ := scopes
    cases entry : s.entryDepth with
    | none =>
      apply (leave_plain agrees.holds left).1
      simp [scopeUnits, (unsaved entry).2]
    | some d =>
      have depth : d = ((activeUnits ({ a with path := path } :: rest)).length : Int) := by
        rw [saved d entry]
        simp [activeUnits, Activation.allUnits]
        omega
      rw [depth]
      exact leave_reset junk granted agrees.holds left
  · cases h

theorem reset_pop {gone : List Int} {raiser : Activation} {acts acts' : List Activation}
    (holds : keys on = activeUnits acts) (left : Left acts acts' gone)
    (own : ActOk (activeUnits acts').length raiser) :
    ((raiser.curOnDepth = none → gone = []) →
        Agrees ⟨resetTo junk granted on raiser.curOnDepth, acts'⟩) ∧
      (DepthRight ⟨resetTo junk granted on raiser.curOnDepth, acts'⟩ →
        raiser.curOnDepth = none → gone = []) := by
  cases saved : raiser.curOnDepth with
  | none =>
    obtain ⟨right, wrong⟩ := leave_plain holds left
    exact ⟨fun none => right (none rfl), fun depth _ => wrong depth⟩
  | some d =>
    rw [(own.saved d saved).1]
    exact ⟨fun _ => leave_reset junk granted holds left, fun _ unsaved => by cases unsaved⟩

theorem unitReturns_spec {acts : List Activation} {polls : Bool} {code : Escape} {label : Label}
    {own : List Int} (holds : keys on = activeUnits acts) (left : Left acts rest own)
    (h : unitReturns junk granted on polls code label rest = some m) :
    (ReturnMeets polls code label own rest → Agrees m) ∧
      (DepthRight m → ReturnMeets polls code label own rest) := by
  cases rest with
  | nil => cases h
  | cons raiser outer =>
    have others := left.acts
    simp only [unitReturns] at h
    simp only [ReturnMeets]
    split at h
    · rename_i resumes
      cases h
      rw [if_pos resumes]
      exact leave_plain holds left
    · rename_i escapes
      rw [if_neg escapes]
      split at h
      · cases h
      · split at h
        · rename_i returns
          rw [if_pos returns]
          split at h
          · cases h
            exact reset_pop holds (left_trans left (left_pop others)) others.1
          · cases h
        · rename_i jumps
          rw [if_neg jumps]
          split at h
          · obtain ⟨path, found, rfl⟩ := Option.map_eq_some_iff.mp h
            obtain ⟨-, exited, split⟩ := labelPath_kept found
            rw [leavesNone_iff found split]
            obtain ⟨right, wrong⟩ := leave_plain holds
              (left_trans left (left_jump false _ _ others split))
            rw [List.append_eq_nil_iff] at right wrong
            exact ⟨fun both => right ⟨both.2, both.1⟩,
              fun depth => ⟨(wrong depth).2, (wrong depth).1⟩⟩
          · cases h

theorem exit_spec (agrees : Agrees ⟨on, a :: rest⟩)
    (h : emitted junk granted on escape stale a rest .exit = some m) :
    (MeetsAt escape stale a rest .exit → Agrees m) ∧
      (DepthRight m → MeetsAt escape stale a rest .exit) := by
  have left := left_pop agrees.acts
  obtain ⟨own, others⟩ := agrees.acts
  simp only [emitted] at h
  simp only [MeetsAt]
  split at h
  · rename_i place
    split at h
    · rename_i proc
      cases h
      refine ⟨fun _ => ?_, fun _ isUnit => by rw [proc] at isUnit; cases isUnit⟩
      cases saved : a.curOnDepth with
      | none =>
        apply (leave_plain agrees.holds left).1
        simp [Activation.allUnits, place, scopesOf, scopeUnits, ((own.proc proc).2 saved).2]
      | some d =>
        rw [(own.saved d saved).1]
        exact leave_reset junk granted agrees.holds left
    · rename_i u unit
      have isUnit : a.unit.isSome := by simp [unit]
      rw [own.unit isUnit] at h
      have reset : keys (resetTo junk granted on (some ((activeUnits rest).length : Int))) =
          activeUnits rest :=
        reset_keys junk granted (agrees.holds.trans left.split)
      obtain ⟨right, wrong⟩ := unitReturns_spec reset ⟨(List.append_nil _).symm, others⟩ h
      exact ⟨fun meets => right (meets isUnit), fun depth _ => wrong depth⟩
  · cases h

theorem emitted_return_proc (proc : a.unit = none) (value : Bool) :
    emitted junk granted on escape stale a rest (.ret value) =
      if value then
        some ⟨resetTo junk granted on a.curOnDepth, { a with returning := true } :: rest⟩
      else some ⟨resetTo junk granted on a.curOnDepth, rest⟩ := by
  simp only [emitted, proc]

theorem emitted_goto_proc (proc : a.unit = none) (label : Label) :
    emitted junk granted on escape stale a rest (.goto label) =
      (labelPath a.path label).map fun path =>
        ⟨resetTo junk granted on (onExitDepth a.onScopes label.chain),
          { a with path := path } :: rest⟩ := by
  simp only [emitted, proc]

theorem returnValue_spec (agrees : Agrees ⟨on, a :: rest⟩) :
    ((a.curOnDepth ≠ none → a.allUnits = []) →
        Agrees ⟨resetTo junk granted on a.curOnDepth, { a with returning := true } :: rest⟩) ∧
      (DepthRight ⟨resetTo junk granted on a.curOnDepth, { a with returning := true } :: rest⟩ →
        a.curOnDepth ≠ none → a.allUnits = []) := by
  have pop := left_pop agrees.acts
  obtain ⟨own, others⟩ := agrees.acts
  have acts : ActsOk ({ a with returning := true } :: rest) :=
    ⟨⟨own.scopes, own.distinct, own.saved, own.proc, own.unit⟩, others⟩
  have units : (Activation.allUnits { a with returning := true }) = a.allUnits := rfl
  by_cases saved : a.curOnDepth = none
  · have same : resetTo junk granted on a.curOnDepth = on := by
      rw [saved]
      rfl
    rw [same]
    exact ⟨fun _ => ⟨agrees.holds, acts⟩, fun _ differs => absurd saved differs⟩
  · obtain ⟨d, held⟩ := Option.ne_none_iff_exists'.mp saved
    have after : keys (resetTo junk granted on a.curOnDepth) = activeUnits rest := by
      rw [held, (own.saved d held).1]
      exact reset_keys junk granted (agrees.holds.trans pop.split)
    constructor
    · intro none
      refine ⟨?_, acts⟩
      dsimp only
      rw [after, activeUnits, units, none saved, List.append_nil]
    · intro right _
      unfold DepthRight at right
      dsimp only at right
      rw [depth_keys, after, activeUnits, units, List.length_append] at right
      apply List.eq_nil_of_length_eq_zero
      omega

theorem return_spec {value : Bool} (agrees : Agrees ⟨on, a :: rest⟩)
    (h : emitted junk granted on escape stale a rest (.ret value) = some m) :
    (MeetsAt escape stale a rest (.ret value) → Agrees m) ∧
      (DepthRight m → MeetsAt escape stale a rest (.ret value)) := by
  have pop := left_pop agrees.acts
  by_cases proc : a.unit = none
  · rw [emitted_return_proc proc] at h
    cases value with
    | false =>
      have meets : MeetsAt escape stale a rest (.ret false) ↔
          (a.curOnDepth = none → a.allUnits = []) := by
        simp only [MeetsAt, proc]
      cases h
      rw [meets]
      exact reset_pop agrees.holds pop agrees.acts.1
    | true =>
      have meets : MeetsAt escape stale a rest (.ret true) ↔
          (a.curOnDepth ≠ none → a.allUnits = []) := by
        simp only [MeetsAt, proc]
      cases h
      rw [meets]
      exact returnValue_spec agrees
  · obtain ⟨u, unit⟩ := Option.ne_none_iff_exists'.mp proc
    simp only [emitted, unit] at h
    simp only [MeetsAt, unit]
    exact unitReturns_spec agrees.holds pop h

theorem goto_spec {label : Label} (agrees : Agrees ⟨on, a :: rest⟩)
    (h : emitted junk granted on escape stale a rest (.goto label) = some m) :
    (MeetsAt escape stale a rest (.goto label) → Agrees m) ∧
      (DepthRight m → MeetsAt escape stale a rest (.goto label)) := by
  by_cases proc : a.unit = none
  · rw [emitted_goto_proc proc] at h
    obtain ⟨path, found, rfl⟩ := Option.map_eq_some_iff.mp h
    obtain ⟨chain, exited, split⟩ := labelPath_kept found
    have meets : MeetsAt escape stale a rest (.goto label) ↔
        (onExitDepth a.onScopes label.chain = none →
          LeavesNone a.path (labelPath a.path label)) := by
      simp only [MeetsAt, proc]
    rw [meets]
    cases depth : onExitDepth a.onScopes label.chain with
    | none =>
      obtain ⟨right, wrong⟩ := jump_spec a.returning agrees found ⟨exited, split⟩
      exact ⟨fun leaves => right (leaves rfl), fun depth _ => wrong depth⟩
    | some d =>
      rw [onExitDepth_right agrees.acts split chain depth]
      exact ⟨fun _ => leave_reset junk granted agrees.holds
        (left_jump a.returning _ _ agrees.acts split), fun _ none => by cases none⟩
  · obtain ⟨u, unit⟩ := Option.ne_none_iff_exists'.mp proc
    simp only [emitted, unit] at h
    simp only [MeetsAt, unit]
    exact unitReturns_spec agrees.holds (left_pop agrees.acts) h

theorem startProc_spec (p : HProc) {acts : List Activation} (agrees : Agrees ⟨on, acts⟩) :
    Agrees ⟨on, startProc on p :: acts⟩ := by
  constructor
  · rw [agrees.holds]
    simp [activeUnits, Activation.allUnits, startProc, scopesOf, scopeUnits]
  · refine ⟨⟨trivial, List.nodup_nil, ?_, ?_, ?_⟩, agrees.acts⟩
    · intro d saved
      simp only [startProc] at saved
      split at saved
      · cases saved
        rw [depth_keys, agrees.holds]
        exact ⟨rfl, rfl⟩
      · cases saved
    · intro _
      refine ⟨rfl, ?_⟩
      intro unsaved
      simp only [startProc] at unsaved
      split at unsaved
      · cases unsaved
      · rename_i bare
        exact ⟨Bool.eq_false_iff.mpr bare, rfl⟩
    · intro unit
      cases unit

theorem startUnit_spec (p : HProc) (unit : HStmt) (polls : Bool) {acts : List Activation}
    (agrees : Agrees ⟨on, acts⟩) : Agrees ⟨on, startUnit on p unit polls :: acts⟩ := by
  constructor
  · rw [agrees.holds]
    simp [activeUnits, Activation.allUnits, startUnit, scopesOf, scopeUnits]
  · refine ⟨⟨trivial, List.nodup_nil, nofun, nofun, ?_⟩, agrees.acts⟩
    intro _
    rw [startUnit, depth_keys, agrees.holds]

variable {e : Event}

theorem emitted_spec {action : Action} (act : e.action = action)
    (agrees : Agrees ⟨on, a :: rest⟩) (possible : Possible ⟨⟨on, a :: rest⟩, escape⟩ e)
    (h : emitted junk granted on escape stale a rest action = some m) :
    (MeetsAt escape stale a rest action → Agrees m) ∧
      (DepthRight m → MeetsAt escape stale a rest action) := by
  unfold Possible at possible
  rw [act] at possible
  cases action with
  | call | raise | returned => cases h
  | enterBegin id body =>
    cases h
    exact ⟨fun _ => enterBegin_spec agrees, fun _ => trivial⟩
  | exitBegin => exact ⟨fun _ => exitBegin_spec agrees h, fun _ => trivial⟩
  | enterLoop labels =>
    cases h
    have left := left_jump a.returning (.loop labels :: a.path) [] agrees.acts rfl
    exact ⟨fun _ => (leave_plain agrees.holds left).1 rfl, fun _ => trivial⟩
  | exitLoop =>
    simp only [emitted] at h
    split at h
    · rename_i labels path place
      cases h
      have left := left_jump a.returning path [] agrees.acts (by rw [place]; rfl)
      exact ⟨fun _ => (leave_plain agrees.holds left).1 rfl, fun _ => trivial⟩
    · cases h
  | on key id fn ctx =>
    obtain ⟨body, inside⟩ := possible
    exact on_spec agrees (inText_has inside (Or.inl rfl)) h
  | revert key =>
    obtain ⟨body, inside⟩ := possible
    exact revert_spec agrees (inText_has inside (Or.inr rfl)) h
  | exit => exact exit_spec agrees h
  | ret value => exact return_spec agrees h
  | leave name =>
    obtain ⟨path, found, rfl⟩ := Option.map_eq_some_iff.mp h
    exact jump_spec a.returning agrees found (leavePath_kept found)
  | iterate name =>
    obtain ⟨path, found, rfl⟩ := Option.map_eq_some_iff.mp h
    exact jump_spec a.returning agrees found (iteratePath_kept found)
  | goto label => exact goto_spec agrees h
  | gotoVar label =>
    simp only [emitted] at h
    split at h
    · cases h
    · obtain ⟨path, found, rfl⟩ := Option.map_eq_some_iff.mp h
      exact jump_spec a.returning agrees found (labelPath_kept found).2

theorem step_spec {junk : OnFrame} {m m' : Module} (agrees : Agrees m.toMachine)
    (possible : Possible m e) (h : step junk m e = some m') :
    (Meets m e → Agrees m'.toMachine) ∧ (DepthRight m'.toMachine → Meets m e) := by
  obtain ⟨⟨on, acts⟩, escape⟩ := m
  obtain ⟨action, granted, stale⟩ := e
  cases acts with
  | nil =>
    cases action with
    | call p =>
      cases h
      exact ⟨fun _ => startProc_spec p agrees, fun _ => trivial⟩
    | _ => cases h
  | cons a rest =>
    cases action with
    | call p =>
      cases h
      exact ⟨fun _ => startProc_spec p agrees, fun _ => trivial⟩
    | raise p unit polls =>
      cases h
      exact ⟨fun _ => startUnit_spec p unit polls agrees, fun _ => trivial⟩
    | returned =>
      simp only [step] at h
      split at h
      · cases h
        exact leave_plain agrees.holds (left_pop agrees.acts)
      · cases h
    | _ =>
      simp only [step] at h
      split at h
      · cases h
      · obtain ⟨after, emits, rfl⟩ := Option.map_eq_some_iff.mp h
        exact emitted_spec rfl agrees possible emits

def start : Module := ⟨⟨OnState.empty, []⟩, .none⟩

theorem start_agrees : Agrees start.toMachine := ⟨rfl, trivial⟩

def Reached (junk : OnFrame) (m : Module) (events : List Event) (s : Module) : Prop :=
  ∃ before after, events = before ++ after ∧ run (step junk) m before = some s

theorem reached_cons {junk : OnFrame} {m mid s : Module} {events : List Event}
    (first : step junk m e = some mid) :
    Reached junk m (e :: events) s ↔ s = m ∨ Reached junk mid events s := by
  constructor
  · rintro ⟨before, after, split, ran⟩
    cases before with
    | nil =>
      left
      cases ran
      rfl
    | cons f before =>
      right
      obtain ⟨rfl, rfl⟩ := List.cons.inj split
      obtain ⟨mid', stepped, tail⟩ := run_cons_iff.mp ran
      have same : mid' = mid := Option.some.inj (stepped.symm.trans first)
      subst same
      exact ⟨before, after, rfl, tail⟩
  · intro reached
    rcases reached with rfl | ⟨before, after, rfl, ran⟩
    · exact ⟨[], e :: events, rfl, rfl⟩
    · exact ⟨e :: before, after, rfl, run_cons_iff.mpr ⟨mid, first, ran⟩⟩

theorem run_right_iff {junk : OnFrame} {m m' : Module} {events : List Event}
    (agrees : Agrees m.toMachine) (possible : AllSteps (step junk) Possible m events)
    (performed : run (step junk) m events = some m') :
    (∀ s, Reached junk m events s → DepthRight s.toMachine) ↔
      AllSteps (step junk) Meets m events := by
  induction events generalizing m with
  | nil =>
    constructor
    · intro _
      trivial
    · rintro _ s ⟨before, after, split, ran⟩
      obtain ⟨rfl, -⟩ := List.append_eq_nil_iff.mp split.symm
      cases ran
      exact agrees_right agrees
  | cons e events ih =>
    obtain ⟨mid, first, tail⟩ := run_cons_iff.mp performed
    rw [allSteps_cons_iff first] at possible ⊢
    obtain ⟨keeps, needs⟩ := step_spec agrees possible.1 first
    constructor
    · intro right
      have meets : Meets m e :=
        needs (right mid ((reached_cons first).mpr (Or.inr ⟨[], events, rfl, rfl⟩)))
      refine ⟨meets, (ih (keeps meets) possible.2 tail).mp ?_⟩
      intro s reached
      exact right s ((reached_cons first).mpr (Or.inr reached))
    · rintro ⟨meets, rest⟩ s reached
      rcases (reached_cons first).mp reached with rfl | later
      · exact agrees_right agrees
      · exact (ih (keeps meets) possible.2 tail).mpr rest s later

/- DO WHILE; BEGIN; ON ERROR; LEAVE; END; END; -/
def leaf (kind : StmtKind) : HStmt := .mk { kind := kind } .null .null .null []

def onError : HStmt := .mk { kind := .on } .null .null (leaf .null) []

def blockBody : List HStmt := [onError, leaf .leave]

def beginBlock : HStmt := .mk { kind := .begin } .null .null .null blockBody

def leavingProc : HProc :=
  { body := [.mk { kind := .doWhile } .null .null .null [beginBlock]] }

def noFrame : OnFrame := ⟨0, 0, 0, none, none⟩

def armed : List Event :=
  [{ action := .call leavingProc }, { action := .enterLoop [] },
    { action := .enterBegin 1 blockBody }, { action := .on 0 1 (some 1) none }]

theorem armed_possible : AllSteps (step noFrame) Possible start armed := by
  have block : AtLevel beginBlock (.mk { kind := .doWhile } .null .null .null [beginBlock]) :=
    AtLevel.inner (by decide) (by decide) (by simp [children]) AtLevel.here
  refine ⟨trivial, fun s h => ?_⟩
  cases h
  refine ⟨⟨[beginBlock], Or.inl ⟨_, List.mem_singleton.mpr rfl, _, _, _, _,
    AtLevel.here, rfl, rfl⟩⟩,
    fun s h => ?_⟩
  cases h
  refine ⟨⟨_, List.mem_singleton.mpr rfl, _, _, _, _, block, rfl, trivial⟩, fun s h => ?_⟩
  cases h
  exact ⟨⟨[], onError, List.mem_cons_self, _, _, _, _, AtLevel.here, rfl, trivial⟩,
    fun _ _ => trivial⟩

/-- A run has the right depth in every state it comes through just when each of its steps
    meets the condition. -/
theorem depth_right_iff (junk : OnFrame) {events : List Event} {m' : Module}
    (possible : AllSteps (step junk) Possible start events)
    (performed : run (step junk) start events = some m') :
    (∀ s, Reached junk start events s → DepthRight s.toMachine) ↔
      AllSteps (step junk) Meets start events :=
  run_right_iff start_agrees possible performed

def ending : List Event := [{ action := .exitBegin }, { action := .exitLoop }, { action := .exit }]

def blockEnd : List Event := armed ++ ending

theorem block_end_restores : AllSteps (step noFrame) Meets start blockEnd ∧
    ∀ s, Reached noFrame start blockEnd s → DepthRight s.toMachine := by
  unfold blockEnd
  have possible : AllSteps (step noFrame) Possible start (armed ++ ending) := by
    rw [allSteps_append_iff]
    refine ⟨armed_possible, fun s h => ?_⟩
    cases h
    refine ⟨trivial, fun s h => ?_⟩
    cases h
    refine ⟨trivial, fun s h => ?_⟩
    cases h
    exact ⟨trivial, fun _ _ => trivial⟩
  have meets : AllSteps (step noFrame) Meets start (armed ++ ending) := by
    rw [allSteps_append_iff]
    constructor
    · refine ⟨trivial, fun s h => ?_⟩
      cases h
      refine ⟨trivial, fun s h => ?_⟩
      cases h
      refine ⟨trivial, fun s h => ?_⟩
      cases h
      exact ⟨nofun, fun _ _ => trivial⟩
    · intro s h
      cases h
      refine ⟨trivial, fun s h => ?_⟩
      cases h
      refine ⟨trivial, fun s h => ?_⟩
      cases h
      exact ⟨(fun isUnit => by cases isUnit), fun _ _ => trivial⟩
  exact ⟨meets, (depth_right_iff noFrame possible rfl).mpr meets⟩

/-- LEAVE goes to the end of the group; the unit of the block it left stays established. -/
theorem leave_keeps_unit :
    AllSteps (step noFrame) Possible start (armed ++ [{ action := .leave "" }]) ∧
      ¬ ∀ s, Reached noFrame start (armed ++ [{ action := .leave "" }]) s →
        DepthRight s.toMachine := by
  constructor
  · rw [allSteps_append_iff]
    refine ⟨armed_possible, fun s h => ?_⟩
    cases h
    have inBlock : leaf .leave ∈ blockBody := List.mem_cons_of_mem _ List.mem_cons_self
    exact ⟨⟨rfl, [], leaf .leave, inBlock, _, _, _, _, AtLevel.here, rfl, rfl⟩,
      fun _ _ => trivial⟩
  · intro right
    have last := right _ ⟨_, [], (List.append_nil _).symm, rfl⟩
    revert last
    decide

end Exits

end PliOnExits
