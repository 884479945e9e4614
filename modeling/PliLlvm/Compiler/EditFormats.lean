import Mathlib.Data.List.Basic

/- Edit-directed transmission (src/parser.cpp, src/sema.cpp, src/hir.cpp, src/irgen.cpp). A group
   with a constant count is written out by the parser, and the groups of a list are those whose
   count is found at run time; lowering to HIR copies the list. What a format does with its item
   is left out: an event is a format that takes effect, with the place of its item. -/
namespace PliEditFormats

inductive Kind where
  | a | b | c | f | e | p | x | skip | page | line | column
  deriving DecidableEq

def Kind.isData : Kind → Bool
  | .a | .b | .c | .f | .e | .p => true
  | _ => false

structure Format where
  kind : Kind
  refs : List Nat
  deriving DecidableEq

inductive FormatItem (L : Type) where
  | one (f : Format)
  | remote (label : L)
  | repeated (items : List (FormatItem L))

/-- The values of the counts: of the group at a place in a list, and in a turn of that group of the
    ones in it. -/
abbrev Counts := List Nat → Int

def Counts.here (counts : Counts) : Nat := (counts [0]).toNat

def Counts.turn (counts : Counts) (i : Nat) : Counts := fun place => counts (0 :: i :: place)

def Counts.later (counts : Counts) : Counts
  | [] => counts []
  | k :: place => counts ((k + 1) :: place)

section Remote
variable {L : Type} [DecidableEq L] (formatMap : L → Option (List (FormatItem L)))

mutual

/-- One level of remote formats; `expand` is the call for the list of a FORMAT statement. None
    stands for a diagnostic. -/
def expandItem (expand : List L → List (FormatItem L) → Option (List (FormatItem L)))
    (active : List L) : FormatItem L → Option (List (FormatItem L))
  | .one f => some [.one f]
  | .repeated items => (expandItems expand active items).map fun inner => [.repeated inner]
  | .remote label =>
      (formatMap label).bind fun formats =>
        if label ∈ active then none else expand (label :: active) formats

def expandItems (expand : List L → List (FormatItem L) → Option (List (FormatItem L)))
    (active : List L) : List (FormatItem L) → Option (List (FormatItem L))
  | [] => some []
  | item :: rest =>
      (expandItem expand active item).bind fun inner =>
        (expandItems expand active rest).map (inner ++ ·)

end

def expandLevels : Nat → List L → List (FormatItem L) → Option (List (FormatItem L))
  | 0 => fun _ _ => none
  | levels + 1 => expandItems formatMap (expandLevels levels)

def expandRemoteFormats (fmts : List (FormatItem L)) : Option (List (FormatItem L)) :=
  expandLevels formatMap 17 [] fmts

inductive Splices : List (FormatItem L) → List (FormatItem L) → Prop where
  | nil : Splices [] []
  | one {rest rest' : List (FormatItem L)} (f : Format) (later : Splices rest rest') :
      Splices (.one f :: rest) (.one f :: rest')
  | repeated {items items' rest rest' : List (FormatItem L)} (inner : Splices items items')
      (later : Splices rest rest') : Splices (.repeated items :: rest) (.repeated items' :: rest')
  | remote {label : L} {formats formats' rest rest' : List (FormatItem L)}
      (found : formatMap label = some formats) (inner : Splices formats formats')
      (later : Splices rest rest') : Splices (.remote label :: rest) (formats' ++ rest')

end Remote

section Transmission
variable {L : Type}

inductive Direction where
  | put | get
  deriving DecidableEq

structure Event where
  format : Format
  item : Option Nat
  deriving DecidableEq

def Format.isControl (dir : Direction) (f : Format) : Bool :=
  !f.kind.isData && !(dir = .get && (f.kind = .page || f.kind = .line))

/-- What a single format emits, where `di` is the next data item. -/
def emitOne (dir : Direction) (items di : Nat) (f : Format) : List Event :=
  if f.kind.isData then if di < items then [⟨f, some di⟩] else []
  else if f.isControl dir then [⟨f, none⟩]
  else []

def nextItem (items di : Nat) : FormatItem L → Nat
  | .one f => if f.kind.isData && di < items then di + 1 else di
  | .remote _ | .repeated _ => di

/-- How often the formats of a group take effect: a deferred call takes effect once for each time
    it is emitted. -/
def turns (dir : Direction) (deferred : Bool) (count avail : Nat) : Nat :=
  match dir, deferred with
  | .put, false => min count avail
  | .put, true => avail
  | .get, false => count
  | .get, true => 1

def turnItem (dir : Direction) (di i : Nat) : Nat :=
  match dir with
  | .put => di + i
  | .get => di

mutual

/-- `emitPutEditItem` and `emitGetEditItem`. -/
def emitItem (dir : Direction) (deferred : Bool) (items : Nat) (counts : Counts) (di : Nat) :
    FormatItem L → List Event
  | .one f => emitOne dir items di f
  | .remote _ => []
  | .repeated group =>
      (List.range (turns dir deferred counts.here (items - di))).flatMap fun i =>
        emitItems dir deferred items (counts.turn i) (turnItem dir di i) group

def emitItems (dir : Direction) (deferred : Bool) (items : Nat) (counts : Counts) (di : Nat) :
    List (FormatItem L) → List Event
  | [] => []
  | item :: rest =>
      emitItem dir deferred items counts di item ++
        emitItems dir deferred items counts.later (nextItem items di item) rest

end

mutual

def expandedItem (counts : Counts) : FormatItem L → List Format
  | .one f => [f]
  | .remote _ => []
  | .repeated group =>
      (List.range counts.here).flatMap fun i => expanded (counts.turn i) group

def expanded (counts : Counts) : List (FormatItem L) → List Format
  | [] => []
  | item :: rest => expandedItem counts item ++ expanded counts.later rest

end

theorem emitItems_one (dir : Direction) (deferred : Bool) (items : Nat) (counts : Counts) (di : Nat)
    (f : Format) (rest : List (FormatItem L)) :
    emitItems dir deferred items counts di (.one f :: rest) = emitOne dir items di f ++
      emitItems dir deferred items counts.later (nextItem items di (FormatItem.one (L :=
        L) f)) rest := by
  rw [emitItems, emitItem]

theorem expanded_one (counts : Counts) (f : Format) (rest : List (FormatItem L)) :
    expanded counts (.one f :: rest) = f :: expanded counts.later rest := by
  rw [expanded, expandedItem, List.singleton_append]

/-- What the parser makes of a group whose count is a literal. -/
def writtenOut (n : Nat) (group : List (FormatItem L)) : List (FormatItem L) :=
  (List.replicate n group).flatten

def Counts.joined (first rest : Counts) : Counts
  | [] => rest []
  | 0 :: place => first (0 :: place)
  | (k + 1) :: place => rest (k :: place)

theorem joined_later (first rest : Counts) : (first.joined rest).later = rest := by
  funext place
  cases place <;> rfl

theorem expandedItem_joined (first rest : Counts) (item : FormatItem L) :
    expandedItem (first.joined rest) item = expandedItem first item := by
  cases item <;> rfl

theorem expanded_append (group rest : List (FormatItem L)) (first second : Counts) :
    ∃ counts, expanded counts (group ++ rest) = expanded first group ++ expanded second rest := by
  induction group generalizing first with
  | nil => exact ⟨second, rfl⟩
  | cons item group ih =>
    obtain ⟨counts, done⟩ := ih first.later
    refine ⟨first.joined counts, ?_⟩
    rw [List.cons_append, expanded, expanded, joined_later, expandedItem_joined, done,
      List.append_assoc]

/-- A group written out stands for what the group with that count stands for. -/
theorem expanded_writtenOut (group : List (FormatItem L)) (counts : Counts) :
    ∃ counts', expanded counts' (writtenOut counts.here group) =
      expanded counts [.repeated group] := by
  have all : ∀ n, ∃ counts', expanded counts' (writtenOut n group) =
      (List.range n).flatMap fun i => expanded (counts.turn i) group := by
    intro n
    induction n with
    | zero => exact ⟨counts, rfl⟩
    | succ n ih =>
      obtain ⟨counts', done⟩ := ih
      obtain ⟨whole, joined⟩ := expanded_append (writtenOut n group) group counts' (counts.turn n)
      refine ⟨whole, ?_⟩
      rw [writtenOut, List.replicate_succ', List.flatten_append, List.flatten_singleton,
        List.range_succ, List.flatMap_append, List.flatMap_singleton, ← done]
      exact joined
  obtain ⟨counts', done⟩ := all counts.here
  refine ⟨counts', done.trans ?_⟩
  rw [expanded, expandedItem, expanded, List.append_nil]

def paired (dir : Direction) (items di : Nat) : List Format → List Event
  | [] => []
  | f :: rest =>
      emitOne dir items di f ++
        paired dir items (if f.kind.isData && di < items then di + 1 else di) rest

def withViews : List Nat → List Event → List (Event × List Nat)
  | _, [] => []
  | read, e :: rest =>
      (e, e.format.refs.filter (· ∈ read)) :: withViews (read ++ e.item.toList) rest

/-- What the formats see: in the deferred form all expressions are evaluated before the first item
    is read, and PUT reads none. -/
def transmission (dir : Direction) (deferred : Bool) (events : List Event) :
    List (Event × List Nat) :=
  if dir = .get ∧ deferred = false then withViews [] events else events.map (·, [])

mutual

def pairFormat (items di : Nat) : FormatItem L → Bool
  | .one f => !f.kind.isData || decide (di < items)
  | .remote _ => true
  | .repeated group => pairFormats items di group

def pairFormats (items di : Nat) : List (FormatItem L) → Bool
  | [] => true
  | item :: rest => pairFormat items di item && pairFormats items (nextItem items di item) rest

end

mutual

def leavesItem : FormatItem L → List Format
  | .one f => [f]
  | .remote _ => []
  | .repeated group => leaves group

def leaves : List (FormatItem L) → List Format
  | [] => []
  | item :: rest => leavesItem item ++ leaves rest

end

def countDataFormats (fmts : List (FormatItem L)) : Nat := (leaves fmts).countP (·.kind.isData)

def hasRepeat : List (FormatItem L) → Bool
  | [] => false
  | .repeated _ :: _ => true
  | .one _ :: rest | .remote _ :: rest => hasRepeat rest

def checkEditFormats (items : Nat) (fmts : List (FormatItem L)) : Bool :=
  pairFormats items 0 fmts && (hasRepeat fmts || decide (items ≤ countDataFormats fmts))

end Transmission

end PliEditFormats
