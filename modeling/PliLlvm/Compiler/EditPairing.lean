import PliLlvm.Compiler.EditFormats
import Mathlib.Data.List.Nodup
import Mathlib.Data.List.Range

/- When each data item is transmitted by its own format. -/
namespace PliEditFormats
variable {L : Type}

section Conditions

def hasData (fmts : List (FormatItem L)) : Bool := (leaves fmts).any (·.kind.isData)

def hasControl (dir : Direction) (fmts : List (FormatItem L)) : Bool :=
  (leaves fmts).any (·.isControl dir)

def Silent (dir : Direction) (items di : Nat) (group : List (FormatItem L)) : Prop :=
  hasControl dir group = false ∧ (di < items → hasData group = false)

def firstDirect : List (FormatItem L) → Bool
  | [] => false
  | .one f :: rest => f.kind.isData || firstDirect rest
  | .remote _ :: rest => firstDirect rest
  | .repeated group :: rest => !hasData group && firstDirect rest

structure SingleFormat (items di : Nat) (group rest : List (FormatItem L)) : Prop where
  left : di < items
  noControl : hasControl .put group = false
  direct : firstDirect group = true
  single : items - di = 1 ∨ countDataFormats group = 1
  last : hasData rest = false

def GroupPaired (dir : Direction) (deferred : Bool) (items di : Nat)
    (group rest : List (FormatItem L)) : Prop :=
  match dir, deferred with
  | .put, false => Silent .put items di group ∨ SingleFormat items di group rest
  | .get, false => di < items → hasData group = false
  | dir, true => Silent dir items di group

def Paired (dir : Direction) (deferred : Bool) (items : Nat) : Nat → List (FormatItem L) → Prop
  | _, [] => True
  | di, .one f :: rest =>
      Paired dir deferred items (nextItem items di (FormatItem.one (L := L) f)) rest
  | di, .remote _ :: rest => Paired dir deferred items di rest
  | di, .repeated group :: rest =>
      GroupPaired dir deferred items di group rest ∧ Paired dir deferred items di rest

end Conditions

mutual

theorem item_cases {motive : List (FormatItem L) → Prop} (nil : motive [])
    (one : ∀ f rest, motive rest → motive (.one f :: rest))
    (remote : ∀ label rest, motive rest → motive (.remote label :: rest))
    (repeated : ∀ group rest, motive group → motive rest → motive (.repeated group :: rest)) :
    ∀ (item : FormatItem L) (rest : List (FormatItem L)), motive rest → motive (item :: rest)
  | .one f, rest, later => one f rest later
  | .remote label, rest, later => remote label rest later
  | .repeated group, rest, later =>
      repeated group rest (formats_induction nil one remote repeated group) later

/-- Induction over a format list and the lists in its groups. -/
@[elab_as_elim]
theorem formats_induction {motive : List (FormatItem L) → Prop} (nil : motive [])
    (one : ∀ f rest, motive rest → motive (.one f :: rest))
    (remote : ∀ label rest, motive rest → motive (.remote label :: rest))
    (repeated : ∀ group rest, motive group → motive rest → motive (.repeated group :: rest)) :
    ∀ fmts : List (FormatItem L), motive fmts
  | [] => nil
  | item :: rest =>
      item_cases nil one remote repeated item rest
        (formats_induction nil one remote repeated rest)

end

section Valuations

def Counts.cons (n : Int) (turn : Nat → Counts) (later : Counts) : Counts
  | [] => later []
  | [0] => n
  | 0 :: i :: place => turn i place
  | (k + 1) :: place => later (k :: place)

def always (n : Int) : Counts := fun _ => n

@[simp]
theorem cons_here (n : Int) (turn : Nat → Counts) (later : Counts) :
    (Counts.cons n turn later).here = n.toNat := rfl

@[simp]
theorem cons_turn (n : Int) (turn : Nat → Counts) (later : Counts) (i : Nat) :
    (Counts.cons n turn later).turn i = turn i := rfl

@[simp]
theorem cons_later (n : Int) (turn : Nat → Counts) (later : Counts) :
    (Counts.cons n turn later).later = later := by
  funext place
  cases place <;> rfl

@[simp]
theorem always_here (n : Int) : (always n).here = n.toNat := rfl

@[simp]
theorem always_turn (n : Int) (i : Nat) : (always n).turn i = always n := rfl

@[simp]
theorem always_later (n : Int) : (always n).later = always n := by
  funext place
  cases place <;> rfl

end Valuations

section Events

def datas (events : List Event) : List Nat := events.filterMap (·.item)

def controls (events : List Event) : Nat := events.countP (·.item.isNone)

@[simp]
theorem datas_append (xs ys : List Event) : datas (xs ++ ys) = datas xs ++ datas ys :=
  List.filterMap_append

@[simp]
theorem controls_append (xs ys : List Event) : controls (xs ++ ys) = controls xs + controls ys :=
  List.countP_append

theorem events_nil {events : List Event} (noData : datas events = [])
    (noControl : controls events = 0) :
    events = [] := by
  rw [List.eq_nil_iff_forall_not_mem]
  intro e member
  cases item : e.item with
  | none =>
    have absent := List.countP_eq_zero.mp noControl e member
    simp [item] at absent
  | some di =>
    have present : di ∈ datas events := List.mem_filterMap.mpr ⟨e, member, item⟩
    rw [noData] at present
    cases present

end Events

section Pairing
variable {dir : Direction} {items : Nat}

def after (items di : Nat) (fs : List Format) : Nat :=
  fs.foldl (fun di f => if f.kind.isData && di < items then di + 1 else di) di

theorem paired_append (di : Nat) (fs gs : List Format) :
    paired dir items di (fs ++ gs) =
      paired dir items di fs ++ paired dir items (after items di fs) gs := by
  induction fs generalizing di with
  | nil => rfl
  | cons f fs ih =>
    rw [List.cons_append, paired, ih, paired, List.append_assoc]
    rfl

theorem after_append (di : Nat) (fs gs : List Format) :
    after items di (fs ++ gs) = after items (after items di fs) gs := List.foldl_append

variable {di : Nat} {f : Format}

theorem emitOne_data (data : f.kind.isData = true) :
    emitOne dir items di f = if di < items then [⟨f, some di⟩] else [] := by
  rw [emitOne, if_pos data]

theorem emitOne_other (other : f.kind.isData = false) :
    emitOne dir items di f = if f.isControl dir then [⟨f, none⟩] else [] := by
  rw [emitOne, if_neg (by simp [other])]

theorem control_not_data (control : f.isControl dir = true) : f.kind.isData = false := by
  simp only [Format.isControl, Bool.and_eq_true, Bool.not_eq_true'] at control
  exact control.1

theorem datas_emitOne (di : Nat) (f : Format) :
    datas (emitOne dir items di f) = if f.kind.isData && di < items then [di] else [] := by
  cases data : f.kind.isData with
  | true =>
    rw [emitOne_data data]
    split <;> simp_all [datas]
  | false =>
    rw [emitOne_other data]
    split <;> simp [datas]

theorem controls_emitOne (di : Nat) (f : Format) :
    controls (emitOne dir items di f) = if f.isControl dir then 1 else 0 := by
  cases data : f.kind.isData with
  | true =>
    have other : f.isControl dir = false := by
      cases control : f.isControl dir with
      | false => rfl
      | true =>
        rw [control_not_data control] at data
        cases data
    rw [emitOne_data data, other]
    split <;> simp [controls]
  | false =>
    rw [emitOne_other data]
    split <;> simp [controls]

theorem after_eq (di : Nat) (fs : List Format) :
    after items di fs = di + min (fs.countP (·.kind.isData)) (items - di) := by
  induction fs generalizing di with
  | nil => simp [after]
  | cons f fs ih =>
    change after items (if f.kind.isData && di < items then di + 1 else di) fs = _
    rw [ih, List.countP_cons]
    cases data : f.kind.isData with
    | false => simp
    | true =>
      by_cases left : di < items
      · simp only [left, decide_true, Bool.and_true, if_true]
        omega
      · simp only [left, decide_false, Bool.and_false, Bool.false_eq_true, if_false, if_true]
        omega

theorem datas_paired (di : Nat) (fs : List Format) :
    datas (paired dir items di fs) =
      List.range' di (min (fs.countP (·.kind.isData)) (items - di)) := by
  induction fs generalizing di with
  | nil => simp [paired, datas]
  | cons f fs ih =>
    rw [paired, datas_append, ih, datas_emitOne, List.countP_cons]
    cases data : f.kind.isData with
    | false => simp
    | true =>
      by_cases left : di < items
      · simp only [left, decide_true, Bool.and_true, if_true, List.singleton_append]
        have count : min (fs.countP (·.kind.isData) + 1) (items - di) =
            min (fs.countP (·.kind.isData)) (items - (di + 1)) + 1 := by omega
        rw [count, List.range'_succ]
      · simp only [left, decide_false, Bool.and_false, Bool.false_eq_true, if_false, if_true,
          List.nil_append]
        congr 1
        omega

theorem controls_paired (di : Nat) (fs : List Format) :
    controls (paired dir items di fs) = fs.countP (·.isControl dir) := by
  induction fs generalizing di with
  | nil => rfl
  | cons f fs ih =>
    rw [paired, controls_append, ih, controls_emitOne, List.countP_cons, Nat.add_comm]

theorem paired_noData {fs : List Format} (none : ∀ f ∈ fs, f.kind.isData = false) (di dj : Nat) :
    paired dir items di fs = paired dir items dj fs := by
  induction fs with
  | nil => rfl
  | cons f fs ih =>
    have other := none f List.mem_cons_self
    rw [paired, paired, emitOne_other other, emitOne_other other, other]
    simp only [Bool.false_and, Bool.false_eq_true, if_false]
    rw [ih fun g member => none g (List.mem_cons_of_mem _ member)]

theorem after_same {fs : List Format}
    (none : di < items → ∀ f ∈ fs, f.kind.isData = false) : after items di fs = di := by
  rw [after_eq]
  by_cases left : di < items
  · have count : fs.countP (·.kind.isData) = 0 := by
      rw [List.countP_eq_zero]
      intro f member
      simp [none left f member]
    omega
  · omega

end Pairing

section Expansion

theorem expanded_leaves (fmts : List (FormatItem L)) :
    ∀ counts, ∀ f ∈ expanded counts fmts, f ∈ leaves fmts := by
  induction fmts using formats_induction with
  | nil =>
    intro counts f member
    cases member
  | one f rest ih =>
    intro counts g member
    rcases List.mem_append.mp member with own | later
    · exact List.mem_append_left _ own
    · exact List.mem_append_right _ (ih _ g later)
  | remote label rest ih =>
    intro counts f member
    exact ih _ f member
  | repeated group rest inner ih =>
    intro counts f member
    rcases List.mem_append.mp member with own | later
    · obtain ⟨i, _, inside⟩ := List.mem_flatMap.mp own
      exact List.mem_append_left _ (inner _ f inside)
    · exact List.mem_append_right _ (ih _ f later)

theorem leaves_expanded {m : Int} (some_turn : 0 < m) (fmts : List (FormatItem L)) :
    ∀ f ∈ leaves fmts, f ∈ expanded (always m) fmts := by
  induction fmts using formats_induction with
  | nil =>
    intro f member
    cases member
  | one f rest ih =>
    intro g member
    rcases List.mem_append.mp member with own | later
    · exact List.mem_append_left _ own
    · exact List.mem_append_right _ (by simpa using ih g later)
  | remote label rest ih =>
    intro f member
    exact List.mem_append_right _ (by simpa using ih f member)
  | repeated group rest inner ih =>
    intro f member
    rcases List.mem_append.mp member with own | later
    · refine List.mem_append_left _ (List.mem_flatMap.mpr ⟨0, ?_, inner f own⟩)
      simp only [always_here, List.mem_range]
      omega
    · exact List.mem_append_right _ (by simpa using ih f later)

variable {fmts : List (FormatItem L)}

theorem noData_leaves (none : hasData fmts = false) : ∀ f ∈ leaves fmts, f.kind.isData = false := by
  intro f member
  simpa using List.any_eq_false.mp none f member

variable {dir : Direction}

theorem noControl_leaves
    (none : hasControl dir fmts = false) : ∀ f ∈ leaves fmts, f.isControl dir = false := by
  intro f member
  simpa using List.any_eq_false.mp none f member

theorem hasData_cons (item : FormatItem L) (rest : List (FormatItem L)) :
    hasData (item :: rest) = ((leavesItem item).any (·.kind.isData) || hasData rest) :=
  List.any_append

theorem hasData_repeated (group rest : List (FormatItem L)) :
    hasData (.repeated group :: rest) = (hasData group || hasData rest) := List.any_append

theorem hasData_one (f : Format) (rest : List (FormatItem L)) :
    hasData (.one f :: rest) = (f.kind.isData || hasData rest) := by
  rw [hasData_cons]
  simp [leavesItem]

theorem hasControl_one (dir : Direction) (f : Format) (rest : List (FormatItem L)) :
    hasControl dir (.one f :: rest) = (f.isControl dir || hasControl dir rest) := by
  simp [hasControl, leaves, leavesItem]

theorem hasControl_repeated (dir : Direction) (group rest : List (FormatItem L)) :
    hasControl dir (.repeated group :: rest) = (hasControl dir group || hasControl dir rest) :=
  List.any_append

variable {items di : Nat}

theorem silent_one {f : Format} {rest : List (FormatItem L)}
    (silent : Silent dir items di (.one f :: rest)) :
    emitOne dir items di f = [] ∧ nextItem items di (FormatItem.one (L := L) f) = di ∧
      Silent dir items di rest := by
  obtain ⟨noControl, noData⟩ := silent
  rw [hasControl_one, Bool.or_eq_false_iff] at noControl
  rw [hasData_one, Bool.or_eq_false_iff] at noData
  refine ⟨?_, ?_, noControl.2, fun left => (noData left).2⟩
  · cases data : f.kind.isData with
    | true =>
      rw [emitOne_data data, if_neg]
      intro left
      rw [(noData left).1] at data
      cases data
    | false => rw [emitOne_other data, noControl.1, if_neg (by simp)]
  · by_cases left : di < items
    · simp [nextItem, (noData left).1]
    · simp [nextItem, left]

theorem silent_repeated {group rest : List (FormatItem L)}
    (silent : Silent dir items di (.repeated group :: rest)) :
    Silent dir items di group ∧ Silent dir items di rest := by
  obtain ⟨noControl, noData⟩ := silent
  rw [hasControl_repeated, Bool.or_eq_false_iff] at noControl
  rw [hasData_repeated, Bool.or_eq_false_iff] at noData
  exact ⟨⟨noControl.1, fun left => (noData left).1⟩, noControl.2, fun left => (noData left).2⟩

theorem silent_later {dj : Nat}
    (silent : Silent dir items di fmts) (later : di ≤ dj) : Silent dir items dj fmts :=
  ⟨silent.1, fun left => silent.2 (by omega)⟩

theorem turnItem_ge (dir : Direction) (di i : Nat) : di ≤ turnItem dir di i := by
  cases dir <;> simp [turnItem]

theorem silent_emits (dir : Direction) (deferred : Bool) (items : Nat)
    (fmts : List (FormatItem L)) :
    ∀ counts di, Silent dir items di fmts → emitItems dir deferred items counts di fmts = [] := by
  induction fmts using formats_induction with
  | nil =>
    intro counts di _
    rfl
  | one f rest ih =>
    intro counts di silent
    obtain ⟨nothing, same, later⟩ := silent_one silent
    rw [emitItems_one, nothing, same, ih _ _ later]
    rfl
  | remote label rest ih =>
    intro counts di silent
    exact ih _ _ silent
  | repeated group rest inner ih =>
    intro counts di silent
    obtain ⟨inside, later⟩ := silent_repeated silent
    rw [emitItems, emitItem, nextItem, ih _ _ later, List.append_nil, List.flatMap_eq_nil_iff]
    intro i _
    exact inner _ _ (silent_later inside (turnItem_ge dir di i))

theorem silent_paired {fs : List Format} (noControl : ∀ f ∈ fs, f.isControl dir = false)
    (noData : di < items → ∀ f ∈ fs, f.kind.isData = false) : paired dir items di fs = [] := by
  refine events_nil ?_ ?_
  · rw [datas_paired]
    by_cases left : di < items
    · rw [List.countP_eq_zero.mpr (by simpa using noData left)]
      simp
    · rw [show items - di = 0 by omega]
      simp
  · rw [controls_paired, List.countP_eq_zero]
    intro f member
    simp [noControl f member]

theorem emits_noData (dir : Direction) (deferred : Bool) (items : Nat)
    (fmts : List (FormatItem L)) : ∀ counts di, hasData fmts = false →
      datas (emitItems dir deferred items counts di fmts) = [] := by
  induction fmts using formats_induction with
  | nil =>
    intro counts di _
    rfl
  | one f rest ih =>
    intro counts di none
    rw [hasData_one, Bool.or_eq_false_iff] at none
    rw [emitItems_one, datas_append, datas_emitOne, none.1, ih _ _ none.2]
    rfl
  | remote label rest ih =>
    intro counts di none
    exact ih _ _ none
  | repeated group rest inner ih =>
    intro counts di none
    rw [hasData_repeated, Bool.or_eq_false_iff] at none
    rw [emitItems, emitItem, datas_append, ih _ _ none.2, List.append_nil, datas,
      List.filterMap_flatMap, List.flatMap_eq_nil_iff]
    intro i _
    exact inner _ _ none.1

theorem first_item {m : Int} (some_turn : 0 < m) (dir : Direction) (deferred : Bool)
    (items : Nat) (fmts : List (FormatItem L)) : ∀ di, di < items → hasData fmts = true →
      ∃ more, datas (emitItems dir deferred items (always m) di fmts) = di :: more := by
  induction fmts using formats_induction with
  | nil =>
    intro di _ data
    cases data
  | one f rest ih =>
    intro di left data
    rw [hasData_one, Bool.or_eq_true] at data
    rw [emitItems_one, datas_append, datas_emitOne]
    cases own : f.kind.isData with
    | true =>
      rw [if_pos (by simp [left])]
      exact ⟨_, rfl⟩
    | false =>
      have later : hasData rest = true := by simpa [own] using data
      simpa [own, nextItem] using ih di left later
  | remote label rest ih =>
    intro di left data
    simpa [emitItems, emitItem, nextItem] using ih di left data
  | repeated group rest inner ih =>
    intro di left data
    rw [hasData_repeated, Bool.or_eq_true] at data
    rw [emitItems, emitItem, datas_append, always_later]
    cases own : hasData group with
    | true =>
      obtain ⟨more, first⟩ := inner di left own
      obtain ⟨k, count⟩ : ∃ k, turns dir deferred (always m).here (items - di) = k + 1 := by
        refine Nat.exists_eq_succ_of_ne_zero ?_
        have positive : 0 < m.toNat := by omega
        cases dir <;> cases deferred <;> simp only [turns, always_here] <;> omega
      have start : turnItem dir di 0 = di := by cases dir <;> simp [turnItem]
      rw [count, List.range_succ_eq_map, List.flatMap_cons, datas_append, start, always_turn,
        first]
      exact ⟨_, by rw [List.cons_append, List.cons_append]⟩
    | false =>
      have later : hasData rest = true := by simpa [own] using data
      have noData : datas ((List.range (turns dir deferred (always m).here (items - di))).flatMap
          fun i => emitItems dir deferred items ((always m).turn i) (turnItem dir di i) group) =
            [] := by
        rw [datas, List.filterMap_flatMap, List.flatMap_eq_nil_iff]
        intro i _
        exact emits_noData dir deferred items group _ _ own
      rw [noData, List.nil_append]
      exact ih di left later

theorem silent_group (deferred : Bool) {items di : Nat}
    {group : List (FormatItem L)} (silent : Silent dir items di group) (counts : Counts) :
    emitItem dir deferred items counts di (.repeated group) = [] ∧
      paired dir items di (expandedItem counts (.repeated group)) = [] ∧
      after items di (expandedItem counts (.repeated group)) = di := by
  have members : ∀ f ∈ expandedItem counts (.repeated group), f ∈ leaves group := by
    intro f member
    obtain ⟨i, _, own⟩ := List.mem_flatMap.mp member
    exact expanded_leaves _ _ f own
  have noData : di < items → ∀ f ∈ expandedItem counts (.repeated group),
      f.kind.isData = false :=
    fun left f member => noData_leaves (silent.2 left) f (members f member)
  refine ⟨?_, silent_paired (fun f member => noControl_leaves silent.1 f (members f member))
    noData, after_same noData⟩
  rw [emitItem, List.flatMap_eq_nil_iff]
  intro i _
  exact silent_emits _ _ _ _ _ _ (silent_later silent (turnItem_ge dir di i))

end Expansion

section InPlace

theorem flatMap_controls {m n : Nat} (fewer : m ≤ n) {p : Format → Bool} {es : Nat → List Event}
    {fs : Nat → List Format} (each : ∀ i, controls (es i) ≤ (fs i).countP p) :
    controls ((List.range m).flatMap es) ≤ ((List.range n).flatMap fs).countP p := by
  induction n generalizing m with
  | zero =>
    obtain rfl : m = 0 := by omega
    exact Nat.le_refl 0
  | succ n ih =>
    rw [List.range_succ, List.flatMap_append, List.countP_append, List.flatMap_singleton]
    rcases Nat.lt_or_ge n m with all | less
    · obtain rfl : m = n + 1 := by omega
      rw [List.range_succ, List.flatMap_append, controls_append, List.flatMap_singleton]
      exact Nat.add_le_add (ih (Nat.le_refl n)) (each n)
    · exact Nat.le_trans (ih less) (Nat.le_add_right _ _)

theorem paired_flatMap (dir : Direction) {items di : Nat} {fs : Nat → List Format} (n : Nat)
    (same : ∀ i, after items di (fs i) = di) :
    paired dir items di ((List.range n).flatMap fs) =
        (List.range n).flatMap (fun i => paired dir items di (fs i)) ∧
      after items di ((List.range n).flatMap fs) = di := by
  induction n with
  | zero => exact ⟨rfl, rfl⟩
  | succ n ih =>
    rw [List.range_succ, List.flatMap_append, List.flatMap_append, paired_append, after_append,
      ih.1, ih.2, List.flatMap_singleton, List.flatMap_singleton]
    exact ⟨rfl, same n⟩

theorem get_noData (items : Nat) (fmts : List (FormatItem L)) : ∀ counts di,
    (di < items → hasData fmts = false) →
      emitItems .get false items counts di fmts =
        paired .get items di (expanded counts fmts) := by
  induction fmts using formats_induction with
  | nil =>
    intro counts di _
    rfl
  | one f rest ih =>
    intro counts di none
    have same : nextItem items di (FormatItem.one (L := L) f) = di := by
      by_cases left : di < items
      · have own := none left
        rw [hasData_one, Bool.or_eq_false_iff] at own
        simp [nextItem, own.1]
      · simp [nextItem, left]
    have later : di < items → hasData rest = false := by
      intro left
      have own := none left
      rw [hasData_one, Bool.or_eq_false_iff] at own
      exact own.2
    rw [emitItems_one, expanded_one, paired]
    change _ = _ ++ paired .get items (nextItem items di (FormatItem.one (L := L) f)) _
    rw [same, ih _ _ later]
  | remote label rest ih =>
    intro counts di none
    exact ih _ _ none
  | repeated group rest inner ih =>
    intro counts di none
    have parts : di < items → hasData group = false ∧ hasData rest = false := by
      intro left
      have both := none left
      rwa [hasData_repeated, Bool.or_eq_false_iff] at both
    have each : ∀ i, after items di (expanded (counts.turn i) group) = di := fun i =>
      after_same fun left f member =>
        noData_leaves (parts left).1 f (expanded_leaves _ _ f member)
    obtain ⟨turns_paired, stays⟩ := paired_flatMap .get counts.here each
    rw [emitItems, emitItem, expanded, expandedItem, paired_append, turns_paired, stays, nextItem,
      ih _ _ fun left => (parts left).2]
    congr 1
    exact List.flatMap_congr fun i _ => inner _ _ fun left => (parts left).1

theorem emits_zero (dir : Direction) (items : Nat) (fmts : List (FormatItem L)) :
    ∀ di, emitItems dir false items (always 0) di fmts =
      paired dir items di (expanded (always 0) fmts) := by
  induction fmts with
  | nil =>
    intro di
    rfl
  | cons item rest ih =>
    intro di
    rw [emitItems, expanded, paired_append, always_later, ih]
    cases item with
    | one f =>
      rw [emitItem, expandedItem, paired, paired, List.append_nil]
      rfl
    | remote label => rfl
    | repeated group =>
      have zero : turns dir false (always 0).here (items - di) = 0 := by
        cases dir <;> simp [turns]
      rw [emitItem, expandedItem, zero, always_here]
      rfl

theorem deferred_length (dir : Direction) (items : Nat) (fmts : List (FormatItem L)) :
    ∀ counts di, (paired dir items di (expanded (always 0) fmts)).length ≤
      (emitItems dir true items counts di fmts).length := by
  induction fmts with
  | nil =>
    intro counts di
    exact Nat.le_refl 0
  | cons item rest ih =>
    intro counts di
    rw [emitItems, expanded, paired_append, always_later, List.length_append, List.length_append]
    cases item with
    | one f =>
      rw [emitItem, expandedItem, paired, paired, List.append_nil]
      exact Nat.add_le_add_left (ih _ _) _
    | remote label => exact Nat.add_le_add_left (ih _ _) _
    | repeated group =>
      have nothing : expandedItem (always 0) (.repeated group) = [] := by
        rw [expandedItem, always_here]
        rfl
      rw [nothing]
      exact Nat.le_trans (Nat.add_le_add_left (ih counts.later _) _)
        (Nat.add_le_add_right (Nat.zero_le _) _)

theorem deferred_counts (dir : Direction) (items : Nat) (fmts : List (FormatItem L)) :
    ∀ counts counts' di, emitItems dir true items counts di fmts =
      emitItems dir true items counts' di fmts := by
  induction fmts using formats_induction with
  | nil =>
    intro counts counts' di
    rfl
  | one f rest ih =>
    intro counts counts' di
    rw [emitItems, emitItems, ih counts.later counts'.later]
    rfl
  | remote label rest ih =>
    intro counts counts' di
    exact ih _ _ _
  | repeated group rest inner ih =>
    intro counts counts' di
    have count : turns dir true counts.here (items - di) =
        turns dir true counts'.here (items - di) := by cases dir <;> rfl
    rw [emitItems, emitItems, emitItem, emitItem, count, ih counts.later counts'.later]
    congr 1
    exact List.flatMap_congr fun i _ => inner _ _ _

theorem put_controls (items : Nat) (fmts : List (FormatItem L)) : ∀ counts di,
    controls (emitItems .put false items counts di fmts) ≤
      (expanded counts fmts).countP (·.isControl .put) := by
  induction fmts using formats_induction with
  | nil =>
    intro counts di
    exact Nat.le_refl 0
  | one f rest ih =>
    intro counts di
    rw [emitItems_one, controls_append, controls_emitOne, expanded_one, List.countP_cons,
      Nat.add_comm]
    exact Nat.add_le_add_right (ih _ _) _
  | remote label rest ih =>
    intro counts di
    exact ih _ _
  | repeated group rest inner ih =>
    intro counts di
    rw [emitItems, emitItem, controls_append, expanded, expandedItem, List.countP_append]
    refine Nat.add_le_add ?_ (ih _ _)
    exact flatMap_controls (Nat.min_le_left _ _) fun i => inner _ _

end InPlace

def Right (dir : Direction) (deferred : Bool) (items di : Nat) (fmts : List (FormatItem L)) :
    Prop :=
  ∀ counts, emitItems dir deferred items counts di fmts =
    paired dir items di (expanded counts fmts)

section Peeling
variable {dir : Direction} {deferred : Bool} {items di : Nat} {group rest : List (FormatItem L)}

theorem right_one (f : Format) : Right dir deferred items di (.one f :: rest) ↔
    Right dir deferred items (nextItem items di (FormatItem.one (L := L) f)) rest := by
  constructor
  · intro right counts
    have all := right (Counts.cons 0 (fun _ => counts) counts)
    rw [emitItems_one, expanded_one, paired,
      cons_later] at all
    exact List.append_cancel_left all
  · intro right counts
    rw [emitItems_one, expanded_one, paired, right]
    rfl

theorem right_remote (label : L) : Right dir deferred items di (.remote label :: rest) ↔
    Right dir deferred items di rest := by
  constructor
  · intro right counts
    have all := right (Counts.cons 0 (fun _ => counts) counts)
    rw [emitItems, emitItem, expanded, expandedItem, cons_later] at all
    exact all
  · intro right counts
    exact right counts.later

theorem right_turns (right : Right dir deferred items di (.repeated group :: rest)) (n : Nat)
    (turn : Nat → Counts) (later : Counts) :
    ((List.range (turns dir deferred n (items - di))).flatMap fun i =>
        emitItems dir deferred items (turn i) (turnItem dir di i) group) ++
      emitItems dir deferred items later di rest =
    paired dir items di
      (((List.range n).flatMap fun i => expanded (turn i) group) ++ expanded later rest) := by
  have all := right (Counts.cons n turn later)
  rw [emitItems, emitItem, expanded, expandedItem, cons_later] at all
  simpa [nextItem] using all

theorem right_rest (right : Right dir false items di (.repeated group :: rest)) :
    Right dir false items di rest := by
  intro counts
  have all := right_turns right 0 (fun _ => counts) counts
  have none : turns dir false 0 (items - di) = 0 := by cases dir <;> simp [turns]
  rw [none] at all
  simpa using all

theorem right_nodup (right : Right dir deferred items di (.repeated group :: rest)) (n : Nat)
    (turn : Nat → Counts) (later : Counts) :
    (datas (((List.range (turns dir deferred n (items - di))).flatMap fun i =>
        emitItems dir deferred items (turn i) (turnItem dir di i) group) ++
      emitItems dir deferred items later di rest)).Nodup := by
  rw [right_turns right, datas_paired]
  exact List.nodup_range'

end Peeling

section Get

theorem get_right_iff (items : Nat) (fmts : List (FormatItem L)) : ∀ di,
    Right .get false items di fmts ↔ Paired .get false items di fmts := by
  induction fmts with
  | nil => exact fun di => ⟨fun _ => trivial, fun _ counts => rfl⟩
  | cons item rest ih =>
    intro di
    cases item with
    | one f => exact (right_one f).trans (ih _)
    | remote label => exact (right_remote label).trans (ih _)
    | repeated group =>
      constructor
      · intro right
        refine ⟨fun left => ?_, (ih di).mp (right_rest right)⟩
        cases data : hasData group with
        | false => rfl
        | true =>
          obtain ⟨more, first⟩ := first_item (m := 1) (by decide) .get false items group di left
            data
          have twice := right_nodup right 2 (fun _ => always 1) (always 1)
          simp [turns, turnItem, List.range_succ, first] at twice
      · rintro ⟨none, later⟩ counts
        have each : ∀ i, after items di (expanded (counts.turn i) group) = di := fun i =>
          after_same fun left f member =>
            noData_leaves (none left) f (expanded_leaves _ _ f member)
        obtain ⟨turns_paired, stays⟩ := paired_flatMap .get counts.here each
        rw [emitItems, emitItem, expanded, expandedItem, paired_append, turns_paired, stays,
          nextItem, (ih di).mpr later]
        congr 1
        exact List.flatMap_congr fun i _ => get_noData items group _ _ none

end Get

section Put
variable {items di : Nat} {group rest : List (FormatItem L)}

def hasDirect : List (FormatItem L) → Bool
  | [] => false
  | .one f :: rest => f.kind.isData || hasDirect rest
  | .remote _ :: rest | .repeated _ :: rest => hasDirect rest

variable {fmts : List (FormatItem L)}

theorem direct_data (direct : hasDirect fmts = true) : hasData fmts = true := by
  induction fmts with
  | nil => cases direct
  | cons item rest ih =>
    rw [hasData_cons]
    cases item with
    | one f =>
      rcases Bool.or_eq_true _ _ ▸ direct with own | later
      · simp [leavesItem, own]
      · simp [ih later]
    | remote label => exact ih direct
    | repeated group =>
      rw [ih direct]
      simp

theorem no_direct_zero (items : Nat) {fmts : List (FormatItem L)} (none : hasDirect fmts = false)
    (di : Nat) :
    datas (emitItems .put false items (always 0) di fmts) = [] := by
  induction fmts generalizing di with
  | nil => rfl
  | cons item rest ih =>
    rw [emitItems, datas_append, always_later]
    cases item with
    | one f =>
      obtain ⟨own, later⟩ := Bool.or_eq_false_iff.mp none
      rw [emitItem, datas_emitOne, own, ih later]
      rfl
    | remote label => exact ih none _
    | repeated group =>
      rw [emitItem, always_here]
      simpa [turns, datas, nextItem] using ih none di

theorem repeats_item (left : di < items) {fmts : List (FormatItem L)}
    (grouped : firstDirect fmts = false) (direct : hasDirect fmts = true) :
    ¬ (datas (emitItems .put false items (always 1) di fmts)).Nodup := by
  induction fmts with
  | nil => cases direct
  | cons item rest ih =>
    rw [emitItems, datas_append, always_later]
    cases item with
    | one f =>
      obtain ⟨own, later⟩ := Bool.or_eq_false_iff.mp grouped
      have direct' : hasDirect rest = true := by simpa [hasDirect, own] using direct
      rw [emitItem, datas_emitOne, own]
      simpa [nextItem, own] using ih later direct'
    | remote label => exact ih grouped direct
    | repeated group =>
      intro nodup
      cases data : hasData group with
      | true =>
        have own : hasData [FormatItem.repeated group] = true := by
          rw [hasData_repeated, data]
          rfl
        obtain ⟨more, first⟩ :=
          first_item (m := 1) (by decide) .put false items [.repeated group] di left own
        obtain ⟨others, second⟩ :=
          first_item (m := 1) (by decide) .put false items rest di left (direct_data direct)
        rw [emitItems, emitItems, List.append_nil] at first
        rw [nextItem, first, second] at nodup
        simp at nodup
      | false =>
        have later : firstDirect rest = false := by simpa [firstDirect, data] using grouped
        exact ih later direct (List.nodup_append.mp nodup).2.1

theorem second_item (left : di + 1 < items) {fmts : List (FormatItem L)}
    (direct : firstDirect fmts = true) (two : 2 ≤ countDataFormats fmts) :
    di + 1 ∈ datas (emitItems .put false items (always 1) di fmts) := by
  induction fmts with
  | nil => cases direct
  | cons item rest ih =>
    rw [emitItems, datas_append, always_later, List.mem_append]
    cases item with
    | one f =>
      have count : countDataFormats (.one f :: rest) =
          (if f.kind.isData then 1 else 0) + countDataFormats rest := by
        simp [countDataFormats, leaves, leavesItem, List.countP_cons, Nat.add_comm]
      rw [count] at two
      cases own : f.kind.isData with
      | true =>
        rw [own, if_pos rfl] at two
        have data : hasData rest = true := by
          rw [hasData, List.any_eq_true]
          have positive : 0 < (leaves rest).countP (·.kind.isData) := by
            change 0 < countDataFormats rest
            omega
          exact List.countP_pos_iff.mp positive
        have next : nextItem items di (FormatItem.one (L := L) f) = di + 1 := by
          simp [nextItem, own, show di < items by omega]
        obtain ⟨more, first⟩ :=
          first_item (m := 1) (by decide) .put false items rest (di + 1) left data
        rw [next, first]
        exact Or.inr List.mem_cons_self
      | false =>
        rw [own] at two
        have later : firstDirect rest = true := by simpa [firstDirect, own] using direct
        have next : nextItem items di (FormatItem.one (L := L) f) = di := by simp [nextItem, own]
        rw [next]
        exact Or.inr (ih later (by simpa using two))
    | remote label => exact Or.inr (ih direct two)
    | repeated group =>
      obtain ⟨none, later⟩ := Bool.and_eq_true _ _ ▸ direct
      have noData : hasData group = false := by simpa using none
      have count : countDataFormats (.repeated group :: rest) = countDataFormats rest := by
        have zero : (leaves group).countP (·.kind.isData) = 0 := by
          rw [List.countP_eq_zero]
          intro f member
          simp [noData_leaves noData f member]
        simp [countDataFormats, leaves, leavesItem, zero]
      rw [count] at two
      exact Or.inr (ih later two)

theorem put_group (right : Right .put false items di (.repeated group :: rest)) :
    Silent .put items di group ∨ SingleFormat items di group rest := by
  have noControl : hasControl .put group = false := by
    cases control : hasControl .put group with
    | false => rfl
    | true =>
      obtain ⟨f, inside, is⟩ := List.any_eq_true.mp control
      have all := congrArg controls (right_turns right (items + 1) (fun _ => always 1) (always 1))
      rw [controls_append, controls_paired, List.countP_append] at all
      have rest_le := put_controls items rest (always 1) di
      have fewer : turns .put false (items + 1) (items - di) ≤ items := by
        simp only [turns]
        omega
      have group_le : controls ((List.range (turns .put false (items + 1) (items - di))).flatMap
            fun i => emitItems .put false items (always 1) (turnItem .put di i) group) ≤
          ((List.range items).flatMap fun _ => expanded (always 1) group).countP
            (·.isControl .put) :=
        flatMap_controls fewer fun i => put_controls items group _ _
      rw [List.range_succ, List.flatMap_append, List.flatMap_singleton, List.countP_append] at all
      have positive : 0 < (expanded (always 1) group).countP (·.isControl .put) :=
        List.countP_pos_iff.mpr ⟨f, leaves_expanded (by decide) group f inside, is⟩
      omega
  by_cases silent : di < items → hasData group = false
  · exact Or.inl ⟨noControl, silent⟩
  · rw [Classical.not_imp, Bool.not_eq_false] at silent
    obtain ⟨left, data⟩ := silent
    have one_turn : turns .put false 1 (items - di) = 1 := by
      simp only [turns]
      omega
    obtain ⟨more, first⟩ := first_item (m := 1) (by decide) .put false items group di left data
    have last : hasData rest = false := by
      cases later : hasData rest with
      | false => rfl
      | true =>
        obtain ⟨others, second⟩ :=
          first_item (m := 1) (by decide) .put false items rest di left later
        have twice := right_nodup right 1 (fun _ => always 1) (always 1)
        rw [one_turn] at twice
        simp [turnItem, first, second] at twice
    have rest_none : datas (emitItems .put false items (always 1) di rest) = [] :=
      emits_noData .put false items rest _ _ last
    have direct : firstDirect group = true := by
      cases is : firstDirect group with
      | true => rfl
      | false =>
        cases has : hasDirect group with
        | true =>
          have once := right_nodup right 1 (fun _ => always 1) (always 1)
          rw [one_turn, datas_append, rest_none] at once
          exact absurd (by simpa [turnItem] using once) (repeats_item left is has)
        | false =>
          -- nothing in the first turn, the group's data formats in the second
          have all := congrArg datas
            (right_turns right 2 (fun i => always (if i = 0 then 0 else 1)) (always 1))
          have nothing := no_direct_zero items has di
          rw [datas_append, rest_none, datas_paired] at all
          have some_item : 0 < min ((((List.range 2).flatMap fun i =>
              expanded (always (if i = 0 then 0 else 1)) group) ++
                expanded (always 1) rest).countP (·.kind.isData)) (items - di) := by
            obtain ⟨f, inside, isData⟩ := List.any_eq_true.mp data
            have member : f ∈ ((List.range 2).flatMap fun i =>
                expanded (always (if i = 0 then 0 else 1)) group) ++ expanded (always 1) rest :=
              List.mem_append_left _ (List.mem_flatMap.mpr
                ⟨1, by simp, leaves_expanded (by decide) group f inside⟩)
            have positive : 0 < (((List.range 2).flatMap fun i =>
                expanded (always (if i = 0 then 0 else 1)) group) ++
                  expanded (always 1) rest).countP (·.kind.isData) :=
              List.countP_pos_iff.mpr ⟨f, member, isData⟩
            omega
          obtain ⟨k, count⟩ := Nat.exists_eq_succ_of_ne_zero (Nat.ne_of_gt some_item)
          rw [count, Nat.succ_eq_add_one, List.range'_succ] at all
          rcases Nat.lt_or_ge (di + 1) items with more_left | only
          · obtain ⟨others, second⟩ :=
              first_item (m := 1) (by decide) .put false items group (di + 1) more_left data
            have two : turns .put false 2 (items - di) = 2 := by
              simp only [turns]
              omega
            rw [two] at all
            simp [List.range_succ, turnItem, nothing, second] at all
          · have one : turns .put false 2 (items - di) = 1 := by
              simp only [turns]
              omega
            rw [one] at all
            simp [turnItem, nothing] at all
    refine Or.inr ⟨left, noControl, direct, ?_, last⟩
    by_cases only : items - di = 1
    · exact Or.inl only
    · refine Or.inr ?_
      have positive : 0 < countDataFormats group :=
        List.countP_pos_iff.mpr (List.any_eq_true.mp data)
      by_contra several
      have second : di + 1 ∈ datas (emitItems .put false items (always 1) di group) :=
        second_item (by omega) direct (by omega)
      obtain ⟨others, again⟩ :=
        first_item (m := 1) (by decide) .put false items group (di + 1) (by omega) data
      have twice := right_nodup right 2 (fun _ => always 1) (always 1)
      have two : turns .put false 2 (items - di) = 2 := by
        simp only [turns]
        omega
      rw [two] at twice
      simp only [List.range_succ, List.range_zero, List.nil_append, List.flatMap_append,
        List.flatMap_singleton, turnItem, Nat.add_zero, datas_append, again] at twice
      have apart := List.nodup_append.mp (List.nodup_append.mp twice).1
      exact apart.2.2 _ second _ List.mem_cons_self rfl

theorem put_data {f : Format} (noControl : f.isControl .put = false) : f.kind.isData = true := by
  simpa [Format.isControl] using noControl

theorem put_nothing (noControl : hasControl .put fmts = false)
    (noData : hasData fmts = false) (counts : Counts) : expanded counts fmts = [] := by
  rw [List.eq_nil_iff_forall_not_mem]
  intro f member
  have inside := expanded_leaves fmts counts f member
  have isData := put_data (noControl_leaves noControl f inside)
  rw [noData_leaves noData f inside] at isData
  cases isData

theorem count_noData : countDataFormats fmts = 0 ↔ hasData fmts = false := by
  rw [countDataFormats, hasData, List.countP_eq_zero, List.any_eq_false]

theorem single_format (items : Nat) {fmts : List (FormatItem L)}
    (noControl : hasControl .put fmts = false)
    (direct : firstDirect fmts = true) : ∃ f : Format, f.kind.isData = true ∧
      (∀ counts, ∃ more, expanded counts fmts = f :: more ∧
        (countDataFormats fmts = 1 → more = [])) ∧
      ∀ counts di, di < items → di + 1 = items ∨ countDataFormats fmts = 1 →
        emitItems .put false items counts di fmts = [⟨f, some di⟩] := by
  induction fmts with
  | nil => cases direct
  | cons item rest ih =>
    cases item with
    | one f =>
      rw [hasControl_one, Bool.or_eq_false_iff] at noControl
      have isData := put_data noControl.1
      have single : countDataFormats (.one f :: rest) = 1 → hasData rest = false := by
        intro count
        rw [← count_noData]
        simpa [countDataFormats, leaves, leavesItem, List.countP_cons, isData] using count
      refine ⟨f, isData, fun counts => ⟨expanded counts.later rest, rfl, fun count =>
        put_nothing noControl.2 (single count) _⟩, fun counts di left only => ?_⟩
      have next : nextItem items di (FormatItem.one (L := L) f) = di + 1 := by
        simp [nextItem, isData, left]
      have silent : Silent .put items (di + 1) rest := by
        refine ⟨noControl.2, fun more => single (only.resolve_left ?_)⟩
        omega
      rw [emitItems, emitItem, emitOne_data isData, if_pos left, next,
        silent_emits _ _ _ _ _ _ silent]
      rfl
    | remote label =>
      obtain ⟨f, isData, forms, events⟩ := ih noControl direct
      exact ⟨f, isData, fun counts => forms counts.later, fun counts => events counts.later⟩
    | repeated group =>
      rw [hasControl_repeated, Bool.or_eq_false_iff] at noControl
      obtain ⟨none, later⟩ := Bool.and_eq_true _ _ ▸ direct
      have noData : hasData group = false := by simpa using none
      obtain ⟨f, isData, forms, events⟩ := ih noControl.2 later
      have count : countDataFormats (.repeated group :: rest) = countDataFormats rest := by
        have zero : (leaves group).countP (·.kind.isData) = 0 := count_noData.mpr noData
        simp [countDataFormats, leaves, leavesItem, zero]
      rw [count]
      refine ⟨f, isData, fun counts => ?_, fun counts di left only => ?_⟩
      · have nothing : expandedItem counts (.repeated group) = [] := by
          rw [expandedItem, List.flatMap_eq_nil_iff]
          exact fun i _ => put_nothing noControl.1 noData _
        rw [expanded, nothing, List.nil_append]
        exact forms _
      · have nothing : emitItem .put false items counts di (.repeated group) = [] := by
          rw [emitItem, List.flatMap_eq_nil_iff]
          exact fun i _ => silent_emits _ _ _ _ _ _ ⟨noControl.1, fun _ => noData⟩
        rw [emitItems, nothing, List.nil_append]
        exact events _ _ left only

theorem paired_replicate {f : Format} (isData : f.kind.isData = true) (n : Nat) : ∀ di,
    paired .put items di (List.replicate n f) =
      (List.range (min n (items - di))).map fun i => ⟨f, some (di + i)⟩ := by
  induction n with
  | zero =>
    intro di
    simp [paired]
  | succ n ih =>
    intro di
    rw [List.replicate_succ, paired, emitOne_data isData, ih]
    by_cases left : di < items
    · have count : min (n + 1) (items - di) = min n (items - (di + 1)) + 1 := by omega
      rw [if_pos left, isData, count, List.range_succ_eq_map]
      simp [left, Nat.add_comm, Nat.add_left_comm]
    · have none : items - di = 0 := by omega
      simp [left, none]

theorem single_paired (single : SingleFormat items di group rest) (counts : Counts) :
    emitItem .put false items counts di (.repeated group) =
      paired .put items di (expandedItem counts (.repeated group)) := by
  obtain ⟨f, isData, forms, events⟩ := single_format items single.noControl single.direct
  have emitted : emitItem .put false items counts di (.repeated group) =
      (List.range (min counts.here (items - di))).map fun i => ⟨f, some (di + i)⟩ := by
    rw [emitItem, List.map_eq_flatMap]
    refine List.flatMap_congr fun i member => ?_
    have inRange : i < min counts.here (items - di) := List.mem_range.mp member
    refine events _ _ ?_ ?_
    · change di + i < items
      omega
    · refine single.single.imp (fun only => ?_) id
      change di + i + 1 = items
      omega
  rw [emitted, expandedItem]
  rcases single.single with only | count
  · rcases Nat.eq_zero_or_pos counts.here with zero | positive
    · simp [zero, paired]
    · obtain ⟨n, some_turns⟩ := Nat.exists_eq_succ_of_ne_zero (Nat.ne_of_gt positive)
      obtain ⟨more, form, _⟩ := forms (counts.turn 0)
      have one : min counts.here (items - di) = 1 := by omega
      have form' : ((List.range counts.here).flatMap fun i => expanded (counts.turn i) group) =
          f :: (more ++ (List.map Nat.succ (List.range n)).flatMap fun i =>
            expanded (counts.turn i) group) := by
        rw [some_turns, Nat.succ_eq_add_one, List.range_succ_eq_map, List.flatMap_cons, form,
          List.cons_append]
      have past : paired .put items (di + 1) (more ++ (List.map Nat.succ (List.range n)).flatMap
          fun i => expanded (counts.turn i) group) = [] := by
        refine silent_paired ?_ fun left => by omega
        intro g member
        have inside := List.mem_cons_of_mem f member
        rw [← form'] at inside
        obtain ⟨i, _, own⟩ := List.mem_flatMap.mp inside
        exact noControl_leaves single.noControl g (expanded_leaves _ _ g own)
      rw [one, form', paired, emitOne_data isData, if_pos single.left, isData]
      simp only [single.left, decide_true, Bool.and_true, if_true, past]
      rfl
  · have each : ∀ i, expanded (counts.turn i) group = [f] := by
      intro i
      obtain ⟨more, form, none⟩ := forms (counts.turn i)
      rw [form, none count]
    have repeated : ((List.range counts.here).flatMap fun i => expanded (counts.turn i) group) =
        List.replicate counts.here f := by
      rw [List.flatMap_congr fun i _ => each i, ← List.map_eq_flatMap, List.map_const',
        List.length_range]
    rw [repeated, paired_replicate isData]

theorem put_right_iff (items : Nat) (fmts : List (FormatItem L)) : ∀ di,
    Right .put false items di fmts ↔ Paired .put false items di fmts := by
  induction fmts with
  | nil => exact fun di => ⟨fun _ => trivial, fun _ counts => rfl⟩
  | cons item rest ih =>
    intro di
    cases item with
    | one f => exact (right_one f).trans (ih _)
    | remote label => exact (right_remote label).trans (ih _)
    | repeated group =>
      constructor
      · exact fun right => ⟨put_group right, (ih di).mp (right_rest right)⟩
      · rintro ⟨paired_group, later⟩ counts
        rw [emitItems, expanded, paired_append, nextItem, (ih di).mpr later]
        rcases paired_group with silent | single
        · obtain ⟨emitted, forms, stays⟩ := silent_group false silent counts
          rw [emitted, forms, stays]
        · rw [single_paired single]
          congr 1
          exact paired_noData (fun f member => noData_leaves single.last f
            (expanded_leaves _ _ f member)) _ _

end Put

end PliEditFormats
