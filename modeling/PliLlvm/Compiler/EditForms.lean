import PliLlvm.Compiler.EditPairing

/- The deferred form, when it agrees with the form in place, and remote formats. -/
namespace PliEditFormats
variable {L : Type}

section Deferred
variable {dir : Direction} {items di : Nat} {group rest : List (FormatItem L)}

theorem emitOne_nothing {f : Format} (nothing : emitOne dir items di f = []) :
    f.isControl dir = false ∧ (di < items → f.kind.isData = false) := by
  cases data : f.kind.isData with
  | true =>
    rw [emitOne_data data] at nothing
    refine ⟨?_, fun left => ?_⟩
    · cases control : f.isControl dir with
      | false => rfl
      | true =>
        rw [control_not_data control] at data
        cases data
    · rw [if_pos left] at nothing
      cases nothing
  | false =>
    rw [emitOne_other data] at nothing
    refine ⟨?_, fun _ => rfl⟩
    cases control : f.isControl dir with
    | false => rfl
    | true =>
      rw [control, if_pos rfl] at nothing
      cases nothing

theorem deferred_silent (fmts : List (FormatItem L)) : ∀ counts di, dir = .get ∨ di < items →
    emitItems dir true items counts di fmts = [] → Silent dir items di fmts := by
  induction fmts using formats_induction with
  | nil => exact fun _ _ _ _ => ⟨rfl, fun _ => rfl⟩
  | one f rest ih =>
    intro counts di turn nothing
    rw [emitItems, List.append_eq_nil_iff] at nothing
    obtain ⟨noControl, noData⟩ := emitOne_nothing nothing.1
    have same : nextItem items di (FormatItem.one (L := L) f) = di := by
      by_cases left : di < items
      · simp [nextItem, noData left]
      · simp [nextItem, left]
    have later := ih _ _ turn (same ▸ nothing.2)
    refine ⟨by rw [hasControl_one, noControl, later.1]; rfl, fun left => ?_⟩
    rw [hasData_one, noData left, later.2 left]
    rfl
  | remote label rest ih => exact fun counts di turn nothing => ih _ di turn nothing
  | repeated group rest inner ih =>
    intro counts di turn nothing
    rw [emitItems, List.append_eq_nil_iff, emitItem, List.flatMap_eq_nil_iff] at nothing
    have first : 0 < turns dir true counts.here (items - di) := by
      rcases turn with rfl | left
      · exact Nat.one_pos
      · cases dir <;> simp only [turns] <;> omega
    have start : turnItem dir di 0 = di := by cases dir <;> rfl
    have own := inner _ _ turn (start ▸ nothing.1 0 (List.mem_range.mpr first))
    have later := ih _ _ turn nothing.2
    refine ⟨by rw [hasControl_repeated, own.1, later.1]; rfl, fun left => ?_⟩
    rw [hasData_repeated, own.2 left, later.2 left]
    rfl

theorem deferred_group (counts counts' : Counts) (di : Nat) :
    emitItem dir true items counts di (.repeated group) =
      emitItem dir true items counts' di (.repeated group) := by
  have same := deferred_counts dir items [.repeated group] counts counts' di
  rwa [emitItems, emitItems, emitItems, emitItems, List.append_nil, List.append_nil] at same

theorem group_silent (counts : Counts) (turn : dir = .get ∨ di < items)
    (nothing : emitItem dir true items counts di (.repeated group) = []) :
    Silent dir items di group := by
  have silent : Silent dir items di [.repeated group] := by
    refine deferred_silent [.repeated group] counts di turn ?_
    rw [emitItems, emitItems, nothing]
    rfl
  exact (silent_repeated silent).1

section
variable (right : Right dir true items di (.repeated group :: rest))
include right

theorem deferred_nothing
    (counts : Counts) : emitItem dir true items counts di (.repeated group) = [] := by
  have all := right (Counts.cons 0 (fun _ => always 0) (always 0))
  rw [emitItems, expanded, cons_later, paired_append] at all
  have none : expandedItem (Counts.cons 0 (fun _ => always 0) (always 0)) (.repeated group) =
    [] := by
    rw [expandedItem, cons_here]
    rfl
  rw [none] at all
  have length := congrArg List.length all
  rw [List.length_append, paired, List.nil_append] at length
  have rest_le := deferred_length dir items rest (always 0) di
  have same : after items di [] = di := rfl
  rw [same, nextItem] at length
  rw [deferred_group counts (Counts.cons 0 (fun _ => always 0) (always 0)),
    ← List.length_eq_zero_iff]
  omega

theorem deferred_rest :
    Right dir true items di rest := by
  intro counts
  have all := right (Counts.cons 0 (fun _ => counts) counts)
  rw [emitItems, deferred_nothing right, cons_later] at all
  rw [expanded, expandedItem, cons_here, cons_later] at all
  exact all

theorem deferred_group_silent :
    Silent dir items di group := by
  by_cases turn : dir = .get ∨ di < items
  · exact group_silent (always 0) turn (deferred_nothing right _)
  · obtain ⟨output, none_left⟩ := not_or.mp turn
    refine ⟨?_, fun left => absurd left none_left⟩
    -- without items the group has no turn, and its control formats are to take effect
    have all := congrArg controls (right (Counts.cons 1 (fun _ => always 1) (always 1)))
    rw [emitItems, deferred_nothing right, cons_later, nextItem, deferred_rest right,
      List.nil_append, controls_paired, controls_paired, expanded, List.countP_append,
      cons_later] at all
    cases control : hasControl dir group with
    | false => rfl
    | true =>
      obtain ⟨f, inside, is⟩ := List.any_eq_true.mp control
      have member : f ∈ expandedItem (Counts.cons 1 (fun _ => always 1) (always 1))
          (.repeated group) :=
        List.mem_flatMap.mpr ⟨0, by simp, leaves_expanded (by decide) group f inside⟩
      have positive : 0 < (expandedItem (Counts.cons 1 (fun _ => always 1) (always 1))
          (.repeated group)).countP (·.isControl dir) :=
        List.countP_pos_iff.mpr ⟨f, member, is⟩
      omega

end

theorem deferred_right_iff (items : Nat) (fmts : List (FormatItem L)) : ∀ di,
    Right dir true items di fmts ↔ Paired dir true items di fmts := by
  induction fmts with
  | nil => exact fun di => ⟨fun _ => trivial, fun _ counts => rfl⟩
  | cons item rest ih =>
    intro di
    cases item with
    | one f => exact (right_one f).trans (ih _)
    | remote label => exact (right_remote label).trans (ih _)
    | repeated group =>
      have paired_iff : GroupPaired dir true items di group rest ↔ Silent dir items di group := by
        cases dir <;> rfl
      rw [Paired, paired_iff]
      constructor
      · exact fun right => ⟨deferred_group_silent right, (ih di).mp (deferred_rest right)⟩
      · rintro ⟨silent, later⟩ counts
        obtain ⟨emitted, forms, stays⟩ := silent_group true silent counts
        rw [emitItems, expanded, paired_append, nextItem, (ih di).mpr later, emitted, forms, stays]

end Deferred

section Agreement
variable {dir : Direction} {items : Nat}

def SilentGroups (dir : Direction) (items : Nat) : Nat → List (FormatItem L) → Prop
  | _, [] => True
  | di, .one f :: rest =>
    SilentGroups dir items (nextItem items di (FormatItem.one (L := L) f)) rest
  | di, .remote _ :: rest => SilentGroups dir items di rest
  | di, .repeated group :: rest =>
      (dir = .get ∨ di < items → Silent dir items di group) ∧ SilentGroups dir items di rest

def Unread (items : Nat) : Nat → List (FormatItem L) → Prop
  | _, [] => True
  | di, .one f :: rest =>
      (emitOne .get items di f ≠ [] → ∀ r ∈ f.refs, di ≤ r) ∧
        Unread items (nextItem items di (FormatItem.one (L := L) f)) rest
  | di, .remote _ :: rest | di, .repeated _ :: rest => Unread items di rest

theorem silentGroups_nothing {di : Nat} {group : List (FormatItem L)}
    (silent : dir = .get ∨ di < items → Silent dir items di group) (deferred : Bool)
    (counts : Counts) : emitItem dir deferred items counts di (.repeated group) = [] := by
  by_cases turn : dir = .get ∨ di < items
  · exact (silent_group deferred (silent turn) counts).1
  · obtain ⟨output, none_left⟩ := not_or.mp turn
    have no_turn : turns dir deferred counts.here (items - di) = 0 := by
      cases dir with
      | get => exact absurd rfl output
      | put => cases deferred <;> simp only [turns] <;> omega
    rw [emitItem, no_turn]
    rfl

theorem same_events_iff (fmts : List (FormatItem L)) : ∀ di,
    (∀ counts, emitItems dir true items counts di fmts = emitItems dir false items counts di fmts) ↔
      SilentGroups dir items di fmts := by
  induction fmts with
  | nil => exact fun di => ⟨fun _ => trivial, fun _ counts => rfl⟩
  | cons item rest ih =>
    intro di
    cases item with
    | one f =>
      refine Iff.trans ⟨fun same counts => ?_, fun same counts => ?_⟩ (ih _)
      · have all := same (Counts.cons 0 (fun _ => counts) counts)
        rw [emitItems, emitItems, cons_later] at all
        exact List.append_cancel_left all
      · rw [emitItems, emitItems, same]
        rfl
    | remote label =>
      refine Iff.trans ⟨fun same counts => ?_, fun same counts => same counts.later⟩ (ih di)
      have all := same (Counts.cons 0 (fun _ => counts) counts)
      rw [emitItems, emitItems, cons_later] at all
      exact all
    | repeated group =>
      constructor
      · intro same
        have in_place : ∀ later, emitItem dir false items (Counts.cons 0 (fun _ => later) later) di
            (.repeated group) = [] := by
          intro later
          have zero : turns dir false 0 (items - di) = 0 := by cases dir <;> simp [turns]
          rw [emitItem, cons_here, Int.toNat_zero, zero]
          rfl
        have nothing : ∀ counts, emitItem dir true items counts di (.repeated group) = [] := by
          intro counts
          have all := congrArg List.length (same (Counts.cons 0 (fun _ => always 0) (always 0)))
          rw [emitItems, emitItems, cons_later, in_place, List.nil_append, nextItem, emits_zero,
            List.length_append] at all
          have rest_le := deferred_length dir items rest (always 0) di
          rw [deferred_group counts (Counts.cons 0 (fun _ => always 0) (always 0)),
            ← List.length_eq_zero_iff]
          omega
        refine ⟨fun turn => group_silent (always 0) turn (nothing _), (ih di).mp fun counts => ?_⟩
        have all := same (Counts.cons 0 (fun _ => counts) counts)
        rw [emitItems, emitItems, cons_later, in_place, nothing] at all
        exact all
      · rintro ⟨silent, later⟩ counts
        rw [emitItems, emitItems, silentGroups_nothing silent, silentGroups_nothing silent,
          nextItem, (ih di).mpr later]

theorem withViews_fst (events : List Event) :
    ∀ read, (withViews read events).map Prod.fst = events := by
  induction events with
  | nil => exact fun _ => rfl
  | cons e rest ih => exact fun read => congrArg (e :: ·) (ih _)

theorem views_iff (fmts : List (FormatItem L)) : ∀ counts di read,
    (∀ r, r ∈ read ↔ r < di) → SilentGroups .get items di fmts →
      (withViews read (emitItems .get false items counts di fmts) =
          (emitItems .get false items counts di fmts).map (·, []) ↔ Unread items di fmts) := by
  induction fmts with
  | nil => exact fun _ _ _ _ _ => ⟨fun _ => trivial, fun _ => rfl⟩
  | cons item rest ih =>
    intro counts di read before silent
    cases item with
    | one f =>
      have seen : f.refs.filter (· ∈ read) = [] ↔ ∀ r ∈ f.refs, di ≤ r := by
        simp [List.filter_eq_nil_iff, before]
      rw [emitItems, emitItem, Unread]
      by_cases takes : f.kind.isData = true ∧ di < items
      · obtain ⟨isData, left⟩ := takes
        have next : nextItem items di (FormatItem.one (L := L) f) = di + 1 := by
          simp [nextItem, isData, left]
        have before' : ∀ r, r ∈ read ++ [di] ↔ r < di + 1 := by
          intro r
          rw [List.mem_append, before, List.mem_singleton]
          omega
        rw [SilentGroups, next] at silent
        have later := ih counts.later _ _ before' silent
        rw [emitOne_data isData, if_pos left, next]
        simpa [withViews, seen] using and_congr_right fun _ => later
      · have next : nextItem items di (FormatItem.one (L := L) f) = di := by
          simpa [nextItem] using takes
        rw [SilentGroups, next] at silent
        have later := ih counts.later _ _ before silent
        have emitted : emitOne .get items di f = [] ∨ emitOne .get items di f = [⟨f, none⟩] := by
          cases isData : f.kind.isData with
          | true =>
            rw [emitOne_data isData, if_neg fun left => takes ⟨isData, left⟩]
            exact Or.inl rfl
          | false =>
            rw [emitOne_other isData]
            split
            · exact Or.inr rfl
            · exact Or.inl rfl
        rw [next]
        rcases emitted with nothing | control
        · rw [nothing]
          simpa using later
        · rw [control]
          simpa [withViews, seen] using and_congr_right fun _ => later
    | remote label => exact ih counts.later di read before silent
    | repeated group =>
      rw [emitItems, silentGroups_nothing silent.1]
      exact ih counts.later di read before silent.2

theorem same_transmission_iff (dir : Direction) (items : Nat) (fmts : List (FormatItem L)) :
    (∀ counts, transmission dir true (emitItems dir true items counts 0 fmts) =
        transmission dir false (emitItems dir false items counts 0 fmts)) ↔
      SilentGroups dir items 0 fmts ∧ (dir = .get → Unread items 0 fmts) := by
  have unseen : ∀ events, transmission dir true events = events.map (·, []) := by
    intro events
    rw [transmission, if_neg (by simp)]
  cases dir with
  | put =>
    have in_place : ∀ events, transmission .put false events = events.map (·, []) := fun _ => rfl
    simp only [unseen, in_place, reduceCtorEq, false_implies, and_true]
    rw [← same_events_iff]
    have injective : Function.Injective fun e : Event => (e, ([] : List Nat)) := by
      intro e e' same
      exact congrArg Prod.fst same
    exact forall_congr' fun counts => (List.map_injective_iff.mpr injective).eq_iff
  | get =>
    have in_place : ∀ events, transmission .get false events = withViews [] events := fun _ => rfl
    simp only [unseen, in_place, true_implies]
    have start : ∀ r, r ∈ ([] : List Nat) ↔ r < 0 := by simp
    constructor
    · intro same
      have silent : SilentGroups .get items 0 fmts := by
        rw [← same_events_iff]
        intro counts
        have first := congrArg (List.map Prod.fst) (same counts)
        rw [withViews_fst, List.map_map] at first
        simpa [Function.comp_def] using first
      refine ⟨silent, (views_iff fmts (always 0) 0 [] start silent).mp ?_⟩
      rw [← same, (same_events_iff fmts 0).mpr silent]
    · rintro ⟨silent, unread⟩ counts
      rw [(same_events_iff fmts 0).mpr silent, (views_iff fmts counts 0 [] start silent).mpr unread]

end Agreement

section Remote
variable [DecidableEq L] {formatMap : L → Option (List (FormatItem L))}

theorem expandItems_splices {expand : List L → List (FormatItem L) → Option (List (FormatItem L))}
    (inner : ∀ active fmts out, expand active fmts = some out → Splices formatMap fmts out)
    (fmts : List (FormatItem L)) : ∀ active out,
      expandItems formatMap expand active fmts = some out → Splices formatMap fmts out := by
  induction fmts using formats_induction with
  | nil =>
    intro active out done
    obtain rfl : [] = out := by simpa [expandItems] using done
    exact .nil
  | one f rest ih =>
    intro active out done
    rw [expandItems, expandItem, Option.bind_some, Option.map_eq_some_iff] at done
    obtain ⟨rest', later, rfl⟩ := done
    exact .one f (ih active rest' later)
  | remote label rest ih =>
    intro active out done
    rw [expandItems, Option.bind_eq_some_iff] at done
    obtain ⟨formats', spliced, more⟩ := done
    obtain ⟨rest', later, rfl⟩ := Option.map_eq_some_iff.mp more
    rw [expandItem, Option.bind_eq_some_iff] at spliced
    obtain ⟨formats, found, called⟩ := spliced
    by_cases cycle : label ∈ active
    · rw [if_pos cycle] at called
      cases called
    · rw [if_neg cycle] at called
      exact .remote found (inner _ _ _ called) (ih active rest' later)
  | repeated group rest own ih =>
    intro active out done
    rw [expandItems, Option.bind_eq_some_iff] at done
    obtain ⟨group', spliced, more⟩ := done
    obtain ⟨rest', later, rfl⟩ := Option.map_eq_some_iff.mp more
    rw [expandItem, Option.map_eq_some_iff] at spliced
    obtain ⟨items', inside, rfl⟩ := spliced
    exact .repeated (own active items' inside) (ih active rest' later)

theorem expandLevels_splices (levels : Nat) : ∀ active fmts out,
    expandLevels formatMap levels active fmts = some out → Splices formatMap fmts out := by
  induction levels with
  | zero =>
    intro active fmts out done
    cases done
  | succ levels ih => exact fun active fmts out done => expandItems_splices ih fmts active out done

/-- An EDIT statement after expansion: what its remote formats stand for, when each of the forms
    transmits every item with its own format, and when the forms agree. -/
theorem edit_items_iff (dir : Direction) (items : Nat) {written fmts : List (FormatItem L)}
    (accepted : expandRemoteFormats formatMap written = some fmts) :
    Splices formatMap written fmts ∧
      (∀ deferred, Right dir deferred items 0 fmts ↔ Paired dir deferred items 0 fmts) ∧
      ((∀ counts, transmission dir true (emitItems dir true items counts 0 fmts) =
          transmission dir false (emitItems dir false items counts 0 fmts)) ↔
        SilentGroups dir items 0 fmts ∧ (dir = .get → Unread items 0 fmts)) := by
  refine ⟨expandLevels_splices 17 [] written fmts accepted, fun deferred => ?_,
    same_transmission_iff dir items fmts⟩
  cases deferred with
  | true => exact deferred_right_iff items fmts 0
  | false =>
    cases dir with
    | put => exact put_right_iff items fmts 0
    | get => exact get_right_iff items fmts 0

def remoteFormat (label : Nat) : Option (List (FormatItem Nat)) :=
  if label = 0 then some [.one ⟨.f, []⟩, .one ⟨.x, []⟩] else none

/-- GET EDIT (A, B) (R(L), F(4)) and PUT EDIT (A, B) (R(L), (N) (F(4))). -/
theorem edit_items_remote :
    (Splices remoteFormat [.remote 0, .one ⟨.f, []⟩]
        [.one ⟨.f, []⟩, .one ⟨.x, []⟩, .one ⟨.f, []⟩] ∧
      ∀ deferred, Right .get deferred 2 0
        [FormatItem.one (L := Nat) ⟨.f, []⟩, .one ⟨.x, []⟩, .one ⟨.f, []⟩]) ∧
    Splices remoteFormat [.remote 0, .repeated [.one ⟨.f, []⟩]]
        [.one ⟨.f, []⟩, .one ⟨.x, []⟩, .repeated [.one ⟨.f, []⟩]] ∧
      Right .put false 2 0
        [FormatItem.one (L := Nat) ⟨.f, []⟩, .one ⟨.x, []⟩, .repeated [.one ⟨.f, []⟩]] := by
  have read := @edit_items_iff Nat _ remoteFormat .get 2 [.remote 0, .one ⟨.f, []⟩] _ rfl
  have put := @edit_items_iff Nat _ remoteFormat .put 2 [.remote 0, .repeated [.one ⟨.f, []⟩]] _ rfl
  refine ⟨⟨read.1, fun deferred => (read.2.1 deferred).mpr trivial⟩, put.1,
    (put.2.1 false).mpr ⟨Or.inr ?_, trivial⟩⟩
  exact ⟨by decide, by decide, by decide, Or.inl (by decide), by decide⟩

/-- PUT EDIT (A, B) ((N) (F(4)), E(12,4)) with N = 1 transmits A twice and B not at all. -/
theorem item_after_group :
    expandRemoteFormats remoteFormat [.repeated [.one ⟨.f, []⟩], .one ⟨.e, []⟩] =
        some [.repeated [.one ⟨.f, []⟩], .one ⟨.e, []⟩] ∧
      checkEditFormats (L := Nat) 2 [.repeated [.one ⟨.f, []⟩], .one ⟨.e, []⟩] = true ∧
      emitItems (L := Nat) .put false 2 (fun _ => 1) 0 [.repeated [.one ⟨.f, []⟩], .one ⟨.e, []⟩] =
        [⟨⟨.f, []⟩, some 0⟩, ⟨⟨.e, []⟩, some 0⟩] ∧
      ¬ Right (L := Nat) .put false 2 0 [.repeated [.one ⟨.f, []⟩], .one ⟨.e, []⟩] := by
  refine ⟨rfl, by decide, by decide, fun right => ?_⟩
  have all := right fun _ => 1
  revert all
  decide

end Remote

end PliEditFormats
