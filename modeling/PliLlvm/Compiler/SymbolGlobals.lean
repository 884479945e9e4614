import PliLlvm.Compiler.SymbolNames

/- Which declarations share a global. A global is made before any function, so that a name it
   asks for can only have gone to a global. -/
namespace PliSymbolNames
open Naming

def StaticsApart (u : CompUnit) : Prop :=
  ∀ s ∈ u.symbols, ∀ t ∈ u.symbols, s.call.hasGlobal = true → t.call.hasGlobal = true →
    s.call.external = false → t.call.external = true → s.irName.drop 1 ≠ t.call.linkName

section Spelling

def readDigit (c : UInt8) : Nat := (c - 48).toNat

theorem readDigit_digit {k : Nat} (digit : k < 10) : readDigit (48 + k.toUInt8) = k := by
  have all : ∀ k < 10, readDigit (48 + k.toUInt8) = k := by decide
  exact all k digit

theorem numbered_injective (base : Name) : Function.Injective (numbered base) := by
  have longer : ∀ d, (numbered base (d + 1)).length ≠ base.length := by
    intro d
    have dollars : dollar.length = 1 := rfl
    simp only [numbered, List.length_append, dollars]
    omega
  have read : ∀ n, ((Decimal.image n).map fun k => 48 + k.toUInt8).map readDigit =
      Decimal.image n := by
    intro n
    rw [List.map_map]
    refine (List.map_congr_left fun k digit => ?_).trans (List.map_id _)
    exact readDigit_digit (Decimal.image_digits digit)
  intro i j same
  cases i with
  | zero =>
    cases j with
    | zero => rfl
    | succ j => exact absurd (congrArg List.length same).symm (longer j)
  | succ i =>
    cases j with
    | zero => exact absurd (congrArg List.length same) (longer i)
    | succ j =>
      have numbers := List.append_cancel_left same
      have images := congrArg (List.map readDigit) numbers
      rw [digits, digits, read, read] at images
      have values := congrArg (Decimal.horner 0) images
      rw [Decimal.image_value, Decimal.image_value] at values
      omega

end Spelling

section Variables

variable {d : DeclCall}

theorem irNameFrom_kept (own : d.parameter = false) (inner : d.external = false)
    (ir : Name) : d.irNameFrom ir = ir := by
  simp [DeclCall.irNameFrom, own, inner]

variable {s : Symbol}

theorem declareAll_free {irNames : List Name} {ds : List DeclCall}
    (member : s ∈ declareAll irNames ds) (own : s.call.parameter = false)
    (inner : s.call.external = false) : s.irName ∉ irNames := by
  induction ds generalizing irNames with
  | nil => cases member
  | cons d ds ih =>
    rcases List.mem_cons.mp member with rfl | later
    · show d.irNameFrom _ ∉ irNames
      rw [irNameFrom_kept own inner]
      exact firstFree_not_taken _ (numbered_injective _)
    · exact fun inside => ih later (List.mem_cons_of_mem _ inside)

theorem declareAll_apart (irNames : List Name) (ds : List DeclCall) :
    (declareAll irNames ds).Pairwise fun s t => s.call.parameter = false →
      s.call.external = false → t.call.parameter = false → t.call.external = false →
        s.irName ≠ t.irName := by
  induction ds generalizing irNames with
  | nil => exact List.Pairwise.nil
  | cons d ds ih =>
    refine List.Pairwise.cons ?_ (ih _)
    intro t later own inner own' inner' same
    have absent := declareAll_free later own' inner'
    change d.irNameFrom _ = t.irName at same
    rw [irNameFrom_kept own inner] at same
    rw [← same] at absent
    exact absent List.mem_cons_self

theorem declareAll_name {irNames : List Name} {ds : List DeclCall}
    (member : s ∈ declareAll irNames ds) :
    ∃ d, s.irName = s.call.irNameFrom (numbered s.call.base d) := by
  induction ds generalizing irNames with
  | nil => cases member
  | cons c ds ih =>
    rcases List.mem_cons.mp member with rfl | later
    · obtain ⟨d, is⟩ := firstFree_cases irNames (numbered c.base)
      exact ⟨d, by rw [← is]⟩
    · exact ih later

theorem numbered_front (base : Name) (d : Nat) : ∃ rest, numbered base d = base ++ rest := by
  cases d with
  | zero => exact ⟨[], (List.append_nil _).symm⟩
  | succ d => exact ⟨_, List.append_assoc _ _ _⟩

theorem hasGlobal_call (global : d.hasGlobal = true) :
    d.kind = .var ∧ d.parameter = false ∧ d.stored = true ∧
      (d.external = true ∨ d.isStatic = true) := by
  simp only [DeclCall.hasGlobal, DeclCall.stored, DeclCall.isStaticSym, Bool.and_eq_true,
    Bool.or_eq_true, decide_eq_true_eq, Bool.not_eq_true'] at global
  obtain ⟨⟨⟨kind, own⟩, file⟩, static⟩ := global
  refine ⟨kind, own, ?_, static.imp_right And.left⟩
  simp [DeclCall.stored, kind, own, file]

variable {u : CompUnit}

theorem external_name (member : s ∈ u.symbols) (global : s.call.hasGlobal = true)
    (external : s.call.external = true) : s.irName = 64 :: s.call.linkName := by
  obtain ⟨d, is⟩ := declareAll_name member
  obtain ⟨_, own, _⟩ := hasGlobal_call global
  rw [is, DeclCall.irNameFrom, own, external]
  rfl

theorem static_name (member : s ∈ u.symbols) (global : s.call.hasGlobal = true)
    (inner : s.call.external = false) : ∃ rest, s.irName = 64 :: 112 :: rest := by
  obtain ⟨d, is⟩ := declareAll_name member
  obtain ⟨kind, own, _, static⟩ := hasGlobal_call global
  have isStatic : s.call.isStatic = true := by simpa [inner] using static
  obtain ⟨rest, front⟩ := numbered_front s.call.base d
  rw [is, DeclCall.irNameFrom, own, inner]
  simp only [Bool.false_eq_true, if_false]
  rw [front, DeclCall.base, kind]
  simp only [isStatic, if_true]
  exact ⟨_, rfl⟩

variable {i : Nat}

theorem symbol_member (at_i : u.symbols[i]? = some s) : s ∈ u.symbols :=
  List.mem_of_getElem? at_i

variable {j : Nat}

theorem symbols_apart (before : i < j) {s t : Symbol}
    (at_i : u.symbols[i]? = some s) (at_j : u.symbols[j]? = some t)
    (own : s.call.parameter = false) (inner : s.call.external = false)
    (own' : t.call.parameter = false) (inner' : t.call.external = false) :
    s.irName ≠ t.irName := by
  obtain ⟨bound_i, rfl⟩ := List.getElem?_eq_some_iff.mp at_i
  obtain ⟨bound_j, rfl⟩ := List.getElem?_eq_some_iff.mp at_j
  have apart := List.pairwise_iff_getElem.mp (declareAll_apart [] (u.procCalls ++ u.decls))
  exact apart i j bound_i bound_j before own inner own' inner'

theorem same_name (statics : StaticsApart u)
    {i j : Nat} (other : i ≠ j) {s t : Symbol} (at_i : u.symbols[i]? = some s)
    (at_j : u.symbols[j]? = some t) (global_i : s.call.hasGlobal = true)
    (global_j : t.call.hasGlobal = true) (same : s.irName.drop 1 = t.irName.drop 1) :
    SameExternal u i j := by
  have stored_i := (hasGlobal_call global_i).2.2.1
  have stored_j := (hasGlobal_call global_j).2.2.1
  have member_i := symbol_member at_i
  have member_j := symbol_member at_j
  cases external_i : s.call.external with
  | true =>
    cases external_j : t.call.external with
    | true =>
      rw [external_name member_i global_i external_i,
        external_name member_j global_j external_j] at same
      exact ⟨s, t, at_i, at_j, stored_i, stored_j, external_i, external_j, same⟩
    | false =>
      rw [external_name member_i global_i external_i] at same
      exact absurd same.symm (statics t member_j s member_i global_j global_i external_j external_i)
  | false =>
    cases external_j : t.call.external with
    | true =>
      rw [external_name member_j global_j external_j] at same
      exact absurd same (statics s member_i t member_j global_i global_j external_i external_j)
    | false =>
      obtain ⟨_, name_i⟩ := static_name member_i global_i external_i
      obtain ⟨_, name_j⟩ := static_name member_j global_j external_j
      have full : s.irName = t.irName := by
        rw [name_i, name_j] at same ⊢
        exact congrArg (64 :: ·) same
      have own_i := (hasGlobal_call global_i).2.1
      have own_j := (hasGlobal_call global_j).2.1
      rcases Nat.lt_or_gt_of_ne other with before | after
      · exact absurd full (symbols_apart before at_i at_j own_i external_i own_j external_j)
      · exact absurd full.symm (symbols_apart after at_j at_i own_j external_j own_i external_i)

variable {n : Name} {e : Entity}

theorem mem_emitGlobals : (n, e) ∈ u.emitGlobals ↔
    ∃ i s, u.symbols[i]? = some s ∧ s.call.hasGlobal = true ∧ n = s.irName.drop 1 ∧
      e = .global i := by
  unfold CompUnit.emitGlobals
  constructor
  · intro member
    obtain ⟨⟨s, i⟩, inside, is⟩ := List.mem_map.mp member
    obtain ⟨place, global⟩ := List.mem_filter.mp inside
    obtain ⟨name, entity⟩ := Prod.mk.inj is
    exact ⟨i, s, List.mem_zipIdx_iff_getElem?.mp place, global, name.symm, entity.symm⟩
  · rintro ⟨i, s, place, global, rfl, rfl⟩
    exact List.mem_map.mpr ⟨(s, i), List.mem_filter.mpr
      ⟨List.mem_zipIdx_iff_getElem?.mpr place, global⟩, rfl⟩

theorem emitGlobals_nodup : (u.emitGlobals.map Prod.snd).Nodup := by
  unfold CompUnit.emitGlobals
  rw [List.map_map]
  have places : (u.symbols.zipIdx.map Prod.snd).Nodup := by
    rw [List.zipIdx_map_snd]
    exact List.nodup_range'
  have kept : ((u.symbols.zipIdx.filter fun s => s.1.call.hasGlobal).map Prod.snd).Nodup :=
    (List.filter_sublist.map Prod.snd).nodup places
  have images := kept.map (f := Entity.global) (fun i j same => by cases same; rfl)
  rwa [List.map_map] at images

variable {rename : List Name → Name → Name}

variable (rename) in
theorem lookup_global (member : n ∈ names u.emitGlobals) :
    ∃ i, lookupModule rename u n = some (.global i) ∧
      (n, .global i) ∈ table rename u.emitGlobals := by
  have named := (asked_named member : n ∈ names (table rename _))
  obtain ⟨e, found⟩ := valueOf_named named
  have inside := valueOf_member found
  obtain ⟨wanted, from_globals, _⟩ := table_origin inside
  obtain ⟨i, _, _, _, _, rfl⟩ := mem_emitGlobals.mp from_globals
  refine ⟨i, ?_, inside⟩
  rw [lookupModule, CompUnit.asked, valueOf_early _ named, found]

theorem names_emitGlobals (place : u.symbols[i]? = some s)
    (global : s.call.hasGlobal = true) : s.irName.drop 1 ∈ names u.emitGlobals :=
  List.mem_map_of_mem (f := Prod.fst) (mem_emitGlobals.mpr ⟨i, s, place, global, rfl, rfl⟩)

theorem symAddr_some {g : Nat} (found : symAddr rename u i = some g) :
    ∃ s, u.symbols[i]? = some s ∧ s.call.hasGlobal = true ∧
      lookupModule rename u (s.irName.drop 1) = some (.global g) := by
  unfold symAddr at found
  split at found
  · cases found
  · rename_i s place
    split at found
    · rename_i global
      split at found
      · rename_i j entity
        obtain rfl := Option.some.inj found
        exact ⟨s, place, global, entity⟩
      · cases found
    · cases found

theorem symAddr_of (place : u.symbols[i]? = some s) (global : s.call.hasGlobal = true) {g : Nat}
    (entity : lookupModule rename u (s.irName.drop 1) = some (.global g)) :
    symAddr rename u i = some g := by
  simp only [symAddr, place, global, if_true, entity]

theorem global_name {m : Name} (first : (n, e) ∈ table rename u.emitGlobals)
    (second : (m, e) ∈ table rename u.emitGlobals) : n = m := by
  have nodup : ((table rename u.emitGlobals).map Prod.snd).Nodup := by
    rw [table_values]
    exact emitGlobals_nodup
  have same := List.inj_on_of_nodup_map nodup first second rfl
  exact congrArg Prod.fst same

theorem one_global {t : Symbol} (place_i : u.symbols[i]? = some s)
    (place_j : u.symbols[j]? = some t) (global_i : s.call.hasGlobal = true)
    (global_j : t.call.hasGlobal = true) :
    (∃ g, symAddr rename u i = some g ∧ symAddr rename u j = some g) ↔
      s.irName.drop 1 = t.irName.drop 1 := by
  obtain ⟨g, found_i, inside_i⟩ :=
    lookup_global rename (names_emitGlobals place_i global_i)
  obtain ⟨h, found_j, inside_j⟩ :=
    lookup_global rename (names_emitGlobals place_j global_j)
  have addr_i := symAddr_of place_i global_i found_i
  have addr_j := symAddr_of place_j global_j found_j
  constructor
  · rintro ⟨k, is_i, is_j⟩
    rw [addr_i] at is_i
    rw [addr_j] at is_j
    obtain rfl := (Option.some.inj is_i).trans (Option.some.inj is_j).symm
    exact global_name inside_i inside_j
  · intro same
    rw [same, found_j] at found_i
    cases found_i
    exact ⟨_, addr_i, addr_j⟩

theorem sameExternal_global (same : SameExternal u i j) :
    ∃ s t, u.symbols[i]? = some s ∧ u.symbols[j]? = some t ∧ s.call.hasGlobal = true ∧
      t.call.hasGlobal = true ∧ s.irName.drop 1 = t.irName.drop 1 := by
  obtain ⟨s, t, place_i, place_j, stored_i, stored_j, external_i, external_j, link⟩ := same
  have global_i : s.call.hasGlobal = true := by
    simp [DeclCall.hasGlobal, DeclCall.isStaticSym, stored_i, external_i]
  have global_j : t.call.hasGlobal = true := by
    simp [DeclCall.hasGlobal, DeclCall.isStaticSym, stored_j, external_j]
  refine ⟨s, t, place_i, place_j, global_i, global_j, ?_⟩
  rw [external_name (symbol_member place_i) global_i external_i,
    external_name (symbol_member place_j) global_j external_j, link]

theorem globals_iff :
    (∀ i j, i ≠ j → ((∃ g, symAddr rename u i = some g ∧ symAddr rename u j = some g) ↔
      SameExternal u i j)) ↔
    StaticsApart u := by
  constructor
  · intro globals s member_s t member_t global_s global_t inner external same
    obtain ⟨i, place_i⟩ := List.mem_iff_getElem?.mp member_s
    obtain ⟨j, place_j⟩ := List.mem_iff_getElem?.mp member_t
    have other : i ≠ j := by
      rintro rfl
      rw [place_i] at place_j
      obtain rfl := Option.some.inj place_j
      rw [inner] at external
      cases external
    have named : s.irName.drop 1 = t.irName.drop 1 := by
      rw [same, external_name member_t global_t external]
      rfl
    obtain ⟨s', _, place_s, _, _, _, external_s, _⟩ :=
      (globals i j other).mp ((one_global place_i place_j global_s global_t).mpr named)
    rw [place_i] at place_s
    obtain rfl := Option.some.inj place_s
    rw [inner] at external_s
    cases external_s
  · intro statics i j other
    constructor
    · rintro ⟨g, addr_i, addr_j⟩
      obtain ⟨s, place_i, global_i, _⟩ := symAddr_some addr_i
      obtain ⟨t, place_j, global_j, _⟩ := symAddr_some addr_j
      have same := (one_global place_i place_j global_i global_j).mp ⟨g, addr_i, addr_j⟩
      exact same_name statics other place_i place_j global_i global_j same
    · intro same
      obtain ⟨s, t, place_i, place_j, global_i, global_j, named⟩ := sameExternal_global same
      exact (one_global place_i place_j global_i global_j).mpr named

theorem mem_declareProc {p : Nat} : (n, e) ∈ u.declareProc p ↔ (u.info p).isPackage = false ∧
      ((n = u.functionName (.proc p) ∧ e = .fn p) ∨
        (∃ en ∈ (u.info p).entryNames, n = u.aliasName p en ∧ e = .alias p en) ∨
        ((u.info p).entries ≠ [] ∧ n = u.implName p ∧ e = .impl p) ∨
        ∃ k < (u.info p).entries.length, n = u.functionName (.entry p k) ∧ e = .entryFn p k) := by
  unfold CompUnit.declareProc
  cases package : (u.info p).isPackage with
  | true => simp
  | false =>
    by_cases plain : (u.info p).entries = []
    · simp only [Bool.false_eq_true, if_false, plain, if_true, List.mem_cons, Prod.mk.injEq,
        List.mem_map, List.length_nil, ne_eq, not_true_eq_false, false_and, true_and,
        Nat.not_lt_zero, exists_false, or_false]
      refine or_congr Iff.rfl (exists_congr fun en => and_congr Iff.rfl ?_)
      exact and_congr eq_comm eq_comm
    · simp only [Bool.false_eq_true, if_false, plain, List.mem_cons, Prod.mk.injEq,
        List.mem_append, List.mem_map, List.mem_range, ne_eq, not_false_eq_true, true_and]
      constructor
      · rintro (impl | fn | ⟨en, inside, name, entity⟩ | ⟨k, bound, name, entity⟩)
        · exact Or.inr (Or.inr (Or.inl impl))
        · exact Or.inl fn
        · exact Or.inr (Or.inl ⟨en, inside, name.symm, entity.symm⟩)
        · exact Or.inr (Or.inr (Or.inr ⟨k, bound, name.symm, entity.symm⟩))
      · rintro (fn | ⟨en, inside, name, entity⟩ | impl | ⟨k, bound, name, entity⟩)
        · exact Or.inr (Or.inl fn)
        · exact Or.inr (Or.inr (Or.inl ⟨en, inside, name.symm, entity.symm⟩))
        · exact Or.inl impl
        · exact Or.inr (Or.inr (Or.inr ⟨k, bound, name.symm, entity.symm⟩))

theorem asked_global (member : (n, .global i) ∈ u.asked) :
    ∃ s, u.symbols[i]? = some s ∧ s.call.hasGlobal = true ∧ n = s.irName.drop 1 := by
  rcases List.mem_append.mp member with global | function
  · obtain ⟨j, s, place, isGlobal, name, entity⟩ := mem_emitGlobals.mp global
    cases entity
    exact ⟨s, place, isGlobal, name⟩
  · rcases List.mem_append.mp function with handler | declared
    · obtain ⟨h, _, entity⟩ := List.mem_map.mp handler
      cases entity
    · obtain ⟨p, _, inside⟩ := List.mem_flatMap.mp declared
      obtain ⟨_, ⟨_, entity⟩ | ⟨_, _, _, entity⟩ | ⟨_, _, entity⟩ | ⟨_, _, _, entity⟩⟩ :=
        mem_declareProc.mp inside
      all_goals cases entity

theorem needsGlobal_of (global : d.hasGlobal = true) : d.needsGlobal = true := by
  simp only [DeclCall.hasGlobal, Bool.and_eq_true] at global
  simp [DeclCall.needsGlobal, global.1, global.2]

theorem references_iff (statics : StaticsApart u) :
    (∀ i ∈ u.references, ∀ s, u.symbols[i]? = some s → s.call.needsGlobal = true →
      ∃ g, symAddr rename u i = some g ∧ (g = i ∨ SameExternal u g i)) ↔
    (∀ i ∈ u.references, ∀ s, u.symbols[i]? = some s → s.call.hasGlobal = true →
      given rename u.asked (s.irName.drop 1) = false) ∧
    ∀ i ∈ u.references, ∀ s, u.symbols[i]? = some s → s.call.needsGlobal = true →
      s.call.isStaticSym = true := by
  constructor
  · intro resolved
    refine ⟨fun i used s place global => ?_, fun i used s place needs => ?_⟩
    · obtain ⟨g, addr, own⟩ := resolved i used s place (needsGlobal_of global)
      obtain ⟨t, place_t, _, entity⟩ := symAddr_some addr
      rw [place] at place_t
      obtain rfl := Option.some.inj place_t
      cases was : given rename u.asked (s.irName.drop 1) with
      | false => rfl
      | true =>
        obtain ⟨e, wanted, _, found, asked, other, _⟩ := valueOf_given was
        rw [lookupModule, found] at entity
        obtain rfl := Option.some.inj entity
        obtain ⟨r, place_r, global_r, name⟩ := asked_global asked
        refine absurd ?_ other
        rw [name]
        rcases own with rfl | same
        · rw [place] at place_r
          rw [Option.some.inj place_r]
        · obtain ⟨r', s', place_r', place_s', _, _, named⟩ := sameExternal_global same
          rw [place_r] at place_r'
          rw [place] at place_s'
          rw [Option.some.inj place_r', named, Option.some.inj place_s']
    · obtain ⟨_, addr, _⟩ := resolved i used s place needs
      obtain ⟨t, place_t, global, _⟩ := symAddr_some addr
      rw [place] at place_t
      obtain rfl := Option.some.inj place_t
      exact (Bool.and_eq_true _ _ ▸ global : _ ∧ _).2
  · rintro ⟨repeated, packages⟩ i used s place needs
    have global : s.call.hasGlobal = true := by
      have stored := (Bool.and_eq_true _ _ ▸ needs : _ ∧ _).1
      rw [DeclCall.hasGlobal, stored, packages i used s place needs]
      rfl
    have named := names_emitGlobals place global
    obtain ⟨g, entity, _⟩ := lookup_global rename named
    refine ⟨g, symAddr_of place global entity, ?_⟩
    have member : s.irName.drop 1 ∈ names u.asked := by
      rw [CompUnit.asked, names_append]
      exact List.mem_append_left _ named
    rw [lookupModule, valueOf_asked member (repeated i used s place global)] at entity
    obtain ⟨t, place_t, global_t, name⟩ := asked_global (valueOf_member entity)
    by_cases own : g = i
    · exact Or.inl own
    · exact Or.inr (same_name statics own place_t place global_t global name.symm)

theorem files_iff :
    (∀ i j, i ≠ j → ((∃ g, fileMarker u i = some g ∧ fileMarker u j = some g) ↔
      SameFile u i j)) ↔
    ∀ i j, i ≠ j → ¬ SameFile u i j := by
  refine forall_congr' fun i => forall_congr' fun j => imp_congr_right fun other => ?_
  refine iff_false_left ?_
  rintro ⟨g, first, second⟩
  have place_i : i = g := Option.some.inj (Option.ite_none_right_eq_some.mp first).2
  have place_j : j = g := Option.some.inj (Option.ite_none_right_eq_some.mp second).2
  exact other (place_i.trans place_j.symm)

end Variables

end PliSymbolNames
