import PliLlvm.Compiler.SymbolGlobals

/- Which procedures share a function name, and when a call reaches its procedure. -/
namespace PliSymbolNames
open Naming

def CompUnit.qualified (u : CompUnit) (p : Nat) : Name := u.parentPart p ++ (u.info p).name

structure NamesApart (rename : List Name → Name → Name) (u : CompUnit) : Prop where
  /-- An EXTERNAL variable is not named like a STATIC one. -/
  statics : StaticsApart u
  /-- No FILE is declared EXTERNAL twice. -/
  files : ∀ i j, i ≠ j → ¬ SameFile u i j
  /-- An EXTERNAL variable is not named like what LLVM makes of the name of an EXTERNAL variable
      declared again. -/
  repeated : ∀ i ∈ u.references, ∀ s, u.symbols[i]? = some s → s.call.hasGlobal = true →
    given rename u.asked (s.irName.drop 1) = false
  /-- A package's variable that is referred to is STATIC or EXTERNAL. -/
  packages : ∀ i ∈ u.references, ∀ s, u.symbols[i]? = some s → s.call.needsGlobal = true →
    s.call.isStaticSym = true
  /-- No two exported procedures have one name. -/
  exported : ∀ p q, .proc p ∈ callablesOf u.procs → .proc q ∈ callablesOf u.procs → p ≠ q →
    u.isExternal p = true → u.isExternal q = true → (u.info p).name ≠ (u.info q).name
  /-- No two internal procedures have one qualified name. -/
  internal : ∀ p q, .proc p ∈ callablesOf u.procs → .proc q ∈ callablesOf u.procs → p ≠ q →
    u.isExternal p = false → u.isExternal q = false → u.qualified p ≠ u.qualified q
  /-- An exported procedure is not named PLI_ and the qualified name of an internal one. -/
  pli : ∀ p q, .proc p ∈ callablesOf u.procs → .proc q ∈ callablesOf u.procs →
    u.isExternal p = true → u.isExternal q = false →
    (u.info p).name ≠ text "PLI_" ++ u.qualified q
  /-- No two ENTRY statements of procedures with one qualified name have one name. -/
  entries : ∀ p k q l, .entry p k ∈ callablesOf u.procs → .entry q l ∈ callablesOf u.procs →
    (p, k) ≠ (q, l) → u.qualified p = u.qualified q →
    (u.info p).entries[k]? ≠ (u.info q).entries[l]?
  /-- An EXTERNAL variable is not named like the symbols of a procedure called. -/
  externals : ∀ c ∈ u.calls, ∀ t ∈ u.symbols, t.call.hasGlobal = true →
    t.call.external = true → t.call.linkName ≠ u.functionName c ∧
      ((u.info c.procedure).entries ≠ [] → t.call.linkName ≠ u.implName c.procedure)
  /-- Nor is an ON-unit's function. -/
  handlers : ∀ c ∈ u.calls, ∀ h ∈ u.handlers, h.name ≠ u.functionName c
  /-- Nor is an additional name of an earlier procedure. -/
  aliases : ∀ p, .proc p ∈ u.calls → ∀ q < p, (u.info q).isPackage = false →
    ∀ en ∈ (u.info q).entryNames, u.aliasName q en ≠ u.functionName (.proc p)

section Functions
variable {u : CompUnit}

variable {p : Nat}

theorem mem_callables_proc {procs : List ProcInfo} : .proc p ∈ callablesOf procs ↔
    p < procs.length ∧ (infoAt procs p).isPackage = false := by
  unfold callablesOf
  simp only [List.mem_flatMap, List.mem_range]
  constructor
  · rintro ⟨q, bound, inside⟩
    split at inside
    · cases inside
    · rename_i procedure
      rcases List.mem_cons.mp inside with own | entry
      · cases own
        exact ⟨bound, by simpa using procedure⟩
      · obtain ⟨_, _, entity⟩ := List.mem_map.mp entry
        cases entity
  · rintro ⟨bound, procedure⟩
    exact ⟨p, bound, by simp [procedure]⟩

theorem mem_callables_entry {procs : List ProcInfo} {k : Nat} :
    .entry p k ∈ callablesOf procs ↔ p < procs.length ∧ (infoAt procs p).isPackage = false ∧
      k < (infoAt procs p).entries.length := by
  unfold callablesOf
  simp only [List.mem_flatMap, List.mem_range]
  constructor
  · rintro ⟨q, bound, inside⟩
    split at inside
    · cases inside
    · rename_i procedure
      rcases List.mem_cons.mp inside with own | entry
      · cases own
      · obtain ⟨l, small, entity⟩ := List.mem_map.mp entry
        cases entity
        exact ⟨bound, by simpa using procedure, List.mem_range.mp small⟩
  · rintro ⟨bound, procedure, small⟩
    exact ⟨p, bound, by simp [procedure, small]⟩

theorem callable_procedure {c : Callable} (callable : c ∈ callablesOf u.procs) :
    .proc c.procedure ∈ callablesOf u.procs := by
  cases c with
  | proc p => exact callable
  | entry p k =>
    obtain ⟨bound, procedure, _⟩ := mem_callables_entry.mp callable
    exact mem_callables_proc.mpr ⟨bound, procedure⟩

theorem info_member (callable : .proc p ∈ callablesOf u.procs) : u.info p ∈ u.procs := by
  obtain ⟨bound, _⟩ := mem_callables_proc.mp callable
  have place : u.procs[p]? = some u.procs[p] := List.getElem?_eq_getElem bound
  rw [CompUnit.info, infoAt, place]
  exact List.getElem_mem bound

theorem name_idChars (callable : .proc p ∈ callablesOf u.procs) :
    (u.info p).name.all idChar = true :=
  (u.identifiers _ (info_member callable) _ List.mem_cons_self).2

theorem parent_identifier {parent : ProcInfo} (is : u.parentOf p = some parent) :
    parent.name ≠ [] ∧ parent.name.all idChar = true := by
  obtain ⟨q, _, place⟩ := Option.bind_eq_some_iff.mp is
  exact u.identifiers _ (List.mem_of_getElem? place) _ List.mem_cons_self

theorem parentPart_idChars (p : Nat) : (u.parentPart p).all idChar = true := by
  unfold CompUnit.parentPart
  split
  · rfl
  · rename_i parent is
    rw [List.all_append, (parent_identifier is).2]
    rfl

theorem qualified_idChars (callable : .proc p ∈ callablesOf u.procs) :
    (u.qualified p).all idChar = true := by
  rw [CompUnit.qualified, List.all_append, parentPart_idChars, name_idChars callable]
  rfl

theorem function_exported (external : u.isExternal p = true) :
    u.functionName (.proc p) = (u.info p).name := by
  rw [CompUnit.functionName, CompUnit.irName, if_pos external]
  rfl

theorem function_internal (inner : u.isExternal p = false) :
    u.functionName (.proc p) = text "PLI_" ++ u.qualified p := by
  rw [CompUnit.functionName, CompUnit.irName, inner, if_neg (by simp), CompUnit.qualified,
    List.append_assoc]
  rfl

theorem function_entry (p k : Nat) : u.functionName (.entry p k) =
    text "PLI_" ++ (u.qualified p ++ (text "$entry$" ++ (u.info p).entries[k]?.getD [])) := by
  have parent : (if ((u.parentOf p).map (·.name)).getD [] = [] then []
      else ((u.parentOf p).map (·.name)).getD [] ++ dollar) = u.parentPart p := by
    unfold CompUnit.parentPart
    cases is : u.parentOf p with
    | none => rfl
    | some parent => simp [(parent_identifier is).1]
  rw [CompUnit.functionName, CompUnit.entryIrName, parent, CompUnit.qualified]
  simp only [List.append_assoc]
  rfl

theorem proc_idChars (callable : .proc p ∈ callablesOf u.procs) :
    (u.functionName (.proc p)).all idChar = true := by
  cases external : u.isExternal p with
  | true =>
    rw [function_exported external]
    exact name_idChars callable
  | false =>
    rw [function_internal external, List.all_append, qualified_idChars callable]
    rfl

theorem entry_not_idChars (p k : Nat) : (u.functionName (.entry p k)).all idChar = false := by
  rw [function_entry, List.all_append, List.all_append, List.all_append,
    show (text "$entry$").all idChar = false from rfl]
  simp

theorem entry_parts {q : Nat} {en en' : Name} (callable : .proc p ∈ callablesOf u.procs)
    (callable' : .proc q ∈ callablesOf u.procs)
    (same : u.qualified p ++ (text "$entry$" ++ en) = u.qualified q ++ (text "$entry$" ++ en')) :
    u.qualified p = u.qualified q ∧ en = en' := by
  have front : ∀ r, .proc r ∈ callablesOf u.procs → ∀ name : Name,
      (u.qualified r ++ (text "$entry$" ++ name)).takeWhile idChar = u.qualified r ++ dollar := by
    intro r isProc name
    have all := List.all_eq_true.mp (qualified_idChars isProc)
    rw [List.takeWhile_append_of_pos all]
    rfl
  have fronts := congrArg (List.takeWhile idChar) same
  rw [front p callable, front q callable'] at fronts
  have qualified := List.append_cancel_right fronts
  rw [qualified] at same
  exact ⟨qualified, List.append_cancel_left (List.append_cancel_left same)⟩

theorem entry_at {k : Nat} (callable : .entry p k ∈ callablesOf u.procs) :
    (u.info p).entries[k]? = some ((u.info p).entries[k]?.getD []) := by
  obtain ⟨_, _, small⟩ := mem_callables_entry.mp callable
  have place : (u.info p).entries[k]? = some (u.info p).entries[k] :=
    List.getElem?_eq_getElem small
  rw [place]
  rfl

theorem functions_iff :
    FunctionsApart u ↔
    (∀ p q, .proc p ∈ callablesOf u.procs → .proc q ∈ callablesOf u.procs → p ≠ q →
      u.isExternal p = true → u.isExternal q = true → (u.info p).name ≠ (u.info q).name) ∧
    (∀ p q, .proc p ∈ callablesOf u.procs → .proc q ∈ callablesOf u.procs → p ≠ q →
      u.isExternal p = false → u.isExternal q = false → u.qualified p ≠ u.qualified q) ∧
    (∀ p q, .proc p ∈ callablesOf u.procs → .proc q ∈ callablesOf u.procs →
      u.isExternal p = true → u.isExternal q = false →
      (u.info p).name ≠ text "PLI_" ++ u.qualified q) ∧
    ∀ p k q l, .entry p k ∈ callablesOf u.procs → .entry q l ∈ callablesOf u.procs →
      (p, k) ≠ (q, l) → u.qualified p = u.qualified q →
      (u.info p).entries[k]? ≠ (u.info q).entries[l]? := by
  constructor
  · intro apart
    refine ⟨?_, ?_, ?_, ?_⟩
    · intro p q isProc isProc' other external external' same
      refine apart _ isProc _ isProc' (fun eq => other (Callable.proc.inj eq)) ?_
      rw [function_exported external, function_exported external', same]
    · intro p q isProc isProc' other inner inner' same
      refine apart _ isProc _ isProc' (fun eq => other (Callable.proc.inj eq)) ?_
      rw [function_internal inner, function_internal inner', same]
    · intro p q isProc isProc' external inner same
      refine apart _ isProc _ isProc' (fun eq => ?_) ?_
      · rw [Callable.proc.inj eq, inner] at external
        cases external
      · rw [function_exported external, function_internal inner, same]
    · intro p k q l isEntry isEntry' other qualified same
      refine apart _ isEntry _ isEntry' (fun eq => ?_) ?_
      · obtain ⟨rfl, rfl⟩ := Callable.entry.inj eq
        exact other rfl
      · rw [function_entry, function_entry, qualified, same]
  · rintro ⟨exported, internal, pli, entries⟩ c callable d callable' other same
    cases c with
    | proc p =>
      cases d with
      | proc q =>
        have differ : p ≠ q := fun eq => other (congrArg Callable.proc eq)
        cases external : u.isExternal p with
        | true =>
          rw [function_exported external] at same
          cases external' : u.isExternal q with
          | true =>
            rw [function_exported external'] at same
            exact exported p q callable callable' differ external external' same
          | false =>
            rw [function_internal external'] at same
            exact pli p q callable callable' external external' same
        | false =>
          rw [function_internal external] at same
          cases external' : u.isExternal q with
          | true =>
            rw [function_exported external'] at same
            exact pli q p callable' callable external' external same.symm
          | false =>
            rw [function_internal external'] at same
            exact internal p q callable callable' differ external external'
              (List.append_cancel_left same)
      | entry q l =>
        have chars := proc_idChars callable
        rw [same, entry_not_idChars] at chars
        cases chars
    | entry p k =>
      cases d with
      | proc q =>
        have chars := proc_idChars callable'
        rw [← same, entry_not_idChars] at chars
        cases chars
      | entry q l =>
        rw [function_entry, function_entry] at same
        obtain ⟨qualified, name⟩ := entry_parts (callable_procedure callable)
          (callable_procedure callable') (List.append_cancel_left same)
        refine entries p k q l callable callable' (fun eq => other ?_) qualified ?_
        · obtain ⟨rfl, rfl⟩ := Prod.mk.inj eq
          rfl
        · rw [entry_at callable, entry_at callable', name]

end Functions

section Calls
variable {rename : List Name → Name → Name} {u : CompUnit}

variable {n : Name}

theorem idChars_not_mem {c : UInt8} (all : n.all idChar = true)
    (other : idChar c = false) : c ∉ n := by
  intro inside
  have is := List.all_eq_true.mp all c inside
  rw [other] at is
  cases is

variable {c : Callable}

theorem function_chars (callable : c ∈ callablesOf u.procs) {x : UInt8}
    (other : idChar x = false) (entry : x ∉ text "$entry$") : x ∉ u.functionName c := by
  cases c with
  | proc p => exact idChars_not_mem (proc_idChars callable) other
  | entry p k =>
    have name : ((u.info p).entries[k]?.getD []).all idChar = true := by
      have inside : (u.info p).entries[k]?.getD [] ∈ (u.info p).entries :=
        List.mem_of_getElem? (entry_at callable)
      exact (u.identifiers _ (info_member (callable_procedure callable)) _
        (List.mem_cons_of_mem _ (List.mem_append_right _ inside))).2
    have qualified := idChars_not_mem (qualified_idChars (callable_procedure callable)) other
    have pli : x ∉ text "PLI_" := idChars_not_mem (by decide) other
    rw [function_entry]
    simp only [List.mem_append, not_or]
    exact ⟨pli, qualified, entry, idChars_not_mem name other⟩

theorem function_no_dot (callable : c ∈ callablesOf u.procs) :
    46 ∉ u.functionName c := function_chars callable (by decide) (by decide)

theorem function_ne_nil (callable : c ∈ callablesOf u.procs) : u.functionName c ≠ [] := by
  cases c with
  | proc p =>
    cases external : u.isExternal p with
    | true =>
      rw [function_exported external]
      exact (u.identifiers _ (info_member callable) _ List.mem_cons_self).1
    | false =>
      rw [function_internal external]
      exact fun nil => by cases nil
  | entry p k =>
    rw [function_entry]
    exact fun nil => by cases nil

variable {p : Nat}

theorem alias_idChars {en : Name} (callable : .proc p ∈ callablesOf u.procs)
    (inside : en ∈ (u.info p).entryNames) : (u.aliasName p en).all idChar = true := by
  have name := (u.identifiers _ (info_member callable) en
    (List.mem_cons_of_mem _ (List.mem_append_left _ inside))).2
  rw [CompUnit.aliasName, List.all_append, List.all_append, parentPart_idChars, name]
  rfl

theorem impl_dot (p : Nat) : 46 ∈ u.implName p :=
  List.mem_append_right _ (by decide)

theorem impl_name : u.implName p = u.functionName (.proc p) ++ text ".impl" := rfl

theorem static_not_function (callable : c ∈ callablesOf u.procs) (more : Name) :
    u.functionName c ++ more ∈ names u.emitGlobals ↔ ∃ t ∈ u.symbols,
      t.call.hasGlobal = true ∧ t.call.external = true ∧
        t.call.linkName = u.functionName c ++ more := by
  constructor
  · intro member
    obtain ⟨⟨n, e⟩, inside, is⟩ := List.mem_map.mp member
    obtain ⟨i, s, place, global, rfl, rfl⟩ := mem_emitGlobals.mp inside
    have isSymbol := symbol_member place
    refine ⟨s, isSymbol, global, ?_⟩
    cases external : s.call.external with
    | true =>
      rw [external_name isSymbol global external] at is
      exact ⟨rfl, is⟩
    | false =>
      obtain ⟨rest, name⟩ := static_name isSymbol global external
      rw [name] at is
      cases letters : u.functionName c with
      | nil => exact absurd letters (function_ne_nil callable)
      | cons x xs =>
        rw [letters] at is
        have first : 112 = x := (List.cons.inj is).1
        have absent := function_chars (x := 112) callable (by decide) (by decide)
        rw [letters, first] at absent
        exact absurd List.mem_cons_self absent
  · rintro ⟨t, isSymbol, global, external, link⟩
    obtain ⟨i, place⟩ := List.mem_iff_getElem?.mp isSymbol
    have named := names_emitGlobals place global
    rw [external_name isSymbol global external] at named
    rw [← link]
    exact named

theorem given_function (unique : Uniques rename) {c : Callable}
    (callable : c ∈ callablesOf u.procs) : given rename u.asked (u.functionName c) = false := by
  refine given_false fun taken wanted member renamed => ?_
  obtain ⟨digits, _, is⟩ := unique.suffix taken wanted member
  refine function_no_dot callable ?_
  rw [renamed, is]
  simp [text]

theorem given_impl (unique : Uniques rename) (p : Nat) :
    given rename u.asked (u.implName p) = false := by
  refine given_false fun taken wanted member renamed => ?_
  obtain ⟨digits, all, is⟩ := unique.suffix taken wanted member
  rw [is, impl_name] at renamed
  have last := congrArg (fun n => n.getLast?) renamed
  simp only [List.getLast?_append] at last
  cases ends : digits.getLast? with
  | none =>
    rw [ends] at last
    cases last
  | some c =>
    rw [ends] at last
    have digit := List.all_eq_true.mp all c (List.mem_of_getLast? ends)
    cases last
    cases digit

theorem mem_asked {e : Entity} : (n, e) ∈ u.asked ↔
    (n, e) ∈ u.emitGlobals ∨ (n, e) ∈ u.declareOnHandlers ∨
      ∃ p < u.procs.length, (n, e) ∈ u.declareProc p := by
  simp [CompUnit.asked, CompUnit.declareProcs]

theorem mem_declareOnHandlers {e : Entity} : (n, e) ∈ u.declareOnHandlers ↔
    ∃ h ∈ u.handlers, n = h.name ∧ e = .handler h := by
  simp only [CompUnit.declareOnHandlers, List.mem_map, Prod.mk.injEq, eq_comm]

theorem digits_no_dot (n : Nat) : 46 ∉ digits n := by
  intro inside
  obtain ⟨k, digit, is⟩ := List.mem_map.mp inside
  have all : ∀ k < 10, 48 + k.toUInt8 ≠ 46 := by decide
  exact all k (Decimal.image_digits digit) is

theorem handler_no_dot (h : OnHandler) : 46 ∉ h.name := by
  have fixed : ∀ key ∈ [text "PLI_ON_", text "PLI_ON_SIZE_", text "PLI_ON_SUBSCRIPT_",
      text "PLI_ON_ZERODIVIDE_", text "PLI_ON_CONVERSION_", text "PLI_ON_STRINGRANGE_"],
      46 ∉ key := by decide
  unfold OnHandler.name
  rw [List.mem_append, not_or]
  refine ⟨?_, digits_no_dot _⟩
  split
  case h_7 =>
    have sign : 46 ∉ (if h.condKey < 0 then text "-" else []) := by
      split <;> decide
    simp only [List.mem_append, not_or]
    exact ⟨⟨⟨by decide, sign⟩, digits_no_dot _⟩, by decide⟩
  all_goals exact fixed _ (by simp)

def Callable.entity : Callable → Entity
  | .proc p => .fn p
  | .entry p k => .entryFn p k

def Entity.isFunction : Entity → Bool
  | .handler _ | .fn _ | .impl _ | .entryFn _ _ => true
  | _ => false

theorem getFunction_eq (n : Name) :
    getFunction rename u n = (lookupModule rename u n).filter (·.isFunction) := by
  unfold getFunction
  cases lookupModule rename u n with
  | none => rfl
  | some e => cases e <;> rfl

theorem declared_callable {e : Entity} (bound : p < u.procs.length)
    (member : (n, e) ∈ u.declareProc p) : .proc p ∈ callablesOf u.procs :=
  mem_callables_proc.mpr ⟨bound, (mem_declareProc.mp member).1⟩

theorem declared_own (apart : FunctionsApart u) {c : Callable} (callable : c ∈ callablesOf u.procs)
    {p : Nat} (bound : p < u.procs.length) {e : Entity}
    (member : (u.functionName c, e) ∈ u.declareProc p) :
    (p = c.procedure ∧ e = c.entity) ∨
      ∃ en ∈ (u.info p).entryNames, e = .alias p en ∧ u.aliasName p en = u.functionName c := by
  have isProc := declared_callable bound member
  obtain ⟨procedure, ⟨name, entity⟩ | ⟨en, inside, name, entity⟩ | ⟨_, name, _⟩ |
    ⟨k, small, name, entity⟩⟩ := mem_declareProc.mp member
  · by_cases own : c = .proc p
    · rw [own, entity]
      exact Or.inl ⟨rfl, rfl⟩
    · exact absurd name (apart c callable _ isProc own)
  · exact Or.inr ⟨en, inside, entity, name.symm⟩
  · have dot := impl_dot (u := u) p
    rw [← name] at dot
    exact absurd dot (function_no_dot callable)
  · by_cases own : c = .entry p k
    · rw [own, entity]
      exact Or.inl ⟨rfl, rfl⟩
    · have isEntry : .entry p k ∈ callablesOf u.procs :=
        mem_callables_entry.mpr ⟨bound, procedure, small⟩
      exact absurd name (apart c callable _ isEntry own)

theorem own_declared (callable : c ∈ callablesOf u.procs) :
    c.procedure < u.procs.length ∧ (u.functionName c, c.entity) ∈ u.declareProc c.procedure := by
  cases c with
  | proc p =>
    obtain ⟨bound, procedure⟩ := mem_callables_proc.mp callable
    exact ⟨bound, mem_declareProc.mpr ⟨procedure, Or.inl ⟨rfl, rfl⟩⟩⟩
  | entry p k =>
    obtain ⟨bound, procedure, small⟩ := mem_callables_entry.mp callable
    exact ⟨bound, mem_declareProc.mpr
      ⟨procedure, Or.inr (Or.inr (Or.inr ⟨k, small, rfl, rfl⟩))⟩⟩

theorem function_asked (callable : c ∈ callablesOf u.procs) : u.functionName c ∈ names u.asked := by
  obtain ⟨bound, member⟩ := own_declared callable
  exact List.mem_map_of_mem (f := Prod.fst) (mem_asked.mpr (Or.inr (Or.inr ⟨_, bound, member⟩)))

theorem lookup_function (unique : Uniques rename) {c : Callable}
    (callable : c ∈ callablesOf u.procs) :
    lookupModule rename u (u.functionName c) = valueOf u.asked (u.functionName c) :=
  valueOf_asked (function_asked callable) (given_function unique callable)

def CompUnit.askedBefore (u : CompUnit) (p : Nat) : List (Name × Entity) :=
  u.emitGlobals ++ (u.declareOnHandlers ++ u.declareProcs (List.range p))

theorem asked_split (bound : p < u.procs.length) :
    ∃ later, u.asked = u.askedBefore p ++ (u.declareProc p ++ later) := by
  have places : List.range u.procs.length =
      List.range p ++ p :: List.range' (p + 1) (u.procs.length - (p + 1)) := by
    have cut := @List.range'_append_1 0 p (u.procs.length - (p + 1) + 1)
    rw [Nat.zero_add, List.range'_succ] at cut
    rw [List.range_eq_range', List.range_eq_range', cut]
    congr 1
    omega
  refine ⟨u.declareProcs (List.range' (p + 1) (u.procs.length - (p + 1))), ?_⟩
  rw [CompUnit.asked, CompUnit.askedBefore, places, CompUnit.declareProcs, List.flatMap_append,
    List.flatMap_cons]
  simp only [CompUnit.declareProcs, List.append_assoc]

theorem valueOf_own (apart : FunctionsApart u) (callable : c ∈ callablesOf u.procs) :
    valueOf (u.declareProc c.procedure) (u.functionName c) = some c.entity := by
  cases c with
  | proc p =>
    have procedure := (mem_callables_proc.mp callable).2
    change (u.info p).isPackage = false at procedure
    show valueOf (u.declareProc p) _ = some (.fn p)
    unfold CompUnit.declareProc
    simp only [procedure, Bool.false_eq_true, if_false]
    by_cases plain : (u.info p).entries = []
    · rw [if_pos plain, valueOf_cons, if_pos rfl]
    · have other : u.functionName (.proc p) ≠ u.implName p := by
        intro same
        have dot := impl_dot (u := u) p
        rw [← same] at dot
        exact function_no_dot callable dot
      rw [if_neg plain, valueOf_cons, if_neg other, valueOf_cons, if_pos rfl]
  | entry p k =>
    obtain ⟨bound, member⟩ := own_declared callable
    obtain ⟨e, found⟩ := valueOf_named (List.mem_map_of_mem (f := Prod.fst) member)
    rcases declared_own apart callable bound (valueOf_member found) with ⟨_, own⟩ |
      ⟨en, inside, _, name⟩
    · rw [found, own]
    · have chars := alias_idChars (declared_callable bound member) inside
      rw [name, entry_not_idChars] at chars
      cases chars

theorem found_function (unique : Uniques rename) (apart : FunctionsApart u) {c : Callable}
    (callable : c ∈ callablesOf u.procs)
    (free : u.functionName c ∉ names (u.askedBefore c.procedure)) :
    getFunction rename u (u.functionName c) = some c.entity := by
  obtain ⟨bound, member⟩ := own_declared callable
  obtain ⟨later, parts⟩ := asked_split bound
  rw [getFunction_eq, lookup_function unique callable, parts, valueOf_append_unnamed free,
    valueOf_append_named (List.mem_map_of_mem (f := Prod.fst) member),
    valueOf_own apart callable]
  cases c <;> rfl

theorem lost_function (unique : Uniques rename) (apart : FunctionsApart u) {c : Callable}
    (callable : c ∈ callablesOf u.procs)
    (taken : u.functionName c ∈ names (u.askedBefore c.procedure)) {e : Entity}
    (found : getFunction rename u (u.functionName c) = some e) : ∃ h, e = .handler h := by
  obtain ⟨bound, _⟩ := own_declared callable
  obtain ⟨later, parts⟩ := asked_split bound
  rw [getFunction_eq, lookup_function unique callable, parts, valueOf_append_named taken] at found
  obtain ⟨first, isFunction⟩ := Option.filter_eq_some_iff.mp found
  rcases List.mem_append.mp (valueOf_member first) with global | function
  · obtain ⟨_, _, _, _, _, rfl⟩ := mem_emitGlobals.mp global
    cases isFunction
  · rcases List.mem_append.mp function with handler | declared
    · obtain ⟨h, _, _, entity⟩ := mem_declareOnHandlers.mp handler
      exact ⟨h, entity⟩
    · obtain ⟨q, before, member⟩ := List.mem_flatMap.mp declared
      have earlier := List.mem_range.mp before
      rcases declared_own apart callable (by omega) member with ⟨own, _⟩ | ⟨_, _, rfl, _⟩
      · omega
      · cases isFunction

theorem body_only (unique : Uniques rename) (apart : FunctionsApart u) {c : Callable}
    (callable : c ∈ callablesOf u.procs) {e : Entity}
    (found : getFunction rename u (u.functionName c) = some e) (unit : ∀ h, e ≠ .handler h) :
    e = c.entity := by
  by_cases taken : u.functionName c ∈ names (u.askedBefore c.procedure)
  · obtain ⟨h, is⟩ := lost_function unique apart callable taken found
    exact absurd is (unit h)
  · rw [found_function unique apart callable taken] at found
    exact (Option.some.inj found).symm

variable {q : Nat}

theorem mem_procsWith {thunks : Bool} : q ∈ procsWith u thunks ↔
    .proc q ∈ callablesOf u.procs ∧ (decide ((u.info q).entries ≠ [])) = thunks := by
  rw [mem_callables_proc]
  unfold procsWith
  simp only [List.mem_filter, List.mem_range, Bool.and_eq_true, Bool.not_eq_true', beq_iff_eq,
    and_assoc]
  rfl

theorem find_only {l : List Nat} {test : Nat → Bool} (member : p ∈ l)
    (passes : test p = true) (only : ∀ q ∈ l, test q = true → q = p) : l.find? test = some p := by
  cases found : l.find? test with
  | none => exact absurd passes (List.find?_eq_none.mp found p member)
  | some q =>
    rw [only q (List.mem_of_find?_eq_some found) (List.find?_some found)]

theorem mem_procs_false (plain : q ∈ procsWith u false) :
    .proc q ∈ callablesOf u.procs := (mem_procsWith.mp plain).1

theorem mem_procs_true (thunks : q ∈ procsWith u true) :
    .proc q ∈ callablesOf u.procs ∧ (u.info q).entries ≠ [] := by
  obtain ⟨isProc, entries⟩ := mem_procsWith.mp thunks
  exact ⟨isProc, by simpa using entries⟩

theorem impl_asked (isProc : .proc p ∈ callablesOf u.procs)
    (entries : (u.info p).entries ≠ []) : u.implName p ∈ names u.asked := by
  obtain ⟨bound, procedure⟩ := mem_callables_proc.mp isProc
  have member : (u.implName p, Entity.impl p) ∈ u.declareProc p :=
    mem_declareProc.mpr ⟨procedure, Or.inr (Or.inr (Or.inl ⟨entries, rfl, rfl⟩))⟩
  exact List.mem_map_of_mem (f := Prod.fst) (mem_asked.mpr (Or.inr (Or.inr ⟨p, bound, member⟩)))

theorem impl_askers (apart : FunctionsApart u) {p : Nat}
    (isProc : .proc p ∈ callablesOf u.procs) {e : Entity} (member : (u.implName p, e) ∈ u.asked) :
    (u.implName p, e) ∈ u.emitGlobals ∨ e = .impl p := by
  rcases mem_asked.mp member with global | handler | ⟨q, bound, inside⟩
  · exact Or.inl global
  · obtain ⟨h, _, name, _⟩ := mem_declareOnHandlers.mp handler
    have dot := impl_dot (u := u) p
    rw [name] at dot
    exact absurd dot (handler_no_dot h)
  · have isProc' := declared_callable bound inside
    have dot := impl_dot (u := u) p
    obtain ⟨procedure, ⟨name, _⟩ | ⟨en, there, name, _⟩ | ⟨_, name, entity⟩ |
      ⟨k, small, name, _⟩⟩ := mem_declareProc.mp inside
    · rw [name] at dot
      exact absurd dot (function_no_dot isProc')
    · rw [name] at dot
      exact absurd dot (idChars_not_mem (alias_idChars isProc' there) (by decide))
    · rw [impl_name, impl_name] at name
      by_cases own : p = q
      · rw [own]
        exact Or.inr entity
      · exact absurd (List.append_cancel_right name)
          (apart _ isProc _ isProc' fun same => own (Callable.proc.inj same))
    · rw [name] at dot
      exact absurd dot
        (function_no_dot (mem_callables_entry.mpr ⟨bound, procedure, small⟩))

theorem found_impl (unique : Uniques rename) (apart : FunctionsApart u) {p : Nat}
    (isProc : .proc p ∈ callablesOf u.procs) (entries : (u.info p).entries ≠ []) :
    getFunction rename u (u.implName p) =
      if u.implName p ∈ names u.emitGlobals then none else some (.impl p) := by
  split
  · rename_i taken
    obtain ⟨i, found, _⟩ := lookup_global rename taken
    rw [getFunction_eq, found]
    rfl
  · rename_i free
    have asked := impl_asked isProc entries
    obtain ⟨e, found⟩ := valueOf_named asked
    rw [getFunction_eq, lookupModule, valueOf_asked asked (given_impl unique p), found]
    rcases impl_askers apart isProc (valueOf_member found) with global | rfl
    · exact absurd (List.mem_map_of_mem (f := Prod.fst) global) free
    · rfl

theorem implBody_eq (unique : Uniques rename) (apart : FunctionsApart u) {p : Nat}
    (isProc : .proc p ∈ callablesOf u.procs) (entries : (u.info p).entries ≠ []) :
    implBody rename u p = if u.implName p ∈ names u.emitGlobals then none else some p := by
  have only : ∀ q ∈ procsWith u true,
      decide (getFunction rename u (u.implName q) = some (.impl p)) = true →
        q = p ∧ u.implName p ∉ names u.emitGlobals := by
    intro q thunks found
    obtain ⟨isProc', entries'⟩ := mem_procs_true thunks
    rw [decide_eq_true_eq, found_impl unique apart isProc' entries'] at found
    split at found
    · cases found
    · rename_i free
      cases found
      exact ⟨rfl, free⟩
  split
  · rename_i taken
    refine List.find?_eq_none.mpr fun q thunks found => ?_
    exact (only q thunks found).2 taken
  · rename_i free
    refine find_only (mem_procsWith.mpr ⟨isProc, by simpa using entries⟩) ?_
      fun q thunks found => (only q thunks found).1
    rw [decide_eq_true_eq, found_impl unique apart isProc entries, if_neg free]

theorem plainBody_eq (unique : Uniques rename) (apart : FunctionsApart u) {p : Nat}
    (isProc : .proc p ∈ callablesOf u.procs) (plain : (u.info p).entries = [])
    (found : getFunction rename u (u.functionName (.proc p)) = some (.fn p)) :
    plainBody rename u p = some p := by
  refine find_only (mem_procsWith.mpr ⟨isProc, by simpa using plain⟩) (by simpa using found) ?_
  intro q others there
  rw [decide_eq_true_eq] at there
  exact (Entity.fn.inj
    (body_only unique apart (mem_procs_false others) there fun h => by simp)).symm

theorem reaches_iff (unique : Uniques rename) (apart : FunctionsApart u) {c : Callable}
    (callable : c ∈ callablesOf u.procs) :
    reaches rename u c = some c ↔ u.functionName c ∉ names (u.askedBefore c.procedure) ∧
      ((u.info c.procedure).entries ≠ [] → u.implName c.procedure ∉ names u.emitGlobals) := by
  have isProc := callable_procedure callable
  by_cases taken : u.functionName c ∈ names (u.askedBefore c.procedure)
  · refine ⟨fun found => ?_, fun free => absurd taken free.1⟩
    obtain ⟨e, function, body⟩ := Option.bind_eq_some_iff.mp found
    obtain ⟨h, rfl⟩ := lost_function unique apart callable taken function
    cases body
  · have found := found_function unique apart callable taken
    rw [reaches, found, Option.bind_some]
    cases c with
    | proc p =>
      show runs rename u (.fn p) = some (.proc p) ↔ _
      simp only [runs, Callable.procedure] at isProc taken ⊢
      by_cases plain : (u.info p).entries = []
      · rw [if_pos plain, plainBody_eq unique apart isProc plain found]
        simp [taken, plain]
      · rw [if_neg plain, implBody_eq unique apart isProc plain]
        split <;> simp_all
    | entry p k =>
      have entries : (u.info p).entries ≠ [] := by
        obtain ⟨_, _, small⟩ := mem_callables_entry.mp callable
        intro none
        change k < (u.info p).entries.length at small
        rw [none] at small
        cases small
      show runs rename u (.entryFn p k) = some (.entry p k) ↔ _
      simp only [runs, Callable.procedure] at isProc taken ⊢
      rw [implBody_eq unique apart isProc entries]
      split <;> simp_all

theorem mem_askedBefore (apart : FunctionsApart u) {c : Callable}
    (callable : c ∈ callablesOf u.procs) :
    u.functionName c ∈ names (u.askedBefore c.procedure) ↔
      u.functionName c ∈ names u.emitGlobals ∨ (∃ h ∈ u.handlers, h.name = u.functionName c) ∨
        ∃ q < c.procedure, (u.info q).isPackage = false ∧
          ∃ en ∈ (u.info q).entryNames, u.aliasName q en = u.functionName c := by
  obtain ⟨bound, _⟩ := own_declared callable
  have units : names u.declareOnHandlers = u.handlers.map OnHandler.name := List.map_map
  rw [CompUnit.askedBefore, names_append, names_append, List.mem_append, List.mem_append, units,
    List.mem_map]
  refine or_congr Iff.rfl (or_congr Iff.rfl ?_)
  constructor
  · intro member
    obtain ⟨⟨n, e⟩, inside, is⟩ := List.mem_map.mp member
    obtain rfl : n = u.functionName c := is
    obtain ⟨q, before, there⟩ := List.mem_flatMap.mp inside
    have earlier := List.mem_range.mp before
    rcases declared_own apart callable (by omega) there with ⟨own, _⟩ | ⟨en, listed, _, name⟩
    · omega
    · exact ⟨q, earlier, (mem_declareProc.mp there).1, en, listed, name⟩
  · rintro ⟨q, earlier, procedure, en, listed, name⟩
    have declared : (u.aliasName q en, Entity.alias q en) ∈ u.declareProc q :=
      mem_declareProc.mpr ⟨procedure, Or.inr (Or.inl ⟨en, listed, rfl, rfl⟩)⟩
    have before : (u.aliasName q en, Entity.alias q en) ∈
        u.declareProcs (List.range c.procedure) :=
      List.mem_flatMap.mpr ⟨q, List.mem_range.mpr earlier, declared⟩
    rw [← name]
    exact List.mem_map_of_mem (f := Prod.fst) before

theorem calls_iff (unique : Uniques rename) (apart : FunctionsApart u) :
    (∀ c ∈ u.calls, reaches rename u c = some c) ↔
    (∀ c ∈ u.calls, ∀ t ∈ u.symbols, t.call.hasGlobal = true → t.call.external = true →
      t.call.linkName ≠ u.functionName c ∧
        ((u.info c.procedure).entries ≠ [] → t.call.linkName ≠ u.implName c.procedure)) ∧
    (∀ c ∈ u.calls, ∀ h ∈ u.handlers, h.name ≠ u.functionName c) ∧
    ∀ p, .proc p ∈ u.calls → ∀ q < p, (u.info q).isPackage = false →
      ∀ en ∈ (u.info q).entryNames, u.aliasName q en ≠ u.functionName (.proc p) := by
  constructor
  · intro reached
    refine ⟨fun c called t isSymbol global external => ?_, fun c called h unit name => ?_,
      fun p called q earlier procedure en listed name => ?_⟩
    · have callable := u.callees c called
      obtain ⟨free, impl⟩ := (reaches_iff unique apart callable).mp (reached c called)
      refine ⟨fun link => free ?_, fun entries link => impl entries ?_⟩
      · refine (mem_askedBefore apart callable).mpr (Or.inl ?_)
        have taken := (static_not_function callable []).mpr
          ⟨t, isSymbol, global, external, by rw [link, List.append_nil]⟩
        rwa [List.append_nil] at taken
      · exact (static_not_function (callable_procedure callable) _).mpr
          ⟨t, isSymbol, global, external, link⟩
    · have callable := u.callees c called
      obtain ⟨free, _⟩ := (reaches_iff unique apart callable).mp (reached c called)
      exact free ((mem_askedBefore apart callable).mpr (Or.inr (Or.inl ⟨h, unit, name⟩)))
    · have callable := u.callees _ called
      obtain ⟨free, _⟩ := (reaches_iff unique apart callable).mp (reached _ called)
      exact free ((mem_askedBefore apart callable).mpr
        (Or.inr (Or.inr ⟨q, earlier, procedure, en, listed, name⟩)))
  · rintro ⟨externals, handlers, aliases⟩ c called
    have callable := u.callees c called
    refine (reaches_iff unique apart callable).mpr ⟨fun taken => ?_, fun entries taken => ?_⟩
    · rcases (mem_askedBefore apart callable).mp taken with global | ⟨h, unit, name⟩ |
        ⟨q, earlier, procedure, en, listed, name⟩
      · rw [← List.append_nil (u.functionName c)] at global
        obtain ⟨t, isSymbol, isGlobal, external, link⟩ :=
          (static_not_function callable []).mp global
        rw [List.append_nil] at link
        exact (externals c called t isSymbol isGlobal external).1 link
      · exact handlers c called h unit name
      · cases c with
        | proc p => exact aliases p called q earlier procedure en listed name
        | entry p k =>
          obtain ⟨bound, _⟩ := own_declared callable
          have isProc : .proc q ∈ callablesOf u.procs :=
            mem_callables_proc.mpr ⟨by omega, procedure⟩
          have chars := alias_idChars isProc listed
          rw [name, entry_not_idChars] at chars
          cases chars
    · obtain ⟨t, isSymbol, isGlobal, external, link⟩ :=
        (static_not_function (callable_procedure callable) _).mp taken
      exact (externals c called t isSymbol isGlobal external).2 entries link

end Calls

def numberedRename (taken : List Name) (n : Name) : Name :=
  firstFree taken fun d => n ++ text "." ++ digits (d + 1)

theorem numberedRename_unique : Uniques numberedRename where
  suffix taken n _ := by
    obtain ⟨d, is⟩ := firstFree_cases taken fun d => n ++ text "." ++ digits (d + 1)
    refine ⟨_, ?_, is⟩
    rw [digits, List.all_map, List.all_eq_true]
    intro k digit
    have all : ∀ k < 10, (48 ≤ 48 + k.toUInt8 && 48 + k.toUInt8 ≤ 57) = true := by decide
    simpa using all k (Decimal.image_digits digit)

/-- MAIN P, also named P2, with an ON-unit for ERROR; Q within it with the ENTRY statement R; in
    each a STATIC X and the EXTERNAL Y, and a file of P. -/
def twoProcedures : CompUnit where
  procs := [⟨text "P", none, false, true, [], [text "P2"], []⟩,
    ⟨text "Q", some 0, false, false, [], [], [text "R"]⟩]
  decls := [⟨1, text "X", .var, true, false, false, false, [], .plain⟩,
    ⟨1, text "Y", .var, false, false, false, true, [], .plain⟩,
    ⟨1, text "F", .var, false, false, false, true, [], .file⟩,
    ⟨2, text "X", .var, true, false, false, false, [], .plain⟩,
    ⟨2, text "Y", .var, false, false, false, true, [], .plain⟩]
  references := [4, 5, 7, 8]
  calls := [.proc 0, .proc 1, .entry 1 0]
  handlers := [⟨0, 1⟩]
  identifiers := by decide +kernel
  callees := by decide +kernel

/-- A STATIC variable of a procedure and an EXTERNAL one of that name in a procedure within it. -/
def staticExternal : CompUnit where
  procs := [⟨text "P", none, false, true, [], [], []⟩, ⟨text "Q", some 0, false, false, [], [], []⟩]
  decls := [⟨1, text "X", .var, true, false, false, false, [], .plain⟩,
    ⟨2, text "X", .var, false, false, false, true, [], .plain⟩]
  references := [2, 3]
  calls := [.proc 1]
  handlers := []
  identifiers := by decide +kernel
  callees := by decide +kernel

end PliSymbolNames
