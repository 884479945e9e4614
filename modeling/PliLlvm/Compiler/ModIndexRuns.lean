import PliLlvm.Compiler.ModLowering
import Mathlib.Data.Finset.Insert

/- The dividends isDerivedFromNonNegDoIndex is true of (src/irgen.cpp): the set nonNegDoIndices_
   that emitDoIter keeps while a procedure's statements are emitted, and whole runs of what is
   emitted. A slot is the storage of a variable in one activation. A run enters a DO at its head
   and leaves it at any point; which statement comes next is otherwise left open, and a call is
   the assignments it makes. A MOD is taken at the moment its dividend's load is executed, and
   what the load's value goes through on its way to the MOD are the instructions' functions. -/
namespace PliModLowering
open FixedPoint PliConstFold Runs

abbrev Slot := Nat

/-- A value as the walk sees it: an instruction has a first operand and a function of it,
    in which its other operands are. -/
inductive IRValue where
  | load (ptr : Slot)
  | inst (result : Int → Int) (first : IRValue)
  | leaf (n : Int)

def isDerivedFromNonNegDoIndex (nonNegDoIndices : Finset Slot) : IRValue → Bool
  | .load ptr => decide (ptr ∈ nonNegDoIndices)
  | .inst _ first => isDerivedFromNonNegDoIndex nonNegDoIndices first
  | .leaf _ => false

def IRValue.eval (store : Slot → Int) : IRValue → Int
  | .load ptr => store ptr
  | .inst result first => result (first.eval store)
  | .leaf n => n

/-- What emitDoIter looks at: the control variable, the register of FROM where it is a
    constant, and whether BY is written as a negative constant. -/
structure DoHead where
  ctl : Slot
  bits : Nat
  fromConst : Option Int
  byNegConst : Bool
  deriving DecidableEq

def DoHead.nonNegDo (h : DoHead) : Bool := !h.byNegConst && h.fromConst.any (0 ≤ ·)

/-- A statement as far as it has MODs in it: those of the clauses of a DO are emitted before its
    body, and any other statement with statements inside is a group of them. -/
inductive HStmt where
  | mod (v : IRValue)
  | doIter (head : DoHead) (clauses : List IRValue) (body : List HStmt)
  | group (body : List HStmt)

/-- A MOD that has been emitted: the DOs whose bodies it is in, innermost first, the set as it
    was, and the dividend. -/
structure Site where
  nest : List DoHead
  nonNegDoIndices : Finset Slot
  v : IRValue

mutual

def emitStmt (nest : List DoHead) (nonNegDoIndices : Finset Slot) :
    HStmt → List Site × Finset Slot
  | .mod v => ([⟨nest, nonNegDoIndices, v⟩], nonNegDoIndices)
  | .doIter head clauses body =>
    let inside := emitStmts (head :: nest)
      (if head.nonNegDo then insert head.ctl nonNegDoIndices else nonNegDoIndices) body
    (clauses.map (fun v => ⟨nest, nonNegDoIndices, v⟩) ++ inside.1,
      if head.nonNegDo then inside.2.erase head.ctl else inside.2)
  | .group body => emitStmts nest nonNegDoIndices body

def emitStmts (nest : List DoHead) (nonNegDoIndices : Finset Slot) :
    List HStmt → List Site × Finset Slot
  | [] => ([], nonNegDoIndices)
  | s :: rest =>
    let first := emitStmt nest nonNegDoIndices s
    let later := emitStmts nest first.2 rest
    (first.1 ++ later.1, later.2)

end

/-- The MODs of a procedure's body. -/
def emitBody (body : List HStmt) : List Site := (emitStmts [] ∅ body).1

/-- Every index of the set is that of a classified DO around. -/
def Around (nest : List DoHead) (nonNegDoIndices : Finset Slot) : Prop :=
  ∀ s ∈ nonNegDoIndices, ∃ h ∈ nest, h.nonNegDo = true ∧ h.ctl = s

def SitesAround (sites : List Site) : Prop :=
  ∀ site ∈ sites, Around site.nest site.nonNegDoIndices

theorem insert_around {nest : List DoHead} {set : Finset Slot} (around : Around nest set)
    (head : DoHead) :
    Around (head :: nest) (if head.nonNegDo then insert head.ctl set else set) := by
  have outer : ∀ s ∈ set, ∃ h ∈ head :: nest, h.nonNegDo = true ∧ h.ctl = s := by
    intro s inSet
    obtain ⟨h, there, classified⟩ := around s inSet
    exact ⟨h, List.mem_cons_of_mem _ there, classified⟩
  intro s inSet
  split at inSet
  · rename_i classified
    rcases Finset.mem_insert.mp inSet with rfl | before
    · exact ⟨head, List.mem_cons_self, classified, rfl⟩
    · exact outer s before
  · exact outer s inSet

/-- What is left behind a DO is around it: its own index is erased. -/
theorem erase_around {nest : List DoHead} {set : Finset Slot} {head : DoHead}
    (around : Around (head :: nest) set) :
    Around nest (if head.nonNegDo then set.erase head.ctl else set) := by
  intro s inSet
  split at inSet
  · obtain ⟨other, before⟩ := Finset.mem_erase.mp inSet
    obtain ⟨h, there, classified, named⟩ := around s before
    rcases List.mem_cons.mp there with rfl | outer
    · exact absurd named.symm other
    · exact ⟨h, outer, classified, named⟩
  · rename_i unclassified
    obtain ⟨h, there, classified, named⟩ := around s inSet
    rcases List.mem_cons.mp there with rfl | outer
    · exact absurd classified unclassified
    · exact ⟨h, outer, classified, named⟩

mutual

theorem emitStmt_around (nest : List DoHead) (set : Finset Slot) (around : Around nest set) :
    ∀ s : HStmt, SitesAround (emitStmt nest set s).1 ∧ Around nest (emitStmt nest set s).2
  | .mod v => by
    rw [emitStmt]
    refine ⟨fun site there => ?_, around⟩
    rw [List.mem_singleton.mp there]
    exact around
  | .doIter head clauses body => by
    obtain ⟨sites, after⟩ := emitStmts_around (head :: nest) _ (insert_around around head) body
    rw [emitStmt]
    refine ⟨fun site there => ?_, erase_around after⟩
    rcases List.mem_append.mp there with clause | inside
    · obtain ⟨v, -, rfl⟩ := List.mem_map.mp clause
      exact around
    · exact sites site inside
  | .group body => by
    rw [emitStmt]
    exact emitStmts_around nest set around body

theorem emitStmts_around (nest : List DoHead) (set : Finset Slot) (around : Around nest set) :
    ∀ body : List HStmt,
      SitesAround (emitStmts nest set body).1 ∧ Around nest (emitStmts nest set body).2
  | [] => by
    rw [emitStmts]
    exact ⟨fun _ there => absurd there List.not_mem_nil, around⟩
  | s :: rest => by
    obtain ⟨sites, after⟩ := emitStmt_around nest set around s
    obtain ⟨more, last⟩ := emitStmts_around nest _ after rest
    rw [emitStmts]
    refine ⟨fun site there => ?_, last⟩
    rcases List.mem_append.mp there with first | later
    · exact sites site first
    · exact more site later

end

theorem emitBody_around (body : List HStmt) : SitesAround (emitBody body) :=
  (emitStmts_around [] ∅ (fun _ inSet => absurd inSet (Finset.notMem_empty _)) body).1

/-- A DO before its TO is tested, between that and its body (where WHILE is), and in its body. -/
inductive Phase where
  | testing
  | tested
  | body
  deriving DecidableEq

structure Loop where
  head : DoHead
  by_ : Int
  limit : Option Int
  phase : Phase

structure State where
  store : Slot → Int
  loops : List Loop

inductive Event where
  /-- FROM's value, where it is no constant, BY and TO. -/
  | enter (head : DoHead) (from_ by_ : Int) (limit : Option Int)
  | test
  | body
  | step
  | leave
  | assign (s : Slot) (x : Int)
  | mod (site : Nat)

def fromWord (head : DoHead) (from_ : Int) : Int := (head.fromConst.map (word head.bits)).getD from_

def passes (l : Loop) (index : Int) : Bool :=
  l.limit.all fun n => if l.by_ < 0 then decide (n ≤ index) else decide (index ≤ n)

def setPhase (phase : Phase) (l : Loop) : Loop := { l with phase := phase }

/-- The loops whose bodies are being run are those the MOD is in. -/
def atSite (loops : List Loop) (site : Site) : Bool :=
  (loops.filter fun l => decide (l.phase = .body)).map (·.head) == site.nest

def doStep (sites : List Site) (st : State) : Event → Option State
  | .enter head from_ by_ limit =>
    some ⟨Function.update st.store head.ctl (fromWord head from_),
      ⟨head, by_, limit, .testing⟩ :: st.loops⟩
  | .test =>
    match st.loops with
    | [] => none
    | l :: rest =>
      if l.phase = .testing ∧ passes l (st.store l.head.ctl) = true then
        some { st with loops := setPhase .tested l :: rest }
      else none
  | .body =>
    match st.loops with
    | [] => none
    | l :: rest =>
      if l.phase = .tested then some { st with loops := setPhase .body l :: rest } else none
  | .step =>
    match st.loops with
    | [] => none
    | l :: rest =>
      if l.phase = .body then
        some ⟨Function.update st.store l.head.ctl (word l.head.bits (st.store l.head.ctl + l.by_)),
          setPhase .testing l :: rest⟩
      else none
  | .leave =>
    match st.loops with
    | [] => none
    | _ :: rest => some { st with loops := rest }
  | .assign s x => some { st with store := Function.update st.store s x }
  | .mod k => if (sites[k]?).any (atSite st.loops) then some st else none

def Guarded (loops : List Loop) (s : Slot) : Prop :=
  ∃ l ∈ loops, l.head.nonNegDo = true ∧ l.head.ctl = s

/-- Every instruction between the index's load and the MOD keeps a value that is not negative. -/
def IRValue.Keeps (store : Slot → Int) : IRValue → Prop
  | .load _ => True
  | .inst result first => (0 ≤ first.eval store → 0 ≤ result (first.eval store)) ∧ first.Keeps store
  | .leaf _ => True

/-- Which steps a run may have. A classified DO has a FROM that its index holds and, where its BY
    is negative, a TO that is not; no step of it wraps; nothing negative is stored in its index
    while it runs; and a MOD that is served by an index reaches it through no sign change. -/
def Kept (sites : List Site) (st : State) : Event → Prop
  | .enter head from_ by_ limit =>
    (Guarded st.loops head.ctl → 0 ≤ fromWord head from_) ∧
      (head.nonNegDo = true → (∀ c ∈ head.fromConst, Fits head.bits c) ∧
        (by_ < 0 → ∃ bound ∈ limit, 0 ≤ bound))
  | .step => ∀ l ∈ st.loops.head?,
    (l.head.nonNegDo = true → 0 ≤ l.by_ → Fits l.head.bits (st.store l.head.ctl + l.by_)) ∧
      (Guarded st.loops.tail l.head.ctl →
        0 ≤ word l.head.bits (st.store l.head.ctl + l.by_))
  | .assign s x => Guarded st.loops s → 0 ≤ x
  | .mod k => ∀ site ∈ sites[k]?,
    isDerivedFromNonNegDoIndex site.nonNegDoIndices site.v = true → site.v.Keeps st.store
  | _ => True

/-- A MOD that is executed and classified has a dividend that is not negative. -/
def RightAt (sites : List Site) (st : State) : Event → Prop
  | .mod k => ∀ site ∈ sites[k]?, atSite st.loops site = true →
    isDerivedFromNonNegDoIndex site.nonNegDoIndices site.v = true → 0 ≤ site.v.eval st.store
  | _ => True

/-- A classified DO has an index that is not negative, unless it counts down and is about to
    test its TO, which is not negative. -/
structure IndexHolds (store : Slot → Int) (l : Loop) : Prop where
  bound : l.by_ < 0 → ∃ bound ∈ l.limit, 0 ≤ bound
  index : (l.phase = .testing ∧ l.by_ < 0) ∨ 0 ≤ store l.head.ctl

def IndicesHold (st : State) : Prop :=
  ∀ l ∈ st.loops, l.head.nonNegDo = true → IndexHolds st.store l

theorem word_fits_nonneg {bits : Nat} {n : Int} (fits : Fits bits n) (nonNeg : 0 ≤ n) :
    word bits n = n := by
  rcases Nat.eq_zero_or_pos bits with rfl | some_bits
  · have zero : n = 0 := by
      obtain ⟨-, below⟩ := fits
      rw [Nat.zero_sub, pow_zero] at below
      omega
    rw [zero]
    rfl
  · exact word_of_fits some_bits fits

theorem stored_holds {loops : List Loop} {store : Slot → Int}
    (before : ∀ l ∈ loops, l.head.nonNegDo = true → IndexHolds store l) {s : Slot} {x : Int}
    (stored : Guarded loops s → 0 ≤ x) :
    ∀ l ∈ loops, l.head.nonNegDo = true → IndexHolds (Function.update store s x) l := by
  intro l there classified
  refine ⟨(before l there classified).bound, ?_⟩
  by_cases same : l.head.ctl = s
  · right
    rw [same, Function.update_self]
    exact stored ⟨l, there, classified, same⟩
  · rw [Function.update_of_ne same]
    exact (before l there classified).index

section Step

variable {sites : List Site} {st st' : State}

theorem cons_holds {store : Slot → Int} {l : Loop} {rest : List Loop}
    (first : l.head.nonNegDo = true → IndexHolds store l)
    (others : ∀ l ∈ rest, l.head.nonNegDo = true → IndexHolds store l) :
    IndicesHold ⟨store, l :: rest⟩ := by
  intro m there classified
  rcases List.mem_cons.mp there with rfl | later
  · exact first classified
  · exact others m later classified

theorem step_keeps_indices {e : Event} (holds : IndicesHold st) (kept : Kept sites st e)
    (stepped : doStep sites st e = some st') : IndicesHold st' := by
  obtain ⟨store, loops⟩ := st
  cases e with
  | enter head from_ by_ limit =>
    cases stepped
    obtain ⟨guarded, fits⟩ := kept
    refine cons_holds (fun classified => ⟨(fits classified).2, Or.inr ?_⟩)
      (stored_holds holds guarded)
    have constant := classified
    simp only [DoHead.nonNegDo, Bool.and_eq_true, Option.any_eq_true, decide_eq_true_eq] at constant
    obtain ⟨-, c, isConst, nonNeg⟩ := constant
    have whole := (fits classified).1 c isConst
    dsimp only
    rw [Function.update_self, fromWord, isConst, Option.map_some, Option.getD_some,
      word_fits_nonneg whole nonNeg]
    exact nonNeg
  | test =>
    cases loops with
    | nil => cases stepped
    | cons l rest =>
      simp only [doStep] at stepped
      split at stepped
      · rename_i passed
        cases stepped
        refine cons_holds (fun classified => ?_)
          fun m there => holds m (List.mem_cons_of_mem _ there)
        have before := holds l List.mem_cons_self classified
        refine ⟨before.bound, Or.inr ?_⟩
        rcases before.index with ⟨-, down⟩ | nonNeg
        · obtain ⟨bound, isLimit, positive⟩ := before.bound down
          have tested := passed.2
          rw [passes, isLimit, Option.all_some, if_pos down, decide_eq_true_eq] at tested
          exact Int.le_trans positive tested
        · exact nonNeg
      · cases stepped
  | body =>
    cases loops with
    | nil => cases stepped
    | cons l rest =>
      simp only [doStep] at stepped
      split at stepped
      · rename_i tested
        cases stepped
        refine cons_holds (fun classified => ?_)
          fun m there => holds m (List.mem_cons_of_mem _ there)
        have before := holds l List.mem_cons_self classified
        refine ⟨before.bound, Or.inr (before.index.resolve_left ?_)⟩
        rintro ⟨testing, -⟩
        rw [tested] at testing
        cases testing
      · cases stepped
  | step =>
    cases loops with
    | nil => cases stepped
    | cons l rest =>
      simp only [doStep] at stepped
      split at stepped
      · rename_i inBody
        cases stepped
        obtain ⟨unwrapped, guarded⟩ := kept l rfl
        refine cons_holds (fun classified => ?_)
          (stored_holds (fun m there => holds m (List.mem_cons_of_mem _ there)) guarded)
        have before := holds l List.mem_cons_self classified
        refine ⟨before.bound, ?_⟩
        by_cases down : l.by_ < 0
        · exact Or.inl ⟨rfl, down⟩
        · right
          have index : 0 ≤ store l.head.ctl :=
            before.index.resolve_left fun counting => down counting.2
          have next : 0 ≤ store l.head.ctl + l.by_ := by omega
          dsimp only [setPhase]
          rw [Function.update_self,
            word_fits_nonneg (unwrapped classified (Int.not_lt.mp down)) next]
          exact next
      · cases stepped
  | leave =>
    cases loops with
    | nil => cases stepped
    | cons l rest =>
      cases stepped
      exact fun m there => holds m (List.mem_cons_of_mem _ there)
  | assign s x =>
    cases stepped
    exact stored_holds holds kept
  | mod k =>
    simp only [doStep] at stepped
    split at stepped
    · cases stepped
      exact holds
    · cases stepped

theorem derived_nonNeg {indices : Finset Slot} {v : IRValue}
    (nonNeg : ∀ s ∈ indices, 0 ≤ st.store s) (keeps : v.Keeps st.store)
    (derived : isDerivedFromNonNegDoIndex indices v = true) : 0 ≤ v.eval st.store := by
  induction v with
  | load ptr => exact nonNeg ptr (of_decide_eq_true derived)
  | inst result first ih => exact keeps.1 (ih keeps.2 derived)
  | leaf n => cases derived

/-- At a MOD the indices of its set are those of loops whose bodies are being run. -/
theorem site_nonNeg (holds : IndicesHold st) {site : Site}
    (around : Around site.nest site.nonNegDoIndices) (here : atSite st.loops site = true) :
    ∀ s ∈ site.nonNegDoIndices, 0 ≤ st.store s := by
  intro s inSet
  obtain ⟨h, inNest, classified, rfl⟩ := around s inSet
  rw [← beq_iff_eq.mp here] at inNest
  obtain ⟨l, there, rfl⟩ := List.mem_map.mp inNest
  obtain ⟨inLoops, inBody⟩ := List.mem_filter.mp there
  refine (holds l inLoops classified).index.resolve_left ?_
  rintro ⟨testing, -⟩
  rw [of_decide_eq_true inBody] at testing
  cases testing

theorem rightAt_of_kept {e : Event} (around : SitesAround sites) (holds : IndicesHold st)
    (kept : Kept sites st e) : RightAt sites st e := by
  cases e with
  | mod k =>
    intro site isSite here derived
    have emitted : site ∈ sites := List.mem_of_getElem? isSite
    exact derived_nonNeg (site_nonNeg holds (around site emitted) here)
      (kept site isSite derived) derived
  | enter | test | body | step | leave | assign => trivial

end Step

/-- `DO I = 0 TO 1; MOD(I + 5, 7); DO I = 3 TO 3; MOD(I, 7); END; MOD(I, 7); END;`: the inner DO
    erases the index from the set. -/
def nested : List HStmt :=
  [.doIter ⟨0, 32, some 0, false⟩ []
    [.mod (.inst (· + 5) (.load 0)), .doIter ⟨0, 32, some 3, false⟩ [] [.mod (.load 0)],
      .mod (.load 0)]]

example : (emitBody nested).map (·.nonNegDoIndices) = [{0}, {0}, ∅] := by
  decide

def countingUp : List Event :=
  [.enter ⟨0, 32, some 0, false⟩ 0 1 (some 1), .test, .body, .mod 0,
    .enter ⟨0, 32, some 3, false⟩ 0 1 (some 3), .test, .body, .mod 1, .step, .leave, .mod 2]

def shifted : List HStmt :=
  [.doIter ⟨0, 32, some 0, false⟩ [] [.mod (.inst (· - 10) (.load 0))]]

end PliModLowering
