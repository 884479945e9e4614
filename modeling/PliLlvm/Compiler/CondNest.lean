import PliLlvm.Compiler.CondScope
import Mathlib.Algebra.Order.Group.Multiset
import Mathlib.Tactic.Abel

/- The statements of a program with the constructs they stand in, and the enabled conditions
   their code is generated under. A construct's prefix governs the statements in it, and an
   inner construct that names a condition has its way over an outer one. -/
namespace PliCondPrefix

inductive Kind where
  | stmt | group | on | procedure
  deriving DecidableEq

structure Construct where
  kind : Kind
  pre : Prefix

structure Site (α : Type) where
  text : α
  path : List Construct

mutual

/-- The statements of a construct code is generated for. `kept` is false in a statement that
    was given up: only the procedures in it remain. -/
def sites {α : Type} (kept : Bool) (path : List Construct) : Src α → List (Site α)
  | .stmt pre text => if kept then [⟨text, ⟨.stmt, pre⟩ :: path⟩] else []
  | .group pre text body =>
      (if kept then [⟨text, ⟨.group, pre⟩ :: path⟩] else []) ++
        sitesIn kept (⟨.group, pre⟩ :: path) body
  | .on pre text unit =>
      (if kept then [⟨text, ⟨.on, pre⟩ :: path⟩] else []) ++
        sites kept (⟨.on, pre⟩ :: path) unit
  | .procedure pre body => sitesIn true (⟨.procedure, pre⟩ :: path) body
  | .failed pre inner => sitesIn false (⟨.group, pre⟩ :: path) inner
  | .noColon _ _ => []

def sitesIn {α : Type} (kept : Bool) (path : List Construct) : List (Src α) → List (Site α)
  | [] => []
  | x :: xs => sites kept path x ++ sitesIn kept path xs

end

def programSites {α : Type} (program : List (External α)) : List (Site α) :=
  program.flatMap fun p => sitesIn true [⟨.procedure, p.pre⟩] p.body

def stateIn : List Construct → State
  | [] => State.initial
  | k :: path =>
      let s := (stateIn path).enterRange (readPrefix (stateIn path).flags k.pre)
      match k.kind with
      | .procedure => s.enterConds (readPrefix (stateIn path).flags k.pre)
      | _ => s

def stackIn : List Construct → List CheckState
  | [] => []
  | k :: path =>
      match k.kind with
      | .procedure | .on => []
      | _ => pushChecks (stackIn path) (readPrefix (stateIn path).flags k.pre)

def stackAt : List Construct → List CheckState
  | [] => []
  | k :: path => pushChecks (stackIn path) (readPrefix (stateIn path).flags k.pre)

def Site.code {α : Type} (site : Site α) : Emitted α := (site.text, stackAt site.path)

theorem range_restores {β : Type} (s : State) (flags : Flags) (run : State → State × β)
    (conds : ∀ s, (run s).1.procCond = s.procCond) : (withRange s flags run).1 = s := by
  have same := conds (s.enterRange flags)
  have entered : (s.enterRange flags).procCond = s.procCond := by
    unfold State.enterRange
    split <;> rfl
  simp only [withRange, same, entered]

theorem conds_restore {β : Type} (s : State) (flags : Flags) (run : State → State × β) :
    (withConds s flags run).1.procCond = s.procCond := rfl

mutual

theorem statement_restores {α : Type} (s : State) : (x : Src α) → (parseStatement s x).1 = s
  | .stmt pre text => by
      unfold parseStatement
      rw [parse_lead]
      exact range_restores s _ _ fun _ => rfl
  | .group pre text body => by
      unfold parseStatement
      rw [parse_lead]
      exact range_restores s _ _ fun s => by rw [body_restores s body]
  | .on pre text unit => by
      unfold parseStatement
      rw [parse_lead]
      exact range_restores s _ _ fun s => by rw [statement_restores s unit]
  | .procedure pre body => by
      unfold parseStatement
      rw [parse_lead]
      refine range_restores s _ _ fun s => ?_
      rw [range_restores s _ _ fun s => conds_restore s _ _]
  | .failed pre inner => by
      unfold parseStatement
      rw [parse_lead]
      exact range_restores s _ _ fun s => by rw [body_restores s inner]
  | .noColon pre last => by
      unfold parseStatement
      split
      · rfl
      · exact range_restores s _ _ fun _ => rfl

theorem body_restores {α : Type} (s : State) : (xs : List (Src α)) → (parseBody s xs).1 = s
  | [] => rfl
  | x :: xs => by
      unfold parseBody
      simp only [statement_restores s x, body_restores s xs]

end

theorem external_restores {α : Type} (s : State) (p : External α) :
    (parseExternalProcedure s p).1 = s := by
  unfold parseExternalProcedure
  rw [parse_lead]
  exact range_restores s _ _ fun s => conds_restore s _ _

theorem emitStmts_append {α : Type} (stack : List CheckState) (first second : List (Stmt α)) :
    emitStmts stack (first ++ second) = emitStmts stack first ++ emitStmts stack second := by
  induction first with
  | nil => rfl
  | cons x first ih => simp only [List.cons_append, emitStmts, ih, List.append_assoc]

theorem collectOns_append {α : Type} (first second : List (Stmt α)) :
    collectOns (first ++ second) = collectOns first ++ collectOns second := by
  induction first with
  | nil => rfl
  | cons x first ih => simp only [List.cons_append, collectOns, ih, List.append_assoc]

section Generated
variable {α : Type}

def bodyCode (stack : List CheckState) (body : List (Stmt α)) : Multiset (Emitted α) :=
  ↑(emitStmts stack body) + ↑(emitOnHandlers body)

def procsCode (procs : List (List (Stmt α))) : Multiset (Emitted α) := ↑(emitProgram procs)

theorem bodyCode_append (stack : List CheckState) (first second : List (Stmt α)) :
    bodyCode stack (first ++ second) = bodyCode stack first + bodyCode stack second := by
  simp only [bodyCode, emitStmts_append, emitOnHandlers, collectOns_append, List.flatMap_append,
    ← Multiset.coe_add]
  abel

theorem bodyCode_group (stack : List CheckState) (flags : Flags) (text : α) (body : List (Stmt α)) :
    bodyCode stack [.group flags text body] =
      {(text, pushChecks stack flags)} + bodyCode (pushChecks stack flags) body := by
  simp only [bodyCode, emitStmts, emitStmt, emitOnHandlers, collectOns, collectOnStmts,
    List.append_nil, ← Multiset.cons_coe, ← Multiset.singleton_add]
  abel

theorem bodyCode_on (stack : List CheckState) (flags : Flags) (text : α) (unit : List (Stmt α)) :
    bodyCode stack [.on flags text unit] =
      {(text, pushChecks stack flags)} + bodyCode [] unit := by
  simp only [bodyCode, emitStmts, emitStmt, emitOnHandlers, collectOns, collectOnStmts,
    List.append_nil, List.flatMap_cons, ← Multiset.coe_add, Multiset.coe_singleton]

theorem procsCode_append (first second : List (List (Stmt α))) :
    procsCode (first ++ second) = procsCode first + procsCode second := by
  simp only [procsCode, emitProgram, List.flatMap_append, ← Multiset.coe_add]
  abel

theorem procsCode_cons (body : List (Stmt α)) (procs : List (List (Stmt α))) :
    procsCode (body :: procs) = bodyCode [] body + procsCode procs := by
  simp only [procsCode, bodyCode, emitProgram, emitProc, List.flatMap_cons, ← Multiset.coe_add]
  abel

def sitesCode (l : List (Site α)) : Multiset (Emitted α) := ↑(l.map Site.code)

theorem sitesCode_append (first second : List (Site α)) :
    sitesCode (first ++ second) = sitesCode first + sitesCode second := by
  simp only [sitesCode, List.map_append, ← Multiset.coe_add]

theorem enterRange_twice (s : State) (flags : Flags) :
    (s.enterRange flags).enterRange flags = s.enterRange flags := by
  unfold State.enterRange
  split <;> rfl

mutual

theorem statement_sites (path : List Construct) : (x : Src α) →
    procsCode (parseStatement (stateIn path) x).2.2 = sitesCode (sites false path x) ∧
      bodyCode (stackIn path) (parseStatement (stateIn path) x).2.1.toList +
        procsCode (parseStatement (stateIn path) x).2.2 = sitesCode (sites true path x)
  | .stmt pre text => by
      unfold parseStatement
      rw [parse_lead]
      exact ⟨rfl, rfl⟩
  | .group pre text body => by
      obtain ⟨hoisted, code⟩ := body_sites (⟨.group, pre⟩ :: path) body
      unfold parseStatement
      rw [parse_lead]
      refine ⟨hoisted, ?_⟩
      simp only [withRange, Option.toList_some, bodyCode_group, sites, if_true, sitesCode_append,
        ← code]
      exact add_assoc _ _ _
  | .on pre text unit => by
      obtain ⟨hoisted, code⟩ := statement_sites (⟨.on, pre⟩ :: path) unit
      unfold parseStatement
      rw [parse_lead]
      refine ⟨hoisted, ?_⟩
      simp only [withRange, Option.toList_some, bodyCode_on, sites, if_true, sitesCode_append,
        ← code]
      exact add_assoc _ _ _
  | .procedure pre body => by
      have code := (body_sites (⟨.procedure, pre⟩ :: path) body).2
      unfold parseStatement
      rw [parse_lead]
      simp only [withRange, withConds, Option.toList_none, procsCode_cons, sites, ← code,
        enterRange_twice]
      exact ⟨rfl, zero_add _⟩
  | .failed pre inner => by
      have hoisted := (body_sites (⟨.group, pre⟩ :: path) inner).1
      unfold parseStatement
      rw [parse_lead]
      exact ⟨hoisted, (zero_add _).trans hoisted⟩
  | .noColon pre last => by
      unfold parseStatement
      split <;> exact ⟨rfl, rfl⟩

theorem body_sites (path : List Construct) : (xs : List (Src α)) →
    procsCode (parseBody (stateIn path) xs).2.2 = sitesCode (sitesIn false path xs) ∧
      bodyCode (stackIn path) (parseBody (stateIn path) xs).2.1 +
        procsCode (parseBody (stateIn path) xs).2.2 = sitesCode (sitesIn true path xs)
  | [] => ⟨rfl, rfl⟩
  | x :: xs => by
      obtain ⟨hoisted, code⟩ := statement_sites path x
      obtain ⟨hoisted', code'⟩ := body_sites path xs
      unfold parseBody
      simp only [statement_restores, procsCode_append, bodyCode_append, sitesIn, sitesCode_append,
        hoisted, hoisted', ← code, ← code', true_and]
      rw [← hoisted, ← hoisted']
      abel

end

theorem program_code (program : List (External α)) :
    procsCode (parseProgram State.initial program) = sitesCode (programSites program) := by
  induction program with
  | nil => rfl
  | cons p program ih =>
    have code := (body_sites [⟨.procedure, p.pre⟩] p.body).2
    have first : procsCode (parseExternalProcedure State.initial p).2 =
        sitesCode (sitesIn true [⟨.procedure, p.pre⟩] p.body) := by
      unfold parseExternalProcedure
      rw [parse_lead]
      simp only [withRange, withConds, procsCode_cons, ← code]
      rfl
    have split : programSites (p :: program) =
        sitesIn true [⟨.procedure, p.pre⟩] p.body ++ programSites program := rfl
    rw [parseProgram, procsCode_append, external_restores, ih, first, split, sitesCode_append]

end Generated

def innermost (positive : Cond → Option Bool) (c : Cond) (path : List Construct) : Option Bool :=
  path.findSome? fun k => k.pre.sense positive c

def onByDefault : Cond → Bool
  | .check _ => true
  | .stringRange => false

def governs (positive : Cond → Option Bool) (c : Cond) (path : List Construct) : Bool :=
  (innermost positive c path).getD (onByDefault c)

def Switches.off (sw : Switches) : Cond → Bool
  | .check .size | .check .under | .check .overflow | .check .fOver => sw.noSizeChecks
  | .check .sub => sw.noSubChecks
  | .check .zdiv => sw.noZdivChecks
  | .check .conv => sw.noConvChecks
  | .stringRange => false

def Kind.inPlace : Kind → Bool
  | .stmt | .group => true
  | .on | .procedure => false

def procSays (c : Cond) (path : List Construct) : Option Bool :=
  innermost enablesOptIn c (path.filter fun k => k.kind = .procedure)

def unitSays (c : Cond) (path : List Construct) : Option Bool :=
  innermost enablesOptIn c (path.takeWhile fun k => k.kind.inPlace)

def AsWritten (path : List Construct) : Prop := ∀ k ∈ path, ∀ l ∈ k.pre, ReadAsWritten false l

/-- The innermost prefix that names a check reaches a statement: a procedure's always does, an
    enabling one elsewhere where no procedure says otherwise, a disabling one where nothing but
    groups stands between (`samePlace`) or a procedure says so as well. -/
def Reaches (c : Check) (samePlace : Bool) : List Construct → Prop
  | [] => True
  | k :: path =>
      match k.pre.sense enablesOptIn (.check c) with
      | none => Reaches c (samePlace && k.kind.inPlace) path
      | some on =>
          k.kind = .procedure ∨
            if on then procSays (.check c) path ≠ some false
            else (samePlace && k.kind.inPlace) = true ∨ procSays (.check c) path = some false

def Reached : Cond → List Construct → Prop
  | .stringRange, _ | _, [] => True
  | .check c, k :: path =>
      k.pre.sense enablesOptIn (.check c) = none → Reaches c true path

theorem proc_state (c : Check) (path : List Construct) (asWritten : AsWritten path) :
    ((stateIn path).procCond c == 1) = (procSays (.check c) path == some false) := by
  induction path with
  | nil => rfl
  | cons k path ih =>
    have rest := ih fun k h => asWritten k (List.mem_cons_of_mem _ h)
    have read := prefix_read (stateIn path).flags k.pre (asWritten k List.mem_cons_self)
    have range : ∀ flags, ((stateIn path).enterRange flags).procCond =
        (stateIn path).procCond := by
      intro flags
      unfold State.enterRange
      split <;> rfl
    cases kind : k.kind with
    | procedure =>
      simp only [stateIn, kind, State.enterConds, read, range, Flags.mark, procSays, innermost,
        List.filter_cons, decide_true, if_true, List.findSome?_cons]
      cases k.pre.sense enablesOptIn (.check c) with
      | some on => cases on <;> rfl
      | none =>
        simp only [State.flags, Bool.false_eq_true, if_false]
        rw [procSays, innermost] at rest
        rw [← rest]
        split
        · rename_i disabled
          rw [disabled]
          rfl
        · rfl
    | stmt | group | on =>
      simp only [stateIn, kind, range, procSays, innermost, List.filter_cons, reduceCtorEq,
        decide_false, Bool.false_eq_true, if_false]
      exact rest

theorem unitSays_inPlace (c : Cond) (k : Construct) (path : List Construct)
    (inPlace : k.kind.inPlace = true) :
    unitSays c (k :: path) = (k.pre.sense enablesOptIn c).or (unitSays c path) := by
  simp only [unitSays, innermost, List.takeWhile_cons, inPlace, if_true, List.findSome?_cons]
  cases k.pre.sense enablesOptIn c <;> rfl

theorem procSays_other (c : Cond) (k : Construct) (path : List Construct)
    (other : k.kind ≠ .procedure) : procSays c (k :: path) = procSays c path := by
  simp [procSays, other]

theorem pushed_no (c : Check) (k : Construct) (path : List Construct)
    (asWritten : AsWritten (k :: path)) :
    ((stackAt (k :: path)).headD CheckState.default).no c =
      match k.pre.sense enablesOptIn (.check c) with
      | some on => !on
      | none =>
        procSays (.check c) path == some false || unitSays (.check c) path == some false := by
  induction path generalizing k with
  | nil =>
    have read := prefix_read (stateIn []).flags k.pre (asWritten k List.mem_cons_self)
    simp only [stackAt, stackIn, pushChecks, List.headD_cons, List.headD_nil, CheckState.enter,
      read, Flags.mark]
    cases k.pre.sense enablesOptIn (.check c) with
    | some on => cases on <;> rfl
    | none => rfl
  | cons outer path ih =>
    have read := prefix_read (stateIn (outer :: path)).flags k.pre
      (asWritten k List.mem_cons_self)
    have around : AsWritten (outer :: path) := fun k h => asWritten k (List.mem_cons_of_mem _ h)
    have procs := proc_state c (outer :: path) around
    have top : ((stackIn (outer :: path)).headD CheckState.default).no c =
        if outer.kind.inPlace then ((stackAt (outer :: path)).headD CheckState.default).no c
        else false := by
      cases kind : outer.kind <;> simp only [stackIn, kind, stackAt] <;> rfl
    simp only [stackAt, pushChecks, List.headD_cons, CheckState.enter, read, Flags.mark]
    cases k.pre.sense enablesOptIn (.check c) with
    | some on => cases on <;> simp
    | none =>
      have start : (stateIn (outer :: path)).flags.no c =
          (procSays (.check c) (outer :: path) == some false) := procs
      have unset : (stateIn (outer :: path)).flags.chk c = false := rfl
      simp only [start, unset, Bool.false_eq_true, if_false, top]
      cases inPlace : outer.kind.inPlace with
      | false =>
        have away : unitSays (.check c) (outer :: path) = none := by
          simp [unitSays, innermost, inPlace]
        simp [away]
      | true =>
        have other : outer.kind ≠ .procedure := by
          intro procedure
          rw [procedure] at inPlace
          cases inPlace
        rw [if_pos rfl, ih outer around, unitSays_inPlace _ _ _ inPlace, procSays_other _ _ _ other]
        cases outer.pre.sense enablesOptIn (.check c) with
        | some on => cases on <;> simp
        | none => simp [Bool.or_comm]

def rangeSaid (path : List Construct) : Int :=
  match innermost enablesOptIn .stringRange path with
  | none => 0
  | some on => if on then 1 else -1

theorem rangeSaid_outer {k : Construct} {path : List Construct}
    (quiet : rangeSaid (k :: path) = 0) : rangeSaid path = 0 := by
  simp only [rangeSaid, innermost, List.findSome?_cons] at quiet ⊢
  cases said : k.pre.sense enablesOptIn .stringRange with
  | some on => cases on <;> simp [said] at quiet
  | none => simpa [said] using quiet

theorem flag_said (k : Construct) (path : List Construct) (asWritten : AsWritten (k :: path))
    (field : (stateIn path).procStrRange = rangeSaid path) :
    (readPrefix (stateIn path).flags k.pre).strRange = rangeSaid (k :: path) := by
  rw [prefix_read _ k.pre (asWritten k List.mem_cons_self)]
  simp only [rangeSaid, innermost, List.findSome?_cons, Flags.mark]
  cases k.pre.sense enablesOptIn .stringRange with
  | some on => rfl
  | none => exact field

theorem range_state (path : List Construct) (asWritten : AsWritten path) :
    (stateIn path).procStrRange = rangeSaid path := by
  induction path with
  | nil => rfl
  | cons k path ih =>
    have rest := ih fun k h => asWritten k (List.mem_cons_of_mem _ h)
    have flag := flag_said k path asWritten rest
    have entered : (stateIn (k :: path)).procStrRange =
        ((stateIn path).enterRange (readPrefix (stateIn path).flags k.pre)).procStrRange := by
      cases kind : k.kind <;> simp only [stateIn, kind]
      rfl
    rw [entered, State.enterRange, flag]
    split
    · rfl
    · rename_i quiet
      rw [rest]
      have unset := not_not.mp quiet
      rw [unset, rangeSaid_outer unset]

theorem flag_range (k : Construct) (path : List Construct) (asWritten : AsWritten (k :: path)) :
    (readPrefix (stateIn path).flags k.pre).strRange = rangeSaid (k :: path) :=
  flag_said k path asWritten (range_state path fun k h => asWritten k (List.mem_cons_of_mem _ h))

theorem pushed_range (k : Construct) (path : List Construct) (asWritten : AsWritten (k :: path)) :
    ((stackAt (k :: path)).headD CheckState.default).strRange = rangeSaid (k :: path) := by
  induction path generalizing k with
  | nil =>
    simp only [stackAt, pushChecks, List.headD_cons, CheckState.enter, flag_range k [] asWritten]
    split
    · rfl
    · rename_i unset
      exact (not_not.mp unset).symm
  | cons outer path ih =>
    have around : AsWritten (outer :: path) := fun k h => asWritten k (List.mem_cons_of_mem _ h)
    simp only [stackAt, pushChecks, List.headD_cons, CheckState.enter,
      flag_range k (outer :: path) asWritten]
    split
    · rfl
    · rename_i quiet
      have unset := not_not.mp quiet
      have inner := (ih outer around).trans (rangeSaid_outer unset)
      rw [unset]
      cases kind : outer.kind with
      | on | procedure => simp only [stackIn, kind]; rfl
      | stmt | group => simp only [stackIn, kind]; exact inner

def detects (stack : List CheckState) : Cond → Bool
  | .check c => !(stack.headD CheckState.default).no c
  | .stringRange => (stack.headD CheckState.default).strRange == 1

theorem enabled_detects (sw : Switches) (k : Construct) (path : List Construct) (c : Cond) :
    enabled sw (stackAt (k :: path)) c = (!sw.off c && detects (stackAt (k :: path)) c) := by
  cases c with
  | check c =>
    cases c <;> simp [enabled, sizeChecks, subChecks, zdivChecks, convChecks, underflowChecks,
      overflowChecks, fixedOverflowChecks, checkOn, Switches.off, detects, stackAt, pushChecks]
  | stringRange => simp [enabled, strRangeChecks, Switches.off, detects, stackAt, pushChecks]

theorem enabled_default (sw : Switches) (c : Cond) :
    enabled sw [] c = (!sw.off c && onByDefault c) := by
  cases c with
  | check c =>
    cases c <;> simp [enabled, sizeChecks, subChecks, zdivChecks, convChecks, underflowChecks,
      overflowChecks, fixedOverflowChecks, checkOn, Switches.off, onByDefault]
  | stringRange => simp [enabled, strRangeChecks, Switches.off, onByDefault]

theorem procSays_silent (c : Cond) (k : Construct) (path : List Construct)
    (silent : k.pre.sense enablesOptIn c = none) : procSays c (k :: path) = procSays c path := by
  by_cases procedure : k.kind = .procedure
  · simp [procSays, innermost, procedure, silent]
  · exact procSays_other c k path procedure

theorem procSays_procedure (c : Cond) (k : Construct) (path : List Construct) (on : Bool)
    (procedure : k.kind = .procedure) (speaks : k.pre.sense enablesOptIn c = some on) :
    procSays c (k :: path) = some on := by
  simp [procSays, innermost, procedure, speaks]

theorem unitSays_away (c : Cond) (k : Construct) (path : List Construct)
    (away : k.kind.inPlace = false) : unitSays c (k :: path) = none := by
  simp [unitSays, innermost, away]

theorem reaches_iff (c : Check) (samePlace : Bool) (path : List Construct) :
    (procSays (.check c) path == some false ||
        (samePlace && unitSays (.check c) path == some false)) =
      !(governs enablesOptIn (.check c) path) ↔ Reaches c samePlace path := by
  induction path generalizing samePlace with
  | nil => simp [procSays, unitSays, innermost, governs, onByDefault, Reaches]
  | cons k path ih =>
    cases said : k.pre.sense enablesOptIn (.check c) with
    | none =>
      have same : governs enablesOptIn (.check c) (k :: path) =
          governs enablesOptIn (.check c) path := by
        simp [governs, innermost, said]
      have unit : (samePlace && unitSays (.check c) (k :: path) == some false) =
          ((samePlace && k.kind.inPlace) && unitSays (.check c) path == some false) := by
        cases inPlace : k.kind.inPlace with
        | true => simp [unitSays_inPlace _ _ _ inPlace, said]
        | false => simp [unitSays_away _ _ _ inPlace]
      rw [procSays_silent _ _ _ said, same, unit, ih]
      simp only [Reaches, said]
    | some on =>
      have governed : governs enablesOptIn (.check c) (k :: path) = on := by
        simp [governs, innermost, said]
      by_cases procedure : k.kind = .procedure
      · have away : k.kind.inPlace = false := by rw [procedure]; rfl
        rw [procSays_procedure _ _ _ on procedure said, unitSays_away _ _ _ away, governed]
        cases on <;> simp [Reaches, said, procedure]
      · rw [procSays_other _ _ _ procedure, governed]
        cases inPlace : k.kind.inPlace with
        | true =>
          rw [unitSays_inPlace _ _ _ inPlace]
          cases on <;> simp [Reaches, said, procedure, inPlace, or_comm]
        | false =>
          rw [unitSays_away _ _ _ inPlace]
          cases on <;> simp [Reaches, said, procedure, inPlace]

theorem reached_iff (c : Cond) (k : Construct) (path : List Construct)
    (asWritten : AsWritten (k :: path)) :
    detects (stackAt (k :: path)) c = governs enablesOptIn c (k :: path) ↔
      Reached c (k :: path) := by
  cases c with
  | stringRange =>
    simp only [detects, pushed_range k path asWritten, Reached, iff_true, rangeSaid, governs]
    cases innermost enablesOptIn .stringRange (k :: path) with
    | none => rfl
    | some on => cases on <;> rfl
  | check c =>
    have own := pushed_no c k path asWritten
    cases said : k.pre.sense enablesOptIn (.check c) with
    | some on =>
      have governed : governs enablesOptIn (.check c) (k :: path) = on := by
        simp [governs, innermost, said]
      simp only [said] at own
      simp only [detects, own, governed, Reached, said, reduceCtorEq, false_implies, Bool.not_not]
    | none =>
      have same : governs enablesOptIn (.check c) (k :: path) =
          governs enablesOptIn (.check c) path := by
        simp [governs, innermost, said]
      have around := reaches_iff c true path
      simp only [said] at own
      simp only [detects, own, same, Reached, said, forall_const, ← around, Bool.true_and]
      exact Bool.not_eq_eq_eq_not

/-- A condition prefix governs its scope, as far as it reaches: every statement is generated
    once, with each condition as the innermost prefix that names it says, and no construct
    changes the parser's fields for what follows it. -/
theorem prefix_governs {α : Type} (sw : Switches) (program : List (External α)) :
    (∃ order : List (Site α), order.Perm (programSites program) ∧
      List.Forall₂ (fun (code : Emitted α) (site : Site α) => code.1 = site.text ∧
          ∀ c, AsWritten site.path → Reached c site.path →
            enabled sw code.2 c = (!sw.off c && governs enablesOptIn c site.path))
        (emitProgram (parseProgram State.initial program)) order) ∧
      ∀ (s : State) (x : Src α), (parseStatement s x).1 = s := by
  refine ⟨?_, statement_restores⟩
  have perm : (emitProgram (parseProgram State.initial program)).Perm
      ((programSites program).map Site.code) := Multiset.coe_eq_coe.mp (program_code program)
  have each : List.Forall₂ (fun (code : Emitted α) (site : Site α) => code = site.code)
      ((programSites program).map Site.code) (programSites program) := by
    rw [List.forall₂_map_left_iff]
    exact List.forall₂_same.mpr fun _ _ => rfl
  obtain ⟨order, codes, same⟩ := List.perm_comp_forall₂ perm each
  refine ⟨order, same, codes.imp ?_⟩
  rintro code site rfl
  refine ⟨rfl, fun c asWritten reached => ?_⟩
  obtain ⟨text, path⟩ := site
  cases path with
  | nil => exact enabled_default sw c
  | cons k path =>
    rw [Site.code, enabled_detects, (reached_iff c k path asWritten).mpr reached]

theorem pair_of_mem {β γ : Type} {r : β → γ → Prop} {l : List β} {l' : List γ}
    (pairs : List.Forall₂ r l l') {x : β} (member : x ∈ l) : ∃ y ∈ l', r x y := by
  induction pairs with
  | nil => cases member
  | cons related _ ih =>
    cases member with
    | head => exact ⟨_, List.mem_cons_self, related⟩
    | tail _ later =>
      obtain ⟨y, inside, related⟩ := ih later
      exact ⟨y, List.mem_cons_of_mem _ inside, related⟩

def oneWord (e : Element) : Prefix := [[e]]

/-- `(NOSIZE): DO; (SIZE): X = 40000; END;` in a procedure. -/
def sizeAgain : List (External String) :=
  [⟨[], [.group (oneWord (.no (.check .size))) "DO"
    [.stmt (oneWord (.cond (.check .size))) "X = 40000"]]⟩]

def noSwitches : Switches :=
  { noSizeChecks := false, noSubChecks := false, noZdivChecks := false, noConvChecks := false }

/-- `(NOSIZE): DO; X = 40000; END;` in a procedure. -/
def sizeOff : List (External String) :=
  [⟨[], [.group (oneWord (.no (.check .size))) "DO" [.stmt [] "X = 40000"]]⟩]

/-- The group's prefix turns SIZE off in the assignment and leaves ZERODIVIDE on. -/
theorem size_off_in_group :
    ∃ code ∈ emitProgram (parseProgram State.initial sizeOff), code.1 = "X = 40000" ∧
      enabled noSwitches code.2 (.check .size) = false ∧
      enabled noSwitches code.2 (.check .zdiv) = true := by
  obtain ⟨⟨order, same, codes⟩, -⟩ := prefix_governs noSwitches sizeOff
  have listed : ∃ site ∈ programSites sizeOff, site.text = "X = 40000" ∧
      site.path = [⟨.stmt, []⟩, ⟨.group, oneWord (.no (.check .size))⟩, ⟨.procedure, []⟩] :=
    ⟨_, List.mem_cons_of_mem _ List.mem_cons_self, rfl, rfl⟩
  obtain ⟨site, member, text, path⟩ := listed
  obtain ⟨code, emitted, same_text, on⟩ := pair_of_mem codes.flip (same.symm.subset member)
  have asWritten : AsWritten site.path := by
    rw [path]
    simp [AsWritten, oneWord, ReadAsWritten]
  refine ⟨code, emitted, same_text.trans text, ?_, ?_⟩
  · rw [on (.check .size) asWritten (by rw [path]; exact fun _ => Or.inr (Or.inl rfl)), path]
    decide
  · rw [on (.check .zdiv) asWritten (by rw [path]; exact fun _ => trivial), path]
    decide

/-- The assignment's own prefix names SIZE, and SIZE is not detected in it. -/
theorem size_not_again :
    ¬ ∃ order : List (Site String), order.Perm (programSites sizeAgain) ∧
      List.Forall₂ (fun (code : Emitted String) (site : Site String) => code.1 = site.text ∧
          ∀ c, enabled noSwitches code.2 c = (!noSwitches.off c && governs enables c site.path))
        (emitProgram (parseProgram State.initial sizeAgain)) order := by
  rintro ⟨order, same, codes⟩
  have wrong : ∃ code ∈ emitProgram (parseProgram State.initial sizeAgain),
      code.1 = "X = 40000" ∧ enabled noSwitches code.2 (.check .size) = false := by
    decide +kernel
  obtain ⟨code, emitted, text, off⟩ := wrong
  obtain ⟨site, member, same', on⟩ := pair_of_mem codes emitted
  have listed : site ∈ programSites sizeAgain := same.subset member
  have governed : ∀ site ∈ programSites sizeAgain, site.text = "X = 40000" →
      governs enables (.check .size) site.path = true := by
    decide +kernel
  have wanted := on (.check .size)
  rw [off, governed site listed (same'.symm.trans text)] at wanted
  cases wanted

end PliCondPrefix
