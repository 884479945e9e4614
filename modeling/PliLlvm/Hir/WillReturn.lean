import PliLlvm.Hir.CallCycles
import PliLlvm.Hir.Continuations
import Mathlib.Tactic.IntervalCases

/- The promise that a procedure always returns. What a run does is noted by the walk of the
   procedure's body, except in the expressions the walk skips; a procedure whose bits hold
   nothing against the promise has no such note, nor has any it calls, and the order in
   which the search finishes them carries the induction over calls. -/
namespace PliEffects
open PliHir Rounds

structure Plain (prog : HProgram) (opts : EffectOptions) (e : HExpr) : Prop where
  calls : applied prog e = []
  checks : checks opts e = []
  defined : ∀ s idx, placeOf e = some (.sym s) → ¬ DefinedIdx prog s idx

def SkipsPlain (prog : HProgram) (opts : EffectOptions) : Prop :=
  ∀ proc ∈ prog.procs, ∀ e, Skipped prog proc e → Plain prog opts e

section Sizes

theorem operand_smaller {e inner : HExpr} (member : inner ∈ operands e) :
    sizeOf inner < sizeOf e := by
  cases e with
  | null => cases member
  | mk node locPtr a b args =>
    unfold operands at member
    have arg : inner ∈ args → sizeOf inner < sizeOf args := List.sizeOf_lt_of_mem
    cases kind : node.kind <;> simp only [kind] at member
    case varRef =>
      cases sym : node.sym with
      | none => simp [sym] at member
      | some s =>
        by_cases name : s.kind = .procName
        · simp [sym, name] at member
        · simp only [sym, name, ↓reduceIte, List.mem_singleton] at member
          subst member
          simp
          omega
    case subscript =>
      rcases List.mem_append.mp member with among | loc
      · have := arg among
        simp
        omega
      · rw [List.mem_singleton.mp loc]
        simp
        omega
    case binary =>
      simp only [List.mem_cons, List.not_mem_nil, or_false] at member
      rcases member with rfl | rfl <;> simp <;> omega
    case call =>
      have := arg member
      simp
      omega
    case unary =>
      rw [List.mem_singleton.mp member]
      simp
      omega
    case convert =>
      rw [List.mem_singleton.mp member]
      simp
      omega
    all_goals cases member

theorem child_smaller {st inner : HStmt} (member : inner ∈ children st) :
    sizeOf inner < sizeOf st := by
  cases st with
  | null => cases member
  | mk node thenS elseS unit body =>
    unfold children at member
    have among : inner ∈ body → sizeOf inner < sizeOf body := List.sizeOf_lt_of_mem
    cases kind : node.kind <;> simp only [kind] at member
    case ifS =>
      simp only [List.mem_cons, List.not_mem_nil, or_false] at member
      rcases member with rfl | rfl <;> simp <;> omega
    case on =>
      rw [List.mem_singleton.mp member]
      simp
      omega
    case group => have := among member; simp; omega
    case begin => have := among member; simp; omega
    case doWhile => have := among member; simp; omega
    case doIter => have := among member; simp; omega
    all_goals cases member

end Sizes

section Bodies
variable {w : EffectWalker}

/-- A walk that notes nothing a run could fail to return from, in a procedure whose callees
    return. -/
structure Quiet (w : EffectWalker) : Prop where
  known : Note.opaqueB ∉ w.run
  ends : Note.mayNotReturn ∉ w.run
  raises : ∀ k, Note.raiseKey k ∉ w.run
  calls : ∀ q reach, Note.call q reach ∈ w.run → q < w.prog.procs.length →
    Safe w.prog w.opts (.call q)
  plain : ∀ e, Skipped w.prog w.p e → Plain w.prog w.opts e

variable {k : Int}

theorem Quiet.callTask (quiet : Quiet w) {s : Symbol}
    (inside : ∀ q, s.kind = .procName → s.proc.bind w.prog.bySrc = some q →
      ∃ reach, Note.call q reach ∈ w.run)
    (outside : s.kind ≠ .procName ∨ s.proc.bind w.prog.bySrc = none → Note.opaqueB ∈ w.run) :
    Safe w.prog w.opts (callTask w.prog s) := by
  unfold PliEffects.callTask
  split
  · rename_i name
    cases place : s.proc.bind w.prog.bySrc with
    | none => exact absurd (outside (Or.inr place)) quiet.known
    | some q =>
      obtain ⟨reach, noted⟩ := inside q name place
      obtain ⟨src, -, found⟩ := Option.bind_eq_some_iff.mp place
      exact quiet.calls q reach noted (bySrc_valid found)
  · rename_i other
    exact absurd (outside (Or.inl other)) quiet.known

theorem Quiet.applied (quiet : Quiet w) {e : HExpr} (walked : Walked w e) :
    ∀ t ∈ applied w.prog e, Safe w.prog w.opts t := by
  intro t member
  cases e with
  | null => cases member
  | mk node locPtr a b args =>
    unfold PliEffects.applied at member
    dsimp only at member
    split at member
    · rename_i called
      simp only [Bool.and_eq_true, decide_eq_true_eq, Bool.not_eq_eq_eq_not,
        Bool.not_true] at called
      obtain ⟨kind, notBuiltin⟩ := called
      cases sym : node.sym with
      | none => simp [sym] at member
      | some s =>
        simp only [sym, List.mem_singleton] at member
        subst member
        apply quiet.callTask
        · intro q name place
          obtain ⟨src, proc, found⟩ := Option.bind_eq_some_iff.mp place
          have known := List.getElem?_eq_getElem (bySrc_valid found)
          exact ⟨_, call_noted walked kind sym name proc found known⟩
        · intro out
          apply call_out_noted walked kind sym
          by_cases name : s.kind = .procName
          · rcases out with other | missing
            · exact absurd name other
            · exact Or.inl ⟨name, missing⟩
          · refine Or.inr ⟨name, ?_⟩
            simp only [isBuiltinCall, kind, sym] at notBuiltin
            cases var : s.isEntryVar <;> simp_all
    · cases member

theorem Quiet.skipped (quiet : Quiet w) {e : HExpr} (skipped : Skipped w.prog w.p e) :
    Safe w.prog w.opts (.eval e) := by
  induction size : sizeOf e using Nat.strongRecOn generalizing e with
  | ind n ih =>
    have plain := quiet.plain e skipped
    apply safe_eval
    · intro inner member
      exact ih (sizeOf inner) (size ▸ operand_smaller member) (.operand skipped member) rfl
    · intro s idx place idx
      exact absurd idx (plain.defined s _ place)
    · apply safe_apply
      · intro t member
        rw [plain.calls] at member
        cases member
      · exact plain.checks

theorem Quiet.evaluated (quiet : Quiet w) {e : HExpr} (evaluated : Evaluated w.prog w.p e) :
    Safe w.prog w.opts (.eval e) := by
  induction size : sizeOf e using Nat.strongRecOn generalizing e with
  | ind n ih =>
    rcases evaluated_walked evaluated with walked | skipped
    · apply safe_eval
      · intro inner member
        exact ih (sizeOf inner) (size ▸ operand_smaller member) (.operand evaluated member) rfl
      · intro s idx place defined
        exact quiet.skipped (.definedRead evaluated place defined)
      · apply safe_apply (quiet.applied walked)
        apply List.eq_nil_iff_forall_not_mem.mpr
        intro k member
        exact quiet.raises k (checks_noted walked member)
    · exact quiet.skipped skipped

section Statements
variable {node : StmtNode} {thenS elseS unit : HStmt} {body : List HStmt}

theorem Quiet.fields (quiet : Quiet w) (inside : InBody w.p (.mk node thenS elseS unit body)) :
    ∀ t ∈ (valueFields node).map Task.eval, Safe w.prog w.opts t := by
  intro t member
  obtain ⟨e, field, rfl⟩ := List.mem_map.mp member
  exact quiet.evaluated (.field inside field)

theorem Quiet.stores (quiet : Quiet w) (inside : InBody w.p (.mk node thenS elseS unit body)) :
    ∀ t ∈ stores node, Safe w.prog w.opts t := by
  intro t member
  obtain ⟨target, among, part⟩ := List.mem_flatMap.mp member
  rcases List.mem_append.mp part with operand | store
  · obtain ⟨e, field, rfl⟩ := List.mem_map.mp operand
    exact quiet.evaluated (.target inside among field)
  · rw [List.mem_singleton.mp store]
    apply safe_assign
    intro s idx place defined
    exact quiet.skipped (.definedWrite inside among place defined)

theorem statement_ends (ends : Note.mayNotReturn ∉ w.run)
    (inside : InBody w.p (.mk node thenS elseS unit body)) :
    node.kind ≠ .doWhile ∧ node.kind ≠ .stop ∧ node.kind ≠ .goto ∧
      (node.kind = .doIter → EffectWalker.byMayBeZero node.byE = false) := by
  have noted := @walked_statement w _ inside .mayNotReturn
  rw [EffectWalker.walkStmt.eq_def] at noted
  have absent := mt noted ends
  refine ⟨?_, ?_, ?_, ?_⟩ <;> intro kind <;> simp only [kind] at absent
  · simp at absent
  · simp at absent
  · simp at absent
  · cases zero : EffectWalker.byMayBeZero node.byE with
    | false => rfl
    | true => simp [zero] at absent

theorem Quiet.call_statement (quiet : Quiet w)
    (inside : InBody w.p (.mk node thenS elseS unit body))
    (kind : node.kind = .callS) {s : Symbol} (sym : node.sym = some s) :
    Safe w.prog w.opts (PliEffects.callTask w.prog s) := by
  apply quiet.callTask
  · intro q name place
    obtain ⟨src, proc, found⟩ := Option.bind_eq_some_iff.mp place
    have known := List.getElem?_eq_getElem (bySrc_valid found)
    exact ⟨_, call_statement_noted inside kind sym name proc found known⟩
  · intro out
    apply call_statement_out_noted inside kind
    intro s' same
    rw [sym] at same
    cases same
    exact out

end Statements

theorem Quiet.statement (quiet : Quiet w) {st : HStmt} (inside : InBody w.p st) :
    Safe w.prog w.opts (.exec st) := by
  induction size : sizeOf st using Nat.strongRecOn generalizing st with
  | ind n ih =>
    have child : ∀ inner ∈ children st, Safe w.prog w.opts (.exec inner) := fun inner member =>
      ih (sizeOf inner) (size ▸ child_smaller member) (.child inside member) rfl
    cases st with
    | null => exact safe_exec rfl fun t member => by cases member
    | mk node thenS elseS unit body =>
      obtain ⟨notWhile, notStop, notGoto, moving⟩ := statement_ends quiet.ends inside
      have field : ∀ e ∈ valueFields node, Safe w.prog w.opts (.eval e) := fun e member =>
        quiet.evaluated (.field inside member)
      have within : reachesOut node = false := by
        rw [Bool.eq_false_iff]
        intro out
        exact quiet.known (out_noted inside out)
      unfold children at child
      cases kind : node.kind <;> simp only [kind] at child
      case declare =>
        apply safe_exec (by simp only [begins, kind]; rfl)
        intro t member
        rcases List.mem_append.mp member with part | store
        · exact quiet.fields inside t part
        · rw [List.mem_singleton.mp store]
          exact safe_write
      case assign =>
        apply safe_exec (by simp only [begins, kind]; rfl)
        intro t member
        rcases List.mem_append.mp member with part | store
        · exact quiet.fields inside t part
        · exact quiet.stores inside t store
      case ifS =>
        apply safe_exec (by simp only [begins, kind]; rfl)
        simp only [List.mem_cons, List.not_mem_nil, or_false]
        rintro t (rfl | rfl)
        · exact field _ (by simp [valueFields, kind])
        · exact safe_choice (child thenS (by simp)) (child elseS (by simp))
      case group =>
        apply safe_exec (by simp only [begins, kind]; rfl)
        intro t member
        obtain ⟨inner, among, rfl⟩ := List.mem_map.mp member
        exact child inner among
      case begin =>
        apply safe_exec (by simp only [begins, kind]; rfl)
        intro t member
        obtain ⟨inner, among, rfl⟩ := List.mem_map.mp member
        exact child inner among
      case doIter =>
        apply safe_exec (by simp only [begins, kind]; rfl)
        intro t member
        split at member
        · simp only [List.mem_cons, List.not_mem_nil, or_false] at member
          rcases member with rfl | rfl
          · exact field _ (by simp [valueFields, kind])
          · apply safe_start
            · exact field _ (by simp [valueFields, kind])
            · exact field _ (by simp [valueFields, kind])
            · exact safe_enter kind (moving kind) child (field _ (by simp [valueFields, kind]))
        · cases member
      case returnS =>
        apply safe_exec (by simp only [begins, kind]; rfl)
        simp only [List.mem_cons, List.not_mem_nil, or_false]
        rintro t (rfl | rfl)
        · exact field _ (by simp [valueFields, kind])
        · exact safe_ret
      case callS =>
        apply safe_exec (by simp only [begins, kind]; rfl)
        intro t member
        rcases List.mem_append.mp member with before | call
        · rcases List.mem_append.mp before with part | store
          · exact quiet.fields inside t part
          · exact quiet.stores inside t store
        · split at call
          · cases call
          · cases sym : node.sym with
            | none =>
              refine absurd ?_ quiet.known
              exact call_statement_out_noted inside kind (by simp [sym])
            | some s =>
              simp only [sym, List.mem_singleton] at call
              rw [call]
              exact quiet.call_statement inside kind sym
      case leave => exact safe_leave (Or.inl kind)
      case iterate => exact safe_leave (Or.inr kind)
      case doWhile => exact absurd kind notWhile
      case stop => exact absurd kind notStop
      case goto => exact absurd kind notGoto
      case null => exact safe_exec (by simp only [begins, kind]; rfl) (by simp)
      case entry => exact safe_exec (by simp only [begins, kind]; rfl) (by simp)
      case format => exact safe_exec (by simp only [begins, kind]; rfl) (by simp)
      all_goals
        simp only [reachesOut, kind] at within
        cases within

theorem Quiet.call {p : Nat} (quiet : Quiet w) (place : w.prog.procs[p]? = some w.p) :
    Safe w.prog w.opts (.call p) := by
  intro ts m fine
  refine .next ⟨_, _, .call place (Or.inl rfl)⟩ ?_
  intro ev c' step _
  cases step with
  | call known _ =>
    rw [place] at known
    cases known
    refine ((fine.before (safe_endCall p)).append ?_).ret
    intro t member
    obtain ⟨st, among, rfl⟩ := List.mem_map.mp member
    exact quiet.statement (.top (List.mem_of_mem_drop among))

end Bodies

section Verdict
variable {prog : HProgram} {byValue : Symbol → Bool} {opts : EffectOptions}

theorem Ret.always {c : Config} (returns : Ret prog opts c) : AlwaysReturns prog
    (Meets opts) c := by
  constructor
  · rintro ⟨run, start, each⟩
    induction returns generalizing run with
    | done =>
      obtain ⟨ev, step, -⟩ := each 0
      rw [start] at step
      cases step
    | next _ _ ih =>
      obtain ⟨ev, step, meets⟩ := each 0
      rw [start] at step meets
      exact ih ev (run 1) step meets (fun i => run (i + 1)) rfl fun i => each (i + 1)
  · intro c' reached
    have there : Ret prog opts c' := by
      induction reached with
      | refl => exact returns
      | tail _ last ih =>
        obtain ⟨ev, step, meets⟩ := last
        cases ih with
        | done => cases step
        | next _ on => exact on ev _ step meets
    cases there with
    | done => exact Or.inl trivial
    | next more _ => exact Or.inr more

variable {p : Nat}

theorem handed_on_held {f : Fact} (kept : ∀ reach g, carry reach g = f → g = f)
    (seen : Seen prog byValue opts p f) : (finalBits prog byValue opts p).has f := by
  obtain ⟨k, derived⟩ := seen
  exact finalBits_has (Nat.le_add_right _ 2) (derived.short kept callsOf_inside)

theorem carry_kept {f : Fact} (other : ∀ r isWrite, f ≠ .access r isWrite)
    (reach : Reach) (g : Fact)
    (same : carry reach g = f) : g = f := by
  unfold carry at same
  split at same
  · exact absurd same.symm (other _ _)
  · exact same

structure Clean (prog : HProgram) (byValue : Symbol → Bool) (opts : EffectOptions) (p : Nat) :
    Prop where
  known : ¬ Seen prog byValue opts p .unknown
  ends : ¬ Seen prog byValue opts p .endless
  raises : ∀ k, ¬ Seen prog byValue opts p (.raises k)

theorem clean_of_willReturn (promise : (analyzeEffects prog byValue opts p).willReturn = true) :
    Clean prog byValue opts p := by
  simp only [analyzeEffects, verdict, Bool.and_eq_true, Bool.not_eq_eq_eq_not, Bool.not_true,
    decide_eq_true_eq] at promise
  obtain ⟨⟨known, ends⟩, raises⟩ := promise
  constructor
  · intro seen
    have held : (finalBits prog byValue opts p).isOpaque = true :=
      handed_on_held (carry_kept (by simp)) seen
    rw [known] at held
    cases held
  · intro seen
    have held : (finalBits prog byValue opts p).mayNotReturn = true :=
      handed_on_held (carry_kept (by simp)) seen
    rw [ends] at held
    cases held
  · intro k seen
    have held : k ∈ (finalBits prog byValue opts p).raiseKeys :=
      handed_on_held (carry_kept (by simp)) seen
    rw [raises] at held
    cases held

theorem Clean.callee {q : Nat} {reach : Reach} (clean : Clean prog byValue opts p)
    (call : Note.call q reach ∈ notesOf prog byValue opts p) : Clean prog byValue opts q :=
  ⟨fun seen => clean.known (seen.carried call), fun seen => clean.ends (seen.carried call),
    fun k seen => clean.raises k (seen.carried call)⟩

theorem marked_endless (marked : p ∈ cyclesOf prog byValue opts) :
    Seen prog byValue opts p .endless := by
  refine ⟨0, .here ?_⟩
  unfold walkedBits
  simp only [marked, ↓reduceIte]
  split <;> exact rfl

theorem Clean.acc (clean : Clean prog byValue opts p) (bound : p < prog.procs.length) :
    Acc (fun q p => ∃ reach, Note.call q reach ∈ notesOf prog byValue opts p) p := by
  have inside : ∀ u, (callsOf prog byValue opts u).map (·.1) ≠ [] → u < prog.procs.length := by
    intro u calls
    obtain ⟨q, target⟩ := List.exists_mem_of_ne_nil _ calls
    obtain ⟨call, member, -⟩ := List.mem_map.mp target
    exact callsOf_inside u call member
  obtain ⟨finished, ordered, all⟩ := markCycles_orders inside
  have upward : ∀ list, Ordered (fun u => (callsOf prog byValue opts u).map (·.1))
      (cyclesOf prog byValue opts) list → ∀ u ∈ list, Clean prog byValue opts u →
        Acc (fun q p => ∃ reach, Note.call q reach ∈ notesOf prog byValue opts p) u := by
    intro list ordered
    induction list with
    | nil => exact fun u member => by cases member
    | cons first older ih =>
      intro u member clean
      rcases List.mem_cons.mp member with rfl | old
      · constructor
        rintro q ⟨reach, call⟩
        have edge : q ∈ (callsOf prog byValue opts u).map (·.1) :=
          List.mem_map.mpr ⟨(q, reach), mem_callsOf.mpr call, rfl⟩
        have cleanCallee := clean.callee call
        rcases ordered.1 q edge with marked | older
        · exact absurd (marked_endless marked) cleanCallee.ends
        · exact ih ordered.2 q older cleanCallee
      · exact ih ordered.2 u old clean
  exact upward finished ordered p (all p bound) clean

theorem Clean.safe (skips : SkipsPlain prog opts) (clean : Clean prog byValue opts p)
    (bound : p < prog.procs.length) : Safe prog opts (.call p) := by
  have chain := clean.acc bound
  induction chain with
  | intro p _ ih =>
    have place := List.getElem?_eq_getElem bound
    have notes : notesOf prog byValue opts p =
        EffectWalker.run ⟨prog, prog.procs[p], byValue, opts⟩ := by simp [notesOf, place]
    have absent : ∀ note f, factOf note = some f → ¬ Seen prog byValue opts p f →
        note ∉ EffectWalker.run ⟨prog, prog.procs[p], byValue, opts⟩ := by
      intro note f fact unseen noted
      rw [← notes] at noted
      exact unseen (seen_noted noted fact)
    have quiet : Quiet ⟨prog, prog.procs[p], byValue, opts⟩ := by
      constructor
      · exact absent _ _ rfl clean.known
      · exact absent _ _ rfl clean.ends
      · exact fun k => absent _ _ rfl (clean.raises k)
      · intro q reach noted inside
        rw [← notes] at noted
        exact ih q ⟨reach, noted⟩ (clean.callee noted) inside
      · exact skips _ (List.getElem_mem bound)
    exact quiet.call place

def CallsTo (prog : HProgram) (p q : Nat) : Prop :=
  ∃ proc s args, prog.procs[p]? = some proc ∧ Calls prog proc q s args

theorem callsTo_noted (skips : SkipsPlain prog opts) {p q : Nat} (calls : CallsTo prog p q) :
    ∃ reach, Note.call q reach ∈ notesOf prog byValue opts p := by
  obtain ⟨proc, s, args, place, call⟩ := calls
  have notes : notesOf prog byValue opts p = EffectWalker.run ⟨prog, proc, byValue, opts⟩ := by
    simp [notesOf, place]
  rw [notes]
  cases call with
  | @expr node locPtr a b args s src q evaluated kind sym name proc' found =>
    have known := List.getElem?_eq_getElem (bySrc_valid found)
    rcases evaluated_walked (w := ⟨prog, proc, byValue, opts⟩) evaluated with walked | skipped
    · exact ⟨_, call_noted walked kind sym name proc' found known⟩
    · have none := (skips proc (List.mem_of_getElem? place) _ skipped).calls
      simp [applied, isBuiltinCall, kind, sym, name] at none
  | @stmt node thenS elseS unit body s src q inside kind sym name proc' found =>
    have known := List.getElem?_eq_getElem (bySrc_valid found)
    exact ⟨_, call_statement_noted (w :=
      ⟨prog, proc, byValue, opts⟩) inside kind sym name proc' found
      known⟩

theorem acc_no_cycle {α : Type} {r : α → α → Prop} {a : α} (acc : Acc (fun b a => r a b) a) :
    ¬ Relation.TransGen r a a := by
  induction acc with
  | intro a _ ih =>
    intro cycle
    obtain ⟨b, first, back⟩ := Relation.TransGen.head'_iff.mp cycle
    exact ih b first (Relation.TransGen.tail' back first)

/-- What the promise to return means for a procedure: its runs return, the procedures it
    reaches call each other in no cycle, and none of them has a statement that may stop,
    jump or repeat without end. -/
structure ReturnSound (prog : HProgram) (opts : EffectOptions) (p : Nat) : Prop where
  returns : ∀ m, AlwaysReturns prog (Meets opts) (.run [.call p] m)
  acyclic : ∀ q, Relation.ReflTransGen (CallsTo prog) p q → ¬ Relation.TransGen (CallsTo prog) q q
  statements : ∀ q proc, Relation.ReflTransGen (CallsTo prog) p q → prog.procs[q]? = some proc →
    ∀ node thenS elseS unit body, InBody proc (.mk node thenS elseS unit body) →
      node.kind ≠ .doWhile ∧ node.kind ≠ .stop ∧ node.kind ≠ .goto ∧
        (node.kind = .doIter → EffectWalker.byMayBeZero node.byE = false)

end Verdict

def varI : Symbol := { num := 2, owner := some ⟨0, false⟩ }

def refI : HExpr := .mk { kind := .varRef, sym := some varI } .null .null .null []

def doThree : StmtNode :=
  { kind := .doIter, sym := some varI, fromE := intLit 1, toE := intLit 3 }

def countsToThree : HProc :=
  { body := [.mk doThree .null .null .null []], src := some ⟨0, false⟩ }

theorem countsToThree_body {node : StmtNode} {thenS elseS unit : HStmt} {body : List HStmt}
    (inside : InBody countsToThree (.mk node thenS elseS unit body)) : node = doThree := by
  have only : ∀ st, InBody countsToThree st → st = .mk doThree .null .null .null [] := by
    intro st inside
    induction inside with
    | top member => exact List.mem_singleton.mp member
    | child _ member ih =>
      rw [ih] at member
      cases member
  injection only _ inside

theorem countsToThree_skips : SkipsPlain ⟨[countsToThree]⟩ {} := by
  intro proc member e skipped
  obtain rfl : proc = countsToThree := List.mem_singleton.mp member
  have no_idx : ∀ s idx, ¬ DefinedIdx ⟨[countsToThree]⟩ s idx := by
    rintro s idx ⟨proc, mem, node, thenS, elseS, unit, body, within, kind, -⟩
    obtain rfl : proc = countsToThree := List.mem_singleton.mp mem
    rw [countsToThree_body within] at kind
    cases kind
  have null : e = .null := by
    induction skipped with
    | bound inside kind _ _ => rw [countsToThree_body inside] at kind; cases kind
    | whileClause inside _ => rw [countsToThree_body inside]; rfl
    | label inside kind | priority inside kind | handle inside kind _ _ =>
      rw [countsToThree_body inside] at kind; cases kind
    | definedRead _ _ idx | definedWrite _ _ _ idx => exact absurd idx (no_idx _ _)
    | operand _ part ih =>
      rw [ih] at part
      cases part
  subst null
  exact ⟨rfl, rfl, fun s idx place => by cases place⟩

def setsI : HStmt := .mk { kind := .assign, target := refI, value := intLit 1 } .null .null .null []

def resetsI : HProc := { body := [.mk doThree .null .null .null [setsI]], src := some ⟨0, false⟩ }

def loopI : Loop := { node := doThree, body := [setsI], limit := 3, step := 1 }

def memI (v : ℚ) : Mem := Mem.set (fun _ => 0) 0 v

def throughBody : Nat → List Task
  | 0 => [.top loopI, .endCall 0]
  | 1 => [.exec setsI, .again loopI, .endCall 0]
  | 2 => [.eval (intLit 1), .eval .null, .assign refI, .again loopI, .endCall 0]
  | 3 => [.eval .null, .assign refI, .again loopI, .endCall 0]
  | 4 => [.assign refI, .again loopI, .endCall 0]
  | _ => [.write, .again loopI, .endCall 0]

def AnyStep (a b : Config) : Prop := ∃ ev, Step ⟨[resetsI]⟩ a ev b ∧ True

theorem throughBody_step {v : ℚ} (low : v ≤ 3) {j : Nat} (inside : j < 5) :
    AnyStep (.run (throughBody j) (memI v)) (.run (throughBody (j + 1)) (memI v)) := by
  have on : goesOn loopI (memI v) = true := by
    simp [goesOn, loopI, doThree, intLit, HExpr.isNull, memI, Mem.set, low]
  interval_cases j
  · exact ⟨_, .goOn on, trivial⟩
  · exact ⟨_, @Step.exec _ setsI [.eval (intLit 1), .eval .null, .assign refI] _ _ rfl, trivial⟩
  · exact ⟨_, .skip, trivial⟩
  · exact ⟨_, .skip, trivial⟩
  · exact ⟨_, @Step.assign _ refI _ _ [] (by simp), trivial⟩

def spins : Nat → Config
  | 0 => .run [.call 0] (fun _ => 0)
  | 1 => .run [.exec (.mk doThree .null .null .null [setsI]), .endCall 0] (fun _ => 0)
  | 2 => .run [.eval (intLit 1), .start doThree [setsI], .endCall 0] (fun _ => 0)
  | 3 => .run [.start doThree [setsI], .endCall 0] (fun _ => 0)
  | 4 => .run [.eval (intLit 3), .eval .null, .enter doThree [setsI] 0, .endCall 0] (memI 1)
  | 5 => .run [.eval .null, .enter doThree [setsI] 0, .endCall 0] (memI 1)
  | 6 => .run [.enter doThree [setsI] 0, .endCall 0] (memI 1)
  | 13 => .run [.again loopI, .endCall 0] (memI 1)
  | k =>
    if k < 13 then .run (throughBody (k - 7)) (memI 1) else .run (throughBody (k - 14)) (memI 2)

def spinNext (k : Nat) : Nat := if k = 19 then 13 else k + 1

theorem memI_set (v u : ℚ) : (memI v).set 0 u = memI u := by
  funext d
  by_cases zero : d = 0 <;> simp [memI, Mem.set, zero]

theorem spins_step {k : Nat} (inside : k < 20) : AnyStep (spins k) (spins (spinNext k)) := by
  have wrote : ∀ v, AnyStep (.run (throughBody 5) (memI v)) (spins 13) := fun v =>
    ⟨_, .write (memI 1), trivial⟩
  have stepped : AnyStep (spins 13) (spins 14) := by
    have two : spins 14 = .run [.top loopI, .endCall 0] ((memI 1).set loopI.ctl 2) := by
      rw [show loopI.ctl = 0 from rfl, memI_set]
      rfl
    rw [two]
    refine ⟨_, .step rfl fun _ => ?_, trivial⟩
    norm_num [memI, Mem.set, loopI]
  interval_cases k
  · exact ⟨_, @Step.call _ 0 resetsI 0 [] _ rfl (Or.inl rfl), trivial⟩
  · exact ⟨_, @Step.exec _ _ [.eval (intLit 1), .start doThree [setsI]] _ _ rfl, trivial⟩
  · exact ⟨_, .skip, trivial⟩
  · exact ⟨_, .start 0 1, trivial⟩
  · exact ⟨_, .skip, trivial⟩
  · exact ⟨_, .skip, trivial⟩
  · have one : StepValue (ctlTy doThree) doThree.byE 1 := by
      norm_num [StepValue, ctlTy, doThree, unitOf, varI]
    exact ⟨_, @Step.enter _ doThree [setsI] 0 [.endCall 0] _ 3 1 one, trivial⟩
  · exact throughBody_step (v := 1) (j := 0) (by norm_num) (by decide)
  · exact throughBody_step (v := 1) (j := 1) (by norm_num) (by decide)
  · exact throughBody_step (v := 1) (j := 2) (by norm_num) (by decide)
  · exact throughBody_step (v := 1) (j := 3) (by norm_num) (by decide)
  · exact throughBody_step (v := 1) (j := 4) (by norm_num) (by decide)
  · exact wrote 1
  · exact stepped
  · exact throughBody_step (v := 2) (j := 0) (by norm_num) (by decide)
  · exact throughBody_step (v := 2) (j := 1) (by norm_num) (by decide)
  · exact throughBody_step (v := 2) (j := 2) (by norm_num) (by decide)
  · exact throughBody_step (v := 2) (j := 3) (by norm_num) (by decide)
  · exact throughBody_step (v := 2) (j := 4) (by norm_num) (by decide)
  · exact wrote 2

def spinPlace : Nat → Nat
  | 0 => 0
  | i + 1 => spinNext (spinPlace i)

theorem spinPlace_inside (i : Nat) : spinPlace i < 20 := by
  induction i with
  | zero => decide
  | succ i ih =>
    rw [spinPlace, spinNext]
    split <;> omega

end PliEffects
