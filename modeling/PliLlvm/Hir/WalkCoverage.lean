import PliLlvm.Hir.EffectFacts
import PliLlvm.Hir.Touches

/- The walk of a body against what running it evaluates. Every statement is walked, and
   every expression a statement evaluates except in a few fields; a reference, a store
   and a call that is walked is noted. -/
namespace PliEffects
open PliHir
open EffectWalker (walkCallExpr walkExpr walkStmt reachOf walkBuiltin walkCallStmt callTarget
  callArgReach)

section Walks
variable {w : EffectWalker}

variable {args : List HExpr} {n : Note}

theorem mem_walkArgs {a : HExpr} (member : a ∈ args)
    (h : n ∈ w.walkExpr a false) : n ∈ w.walkArgs args := by
  induction args with
  | nil => cases member
  | cons first rest ih =>
    rw [EffectWalker.walkArgs, List.mem_append]
    rcases List.mem_cons.mp member with rfl | later
    · exact Or.inl h
    · exact Or.inr (ih later)

theorem mem_walkBody {body : List HStmt} {st : HStmt} (member : st ∈ body)
    (h : n ∈ w.walkStmt st) : n ∈ w.walkBody body := by
  induction body with
  | nil => cases member
  | cons first rest ih =>
    rw [EffectWalker.walkBody, List.mem_append]
    rcases List.mem_cons.mp member with rfl | later
    · exact Or.inl h
    · exact Or.inr (ih later)

variable {node : ExprNode} {writeCtx : Bool} {walked : List Note}

theorem walkCallExpr_proc {s : Symbol} (sym : node.sym = some s) (name : s.kind = .procName) :
    w.walkCallExpr node args writeCtx walked =
      walked ++
      (match s.proc with
      | none => [.opaqueB]
      | some src => w.callTarget src args) := by
  cases target : s.proc with
  | none | some src => simp [walkCallExpr, sym, name, target]

theorem walkCallExpr_entry {s : Symbol} (sym : node.sym = some s) (name : s.kind ≠ .procName)
    (entry : (s.isEntryVar || s.isEntry) = true) :
    w.walkCallExpr node args writeCtx walked = walked ++ [.opaqueB, .mayUnwind] := by
  simp only [walkCallExpr, sym, name, entry, ↓reduceIte]

theorem walkCallExpr_builtin (kind : node.kind = .call) (builtin : isBuiltinCall node = true) :
    w.walkCallExpr node args writeCtx walked =
      walkCallExpr.builtin w node args writeCtx walked := by
  unfold walkCallExpr
  cases sym : node.sym with
  | none => rfl
  | some s =>
    simp only [isBuiltinCall, kind, sym, decide_true, Bool.true_and, Bool.and_eq_true,
      decide_eq_true_eq, Bool.not_eq_eq_eq_not, Bool.not_true] at builtin
    simp [builtin]

theorem call_cases (kind : node.kind = .call) : (∃ s, node.sym = some s ∧ s.kind = .procName) ∨
      (∃ s, node.sym = some s ∧ s.kind ≠ .procName ∧ (s.isEntryVar || s.isEntry) = true) ∨
      isBuiltinCall node = true := by
  cases sym : node.sym with
  | none => exact Or.inr (Or.inr (by simp [isBuiltinCall, kind, sym]))
  | some s =>
    by_cases name : s.kind = .procName
    · exact Or.inl ⟨s, rfl, name⟩
    · by_cases entry : (s.isEntryVar || s.isEntry) = true
      · exact Or.inr (Or.inl ⟨s, rfl, name, entry⟩)
      · refine Or.inr (Or.inr ?_)
        simp only [Bool.or_eq_true, not_or, Bool.not_eq_true] at entry
        simp [isBuiltinCall, kind, sym, name, entry]

theorem mem_walkCallExpr (kind : node.kind = .call) (h : n ∈ walked) :
    n ∈ w.walkCallExpr node args writeCtx walked := by
  rcases call_cases kind with ⟨s, sym, name⟩ | ⟨s, sym, name, entry⟩ | builtin
  · rw [walkCallExpr_proc sym name]
    exact List.mem_append_left _ h
  · rw [walkCallExpr_entry sym name entry]
    exact List.mem_append_left _ h
  · rw [walkCallExpr_builtin kind builtin]
    simp [walkCallExpr.builtin, h]

variable {e : HExpr}

theorem walkExpr_operand {inner : HExpr}
    (member : inner ∈ operands e) (h : n ∈ w.walkExpr inner false) : n ∈ w.walkExpr e writeCtx := by
  cases e with
  | null => cases member
  | mk node locPtr a b args =>
    rw [EffectWalker.walkExpr.eq_def]
    dsimp only
    unfold operands at member
    cases kind : node.kind <;> simp only [kind] at member ⊢
    case varRef =>
      cases sym : node.sym with
      | none => simp [sym] at member
      | some s =>
        by_cases name : s.kind = .procName
        · simp [sym, name] at member
        · simp only [sym, name, ↓reduceIte, List.mem_singleton] at member ⊢
          subst member
          cases inner with
          | null => simp [walkExpr] at h
          | mk n l x y as => exact List.mem_append_left _ h
    case subscript =>
      rcases List.mem_append.mp member with arg | loc
      · exact List.mem_append_left _ (List.mem_append_left _ (mem_walkArgs arg h))
      · have same := List.mem_singleton.mp loc
        subst same
        cases inner with
        | null => simp [walkExpr] at h
        | mk n l x y as => simp [h]
    case binary =>
      rcases List.mem_cons.mp member with rfl | second
      · simp [h]
      · have same := List.mem_singleton.mp second
        subst same
        simp [h]
    case unary =>
      have same := List.mem_singleton.mp member
      subst same
      simp [h]
    case convert =>
      have same := List.mem_singleton.mp member
      subst same
      simp [h]
    case call => exact mem_walkCallExpr kind (mem_walkArgs member h)
    all_goals cases member

variable {pl : Place}

theorem walkExpr_place (place : placeOf e = some pl) :
    Note.access (w.placeReach pl) writeCtx ∈ w.walkExpr e writeCtx := by
  cases e with
  | null => cases place
  | mk node locPtr a b args =>
    rw [EffectWalker.walkExpr.eq_def]
    dsimp only
    unfold placeOf at place
    cases kind : node.kind <;> simp [kind] at place ⊢
    case varRef =>
      cases sym : node.sym with
      | none => simp [sym] at place
      | some s =>
        by_cases name : s.kind = .procName
        · simp [sym, name] at place
        · simp only [sym, name, ↓reduceIte] at place ⊢
          cases locPtr with
          | null =>
            obtain rfl := Option.some.inj place
            exact List.mem_singleton.mpr rfl
          | mk n l x y as =>
            obtain rfl := Option.some.inj place
            exact List.mem_append_right _ (List.mem_singleton.mpr rfl)
    case subscript =>
      cases sym : node.sym with
      | none => simp [sym] at place
      | some s =>
        by_cases name : s.kind = .procName
        · simp [sym, name] at place
        · simp only [sym, name, ↓reduceIte] at place ⊢
          cases locPtr with
          | null =>
            obtain rfl := Option.some.inj place
            exact Or.inr (List.mem_singleton.mpr rfl)
          | mk n l x y as =>
            obtain rfl := Option.some.inj place
            exact Or.inr (List.mem_append_right _ (List.mem_singleton.mpr rfl))

theorem reachOfExpr_place (place : placeOf e = some pl) : w.reachOfExpr e = w.placeReach pl := by
  cases e with
  | null => cases place
  | mk node locPtr a b args =>
    unfold placeOf at place
    unfold EffectWalker.reachOfExpr
    dsimp only at place ⊢
    split at place
    · rename_i ref
      rw [if_pos ref]
      cases sym : node.sym with
      | none => simp [sym] at place
      | some s =>
        simp only [sym] at place
        split at place
        · cases place
        · cases locPtr <;> simp only [Option.some.injEq] at place <;> subst place <;> rfl
    · cases place

theorem walked_statement {st : HStmt} (inside : InBody w.p st) {n : Note}
    (h : n ∈ w.walkStmt st) : n ∈ w.run := by
  induction inside generalizing n with
  | top member => exact List.mem_append_left _ (mem_walkBody member h)
  | @child st inner _ member ih =>
    apply ih
    cases st with
    | null => cases member
    | mk node thenS elseS unit body =>
      rw [walkStmt]
      unfold children at member
      cases kind : node.kind <;> simp only [kind] at member ⊢
      case ifS =>
        rcases List.mem_cons.mp member with rfl | second
        · simp [h]
        · have same := List.mem_singleton.mp second
          subst same
          simp [h]
      case on =>
        have same := List.mem_singleton.mp member
        subst same
        simp [h]
      case group => exact mem_walkBody member h
      case begin => exact mem_walkBody member h
      case doWhile => simp [mem_walkBody member h]
      case doIter => simp [mem_walkBody member h]
      all_goals cases member

theorem walkExpr_target {t inner : HExpr} (member : inner ∈ targetOperands t)
    (h : n ∈ w.walkExpr inner false) : n ∈ w.walkExpr t true := by
  cases t with
  | null => cases member
  | mk node locPtr a b args =>
    unfold targetOperands at member
    dsimp only at member
    split at member
    · rename_i kind
      have same := List.mem_singleton.mp member
      subst same
      rw [EffectWalker.walkExpr.eq_def] at h ⊢
      simp only [kind] at h ⊢
      rcases call_cases kind with ⟨s, sym, name⟩ | ⟨s, sym, name, entry⟩ | builtin
      · rw [walkCallExpr_proc sym name] at h ⊢
        exact h
      · rw [walkCallExpr_entry sym name entry] at h ⊢
        exact h
      · rw [walkCallExpr_builtin kind builtin] at h ⊢
        unfold walkCallExpr.builtin at h ⊢
        cases args with
        | nil => exact h
        | cons a rest =>
          simp only [Bool.false_eq_true, ↓reduceIte, List.append_nil] at h
          exact List.mem_append_left _ h
    · exact walkExpr_operand member h

theorem walkExpr_written {t : HExpr} (place : writtenPlace t = some pl)
    (known : ∀ node locPtr a b args, t = .mk node locPtr a b args → node.name ≠ "ONSOURCE") :
    Note.access (w.placeReach pl) true ∈ w.walkExpr t true := by
  cases t with
  | null => cases place
  | mk node locPtr a b args =>
    unfold writtenPlace at place
    dsimp only at place
    split at place
    · rename_i kind
      split at place
      · rename_i builtin
        cases args with
        | nil => cases place
        | cons first rest =>
          rw [EffectWalker.walkExpr.eq_def]
          simp only [kind]
          rw [walkCallExpr_builtin kind builtin]
          simp [walkCallExpr.builtin, reachOfExpr_place place]
      · cases place
    · split at place
      · rename_i onsource
        simp only [Bool.and_eq_true, decide_eq_true_eq] at onsource
        exact absurd onsource.2 (known node locPtr a b args rfl)
      · exact walkExpr_place place

end Walks

section Coverage
variable {w : EffectWalker}

/-- The expressions no walk of the procedure visits: runtime bounds, the WHILE clause of an
    iterative DO, the variable of a GO TO, the task options of a CALL, and the runtime
    subscripts of the DEFINED variables it refers to. -/
inductive Skipped (prog : HProgram) (proc : HProc) : HExpr → Prop where
  | bound {node thenS elseS unit body d e} : InBody proc (.mk node thenS elseS unit body) →
      node.kind = .declare → d ∈ node.decls → e ∈ bounds d → Skipped prog proc e
  | whileClause {node thenS elseS unit body} : InBody proc (.mk node thenS elseS unit body) →
      node.kind = .doIter → Skipped prog proc node.cond
  | label {node thenS elseS unit body} : InBody proc (.mk node thenS elseS unit body) →
      node.kind = .goto → Skipped prog proc node.gotoTarget
  | priority {node thenS elseS unit body} : InBody proc (.mk node thenS elseS unit body) →
      node.kind = .callS → Skipped prog proc node.priorityExpr
  | handle {node thenS elseS unit body t e} : InBody proc (.mk node thenS elseS unit body) →
      node.kind = .callS → t ∈ targets node → e ∈ targetOperands t → Skipped prog proc e
  | definedRead {e s idx} : Evaluated prog proc e → placeOf e = some (.sym s) →
      DefinedIdx prog s idx → Skipped prog proc idx
  | definedWrite {node thenS elseS unit body t s idx} :
      InBody proc (.mk node thenS elseS unit body) → t ∈ targets node →
      writtenPlace t = some (.sym s) → DefinedIdx prog s idx → Skipped prog proc idx
  | operand {e inner} : Skipped prog proc e → inner ∈ operands e → Skipped prog proc inner

def Walked (w : EffectWalker) (e : HExpr) : Prop := ∀ n, n ∈ w.walkExpr e false → n ∈ w.run

variable {node : StmtNode} {thenS elseS unit : HStmt} {body : List HStmt}

theorem field_walked {e : HExpr}
    (inside : InBody w.p (.mk node thenS elseS unit body)) (member : e ∈ valueFields node) :
    Walked w e ∨ Skipped w.prog w.p e := by
  have whole := @walked_statement w _ inside
  rw [EffectWalker.walkStmt.eq_def] at whole
  unfold valueFields at member
  cases kind : node.kind <;> simp only [kind] at member whole
  case declare =>
    obtain ⟨d, decl, field⟩ := List.mem_flatMap.mp member
    rcases List.mem_append.mp field with visited | bound
    · refine Or.inl fun n h => whole (List.mem_flatMap.mpr ⟨d, decl, ?_⟩)
      simp only [List.mem_cons, List.not_mem_nil, or_false] at visited
      rcases visited with rfl | rfl | rfl <;> simp [h]
    · exact Or.inr (.bound inside kind decl bound)
  case assign =>
    have same := List.mem_singleton.mp member
    subst same
    exact Or.inl fun n h => whole (by simp [h])
  case ifS =>
    have same := List.mem_singleton.mp member
    subst same
    exact Or.inl fun n h => whole (by simp [h])
  case doWhile =>
    have same := List.mem_singleton.mp member
    subst same
    exact Or.inl fun n h => whole (by simp [h])
  case doIter =>
    simp only [List.mem_cons, List.not_mem_nil, or_false] at member
    rcases member with rfl | rfl | rfl | rfl
    · exact Or.inl fun n h => whole (by simp [h])
    · exact Or.inl fun n h => whole (by simp [h])
    · exact Or.inl fun n h => whole (by simp [h])
    · exact Or.inr (.whileClause inside kind)
  case returnS =>
    have same := List.mem_singleton.mp member
    subst same
    exact Or.inl fun n h => whole h
  case goto =>
    have same := List.mem_singleton.mp member
    subst same
    exact Or.inr (.label inside kind)
  case callS =>
    rcases List.mem_append.mp member with arg | prio
    · exact Or.inl fun n h => whole (List.mem_append_left _ (mem_walkArgs arg h))
    · have same := List.mem_singleton.mp prio
      subst same
      exact Or.inr (.priority inside kind)
  all_goals cases member

theorem target_walked {node : StmtNode} {thenS elseS unit : HStmt} {body : List HStmt} {t : HExpr}
    (inside : InBody w.p (.mk node thenS elseS unit body)) (member : t ∈ targets node) :
    (∀ n, n ∈ w.walkExpr t true → n ∈ w.run) ∨ node.kind = .callS := by
  have whole := @walked_statement w _ inside
  rw [EffectWalker.walkStmt.eq_def] at whole
  unfold targets at member
  cases kind : node.kind <;> simp only [kind] at member whole
  case assign =>
    refine Or.inl fun n h => whole ?_
    rcases List.mem_cons.mp member with rfl | extra
    · simp [h]
    · have : n ∈ node.extraTargets.flatMap fun t => w.walkExpr t true :=
        List.mem_flatMap.mpr ⟨t, extra, h⟩
      simp [this]
  case callS => exact Or.inr rfl
  all_goals cases member

theorem evaluated_walked {e : HExpr} (evaluated : Evaluated w.prog w.p e) :
    Walked w e ∨ Skipped w.prog w.p e := by
  induction evaluated with
  | field inside member => exact field_walked inside member
  | target inside member operand =>
    rcases target_walked inside member with walked | kind
    · exact Or.inl fun n h => walked n (walkExpr_target operand h)
    · exact Or.inr (.handle inside kind member operand)
  | operand _ member ih =>
    rcases ih with walked | skipped
    · exact Or.inl fun n h => walked n (walkExpr_operand member h)
    · exact Or.inr (.operand skipped member)
  | definedRead evaluated place idx => exact Or.inr (.definedRead evaluated place idx)
  | definedWrite inside member place idx => exact Or.inr (.definedWrite inside member place idx)

variable {locPtr a b : HExpr} {args : List HExpr}

theorem not_contained_unknown {name : String} (outside : name ∉ selfContained) :
    builtinEffect name = .unknown := by
  have listed : ∀ n ∈ constants ++ readers ++ ["REPEAT", "REVERSE"] ++ ["ADDR", "BYADDR"],
      n ∈ selfContained := by decide +kernel
  have absent : name ∉ constants ++ readers ++ ["REPEAT", "REVERSE"] ++ ["ADDR", "BYADDR"] :=
    fun member => outside (listed name member)
  simp only [List.mem_append, not_or] at absent
  unfold builtinEffect
  rw [if_neg absent.1.1.1, if_neg absent.1.1.2, if_neg absent.1.2, if_neg absent.2]

theorem builtin_walked {node : ExprNode} (walked : Walked w (.mk node locPtr a b args))
    (builtin : isBuiltinCall node = true) :
    ∀ n, n ∈ w.walkBuiltin node.name node.ty args → n ∈ w.run := by
  intro n noted
  apply walked
  have kind : node.kind = .call := by
    simp only [isBuiltinCall, Bool.and_eq_true, decide_eq_true_eq] at builtin
    exact builtin.1
  rw [EffectWalker.walkExpr.eq_def]
  simp only [kind]
  rw [walkCallExpr_builtin kind builtin]
  simp [walkCallExpr.builtin, noted]

theorem builtin_noted {node : ExprNode} (walked : Walked w (.mk node locPtr a b args))
    (builtin : isBuiltinCall node = true) (outside : node.name ∉ selfContained) :
    Note.opaqueB ∈ w.run := by
  refine builtin_walked walked builtin _ ?_
  simp [walkBuiltin, not_contained_unknown outside]

theorem notices_noted {e : HExpr} {k : Int} (walked : Walked w e) (member : k ∈ notices e) :
    Note.raiseKey k ∈ w.run := by
  cases e with
  | null => cases member
  | mk node locPtr a b args =>
    unfold notices at member
    dsimp only at member
    split at member
    · rename_i substr
      simp only [Bool.and_eq_true, decide_eq_true_eq] at substr
      rw [List.mem_singleton] at member
      have reads : builtinEffect "SUBSTR" = .pure := by decide
      refine builtin_walked walked substr.1 _ ?_
      simp [walkBuiltin, substr.2, reads, member]
    · cases member

section Checks
variable {k : Int}

theorem sizeKeys_noted (member : k ∈ sizeKeys w.opts) : Note.raiseKey k ∈ w.raiseSize := by
  unfold sizeKeys at member
  unfold EffectWalker.raiseSize
  split at member <;> simp_all

theorem resultKeys_noted {ty : Ty} (member : k ∈ resultKeys w.opts ty) :
    Note.raiseKey k ∈ w.raiseResult ty := by
  unfold resultKeys at member
  unfold EffectWalker.raiseResult EffectWalker.raiseOverflow EffectWalker.raiseFixedOverflow
  split at member
  · split at member <;> simp_all
  · split at member
    · split at member <;> simp_all
    · cases member

theorem zerodivideKeys_on {opts : EffectOptions} (member : k ∈ zerodivideKeys opts) :
    opts.zerodivideChecks = true ∧ k = kZerodivideCondKey := by
  unfold zerodivideKeys at member
  split at member <;> simp_all

theorem builtin_checks_noted {node : ExprNode} {args : List HExpr} {walked : List Note}
    (member : k ∈ if node.name = "MOD" ∨ node.name = "DIVIDE" then zerodivideKeys w.opts
      else if node.name = "ADD" ∨ node.name = "SUBTRACT" ∨ node.name = "MULTIPLY" then
        sizeKeys w.opts ++ resultKeys w.opts node.ty
      else []) :
    Note.raiseKey k ∈ EffectWalker.walkCallExpr.builtin w node args false walked := by
  suffices Note.raiseKey k ∈ w.walkBuiltin node.name node.ty args by
    simp [EffectWalker.walkCallExpr.builtin, this]
  have reads : ∀ name ∈ ["MOD", "DIVIDE", "ADD", "SUBTRACT", "MULTIPLY"],
      builtinEffect name = .pure := by decide
  split at member
  · rename_i name
    obtain ⟨on, rfl⟩ := zerodivideKeys_on member
    have effect : builtinEffect node.name = .pure := by
      apply reads
      rcases name with h | h <;> simp [h]
    simp [EffectWalker.walkBuiltin, effect, name, on]
  · split at member
    · rename_i name
      have effect : builtinEffect node.name = .pure := by
        apply reads
        rcases name with h | h | h <;> simp [h]
      have noted : Note.raiseKey k ∈ w.raiseSize ++ w.raiseResult node.ty := by
        rcases List.mem_append.mp member with size | result
        · exact List.mem_append_left _ (sizeKeys_noted size)
        · exact List.mem_append_right _ (resultKeys_noted result)
      simp only [EffectWalker.walkBuiltin, effect]
      rw [if_pos name]
      exact List.mem_append_right _ noted
    · cases member

theorem checks_noted {e : HExpr} (walked : Walked w e) (member : k ∈ checks w.opts e) :
    Note.raiseKey k ∈ w.run := by
  apply walked
  cases e with
  | null => cases member
  | mk node locPtr a b args =>
    rw [EffectWalker.walkExpr.eq_def]
    unfold checks at member
    dsimp only at member ⊢
    cases kind : node.kind <;> simp only [kind] at member ⊢
    case subscript =>
      split at member
      · rename_i on
        simp only [List.mem_singleton] at member
        simp [on, member]
      · cases member
    case binary =>
      simp only [List.mem_append] at member
      rcases member with (size | result) | zero
      · split at size
        · rename_i arithmetic
          have noted := sizeKeys_noted size
          cases a with
          | null => simp [isFixedOperand] at arithmetic
          | mk left l x y as =>
            simp only [isFixedOperand] at arithmetic
            simp [arithmetic, noted]
        · cases size
      · split at result
        · rename_i arithmetic
          simp [arithmetic, resultKeys_noted result]
        · cases result
      · split at zero
        · rename_i slash
          obtain ⟨on, rfl⟩ := zerodivideKeys_on zero
          simp [slash, on]
        · cases zero
    case unary =>
      split at member
      · rename_i minus
        have noted := sizeKeys_noted member
        cases a with
        | null => simp [isFixedOperand] at minus
        | mk operand l x y as =>
          simp only [isFixedOperand] at minus
          simp only [minus, ↓reduceIte]
          exact List.mem_append_right _ noted
      · cases member
    case convert =>
      split at member
      · rename_i on
        simp only [List.mem_singleton] at member
        simp [on, member]
      · cases member
    case call =>
      split at member
      · rename_i builtin
        rw [walkCallExpr_builtin kind builtin]
        exact builtin_checks_noted member
      · cases member
    all_goals cases member

theorem handler_noted {node : StmtNode} {thenS elseS unit : HStmt} {body : List HStmt}
    (inside : InBody w.p (.mk node thenS elseS unit body)) (kind : node.kind = .on) :
    Note.handlerKey node.condKey ∈ w.run := by
  refine walked_statement inside ?_
  simp [EffectWalker.walkStmt, kind]

end Checks

variable {src : Proc} {q : Nat} {callee : HProc}

theorem callTarget_known
    (place : w.prog.bySrc src = some q) (known : w.prog.procs[q]? = some callee) :
    w.callTarget src args = [.call q (w.callArgReach callee.paramSyms args)] := by
  simp [callTarget, place, known]

variable {s : Symbol}

theorem call_noted {node : ExprNode} (walked : Walked w (.mk node locPtr a b args))
    (kind : node.kind = .call) (sym : node.sym = some s) (name : s.kind = .procName)
    (proc : s.proc = some src) (place : w.prog.bySrc src = some q)
    (known : w.prog.procs[q]? = some callee) :
    Note.call q (w.callArgReach callee.paramSyms args) ∈ w.run := by
  apply walked
  rw [EffectWalker.walkExpr.eq_def]
  simp only [kind]
  rw [walkCallExpr_proc sym name]
  simp [proc, callTarget_known place known]

theorem call_statement_noted
    (inside : InBody w.p (.mk node thenS elseS unit body)) (kind : node.kind = .callS)
    (sym : node.sym = some s) (name : s.kind = .procName) (proc : s.proc = some src)
    (place : w.prog.bySrc src = some q) (known : w.prog.procs[q]? = some callee) :
    Note.call q (w.callArgReach callee.paramSyms node.args) ∈ w.run := by
  apply walked_statement inside
  rw [EffectWalker.walkStmt.eq_def]
  simp only [kind]
  simp [walkCallStmt, sym, proc, name, callTarget_known place known]

theorem callTarget_missing (missing : w.prog.bySrc src = none) :
    w.callTarget src args = [.opaqueB] := by
  simp [callTarget, missing]

theorem call_out_noted {node : ExprNode}
    (walked : Walked w (.mk node locPtr a b args)) (kind : node.kind = .call)
    (sym : node.sym = some s)
    (outside : (s.kind = .procName ∧ s.proc.bind w.prog.bySrc = none) ∨
      (s.kind ≠ .procName ∧ (s.isEntryVar || s.isEntry) = true)) : Note.opaqueB ∈ w.run := by
  apply walked
  rw [EffectWalker.walkExpr.eq_def]
  simp only [kind]
  rcases outside with ⟨name, missing⟩ | ⟨name, entry⟩
  · rw [walkCallExpr_proc sym name]
    cases proc : s.proc with
    | none => simp
    | some src =>
      rw [proc] at missing
      simp [callTarget_missing missing]
  · rw [walkCallExpr_entry sym name entry]
    simp

theorem call_statement_out_noted
    (inside : InBody w.p (.mk node thenS elseS unit body)) (kind : node.kind = .callS)
    (outside : ∀ s, node.sym = some s → s.kind ≠ .procName ∨ s.proc.bind w.prog.bySrc = none) :
    Note.opaqueB ∈ w.run := by
  apply walked_statement inside
  rw [EffectWalker.walkStmt.eq_def]
  simp only [kind, walkCallStmt]
  cases sym : node.sym with
  | none => simp
  | some s =>
    cases proc : s.proc with
    | none => simp [proc]
    | some src =>
      by_cases name : s.kind = .procName
      · have missing : w.prog.bySrc src = none := by
          rcases outside s sym with other | missing
          · exact absurd name other
          · rw [proc] at missing
            exact missing
        simp [proc, name, callTarget_missing missing]
      · simp [proc, name]

theorem out_noted
    (inside : InBody w.p (.mk node thenS elseS unit body)) (out : reachesOut node = true) :
    Note.opaqueB ∈ w.run := by
  apply walked_statement inside
  rw [EffectWalker.walkStmt.eq_def]
  unfold reachesOut at out
  cases kind : node.kind <;> simp only [kind] at out ⊢ <;> first | contradiction | simp

end Coverage

section Reaches
variable {w : EffectWalker}

def Reach.rank : Reach → Nat
  | .frame => 0
  | .arg => 1
  | .other => 2

theorem wider_rank (a b : Reach) : (wider a b).rank = max a.rank b.rank := by
  cases a <;> cases b <;> rfl

variable {v : Symbol}

theorem moduleWide_reach (wide : moduleWide v = true) (name : v.kind ≠ .procName) :
    w.reachOf (some v) = .other := by
  unfold moduleWide at wide
  unfold reachOf
  cases owner : v.owner <;> simp_all
  grind

theorem frame_reach {v : Symbol} (narrow : moduleWide v = false) :
    (w.reachOf (some v)).rank ≤ 1 := by
  unfold moduleWide at narrow
  unfold reachOf
  cases owner : v.owner <;> simp_all [Reach.rank]
  grind

theorem procName_reach (name : v.kind = .procName) : w.reachOf (some v) = .frame := by
  simp [reachOf, name]

theorem link_reach (link : v.owner ≠ w.p.src) (narrow : moduleWide v = false)
    (name : v.kind ≠ .procName) : w.reachOf (some v) = .arg := by
  unfold moduleWide at narrow
  unfold reachOf
  cases owner : v.owner <;> simp_all

theorem param_reach (own : v.owner = w.p.src) (kind : v.kind = .param)
    (byRef : w.byValue v = false) (narrow : moduleWide v = false) :
    w.reachOf (some v) = .arg := by
  unfold moduleWide at narrow
  unfold reachOf
  dsimp only
  rw [own] at narrow ⊢
  cases src : w.p.src <;> simp_all

theorem callArgReach_arg {params : List Symbol} {args : List HExpr} {a : HExpr} {i : Nat}
    (arg : args[i]? = some a) (byRef : ∀ s, params[i]? = some s → w.byValue s = false) :
    (w.reachOfExpr a).rank ≤ (w.callArgReach params args).rank := by
  induction args generalizing params i with
  | nil => simp at arg
  | cons first rest ih =>
    cases params with
    | nil =>
      rw [callArgReach, wider_rank]
      cases i with
      | zero =>
        simp only [List.getElem?_cons_zero, Option.some.injEq] at arg
        subst arg
        omega
      | succ i =>
        have := @ih [] i (by simpa using arg) (by simp)
        omega
    | cons s params =>
      rw [callArgReach]
      cases i with
      | zero =>
        simp only [List.getElem?_cons_zero, Option.some.injEq] at arg
        subst arg
        rw [byRef s rfl]
        simp only [Bool.false_eq_true, ↓reduceIte, wider_rank]
        omega
      | succ i =>
        have := @ih params i (by simpa using arg) (by simpa using byRef)
        split
        · exact this
        · rw [wider_rank]
          omega

end Reaches

end PliEffects
