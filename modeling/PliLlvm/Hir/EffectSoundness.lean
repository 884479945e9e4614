import PliLlvm.Hir.EffectRounds
import PliLlvm.Hir.WalkCoverage

/- The effect verdict against what a procedure touches. A fact a callee has at its arguments
   is carried to the caller by the reach of the arguments alone, so what it reaches through
   a static link can be lost; the walk misses the control variable of a DO and a few fields;
   a condition raised by a store runs a unit nobody counts on; and the verdict looks at reads
   of outside storage before writes of arguments. -/
namespace PliEffects
open PliHir

def Honours : MemEffect → (Reach → Bool → Prop) → Prop
  | .unknown, _ => True
  | .read, touched => ∀ r, touched r true → r = .frame
  | .argRead, touched => ∀ r isWrite, touched r isWrite → r = .frame ∨ (r = .arg ∧ isWrite = false)
  | .argReadWrite, touched => ∀ r isWrite, touched r isWrite → r ≠ .other
  | .none, touched => ∀ r isWrite, touched r isWrite → r = .frame

section
variable (prog : HProgram) (byValue : Symbol → Bool) (opts : EffectOptions)
variable (raises : Nat → Int → Prop)

def VerdictSound (p : Nat) (proc : HProc) : Prop :=
  Honours (analyzeEffects prog byValue opts p).effect fun r isWrite =>
    ∃ pl, Touches prog byValue opts raises p pl isWrite ∧
      (⟨prog, proc, byValue, opts⟩ : EffectWalker).placeReach pl = r

/-- A program in which the analysis misses nothing.
    - control: a DO steps only variables of the procedure's own frame;
    - skipped: the fields the walk passes over hold no call, no reference outside the frame and
      no check of a condition that has a unit;
    - stores: no assignment to ONSOURCE, and the TASK and EVENT of a CALL are in the frame;
    - addresses: BYADDR is applied to the caller's own frame only;
    - entries: a procedure called by an ENTRY name has no by-value parameter;
    - links: where a callee touches a variable of an enclosing procedure that is not in the
      caller's frame, the call hands over some argument from outside that frame;
    - raised: where a procedure raises a condition that has a unit in any other way than by an
      expression checked for it, it can write storage outside its frame and its arguments anyway;
    - rounds: no fact needs more sweeps than the analysis makes;
    - reads: no procedure is brought both a read of outside storage and a write of its
      arguments, unless it is also brought a write of outside storage or is unknown. -/
structure EffectsCovered : Prop where
  control : ∀ proc ∈ prog.procs, ∀ node thenS elseS unit body s,
    InBody proc (.mk node thenS elseS unit body) → node.kind = .doIter → node.sym = some s →
    (⟨prog, proc, byValue, opts⟩ : EffectWalker).reachOf (some s) = .frame
  skipped : ∀ proc ∈ prog.procs, ∀ e, Skipped prog proc e →
    (∀ node locPtr a b args, e = .mk node locPtr a b args → node.kind ≠ .call) ∧
      (∀ pl, placeOf e = some pl →
        (⟨prog, proc, byValue, opts⟩ : EffectWalker).placeReach pl = .frame) ∧
      ∀ k ∈ checks opts e ++ notices e, ¬ Handled prog k
  stores : ∀ proc ∈ prog.procs, ∀ node thenS elseS unit body,
    InBody proc (.mk node thenS elseS unit body) → ∀ t ∈ targets node,
    (node.kind = .callS ∨ ∃ target locPtr a b args, t = .mk target locPtr a b args ∧
      target.name = "ONSOURCE") →
    ∀ pl, writtenPlace t = some pl →
      (⟨prog, proc, byValue, opts⟩ : EffectWalker).placeReach pl = .frame
  addresses : ∀ proc ∈ prog.procs, ∀ q s args, Calls prog proc q s args → ∀ a ∈ args,
    placeOf a = none → ∀ pl, argPlace a = some pl →
      (⟨prog, proc, byValue, opts⟩ : EffectWalker).placeReach pl = .frame
  entries : ∀ proc ∈ prog.procs, ∀ q s args callee, Calls prog proc q s args →
    prog.procs[q]? = some callee → s.entry ≠ none → ∀ v ∈ callee.paramSyms, byValue v = false
  links : ∀ proc ∈ prog.procs, ∀ q s args callee v isWrite, Calls prog proc q s args →
    prog.procs[q]? = some callee → Touches prog byValue opts raises q (.sym v) isWrite →
    v.owner ≠ callee.src → moduleWide v = false →
    (⟨prog, proc, byValue, opts⟩ : EffectWalker).reachOf (some v) = .frame ∨
      (⟨prog, proc, byValue, opts⟩ : EffectWalker).callArgReach callee.paramSyms args ≠ .frame
  raised : ∀ p proc k, prog.procs[p]? = some proc → raises p k → Handled prog k →
    ∃ pl, Touches prog byValue opts (fun _ _ => False) p pl true ∧
      (⟨prog, proc, byValue, opts⟩ : EffectWalker).placeReach pl = .other
  rounds : ChainsShort prog byValue opts
  reads : ∀ p, Reachable prog byValue opts p (.access .other false) →
    Reachable prog byValue opts p (.access .arg true) →
    Reachable prog byValue opts p .unknown ∨ Reachable prog byValue opts p (.access .other true)

/-- What the facts brought to a procedure allow: anything once it is unknown or writes outside,
    else an access no wider than one of its kind. -/
def Noted (p : Nat) (r : Reach) (isWrite : Bool) : Prop :=
  Reachable prog byValue opts p .unknown ∨ Reachable prog byValue opts p (.access .other true) ∨
    ∃ wide, r.rank ≤ wide.rank ∧ Reachable prog byValue opts p (.access wide isWrite)

end

section
variable {prog : HProgram} {byValue : Symbol → Bool} {opts : EffectOptions}

variable {raises : Nat → Int → Prop}

theorem noted_frame (p : Nat) (isWrite : Bool) : Noted prog byValue opts p .frame isWrite :=
  Or.inr (Or.inr ⟨.frame, le_refl _, .own trivial⟩)

theorem Noted.outside {p : Nat} (noted : Noted prog byValue opts p .other true) (r : Reach)
    (isWrite : Bool) : Noted prog byValue opts p r isWrite := by
  rcases noted with unknown | write | ⟨wide, reaches, seen⟩
  · exact Or.inl unknown
  · exact Or.inr (Or.inl write)
  · cases wide with
    | frame | arg => exact absurd reaches (by decide)
    | other => exact Or.inr (Or.inl seen)

variable {p : Nat} {proc : HProc}

theorem notesOf_run (known : prog.procs[p]? = some proc) :
    notesOf prog byValue opts p = EffectWalker.run ⟨prog, proc, byValue, opts⟩ := by
  simp [notesOf, known]

variable {r : Reach}

theorem reachable_noted {note : Note} {f : Fact} (known : prog.procs[p]? = some proc)
    (noted : note ∈ EffectWalker.run ⟨prog, proc, byValue, opts⟩) (fact : factOf note = some f) :
    Reachable prog byValue opts p f := by
  rw [← notesOf_run known] at noted
  exact .own (walkedBits_has noted fact)

theorem noted_access {isWrite : Bool} (known : prog.procs[p]? = some proc)
    (noted : Note.access r isWrite ∈ EffectWalker.run ⟨prog, proc, byValue, opts⟩) :
    Noted prog byValue opts p r isWrite :=
  Or.inr (Or.inr ⟨r, le_refl _, reachable_noted known noted rfl⟩)

theorem noted_unknown {isWrite : Bool} (known : prog.procs[p]? = some proc)
    (noted : Note.opaqueB ∈ EffectWalker.run ⟨prog, proc, byValue, opts⟩) :
    Noted prog byValue opts p r isWrite := Or.inl (reachable_noted known noted rfl)

theorem handled_caught {k : Int} (handled : Handled prog k) :
    Caught (handlerKeysOf prog byValue opts) k := by
  obtain ⟨proc, member, node, thenS, elseS, unit, body, inside, kind, key⟩ := handled
  obtain ⟨i, bound, at_⟩ := List.getElem_of_mem member
  have noted : Note.handlerKey node.condKey ∈ allNotes prog byValue opts := by
    refine List.mem_flatMap.mpr ⟨i, List.mem_range.mpr bound, ?_⟩
    rw [notesOf_run (List.getElem?_eq_some_iff.mpr ⟨bound, at_⟩)]
    exact handler_noted (w := ⟨prog, proc, byValue, opts⟩) inside kind
  have listed : node.condKey ∈ handlerKeysOf prog byValue opts := by
    simp only [handlerKeysOf, List.mem_toFinset, List.mem_filterMap]
    exact ⟨_, noted, rfl⟩
  rcases key with rfl | any
  · exact Or.inl listed
  · exact Or.inr (any ▸ listed)

theorem noted_check {e : HExpr} {k : Int} {isWrite : Bool} (known : prog.procs[p]? = some proc)
    (walked : Walked ⟨prog, proc, byValue, opts⟩ e) (member : k ∈ checks opts e ++ notices e)
    (handled : Handled prog k) : Noted prog byValue opts p r isWrite := by
  have raised : Note.raiseKey k ∈ EffectWalker.run ⟨prog, proc, byValue, opts⟩ := by
    rcases List.mem_append.mp member with check | notice
    · exact checks_noted walked check
    · exact notices_noted walked notice
  have inside := (List.getElem?_eq_some_iff.mp known).1
  exact Or.inr (Or.inl (.handler (reachable_noted known raised rfl) inside (handled_caught handled)
    (Or.inl rfl)))

theorem touches_more {fewer more : Nat → Int → Prop} (le : ∀ p k, fewer p k → more p k) {p : Nat}
    {pl : Place} {isWrite : Bool} (touched : Touches prog byValue opts fewer p pl isWrite) :
    Touches prog byValue opts more p pl isWrite := by
  induction touched with
  | read known evaluated place => exact .read known evaluated place
  | write known inside member place => exact .write known inside member place
  | control known inside kind sym => exact .control known inside kind sym
  | out known inside out => exact .out known inside out
  | builtin known evaluated builtin outside => exact .builtin known evaluated builtin outside
  | callOut known out => exact .callOut known out
  | checked known evaluated member handled => exact .checked known evaluated member handled
  | raised raise handled => exact .raised (le _ _ raise) handled
  | result known function type => exact .result known function type
  | call known call target _ carried ih => exact .call known call target ih carried

section
variable (covered : EffectsCovered prog byValue opts raises)
include covered

theorem evaluated_noted {p : Nat} {proc : HProc}
    (known : prog.procs[p]? = some proc) {e : HExpr} (evaluated : Evaluated prog proc e) :
    (Walked ⟨prog, proc, byValue, opts⟩ e) ∨
      ((∀ node locPtr a b args, e = .mk node locPtr a b args → node.kind ≠ .call) ∧
        (∀ pl, placeOf e = some pl →
          (⟨prog, proc, byValue, opts⟩ : EffectWalker).placeReach pl = .frame) ∧
        ∀ k ∈ checks opts e ++ notices e, ¬ Handled prog k) := by
  rcases @evaluated_walked ⟨prog, proc, byValue, opts⟩ e evaluated with walked | skipped
  · exact Or.inl walked
  · exact Or.inr (covered.skipped proc (List.mem_of_getElem? known) e skipped)

theorem calls_noted {p q : Nat} {proc callee : HProc}
    {s : Symbol} {args : List HExpr} (known : prog.procs[p]? = some proc)
    (call : Calls prog proc q s args) (target : prog.procs[q]? = some callee) :
    Note.call q ((⟨prog, proc, byValue, opts⟩ : EffectWalker).callArgReach callee.paramSyms args) ∈
      notesOf prog byValue opts p := by
  rw [notesOf_run known]
  cases call with
  | expr evaluated kind sym name src place =>
    rcases evaluated_noted covered known evaluated with walked | ⟨nocall, -⟩
    · exact call_noted walked kind sym name src place target
    · exact absurd kind (nocall _ _ _ _ _ rfl)
  | stmt inside kind sym name src place =>
    exact call_statement_noted (w := ⟨prog, proc, byValue, opts⟩) inside kind sym name src place
      target

theorem arg_reach {q : Nat} {proc callee : HProc}
    {s : Symbol} {args : List HExpr} {a : HExpr} {pl : Place} {i : Nat} (member : proc ∈ prog.procs)
    (call : Calls prog proc q s args) (arg : args[i]? = some a) (place : argPlace a = some pl)
    (byRef : ∀ v, callee.paramSyms[i]? = some v → byValue v = false) :
    ((⟨prog, proc, byValue, opts⟩ : EffectWalker).placeReach pl).rank ≤
      ((⟨prog, proc, byValue, opts⟩ : EffectWalker).callArgReach callee.paramSyms args).rank := by
  have within := @callArgReach_arg ⟨prog, proc, byValue, opts⟩ callee.paramSyms args a i arg byRef
  cases direct : placeOf a with
  | none =>
    rw [covered.addresses proc member q s args call a (List.mem_of_getElem? arg) direct pl place]
    exact Nat.zero_le _
  | some named =>
    have same : named = pl := by
      cases a with
      | null => cases direct
      | mk node locPtr x y inner =>
        unfold argPlace at place
        dsimp only at place
        split at place
        · rename_i byaddr
          simp only [Bool.and_eq_true, decide_eq_true_eq] at byaddr
          simp [placeOf, byaddr] at direct
        · exact Option.some.inj (direct.symm.trans place)
    rw [reachOfExpr_place direct, same] at within
    exact within

theorem carried_reach {q : Nat} {proc callee : HProc}
    {s : Symbol} {args : List HExpr} {pl outer : Place} {isWrite : Bool}
    (member : proc ∈ prog.procs) (call : Calls prog proc q s args)
    (target : prog.procs[q]? = some callee)
    (touched : Touches prog byValue opts raises q pl isWrite)
    (carried : Carried byValue callee s args pl outer) :
    (⟨prog, proc, byValue, opts⟩ : EffectWalker).placeReach outer = .frame ∨
      (⟨prog, callee, byValue, opts⟩ : EffectWalker).placeReach pl = .other ∨
      ((⟨prog, callee, byValue, opts⟩ : EffectWalker).placeReach pl = .arg ∧
        ((⟨prog, proc, byValue, opts⟩ : EffectWalker).placeReach outer).rank ≤
          ((⟨prog, proc, byValue, opts⟩ : EffectWalker).callArgReach
            callee.paramSyms args).rank) := by
  have wideOr : ∀ v : Symbol, moduleWide v = true → v.kind ≠ .procName →
      (⟨prog, callee, byValue, opts⟩ : EffectWalker).placeReach (.sym v) = .other :=
    fun v wide name => moduleWide_reach wide name
  cases carried with
  | anywhere => exact Or.inr (Or.inl rfl)
  | @outside v wide =>
    by_cases name : v.kind = .procName
    · exact Or.inl (procName_reach name)
    · exact Or.inr (Or.inl (wideOr v wide name))
  | @link v link =>
    by_cases name : v.kind = .procName
    · exact Or.inl (procName_reach name)
    · cases wide : moduleWide v with
      | true => exact Or.inr (Or.inl (wideOr v wide name))
      | false =>
        rcases covered.links proc member q s args callee v isWrite call target
          touched link wide with
          own | handed
        · exact Or.inl own
        · refine Or.inr (Or.inr ⟨link_reach link wide name, ?_⟩)
          have narrow := @frame_reach ⟨prog, proc, byValue, opts⟩ v wide
          have some_arg : 1 ≤ ((⟨prog, proc, byValue, opts⟩ : EffectWalker).callArgReach
              callee.paramSyms args).rank := by
            cases reach : EffectWalker.callArgReach ⟨prog, proc, byValue,
              opts⟩ callee.paramSyms args
            · exact absurd reach handed
            · exact le_refl _
            · exact Nat.le_succ 1
          exact le_trans narrow some_arg
  | @param v a _ i own kind byRef _ formal arg place =>
    cases wide : moduleWide v with
    | true => exact Or.inr (Or.inl (wideOr v wide (by rw [kind]; decide)))
    | false =>
      refine Or.inr (Or.inr ⟨param_reach own kind byRef wide, ?_⟩)
      apply arg_reach covered member call arg place
      intro v' formal'
      rw [formal] at formal'
      rw [← Option.some.inj formal']
      exact byRef
  | @entryParam v a _ params i own kind byRef entry _ arg place =>
    cases wide : moduleWide v with
    | true => exact Or.inr (Or.inl (wideOr v wide (by rw [kind]; decide)))
    | false =>
      refine Or.inr (Or.inr ⟨param_reach own kind byRef wide, ?_⟩)
      apply arg_reach covered member call arg place
      intro v' formal
      exact covered.entries proc member q s args callee call target (by rw [entry]; simp) v'
        (List.mem_of_getElem? formal)

theorem Noted.carried {p q : Nat}
    {proc callee : HProc} {s : Symbol} {args : List HExpr} {pl outer : Place} {isWrite : Bool}
    (known : prog.procs[p]? = some proc) (call : Calls prog proc q s args)
    (target : prog.procs[q]? = some callee)
    (touched : Touches prog byValue opts raises q pl isWrite)
    (noted : Noted prog byValue opts q
      ((⟨prog, callee, byValue, opts⟩ : EffectWalker).placeReach pl) isWrite)
    (carried : Carried byValue callee s args pl outer) :
    Noted prog byValue opts p
      ((⟨prog, proc, byValue, opts⟩ : EffectWalker).placeReach outer) isWrite := by
  have edge := mem_callsOf.mpr (calls_noted covered known call target)
  rcases noted with unknown | write | ⟨wide, reaches, seen⟩
  · exact Or.inl (.call unknown edge)
  · exact Or.inr (Or.inl (.call write edge))
  · have brought := Reachable.call seen edge
    -- An access seen outside stays outside; one seen at the arguments is translated.
    have widest (r : Reach) : r.rank ≤ Reach.other.rank := by cases r <;> decide
    rcases carried_reach covered (List.mem_of_getElem? known) call target touched carried with
      own | outside | ⟨at_arg, within⟩
    · rw [own]
      exact noted_frame p isWrite
    · rw [outside] at reaches
      cases wide with
      | frame | arg => exact absurd reaches (by decide)
      | other => exact Or.inr (Or.inr ⟨.other, widest _, brought⟩)
    · rw [at_arg] at reaches
      cases wide with
      | frame => exact absurd reaches (by decide)
      | arg => exact Or.inr (Or.inr ⟨_, within, brought⟩)
      | other => exact Or.inr (Or.inr ⟨.other, widest _, brought⟩)

theorem touches_noted {some_raises : Nat → Int → Prop} (fewer : ∀ p k, some_raises p k → raises p k)
    (caught : ∀ p proc k, prog.procs[p]? = some proc → some_raises p k → Handled prog k →
      Noted prog byValue opts p .other true)
    {p : Nat} {pl : Place} {isWrite : Bool}
    (touched : Touches prog byValue opts some_raises p pl isWrite) {proc : HProc}
    (known : prog.procs[p]? = some proc) :
    Noted prog byValue opts p
      ((⟨prog, proc, byValue, opts⟩ : EffectWalker).placeReach pl) isWrite := by
  induction touched generalizing proc with
  | read known' evaluated place =>
    obtain rfl := Option.some.inj (known.symm.trans known')
    rcases evaluated_noted covered known evaluated with walked | ⟨-, inert, -⟩
    · exact noted_access known (walked _ (walkExpr_place place))
    · rw [inert _ place]
      exact noted_frame _ _
  | @write p' proc' node thenS elseS unit body t pl known' inside member place =>
    obtain rfl := Option.some.inj (known.symm.trans known')
    by_cases special : node.kind = .callS ∨ ∃ target locPtr a b args,
        t = .mk target locPtr a b args ∧ target.name = "ONSOURCE"
    · rw [covered.stores proc (List.mem_of_getElem? known) _ _ _ _ _ inside t
        member special pl place]
      exact noted_frame _ _
    · rcases @target_walked ⟨prog, proc, byValue, opts⟩ _ _ _ _ _ _ inside member with walked | kind
      · refine noted_access known (walked _ (walkExpr_written place ?_))
        intro target locPtr a b args same name
        exact special (Or.inr ⟨target, locPtr, a, b, args, same, name⟩)
      · exact absurd (Or.inl kind) special
  | control known' inside kind sym =>
    obtain rfl := Option.some.inj (known.symm.trans known')
    have own := covered.control proc (List.mem_of_getElem? known) _ _ _ _ _ _ inside kind sym
    unfold EffectWalker.placeReach
    dsimp only
    rw [own]
    exact noted_frame _ _
  | out known' inside out =>
    obtain rfl := Option.some.inj (known.symm.trans known')
    exact noted_unknown known (out_noted (w := ⟨prog, proc, byValue, opts⟩) inside out)
  | builtin known' evaluated builtin outside =>
    obtain rfl := Option.some.inj (known.symm.trans known')
    rcases evaluated_noted covered known evaluated with walked | ⟨nocall, -⟩
    · exact noted_unknown known (builtin_noted walked builtin outside)
    · have kind := (Bool.and_eq_true_iff.mp builtin).1
      exact absurd (of_decide_eq_true kind) (nocall _ _ _ _ _ rfl)
  | callOut known' out =>
    obtain rfl := Option.some.inj (known.symm.trans known')
    cases out with
    | expr evaluated kind sym outside =>
      rcases evaluated_noted covered known evaluated with walked | ⟨nocall, -⟩
      · exact noted_unknown known (call_out_noted walked kind sym outside)
      · exact absurd kind (nocall _ _ _ _ _ rfl)
    | stmt inside kind outside =>
      exact noted_unknown known
        (call_statement_out_noted (w := ⟨prog, proc, byValue, opts⟩) inside kind outside)
  | checked known' evaluated member handled =>
    obtain rfl := Option.some.inj (known.symm.trans known')
    rcases evaluated_noted covered known evaluated with walked | ⟨-, -, unhandled⟩
    · exact noted_check known walked member handled
    · exact absurd handled (unhandled _ member)
  | raised raise handled => exact (caught _ _ _ known raise handled).outside _ _
  | result known' function type =>
    obtain rfl := Option.some.inj (known.symm.trans known')
    refine noted_access known (List.mem_append_right _ ?_)
    simp only [function, type, Bool.and_self, ↓reduceIte, List.mem_singleton]
    rfl
  | call known' call target touched carried ih =>
    obtain rfl := Option.some.inj (known.symm.trans known')
    exact (ih target).carried covered known call target (touches_more fewer touched) carried

theorem held_of_reachable {p : Nat} {f : Fact} (there : Reachable prog byValue opts p f) :
    (finalBits prog byValue opts p).has f :=
  still_complete (still_iff_short.mpr covered.rounds) there

theorem raised_noted (p : Nat) (proc : HProc) (k : Int) (known : prog.procs[p]? = some proc)
    (raise : raises p k) (handled : Handled prog k) : Noted prog byValue opts p .other true := by
  obtain ⟨pl, touched, outside⟩ := covered.raised p proc k known raise handled
  rw [← outside]
  exact touches_noted covered (fun _ _ none => none.elim) (fun _ _ _ _ none => none.elim) touched
    known

end

theorem rank_frame (h : r.rank ≤ Reach.frame.rank) : r = .frame := by
  cases r with
  | frame => rfl
  | arg | other => exact absurd h (by decide)

end

def paramX : Symbol := { num := 1, kind := .param, owner := some ⟨0, false⟩ }

def refX : HExpr := .mk { kind := .varRef, sym := some paramX } .null .null .null []

def storesX : HProc :=
  { body := [.mk { kind := .assign, target := refX, value := intLit 1 } .null .null .null []]
    paramSyms := [paramX], src := some ⟨0, false⟩ }

theorem storesX_body {node : StmtNode} {thenS elseS unit : HStmt} {body : List HStmt}
    (inside : InBody storesX (.mk node thenS elseS unit body)) :
    node = { kind := .assign, target := refX, value := intLit 1 } := by
  have only : ∀ st, InBody storesX st →
      st = .mk { kind := .assign, target := refX, value := intLit 1 } .null .null .null [] := by
    intro st inside
    induction inside with
    | top member => exact List.mem_singleton.mp member
    | child _ member ih =>
      rw [ih] at member
      cases member
  injection only _ inside

theorem storesX_evaluated {e : HExpr} (evaluated : Evaluated ⟨[storesX]⟩ storesX e) :
    e = intLit 1 ∨ e = .null := by
  induction evaluated with
  | field inside member =>
    rw [storesX_body inside] at member
    exact Or.inl (List.mem_singleton.mp member)
  | target inside member operand =>
    rw [storesX_body inside] at member
    obtain rfl := List.mem_singleton.mp member
    exact Or.inr (List.mem_singleton.mp operand)
  | operand _ member ih =>
    rcases ih with rfl | rfl <;> cases member
  | definedRead _ place _ ih =>
    rcases ih with rfl | rfl <;> cases place
  | definedWrite inside member _ idx =>
    obtain ⟨proc, mem, node, thenS, elseS, unit, body, within, kind, -⟩ := idx
    obtain rfl := List.mem_singleton.mp mem
    rw [storesX_body within] at kind
    cases kind

theorem storesX_calls_nothing {q : Nat} {s : Symbol} {args : List HExpr} :
    ¬ Calls ⟨[storesX]⟩ storesX q s args := by
  intro call
  cases call with
  | expr evaluated kind _ _ _ _ =>
    rcases storesX_evaluated evaluated with same | same
    · injection same with node
      subst node
      cases kind
    · cases same
  | stmt inside kind _ _ _ _ =>
    rw [storesX_body inside] at kind
    cases kind

theorem storesX_unhandled {k : Int} : ¬ Handled ⟨[storesX]⟩ k := by
  rintro ⟨proc, member, node, thenS, elseS, unit, body, inside, kind, -⟩
  obtain rfl := List.mem_singleton.mp member
  rw [storesX_body inside] at kind
  cases kind

theorem storesX_covered :
    EffectsCovered ⟨[storesX]⟩ (fun _ => false) {} (fun _ k => k = kSizeCondKey) := by
  have procs : ∀ proc ∈ (⟨[storesX]⟩ : HProgram).procs, proc = storesX :=
    fun proc mem => List.mem_singleton.mp mem
  have none_called : ∀ p, callsOf ⟨[storesX]⟩ (fun _ => false) {} p = [] := by
    intro p
    cases p with
    | zero => decide
    | succ p => simp [callsOf, notesOf]
  have no_handler : handlerKeysOf ⟨[storesX]⟩ (fun _ => false) {} = ∅ := by decide
  have at_once : ∀ p f, Reachable ⟨[storesX]⟩ (fun _ => false) {} p f →
      (walkedBits ⟨[storesX]⟩ (fun _ => false) {} p).has f := by
    intro p f there
    cases there with
    | own has => exact has
    | call _ edge =>
      rw [none_called] at edge
      cases edge
    | handler _ _ caught _ =>
      rw [no_handler] at caught
      rcases caught with here | any
      · cases here
      · cases any
  have no_skip : ∀ e, ¬ Skipped ⟨[storesX]⟩ storesX e := by
    intro e skipped
    induction skipped with
    | bound inside kind _ _ | whileClause inside kind | label inside kind | priority inside kind
    | handle inside kind _ _ => rw [storesX_body inside] at kind; cases kind
    | definedRead evaluated place _ =>
      rcases storesX_evaluated evaluated with rfl | rfl <;> cases place
    | definedWrite _ _ _ idx =>
      obtain ⟨proc, mem, node, thenS, elseS, unit, body, within, kind, -⟩ := idx
      obtain rfl := procs proc mem
      rw [storesX_body within] at kind
      cases kind
    | operand _ _ ih => exact ih
  constructor
  · intro proc mem node thenS elseS unit body s inside kind _
    obtain rfl := procs proc mem
    rw [storesX_body inside] at kind
    cases kind
  · intro proc mem e skipped
    obtain rfl := procs proc mem
    exact absurd skipped (no_skip e)
  · intro proc mem node thenS elseS unit body inside t member special
    obtain rfl := procs proc mem
    rw [storesX_body inside] at member special
    obtain rfl := List.mem_singleton.mp member
    rcases special with kind | ⟨target, locPtr, a, b, args, same, name⟩
    · cases kind
    · injection same with node
      rw [← node] at name
      exact absurd name (by decide)
  · intro proc mem q s args call
    obtain rfl := procs proc mem
    exact absurd call storesX_calls_nothing
  · intro proc mem q s args callee call
    obtain rfl := procs proc mem
    exact absurd call storesX_calls_nothing
  · intro proc mem q s args callee v isWrite call
    obtain rfl := procs proc mem
    exact absurd call storesX_calls_nothing
  · intro p proc k _ _ handled
    exact absurd handled storesX_unhandled
  · intro r k p f there
    exact ⟨0, _, .own (at_once p f (arrives_reachable there)), Nat.zero_le _⟩
  · intro p read _
    have noted := walkedBits_access (by decide) (at_once p _ read)
    cases p with
    | zero => exact absurd noted (by decide)
    | succ p => cases noted

def stepsX : HProc :=
  { body := [.mk { kind := .doIter, sym := some paramX, fromE := intLit 1, toE := intLit 3 }
      .null .null .null []]
    paramSyms := [paramX], src := some ⟨0, false⟩ }

end PliEffects
