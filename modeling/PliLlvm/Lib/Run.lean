import Mathlib.Data.List.Basic

/- Runs of partial step functions. A step that returns none ends the process:
   no later event of the run is executed, so a run either performs every event
   of its list or has no final state. -/
namespace Runs
variable {σ τ ε : Type}

def run (step : σ → ε → Option σ) : σ → List ε → Option σ
  | s, [] => some s
  | s, e :: es => (step s e).bind fun s' => run step s' es

variable {step : σ → ε → Option σ} {s s' : σ} {es : List ε}

theorem run_cons_iff {e : ε} : run step s (e :: es) = some s' ↔
      ∃ mid, step s e = some mid ∧ run step mid es = some s' := by
  simp [run, Option.bind_eq_some_iff]

theorem run_append_iff {fs : List ε} : run step s (es ++ fs) = some s' ↔
      ∃ mid, run step s es = some mid ∧ run step mid fs = some s' := by
  induction es generalizing s with
  | nil => simp [run]
  | cons e es ih =>
    simp only [List.cons_append, run_cons_iff, ih]
    constructor
    · rintro ⟨first, hstep, mid, hes, hfs⟩
      exact ⟨mid, ⟨first, hstep, hes⟩, hfs⟩
    · rintro ⟨mid, ⟨first, hstep, hes⟩, hfs⟩
      exact ⟨first, hstep, mid, hes, hfs⟩

/-- Every event of the list meets a condition on the state it is performed in. -/
def AllSteps (step : σ → ε → Option σ) (ok : σ → ε → Prop) : σ → List ε → Prop
  | _, [] => True
  | s, e :: es => ok s e ∧ ∀ s', step s e = some s' → AllSteps step ok s' es

variable {ok : σ → ε → Prop}

theorem allSteps_cons_iff {e : ε} (h : step s e = some s') :
    AllSteps step ok s (e :: es) ↔ ok s e ∧ AllSteps step ok s' es := by
  simp [AllSteps, h]

theorem allSteps_append_iff {fs : List ε} : AllSteps step ok s (es ++ fs) ↔
      AllSteps step ok s es ∧ ∀ mid, run step s es = some mid → AllSteps step ok mid fs := by
  induction es generalizing s with
  | nil =>
    constructor
    · intro all
      exact ⟨trivial, fun mid here => by cases here; exact all⟩
    · intro all
      exact all.2 s rfl
  | cons e es ih =>
    cases first : step s e with
    | none => simp [AllSteps, first, run]
    | some mid =>
      rw [List.cons_append, allSteps_cons_iff first, allSteps_cons_iff first, ih, and_assoc]
      simp [run, first]

theorem allSteps_of_forall (each : ∀ e ∈ es, ∀ s, ok s e) (s : σ) : AllSteps step ok s es := by
  induction es generalizing s with
  | nil => trivial
  | cons e es ih =>
    exact ⟨each e (by simp) s, fun s' _ => ih (fun f member => each f (by simp [member])) s'⟩

/-- Two conditions that agree wherever a third holds agree along every run it holds on. -/
theorem allSteps_congr {can ok' : σ → ε → Prop}
    (agree : ∀ s e, can s e → (ok s e ↔ ok' s e)) {s : σ} {es : List ε}
    (possible : AllSteps step can s es) : AllSteps step ok s es ↔ AllSteps step ok' s es := by
  induction es generalizing s with
  | nil => exact Iff.rfl
  | cons e es ih =>
    obtain ⟨first, rest⟩ := possible
    unfold AllSteps
    rw [agree s e first]
    exact and_congr_right fun _ => forall_congr' fun mid =>
      forall_congr' fun stepped => ih (rest mid stepped)

instance decidableAllSteps (step : σ → ε → Option σ) (ok : σ → ε → Prop)
    [∀ s e, Decidable (ok s e)] : (s : σ) → (es : List ε) → Decidable (AllSteps step ok s es)
  | _, [] => isTrue trivial
  | s, e :: es =>
    match h : step s e with
    | none => decidable_of_iff (ok s e) (by simp [AllSteps, h])
    | some s' =>
      haveI := decidableAllSteps step ok s' es
      decidable_of_iff _ (allSteps_cons_iff h).symm

variable {inv : σ → Prop}

/-- An invariant kept, and a step performed, by every event that meets the condition:
    the run reaches its end and the invariant holds there. -/
theorem run_keeps (keep : ∀ s e, inv s → ok s e → ∃ s', step s e = some s' ∧ inv s')
    {s : σ} {es : List ε} (start : inv s) (meets : AllSteps step ok s es) :
    ∃ s', run step s es = some s' ∧ inv s' := by
  induction es generalizing s with
  | nil => exact ⟨s, rfl, start⟩
  | cons e es ih =>
    obtain ⟨first, rest⟩ := meets
    obtain ⟨mid, hstep, kept⟩ := keep s e start first
    obtain ⟨s', hrun, final⟩ := ih kept (rest mid hstep)
    exact ⟨s', run_cons_iff.mpr ⟨mid, hstep, hrun⟩, final⟩

/-- What every step that meets a condition keeps holds at the end of a run that meets it. -/
theorem run_invariant_where (keep : ∀ s e s', inv s → ok s e → step s e = some s' → inv s')
    {s s' : σ} {es : List ε} (start : inv s) (meets : AllSteps step ok s es)
    (h : run step s es = some s') : inv s' := by
  induction es generalizing s with
  | nil =>
    cases h
    exact start
  | cons e es ih =>
    obtain ⟨mid, hstep, rest⟩ := run_cons_iff.mp h
    obtain ⟨first, later⟩ := meets
    exact ih (keep s e mid start first hstep) (later mid hstep) rest

/-- What every step that meets a condition keeps holds before each step of a run that meets it. -/
theorem allSteps_invariant (keep : ∀ s e s', inv s → ok s e → step s e = some s' → inv s')
    {s : σ} {es : List ε} (start : inv s) (meets : AllSteps step ok s es) :
    AllSteps step (fun s e => inv s ∧ ok s e) s es := by
  induction es generalizing s with
  | nil => trivial
  | cons e es ih =>
    obtain ⟨first, later⟩ := meets
    exact ⟨⟨start, first⟩, fun s' stepped =>
      ih (keep s e s' start first stepped) (later s' stepped)⟩

/-- Where an event keeps the invariant exactly if it meets the condition, the invariant holds
    all along a run exactly if every event of the run meets it. -/
theorem run_invariant_iff
    (keep : ∀ s e, inv s → ∃ s', step s e = some s' ∧ (inv s' ↔ ok s e)) {s : σ} {es : List ε}
    (start : inv s) :
    (∀ done rest s', es = done ++ rest → run step s done = some s' → inv s') ↔
      AllSteps step ok s es := by
  induction es generalizing s with
  | nil =>
    refine ⟨fun _ => trivial, fun _ done rest s' split h => ?_⟩
    obtain ⟨rfl, -⟩ := List.append_eq_nil_iff.mp split.symm
    cases h
    exact start
  | cons e es ih =>
    obtain ⟨mid, hstep, kept⟩ := keep s e start
    rw [allSteps_cons_iff hstep]
    constructor
    · intro along
      have first := along [e] es mid rfl (run_cons_iff.mpr ⟨mid, hstep, rfl⟩)
      refine ⟨kept.mp first, (ih first).mp fun done rest s' split h => ?_⟩
      exact along (e :: done) rest s' (by rw [split]; rfl) (run_cons_iff.mpr ⟨mid, hstep, h⟩)
    · rintro ⟨first, later⟩ done rest s' split h
      cases done with
      | nil =>
        cases h
        exact start
      | cons f done =>
        obtain ⟨rfl, remaining⟩ := List.cons.inj split
        obtain ⟨next, same, h⟩ := run_cons_iff.mp h
        cases hstep.symm.trans same
        exact (ih (kept.mpr first)).mpr later done rest s' remaining h

theorem allSteps_mono {ok' : σ → ε → Prop}
    (weaker : ∀ s e, ok s e → ok' s e) {s : σ} {es : List ε} (meets : AllSteps step ok s es) :
    AllSteps step ok' s es := by
  induction es generalizing s with
  | nil => trivial
  | cons e es ih => exact ⟨weaker s e meets.1, fun s' stepped => ih (meets.2 s' stepped)⟩

/-- What every step keeps holds at the end of a run. -/
theorem run_invariant {step : σ → ε → Option σ} {inv : σ → Prop}
    (keep : ∀ s e s', inv s → step s e = some s' → inv s')
    {s s' : σ} {es : List ε} (start : inv s) (h : run step s es = some s') : inv s' := by
  induction es generalizing s with
  | nil =>
    cases h
    exact start
  | cons e es ih =>
    obtain ⟨mid, hstep, rest⟩ := run_cons_iff.mp h
    exact ih (keep s e mid start hstep) rest

variable {R : σ → τ → Prop}

/-- Forward simulation: related states stay related along a whole run. -/
theorem run_simulates {astep : τ → ε → Option τ}
    (sim : ∀ s t e s', R s t → step s e = some s' → ∃ t', astep t e = some t' ∧ R s' t')
    {s s' : σ} {t : τ} {es : List ε} (start : R s t) (h : run step s es = some s') :
    ∃ t', run astep t es = some t' ∧ R s' t' := by
  induction es generalizing s t with
  | nil =>
    cases h
    exact ⟨t, rfl, start⟩
  | cons e es ih =>
    obtain ⟨mid, hstep, rest⟩ := run_cons_iff.mp h
    obtain ⟨tmid, htstep, related⟩ := sim s t e mid start hstep
    obtain ⟨t', htrun, final⟩ := ih related rest
    exact ⟨t', run_cons_iff.mpr ⟨tmid, htstep, htrun⟩, final⟩

/-- The converse of a simulation: where the abstract run exists and every event
    is one the concrete step can perform, the concrete run exists too. -/
theorem run_progress {astep : τ → ε → Option τ} {able : ε → Prop}
    (sim : ∀ s t e s', R s t → step s e = some s' → ∃ t', astep t e = some t' ∧ R s' t')
    (progress : ∀ s t e t', R s t → astep t e = some t' → able e → ∃ s', step s e = some s')
    {s : σ} {t t' : τ} {es : List ε} (start : R s t) (h : run astep t es = some t')
    (enabled : ∀ e ∈ es, able e) : ∃ s', run step s es = some s' := by
  induction es generalizing s t with
  | nil => exact ⟨s, rfl⟩
  | cons e es ih =>
    obtain ⟨tmid, htstep, rest⟩ := run_cons_iff.mp h
    obtain ⟨mid, hstep⟩ := progress s t e tmid start htstep (enabled e (by simp))
    obtain ⟨other, same, related⟩ := sim s t e mid start hstep
    have agree : other = tmid := Option.some.inj (same.symm.trans htstep)
    subst agree
    obtain ⟨s', hrun⟩ := ih related rest (fun f hf => enabled f (by simp [hf]))
    exact ⟨s', run_cons_iff.mpr ⟨mid, hstep, hrun⟩⟩

/-- A run of a step relation. -/
inductive RelRun (rel : τ → ε → τ → Prop) : τ → List ε → τ → Prop where
  | nil (t : τ) : RelRun rel t [] t
  | cons {t mid t' : τ} {e : ε} {es : List ε} (first : rel t e mid)
      (rest : RelRun rel mid es t') : RelRun rel t (e :: es) t'

/-- Forward simulation into a step relation by a step that never ends the process:
    every list of events has its run. -/
theorem run_simulates_rel {rel : τ → ε → τ → Prop}
    (sim : ∀ s t e, R s t → ∃ s' t', step s e = some s' ∧ rel t e t' ∧ R s' t')
    {s : σ} {t : τ} (start : R s t) (es : List ε) :
    ∃ s' t', run step s es = some s' ∧ RelRun rel t es t' ∧ R s' t' := by
  induction es generalizing s t with
  | nil => exact ⟨s, t, rfl, RelRun.nil t, start⟩
  | cons e es ih =>
    obtain ⟨mid, tmid, hstep, first, related⟩ := sim s t e start
    obtain ⟨s', t', hrun, tail, final⟩ := ih related
    exact ⟨s', t', run_cons_iff.mpr ⟨mid, hstep, hrun⟩, RelRun.cons first tail, final⟩

end Runs
