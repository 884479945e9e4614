import PliLlvm.Compiler.StoreFixed
import PliLlvm.Lib.Loop

/- The DO iteration with a FIXED control variable of scale 0 (src/irgen.cpp, emitDoIter). An
   operand is what its expression left in a register; the direct quotient of
   emitExpr (Convert) and the WHILE clause are not modelled. The body is any statement list
   that leaves the control variable alone and comes to its end: what the loop does is the
   list of values the variable has when the body is entered. -/
namespace PliDoIter
open FixedPoint PliConstFold PliFixedConvert PliStoreFixed GuardedLoop

def convRequired (src dst : Ty) : Bool := src.intBits != dst.intBits || src.scale != dst.scale

structure Operand where
  ty : Ty
  raw : Int
  isIntLit : Bool := false

def Operand.ival (o : Operand) : Int := if o.ty.intBits = 128 then min o.raw (2 ^ 63 - 1) else o.raw

structure DoLoop where
  ct : Ty
  fromE : Operand
  toE : Option Operand
  byE : Option Operand
  /-- The converted BY is an LLVM constant. -/
  constBy : Bool := false
  sizeChecks : Bool := true
  subChecks : Bool := true
  /-- An ON-unit for SIZE comes back to the interrupt. -/
  resumes : Bool := false

section Code
variable (l : DoLoop)

def convertHere (src dst : Ty) (raw : Int) : Option Int :=
    storeFixed l.sizeChecks l.resumes src dst raw

def emitOperand (o : Operand) : Option (Ty × Int) :=
  if convRequired o.ty l.ct then (convertHere l o.ty l.ct o.raw).map fun raw => (l.ct, raw)
  else some (o.ty, o.raw)

/-- The operand in the control variable's type: storeTo and `tv`, `by`. -/
def emitConverted (o : Operand) : Option Int :=
  (emitOperand l o).bind fun v => convertHere l v.1 l.ct v.2

def emitBy : Option Int := (l.byE.map (emitConverted l)).getD (some 1)

def emitTo : Option (Option Int) :=
  match l.toE with
  | none => some none
  | some o => (emitConverted l o).map some

def testL (tv : Option Int) (bv cv : Int) : Bool :=
  match tv with
  | none => true
  | some tv => if bv < 0 then tv ≤ cv else cv ≤ tv

/-- The step block: with every check off the addition is nsw, and an overflow has no
    defined value. -/
def stepL (bv cv : Int) : Option Int :=
  let bits := l.ct.intBits
  let nx := cv + bv
  if !l.sizeChecks && !l.subChecks && !decide (Fits bits nx) then none
  else convertHere l l.ct l.ct (word bits nx)

def maxTrip (fromVal toVal byVal : Int) : Int :=
  if 0 < byVal ∧ fromVal ≤ toVal then word 64 ((word 64 (toVal - fromVal)).tdiv byVal + 1)
  else if byVal < 0 ∧ toVal ≤ fromVal then
    word 64 ((word 64 (fromVal - toVal)).tdiv (word 64 (-byVal)) + 1)
  else 0

def unsigned64 (n : Int) : Nat := (n % 2 ^ 64).toNat

def magnitude64 (n : Int) : Nat := unsigned64 (if 0 ≤ n then n else word 64 (-n))

/-- The trip count computed before the loop. The extension to 64 bits has no value for a
    wider operand. -/
def trip (tv fv bv : Int) : Option Nat :=
  if 64 < l.ct.intBits then none
  else some ((magnitude64 (word 64 (tv - fv)) / magnitude64 bv + 1) % 2 ^ 64)

def literalBounds : Option (Operand × Operand) :=
  l.toE.bind fun t =>
    if l.fromE.isIntLit && t.isIntLit && !convRequired l.fromE.ty l.ct && !convRequired t.ty l.ct
    then some (l.fromE, t) else none

def assumedTrip (bv : Int) : Option Int :=
  if l.constBy then
    (literalBounds l).bind fun b =>
      let m := maxTrip b.1.ival b.2.ival (word 64 bv)
      if 0 < m then some m else none
  else none

def assumesHold : Bool :=
  match emitTo l, emitBy l with
  | some (some tv), some bv =>
    match assumedTrip l bv with
    | none => true
    | some m =>
      match trip l tv l.fromE.raw bv with
      | none => false
      | some n => n ≤ unsigned64 m
  | _, _ => true

def emitDoIter (fuel : Nat) : Option (List Int) :=
  (emitConverted l l.fromE).bind fun fv => (emitTo l).bind fun tv => (emitBy l).bind fun bv =>
    loop (testL tv bv) (stepL l bv) fuel fv

end Code

/- What a DO is for. -/
section Meaning

def tripCount (fromVal toVal byVal : Int) : Nat := ((toVal - fromVal).fdiv byVal + 1).toNat

def values (fromVal byVal : Int) (n : Nat) : List Int :=
  (List.range n).map fun k : Nat => fromVal + k * byVal

def Denotes (l : DoLoop) (o : Operand) (v : Int) : Prop :=
  Stored o.ty o.raw ∧ value o.ty o.raw = v ∧ Stored l.ct v

def Operands (l : DoLoop) (fv tv bv : Int) : Prop :=
  Denotes l l.fromE fv ∧ (∃ t, l.toE = some t ∧ Denotes l t tv) ∧ bv ≠ 0 ∧
    ((∃ b, l.byE = some b ∧ Denotes l b bv) ∨ l.byE = none ∧ bv = 1)

def AsPLI (l : DoLoop) (fv tv bv : Int) : Prop :=
  (∃ fuel, emitDoIter l fuel = some (values fv bv (tripCount fv tv bv))) ∧ assumesHold l = true

def LastStepStored (l : DoLoop) (fv tv bv : Int) : Prop :=
  0 < tripCount fv tv bv →
    Fits l.ct.intBits (fv + tripCount fv tv bv * bv) ∧
      (l.sizeChecks = true → l.ct.k = .fixedBin → InRange l.ct (fv + tripCount fv tv bv * bv))

def NoWideAssumption (l : DoLoop) (bv : Int) : Prop :=
  l.ct.intBits = 128 → assumedTrip l bv = none

end Meaning

section Words

theorem natAbs_word_neg {w : Nat} (pos : 0 < w) {n : Int} (fits : Fits w n) :
    (word w (-n)).natAbs = n.natAbs := by
  by_cases least : n = -2 ^ (w - 1)
  · have same : word w (-n) = word w n := by
      rw [word_eq_iff, Int.modEq_iff_dvd]
      refine ⟨-1, ?_⟩
      have power : (2 : Int) ^ w = 2 * 2 ^ (w - 1) := by
        rw [← pow_succ', Nat.sub_add_cancel pos]
      omega
    rw [same, word_of_fits pos fits]
  · rw [word_of_fits pos, Int.natAbs_neg]
    unfold Fits at *
    omega

theorem magnitude64_eq {n : Int} (fits : Fits 64 n) : magnitude64 n = n.natAbs := by
  unfold magnitude64
  split
  · unfold unsigned64
    unfold Fits at fits
    omega
  · rename_i negative
    have size := natAbs_word_neg (by omega : 0 < 64) fits
    have small := word_fits (by omega : 0 < 64) (-n)
    unfold unsigned64
    unfold Fits at fits small
    by_cases least : n = -2 ^ 63
    · subst least
      decide +kernel
    · rw [word_of_fits (by omega) (by unfold Fits; omega)]
      omega

theorem assumed_trip_bound {a b : Int} (fits : Fits 64 a) (some_trip : 0 < word 64 (a.tdiv b + 1)) :
    (a.natAbs / b.natAbs + 1) % 2 ^ 64 ≤ unsigned64 (word 64 (a.tdiv b + 1)) := by
  have quotient : (a.tdiv b).natAbs = a.natAbs / b.natAbs := Int.natAbs_tdiv a b
  have small : a.natAbs / b.natAbs ≤ a.natAbs := Nat.div_le_self _ _
  rw [← quotient] at small ⊢
  generalize a.tdiv b = t at *
  have range : t.natAbs ≤ 2 ^ 63 := by
    unfold Fits at fits
    omega
  have kept : word 64 (t + 1) = t + 1 := by
    by_contra wrapped
    have large : 2 ^ 63 - 1 ≤ t := by
      by_contra less
      exact wrapped (word_of_fits (by omega) (by unfold Fits; omega))
    have cases : t = 2 ^ 63 - 1 ∨ t = 2 ^ 63 := by omega
    rcases cases with rfl | rfl
    · exact absurd some_trip (by decide +kernel)
    · exact absurd some_trip (by decide +kernel)
  rw [kept] at some_trip ⊢
  unfold unsigned64
  omega

theorem maxTrip_bound {fv tv bv : Int} (some_trip : 0 < maxTrip fv tv bv) (step : Fits 64 bv) :
    (magnitude64 (word 64 (tv - fv)) / magnitude64 bv + 1) % 2 ^ 64 ≤ unsigned64
      (maxTrip fv tv bv) := by
  have span := word_fits (by omega : 0 < 64) (tv - fv)
  rw [magnitude64_eq span, magnitude64_eq step]
  unfold maxTrip at *
  split at some_trip
  · rename_i up
    rw [if_pos up]
    exact assumed_trip_bound span some_trip
  · rename_i not_up
    rw [if_neg not_up]
    split at some_trip
    · rename_i down
      rw [if_pos down]
      have reversed : word 64 (fv - tv) = word 64 (-word 64 (tv - fv)) := by
        rw [word_eq_iff]
        have same := (word_mod_eq 64 (tv - fv)).neg
        rw [neg_sub] at same
        exact same.symm
      have spans := natAbs_word_neg (by omega : 0 < 64) span
      have steps := natAbs_word_neg (by omega : 0 < 64) step
      rw [← reversed] at spans
      rw [← spans, ← steps]
      exact assumed_trip_bound (word_fits (by omega) _) some_trip
    · exact absurd some_trip (by decide)

theorem wrapped_behind {w : Nat} (pos : 0 < w) {cv bv : Int} (kept : Fits w cv) (step : Fits w bv)
    (outside : ¬ Fits w (cv + bv)) :
    if bv < 0 then cv < word w (cv + bv) else word w (cv + bv) < cv := by
  have power : (2 : Int) ^ w = 2 * 2 ^ (w - 1) := by rw [← pow_succ', Nat.sub_add_cancel pos]
  have moved : ∀ m : Int, Fits w (cv + bv + m * 2 ^ w) →
    word w (cv + bv) = cv + bv + m * 2 ^ w := by
    intro m fits
    rw [← word_of_fits pos fits, word_eq_iff, Int.modEq_iff_dvd]
    exact ⟨m, by ring⟩
  unfold Fits at *
  split
  · rename_i down
    rw [moved 1 (by omega)]
    omega
  · rename_i up
    rw [moved (-1) (by omega)]
    omega

end Words

section Conversions

variable {l : DoLoop}

variable {v : Int}

theorem convertHere_quiet {src dst : Ty} {raw : Int}
    (done : convert src dst raw = some ⟨v, false⟩) :
    convertHere l src dst raw = some v := storeFixed_quiet done l.sizeChecks l.resumes

/-- The operand converts exactly; with SIZE off only the value it leaves counts. -/
def OperandExact (l : DoLoop) (o : Operand) : Prop :=
  if l.sizeChecks = true then Exact o.ty l.ct o.raw
  else InRange l.ct (required l.ct (value o.ty o.raw)) →
    convertNoSize o.ty l.ct o.raw = some (required l.ct (value o.ty o.raw))

theorem OperandExact.arrives {o : Operand} (converts : OperandExact l o)
    (whole : l.ct.scale = 0) (denotes : value o.ty o.raw = v) (inside : InRange l.ct v) :
    convertHere l o.ty l.ct o.raw = some v := by
  unfold OperandExact at converts
  by_cases checks : l.sizeChecks = true
  · rw [if_pos checks] at converts
    exact convertHere_quiet (exact_arrives converts whole denotes inside)
  · rw [if_neg checks, denotes, required_scale_zero whole] at converts
    rw [convertHere, storeFixed, if_neg checks]
    exact converts inside

theorem emitConverted_arrives {o : Operand} (fixed : l.ct.k = .fixedBin ∨ l.ct.k = .fixedDec)
    (whole : l.ct.scale = 0) (denotes : Denotes l o v) (converts : OperandExact l o) :
    emitConverted l o = some v := by
  obtain ⟨-, same, inside, fits⟩ := denotes
  have arrives := converts.arrives whole same inside
  unfold emitConverted emitOperand
  split
  · rw [arrives, Option.map_some, Option.bind_some]
    exact convertHere_quiet (convert_stored fixed fits fun _ => inside)
  · exact arrives

theorem unconverted_raw {o : Operand} (whole : l.ct.scale = 0) (denotes : Denotes l o v)
    (bare : convRequired o.ty l.ct = false) : o.raw = v ∧ o.ty.intBits = l.ct.intBits := by
  simp only [convRequired, Bool.or_eq_false_iff, bne_eq_false_iff_eq] at bare
  have same := denotes.2.1
  rw [PliFixedConvert.value, bare.2, whole, neg_zero, zpow_zero, mul_one] at same
  exact ⟨by exact_mod_cast same, bare.1⟩

end Conversions

section Loop
variable {l : DoLoop}

variable {fv tv bv : Int}

theorem test_iff (moves : bv ≠ 0) (k : Nat) :
    testL (some tv) bv (fv + k * bv) = true ↔ k < tripCount fv tv bv := by
  have count : k < tripCount fv tv bv ↔ (k : Int) ≤ (tv - fv).fdiv bv := by
    unfold tripCount
    omega
  rw [count]
  unfold testL
  dsimp only
  split
  · rename_i down
    have flipped : (tv - fv).fdiv bv = (fv - tv) / (-bv) := by
      rw [← Int.fdiv_eq_ediv_of_nonneg _ (by omega : 0 ≤ -bv), ← Int.neg_fdiv_neg, neg_sub]
    rw [flipped, Int.le_ediv_iff_mul_le (by omega), decide_eq_true_eq, mul_neg]
    omega
  · rename_i up
    rw [Int.fdiv_eq_ediv_of_nonneg _ (by omega), Int.le_ediv_iff_mul_le (by omega),
      decide_eq_true_eq]
    omega

theorem stored_between {ty : Ty} {a b c : Int} (low : Stored ty a) (high : Stored ty b)
    (above : a ≤ c) (below : c ≤ b) : Stored ty c := by
  obtain ⟨low_range, low_fits⟩ := low
  obtain ⟨high_range, high_fits⟩ := high
  unfold Stored InRange Fits at *
  split at low_range
  · rename_i binary
    rw [if_pos binary] at high_range ⊢
    omega
  · rename_i decimal
    rw [if_neg decimal] at high_range ⊢
    omega

theorem visited_stored (from_stored : Stored l.ct fv) (to_stored : Stored l.ct tv)
    (k : Nat) (passes : testL (some tv) bv (fv + k * bv) = true) : Stored l.ct (fv + k * bv) := by
  unfold testL at passes
  dsimp only at passes
  split at passes
  · rename_i down
    have behind : (k : Int) * bv ≤ 0 := mul_nonpos_of_nonneg_of_nonpos (by omega) (by omega)
    exact stored_between to_stored from_stored (of_decide_eq_true passes) (by omega)
  · rename_i up
    have ahead : 0 ≤ (k : Int) * bv := mul_nonneg (by omega) (by omega)
    exact stored_between from_stored to_stored (by omega) (of_decide_eq_true passes)

theorem stepL_stored {cv : Int} (fixed : l.ct.k = .fixedBin ∨ l.ct.k = .fixedDec)
    (fits : Fits l.ct.intBits (cv + bv))
    (inside : l.sizeChecks = true → l.ct.k = .fixedBin → InRange l.ct (cv + bv)) :
    stepL l bv cv = some (cv + bv) := by
  have slot : word l.ct.intBits (cv + bv) = cv + bv := word_of_fits (intBits_pos l.ct) fits
  unfold stepL
  dsimp only
  rw [if_neg (by simp [fits]), slot]
  by_cases checks : l.sizeChecks = true
  · exact convertHere_quiet (convert_stored fixed fits (inside checks))
  · unfold convertHere storeFixed convertNoSize
    rw [if_neg checks]
    rcases fixed with binary | decimal
    · simp [throughFloat, binary, fitFixed, slot]
    · have same := convert_self_decimal decimal (cv + bv)
      rw [slot] at same
      exact convertNoSize_quiet same

theorem sum_fits {ty : Ty} {a b : Int} (binary : ty.k = .fixedBin) (some_prec : 0 < ty.prec)
    (narrow : ty.prec < ty.intBits - 1) (left : InRange ty a) (right : InRange ty b) :
    Fits ty.intBits (a + b) := by
  rw [InRange, if_pos binary] at left right
  have power : (2 : Int) ^ (ty.prec.toNat + 1) ≤ 2 ^ (ty.intBits - 1) := by
    exact_mod_cast Nat.pow_le_pow_right (by omega) (by omega : ty.prec.toNat + 1 ≤ ty.intBits - 1)
  rw [pow_succ] at power
  unfold Fits
  omega

theorem stepL_behind {cv last : Int} (declared : Declared l.ct) (cv_stored : Stored l.ct cv)
    (step_stored : Stored l.ct bv)
    (lost : ¬ (Fits l.ct.intBits (cv + bv) ∧
      (l.sizeChecks = true → l.ct.k = .fixedBin → InRange l.ct (cv + bv))))
    (stepped : stepL l bv cv = some last) : if bv < 0 then cv < last else last < cv := by
  obtain ⟨fixed, some_prec, -⟩ := declared
  have slot := intBits_pos l.ct
  unfold stepL at stepped
  dsimp only at stepped
  split at stepped
  · cases stepped
  · by_cases fits : Fits l.ct.intBits (cv + bv)
    · -- the trap on the declared precision
      rw [not_and] at lost
      have outside := lost fits
      simp only [Classical.not_imp] at outside
      obtain ⟨checks, binary, outside⟩ := outside
      have narrow : ¬ (l.ct.prec ≤ 0 ∨ (l.ct.intBits : Int) - 1 ≤ l.ct.prec) := by
        rintro (none | covers)
        · omega
        · exact outside ((inRange_binary binary _).2 (fits_mono (by omega) fits))
      have wrapped : word l.ct.intBits (word (l.ct.prec.toNat + 1) (cv + bv)) =
          word (l.ct.prec.toNat + 1) (cv + bv) :=
        word_of_fits slot (fits_mono (by omega) (word_fits (by omega) _))
      have trapped : convert l.ct l.ct (cv + bv) =
        some ⟨word (l.ct.prec.toNat + 1) (cv + bv), true⟩ := by
        rw [InRange, if_pos binary] at outside
        rw [convert_self_binary binary]
        unfold checkBin fixedBinPrecTrap
        rw [if_neg narrow]
        dsimp only
        rw [if_pos (by omega)]
        simp [fitFixed, wrapped]
      rw [word_of_fits slot fits, convertHere, storeFixed, if_pos checks, trapped,
        Option.bind_some] at stepped
      split at stepped
      · cases stepped
      · injection stepped with stepped
        subst stepped
        exact wrapped_behind (by omega) ((inRange_binary binary _).1 cv_stored.1)
          ((inRange_binary binary _).1 step_stored.1) fun inside =>
            outside ((inRange_binary binary _).2 inside)
    · -- the slot itself wraps
      have kept := word_fits slot (cv + bv)
      have passes : convert l.ct l.ct (word l.ct.intBits (cv + bv)) =
          some ⟨word l.ct.intBits (cv + bv), false⟩ := by
        refine convert_stored fixed kept fun binary => ?_
        have covers : (l.ct.intBits : Int) - 1 ≤ l.ct.prec := by
          by_contra narrow
          exact fits (sum_fits binary some_prec (by omega) cv_stored.1 step_stored.1)
        exact (inRange_binary binary _).2 (fits_mono (by omega) kept)
      rw [convertHere_quiet passes] at stepped
      injection stepped with stepped
      subst stepped
      exact wrapped_behind slot cv_stored.2 step_stored.2 fits

def OperandsExact (l : DoLoop) : Prop :=
  OperandExact l l.fromE ∧ (∀ t, l.toE = some t → OperandExact l t) ∧
    ∀ b, l.byE = some b → OperandExact l b

theorem emitBy_arrives (fixed : l.ct.k = .fixedBin ∨ l.ct.k = .fixedDec)
    (whole : l.ct.scale = 0) (operands : Operands l fv tv bv) (converts : OperandsExact l) :
    emitBy l = some bv := by
  unfold emitBy
  rcases operands.2.2.2 with ⟨b, given, denotes⟩ | ⟨left_out, rfl⟩
  · rw [given, Option.map_some, Option.getD_some]
    exact emitConverted_arrives fixed whole denotes (converts.2.2 b given)
  · rw [left_out]
    rfl

theorem emitTo_arrives (fixed : l.ct.k = .fixedBin ∨ l.ct.k = .fixedDec)
    (whole : l.ct.scale = 0) (operands : Operands l fv tv bv) (converts : OperandsExact l) :
    emitTo l = some (some tv) := by
  obtain ⟨t, given, denotes⟩ := operands.2.1
  unfold emitTo
  rw [given]
  dsimp only
  rw [emitConverted_arrives fixed whole denotes (converts.2.1 t given)]
  rfl

theorem step_is_stored (declared : Declared l.ct) (operands : Operands l fv tv bv) :
    Stored l.ct bv := by
  rcases operands.2.2.2 with ⟨b, -, denotes⟩ | ⟨-, rfl⟩
  · exact denotes.2.2
  · obtain ⟨fixed, some_prec, -⟩ := declared
    refine ⟨?_, ?_⟩
    · unfold InRange
      split
      · have power : (2 : Int) ^ 1 ≤ 2 ^ l.ct.prec.toNat := by
          exact_mod_cast Nat.pow_le_pow_right (by omega) (by omega : 1 ≤ l.ct.prec.toNat)
        omega
      · have power : (10 : Int) ^ 1 ≤ 10 ^ l.ct.prec.toNat := by
          exact_mod_cast Nat.pow_le_pow_right (by omega) (by omega : 1 ≤ l.ct.prec.toNat)
        omega
    · have slot := slot_cases l.ct
      exact fits_mono (by omega : 32 ≤ l.ct.intBits) (by decide)

theorem loop_values_iff (declared : Declared l.ct)
    (from_stored : Stored l.ct fv) (to_stored : Stored l.ct tv) (step_stored : Stored l.ct bv)
    (moves : bv ≠ 0) :
    (∃ fuel, loop (testL (some tv) bv) (stepL l bv) fuel fv =
        some (values fv bv (tripCount fv tv bv))) ↔ LastStepStored l fv tv bv := by
  have start : fv = fv + (0 : Nat) * bv := by simp
  have next : ∀ k : Nat, fv + k * bv + bv = fv + (k + 1 : Nat) * bv := by
    intro k
    push_cast
    ring
  unfold LastStepStored
  cases count : tripCount fv tv bv with
  | zero =>
    have stops : testL (some tv) bv fv = false := by
      rw [← Bool.not_eq_true, start, test_iff moves, count]
      omega
    exact ⟨fun _ none => absurd none (by omega), fun _ => (loop_nil_iff fv).2 stops⟩
  | succ n =>
    have passes : ∀ k ≤ n, testL (some tv) bv (fv + (k : Nat) * bv) = true := by
      intro k le
      rw [test_iff moves, count]
      omega
    have stored : ∀ k ≤ n, Stored l.ct (fv + (k : Nat) * bv) :=
      fun k le => visited_stored from_stored to_stored k (passes k le)
    have visits := @loop_visits_iff _ (testL (some tv) bv) (stepL l bv) (fun k =>
      fv + (k : Nat) * bv) n
      passes (fun k lt => by
        have after := stored (k + 1) (by omega)
        rw [← next] at after ⊢
        exact stepL_stored declared.1 after.2 fun _ _ => after.1)
    rw [← start] at visits
    unfold values
    rw [visits, ← next]
    constructor
    · rintro ⟨last, stepped, stops⟩ _
      by_contra lost
      have behind := stepL_behind declared (stored n (Nat.le_refl n)) step_stored lost stepped
      have here := passes n (Nat.le_refl n)
      unfold testL at stops here
      dsimp only at stops here
      split at behind
      · rename_i down
        rw [if_pos down] at stops here
        rw [decide_eq_true_eq] at here
        rw [decide_eq_false_iff_not] at stops
        omega
      · rename_i up
        rw [if_neg up] at stops here
        rw [decide_eq_true_eq] at here
        rw [decide_eq_false_iff_not] at stops
        omega
    · intro last_stored
      obtain ⟨fits, inside⟩ := last_stored (by omega)
      refine ⟨_, stepL_stored declared.1 fits inside, ?_⟩
      rw [next, ← Bool.not_eq_true, test_iff moves, count]
      omega

theorem assumption_iff (declared : Declared l.ct) (whole : l.ct.scale = 0)
    (operands : Operands l fv tv bv) (converts : OperandsExact l) :
    assumesHold l = true ↔ NoWideAssumption l bv := by
  have slots : l.ct.intBits = 128 ↔ 64 < l.ct.intBits := by
    have slot := slot_cases l.ct
    omega
  unfold assumesHold NoWideAssumption
  rw [emitTo_arrives declared.1 whole operands converts,
    emitBy_arrives declared.1 whole operands converts, slots]
  dsimp only
  cases assumes : assumedTrip l bv with
  | none => exact ⟨fun _ _ => rfl, fun _ => rfl⟩
  | some m =>
    dsimp only
    unfold trip
    by_cases wide : 64 < l.ct.intBits
    · rw [if_pos wide]
      constructor
      · intro holds
        cases holds
      · intro absent
        cases absent wide
    · rw [if_neg wide]
      refine ⟨fun _ no => absurd no wide, fun _ => ?_⟩
      rw [decide_eq_true_eq]
      have step := step_is_stored declared operands
      have step_word := fits_mono (by omega : l.ct.intBits ≤ 64) step.2
      unfold assumedTrip literalBounds at assumes
      split at assumes
      · obtain ⟨t, given, denotes⟩ := operands.2.1
        rw [given, Option.bind_some] at assumes
        split at assumes
        · rename_i literals
          simp only [Bool.and_eq_true, Bool.not_eq_true'] at literals
          obtain ⟨⟨⟨-, -⟩, from_bare⟩, to_bare⟩ := literals
          obtain ⟨from_raw, from_bits⟩ := unconverted_raw whole operands.1 from_bare
          obtain ⟨to_raw, to_bits⟩ := unconverted_raw whole denotes to_bare
          have from_ival : l.fromE.ival = fv := by
            rw [Operand.ival, if_neg (by omega), from_raw]
          have to_ival : t.ival = tv := by
            rw [Operand.ival, if_neg (by omega), to_raw]
          rw [Option.bind_some] at assumes
          dsimp only at assumes
          rw [from_ival, to_ival, word_of_fits (by omega) step_word] at assumes
          split at assumes
          · rename_i some_trip
            injection assumes with bound
            rw [← bound, from_raw]
            exact maxTrip_bound some_trip step_word
          · cases assumes
        · cases assumes
      · cases assumes

theorem emitDoIter_eq (declared : Declared l.ct) (whole : l.ct.scale = 0)
    (operands : Operands l fv tv bv) (converts : OperandsExact l) (fuel : Nat) :
    emitDoIter l fuel = loop (testL (some tv) bv) (stepL l bv) fuel fv := by
  unfold emitDoIter
  rw [emitConverted_arrives declared.1 whole operands.1 converts.1,
    emitTo_arrives declared.1 whole operands converts,
    emitBy_arrives declared.1 whole operands converts]
  rfl

/-- A DO whose operands convert exactly runs as PL/I says just when the value its last step
    gives can be stored and no trip count is assumed of a 128-bit variable. -/
theorem do_runs_as_pli {fv tv bv : Int} (declared : Declared l.ct) (whole : l.ct.scale = 0)
    (operands : Operands l fv tv bv) (converts : OperandsExact l) :
    AsPLI l fv tv bv ↔ LastStepStored l fv tv bv ∧ NoWideAssumption l bv := by
  obtain ⟨t, given, denotes⟩ := operands.2.1
  unfold AsPLI
  rw [assumption_iff declared whole operands converts]
  simp only [emitDoIter_eq declared whole operands converts]
  rw [loop_values_iff declared operands.1.2.2 denotes.2.2 (step_is_stored declared operands)
    operands.2.2.1]

end Loop

section Counting

def countTo (n : Int) : DoLoop where
  ct := bin 31 0
  fromE := ⟨.fixedDec 5 0, 1, true⟩
  toE := some ⟨.fixedDec 15 0, n, true⟩
  byE := none
  constBy := true

theorem literal_exact {p n : Int} (declared : Declared (.fixedDec p 0)) (narrow : p ≤ 18)
    (stored : Stored (.fixedDec p 0) n) (kept : Stored (bin 31 0) n) :
    Exact (.fixedDec p 0) (bin 31 0) n := by
  have denotes : PliFixedConvert.value (.fixedDec p 0) n = n := by
    simp [PliFixedConvert.value, Ty.fixedDec]
  refine whole_exact declared (by decide) rfl stored ⟨by simp [throughFloat, bin], ?_⟩ denotes kept
  show decToBinHolds (.fixedDec p 0) (bin 31 0) n
  unfold decToBinHolds
  have unwide : (Ty.fixedDec p 0).wideDec = false := decide_eq_false (by omega)
  rw [if_neg (by simp [unwide])]
  refine ⟨by decide, show (0 : Int).natAbs ≤ 38 by decide, ?_⟩
  show Fits 128 (n.tdiv 1 * 1 * 1)
  have range : -2 ^ 31 ≤ n ∧ n < 2 ^ 31 := kept.1
  rw [Int.tdiv_one]
  unfold Fits
  omega

theorem countTo_operands {n : Int} (nonneg : 0 ≤ n) (fits : n < 2 ^ 31) :
    Operands (countTo n) 1 n 1 ∧ OperandsExact (countTo n) := by
  have slot : Stored (bin 31 0) n := by
    constructor
    · show -2 ^ 31 ≤ n ∧ n < 2 ^ 31
      omega
    · show -2 ^ 31 ≤ n ∧ n < 2 ^ 31
      omega
  have literal : Stored (.fixedDec 15 0) n := by
    constructor
    · show -10 ^ 15 < n ∧ n < 10 ^ 15
      omega
    · show -2 ^ 63 ≤ n ∧ n < 2 ^ 63
      omega
  have one : Stored (.fixedDec 5 0) 1 ∧ Stored (bin 31 0) 1 := by decide
  constructor
  · refine ⟨⟨one.1, ?_, one.2⟩, ⟨_, rfl, literal, ?_, slot⟩, by decide, Or.inr ⟨rfl, rfl⟩⟩
    · simp [countTo, PliFixedConvert.value, Ty.fixedDec]
    · simp [PliFixedConvert.value, Ty.fixedDec]
  · refine ⟨literal_exact (by decide) (by decide) one.1 one.2, ?_, (fun b given => by cases given)⟩
    intro t given
    cases given
    exact literal_exact (by decide) (by decide) literal slot

theorem counts_to_million : AsPLI (countTo 1000000) 1 1000000 1 :=
  (do_runs_as_pli (by decide) rfl (@countTo_operands 1000000 (by decide) (by decide)).1
    (@countTo_operands 1000000 (by decide) (by decide)).2).2
    ⟨fun _ => ⟨by decide +kernel, fun _ _ => by decide +kernel⟩, fun wide =>
      absurd wide (by decide)⟩

/-- DO I = 1 TO 2147483647 does not come to its end: after the largest value the step wraps. -/
theorem count_never_ends :
    Operands (countTo 2147483647) 1 2147483647 1 ∧ OperandsExact (countTo 2147483647) ∧
      (∀ vs fuel, emitDoIter (countTo 2147483647) fuel = some vs →
        vs ≠ values 1 1 (tripCount 1 2147483647 1)) ∧
          ¬ AsPLI (countTo 2147483647) 1 2147483647 1 := by
  obtain ⟨operands, converts⟩ := @countTo_operands 2147483647 (by decide) (by decide)
  have never : ∀ fuel, emitDoIter (countTo 2147483647) fuel ≠
      some (values 1 1 (tripCount 1 2147483647 1)) := by
    intro fuel done
    rw [emitDoIter_eq (by decide) rfl operands converts] at done
    have stored := (loop_values_iff (by decide) (by decide) (by decide) (by decide) (by decide)).1
      ⟨fuel, done⟩
    exact absurd (stored (by decide +kernel)).1 (by decide +kernel)
  refine ⟨operands, converts, fun vs fuel done same => never fuel (same ▸ done), ?_⟩
  rintro ⟨⟨fuel, done⟩, -⟩
  exact never fuel done

end Counting

end PliDoIter
