import PliLlvm.Compiler.CharParts

/- FIXED(char) (src/irgen.cpp, emitCharParts and emitFixedFromChar): the parsed digits are
   rescaled in 512 bits and checked against the declared precision. The constants of the
   scale are computed by repeated multiplication, so a negative scale gives the constant 1. -/
namespace PliFixedFromChar
open CheckedCells FixedPoint Decimal PliWide128 PliConstFold PliFixedConvert
  PliFixedText PliCharParts

section
variable {s : List UInt8}

def emitCharParts (runtime : Bool) (memory : Window s) : Option Parts :=
  if runtime then
    (pliFixedCharParts s).map fun parts =>
      ⟨parts.ok, parts.frac,
        word 128 (parts.out.lo.toNat + parts.out.hi.toUInt64.toNat * 2 ^ 64)⟩
  else some (emitFixedCharPartsLLVM memory)

end

/-- The blocks fxc.pow and fxc.pow_body. -/
def powLoop : Nat → Int
  | 0 => 1
  | k + 1 => word 512 (powLoop k * 10)

def rescaleChar (dst : Ty) (frac all : Int) : Converted :=
  let isNeg := all < 0
  let mag := if isNeg then word 512 (0 - all) else all
  let pow10 := powLoop frac.natAbs
  let magScaled := if frac < 0 then word 512 (mag * pow10) else mag
  let div10 := if frac < 0 then 1 else pow10
  if dst.k = .fixedDec then
    let scaled := word 512 (magScaled * intPowConst 512 10 dst.scale)
    let q := word 512 (scaled.tdiv div10)
    let r := word 512 (scaled.tmod div10)
    let twice := word 512 (r * 2)
    let roundUp := div10 % 2 ^ 512 ≤ twice % 2 ^ 512
    let q := word 512 (q + if roundUp then 1 else 0)
    let raw := if isNeg then word 512 (0 - q) else q
    ⟨fitFixed dst raw, wideMagTrap 512 raw dst.prec⟩
  else
    let scaled := word 512 (magScaled * intPowConst 512 2 dst.scale)
    let q := word 512 (scaled.tdiv div10)
    checkBin 512 dst (if isNeg then word 512 (0 - q) else q)

def emitFixedFromChar (runtime convChecks : Bool) {s : List UInt8} (memory : Window s) (dst : Ty) :
    Option (Bool × Converted) :=
  (emitCharParts runtime memory).map fun parts =>
    (convChecks && !parts.ok, rescaleChar dst parts.frac parts.all)

/- The numbers that character values denote. -/
inductive Sign
  | none
  | plus
  | minus
  deriving DecidableEq

def Sign.text : Sign → List UInt8
  | .none => []
  | .plus => [43]
  | .minus => [45]

def Sign.apply (sign : Sign) (n : Nat) : Int := if sign = .minus then -n else n

def pointText : Option (List Nat) → List UInt8
  | none => []
  | some fraction => 46 :: digitBytes fraction

/-- A decimal number as it stands in a character value: digits around an optional point,
    maybe an exponent, and behind them text that does not go on with the number. -/
structure Numeral where
  blanks : List UInt8
  sign : Sign
  whole : List Nat
  fraction : Option (List Nat)
  exponent : Option (UInt8 × Sign × List Nat)
  rest : List UInt8
  blank : ∀ c ∈ blanks, isBlank c = true
  digits : ∀ d ∈ whole ++ fraction.getD [], d < 10
  some_digit : whole ++ fraction.getD [] ≠ []
  exponent_digits : ∀ part ∈ exponent,
    isExponent part.1 = true ∧ part.2.2 ≠ [] ∧ ∀ d ∈ part.2.2, d < 10
  ends : ∀ c, rest.head? = some c → isDigit c = false ∧
    (exponent = none → isExponent c = false ∧ (fraction = none → c ≠ 46))

namespace Numeral

def exponentText (n : Numeral) : List UInt8 :=
  match n.exponent with
  | none => []
  | some (mark, sign, ds) => mark :: (sign.text ++ digitBytes ds)

def text (n : Numeral) : List UInt8 :=
  n.blanks ++ (n.sign.text ++ (digitBytes n.whole ++
    (pointText n.fraction ++ (n.exponentText ++ n.rest))))

def mantissa (n : Numeral) : Nat := horner 0 (n.whole ++ n.fraction.getD [])

def power (n : Numeral) : Int :=
  match n.exponent with
  | none => 0
  | some (_, sign, ds) => sign.apply (horner 0 ds)

def scale (n : Numeral) : Int := (n.fraction.getD []).length - n.power

def number (n : Numeral) : ℚ := n.sign.apply n.mantissa * (10 : ℚ) ^ (-n.scale)

/-- The digits fit: the significant ones, those behind the point, and the scale that an
    exponent leaves. -/
def Fit (n : Numeral) : Prop :=
  significant (n.whole ++ n.fraction.getD []) ≤ 38 ∧ (n.fraction.getD []).length ≤ 76 ∧
    (n.exponent ≠ none → n.mantissa = 0 ∨ n.scale.natAbs ≤ 76)

instance (n : Numeral) : Decidable n.Fit := inferInstanceAs (Decidable (_ ∧ _ ∧ _))

end Numeral

structure Holds (w : Slots) (done : List Nat) (fraction : Nat) : Prop where
  all : w.all = horner 0 done
  digits : w.digits = significant done
  frac : w.frac = fraction
  saw : w.saw = decide (done ≠ [])
  seen : w.seen = decide (significant done ≠ 0)
  overflow : w.overflow = false

theorem digit_byte {d : Nat} (small : d < 10) : (UInt8.ofNat (48 + d) - 48).toNat = d := by
  have digit : isDigit (UInt8.ofNat (48 + d)) = true :=
    @digitBytes_isDigit [d] (by simpa using small) _ (by simp [digitBytes])
  have number := @digitBytes_digitOf [d] (by simpa using small)
  rw [digit_sub digit]
  simpa [digitBytes] using number

theorem holds_digit {w : Slots} {done : List Nat} {fraction d : Nat} {fractional : Bool}
    (holds : Holds w done fraction) (digits : ∀ d ∈ done, d < 10) (small : d < 10)
    (few : significant (done ++ [d]) ≤ 38) (room : fractional = true → fraction < 76) :
    Holds (emitDigitBody fractional w (UInt8.ofNat (48 + d))) (done ++ [d])
      (if fractional then fraction + 1 else fraction) := by
  obtain ⟨all, counted, frac, saw, seen, overflow⟩ := holds
  have bound := horner_significant digits
  have step := significant_snoc done d
  have value : horner 0 (done ++ [d]) = horner 0 done * 10 + d := by
    rw [horner_append]
    rfl
  obtain ⟨sig, counts⟩ : ∃ sig : Bool, sig = (w.seen || decide (d ≠ 0)) := ⟨_, rfl⟩
  have sig_iff : sig = true ↔ ¬ (significant done = 0 ∧ d = 0) := by
    rw [counts, seen]
    simp only [Bool.or_eq_true, decide_eq_true_eq]
    tauto
  have uncapped : (sig && decide (38 ≤ w.digits) || fractional && decide (76 ≤ w.frac)) =
    false := by
    rw [Bool.or_eq_false_iff]
    constructor
    · cases significant_now : sig with
      | false => rfl
      | true =>
        rw [if_neg (sig_iff.mp significant_now)] at step
        have below : ¬ 38 ≤ w.digits := by omega
        simpa using below
    · cases behind : fractional with
      | false => rfl
      | true =>
        have below : ¬ 76 ≤ w.frac := by
          have := room behind
          omega
        simpa using below
  have stored : emitDigitBody fractional w (UInt8.ofNat (48 + d)) =
      { w with
        all := word 256 (word 256 (w.all * 10) + d)
        digits := if sig then w.digits + 1 else w.digits
        frac := if fractional then w.frac + 1 else w.frac
        saw := true
        seen := w.seen || sig
        overflow := false } := by
    unfold emitDigitBody
    rw [digit_byte small]
    simp only [← counts, uncapped, overflow]
    simp
  rw [stored]
  have next : word 256 (word 256 (w.all * 10) + d) = horner 0 (done ++ [d]) := by
    rw [all, value]
    by_cases zeros : significant done = 0 ∧ d = 0
    · rw [zeros.1] at bound
      have none : horner 0 done = 0 := by omega
      rw [none, zeros.2]
      rfl
    · rw [if_neg zeros] at step
      exact next_word small bound (by omega)
  have seen_next : (w.seen || sig) = decide (significant (done ++ [d]) ≠ 0) := by
    rw [step, counts, seen]
    by_cases zeros : significant done = 0 ∧ d = 0
    · simp [zeros]
    · rw [if_neg zeros]
      by_cases none : significant done = 0
      · have nonzero : d ≠ 0 := fun zero => zeros ⟨none, zero⟩
        simp [none, nonzero]
      · simp [none]
  have count_next : (if sig = true then w.digits + 1 else w.digits) =
    significant (done ++ [d]) := by
    rw [step, counted]
    by_cases zeros : significant done = 0 ∧ d = 0
    · rw [if_pos zeros, if_neg (fun counting => sig_iff.mp counting zeros), zeros.1]
    · rw [if_neg zeros, if_pos (sig_iff.mpr zeros)]
  exact ⟨next, count_next, by rw [frac], by simp, seen_next, rfl⟩

theorem holds_digits {w : Slots} {done ds : List Nat} {fraction : Nat} {fractional : Bool}
    (holds : Holds w done fraction) (digits : ∀ d ∈ done ++ ds, d < 10)
    (few : significant (done ++ ds) ≤ 38) (room : fractional = true → fraction + ds.length ≤ 76) :
    Holds ((digitBytes ds).foldl (emitDigitBody fractional) w) (done ++ ds)
      (if fractional then fraction + ds.length else fraction) := by
  induction ds generalizing w done fraction with
  | nil =>
    rw [List.append_nil, List.length_nil, Nat.add_zero, ite_self]
    exact holds
  | cons d ds ih =>
    have shape : done ++ d :: ds = (done ++ [d]) ++ ds := by simp
    rw [shape] at digits few ⊢
    have first := @holds_digit _ _ _ _ fractional holds
      (fun e there => digits e (by simp [there])) (digits d (by simp))
      ((significant_le _ ds).trans few) (fun behind => by
        have := room behind
        rw [List.length_cons] at this
        omega)
    have rest := ih first digits few (fun behind => by
      have := room behind
      rw [List.length_cons] at this
      rw [if_pos behind]
      omega)
    rw [digitBytes, List.map_cons, List.foldl_cons, List.length_cons]
    cases fractional with
    | false => exact rest
    | true =>
      simp only [if_true] at rest ⊢
      rw [Nat.add_comm ds.length 1, ← Nat.add_assoc]
      exact rest

theorem holds_start : Holds ⟨0, 0, 0, false, false, false, false⟩ [] 0 :=
  ⟨rfl, rfl, rfl, rfl, rfl, rfl⟩

variable {back : List UInt8}

theorem pointText_head {fraction : Option (List Nat)}
    (ends : ∀ c, back.head? = some c → isDigit c = false) :
    ∀ c, (pointText fraction ++ back).head? = some c → isDigit c = false := by
  intro c head
  cases fraction with
  | none => exact ends c head
  | some ds =>
    simp only [pointText, List.cons_append, List.head?_cons, Option.some.injEq] at head
    rw [← head]
    rfl

theorem emitDigitBody_dot (fractional : Bool) (w : Slots) (run : List UInt8) :
    (run.foldl (emitDigitBody fractional) w).dot = w.dot := by
  induction run generalizing w with
  | nil => rfl
  | cons c run ih => exact ih (emitDigitBody fractional w c)

theorem mantissa_holds {s front : List UInt8} (memory : Window s) {whole : List Nat}
    {fraction : Option (List Nat)}
    (shape : s = front ++ (digitBytes whole ++ (pointText fraction ++ back)))
    (digits : ∀ d ∈ whole ++ fraction.getD [], d < 10)
    (few : significant (whole ++ fraction.getD []) ≤ 38) (room : (fraction.getD []).length ≤ 76)
    (ends : ∀ c, back.head? = some c → isDigit c = false ∧ (fraction = none → c ≠ 46)) :
    (emitMantissa memory front.length).1 =
        (front ++ (digitBytes whole ++ pointText fraction)).length ∧
      Holds (emitMantissa memory front.length).2 (whole ++ fraction.getD [])
        (fraction.getD []).length := by
  have whole_digits : ∀ d ∈ whole, d < 10 := fun d there => digits d (by simp [there])
  have first := memory.foldWhile_run shape (emitDigitBody false) (p := isDigit)
    (fun c there => digitBytes_isDigit whole_digits there)
    (pointText_head (fun c head => (ends c head).1)) ⟨0, 0, 0, false, false, false, false⟩
  have held : Holds ((digitBytes whole).foldl (emitDigitBody false)
      ⟨0, 0, 0, false, false, false, false⟩) whole 0 :=
    @holds_digits _ _ _ _ false holds_start whole_digits
      ((significant_le whole _).trans few) (by simp)
  have undotted := emitDigitBody_dot false ⟨0, 0, 0, false, false, false, false⟩ (digitBytes whole)
  obtain ⟨w, wholeW⟩ : ∃ w, w = (digitBytes whole).foldl (emitDigitBody false)
    ⟨0, 0, 0, false, false, false, false⟩ := ⟨_, rfl⟩
  rw [← wholeW] at first held undotted
  have shape' : s = (front ++ digitBytes whole) ++ (pointText fraction ++ back) := by
    rw [shape, List.append_assoc]
  have point := memory.ahead shape' (fun c => c = 46 ∧ w.dot = false)
  unfold emitMantissa
  simp only [first]
  cases fraction with
  | none =>
    have none_here : ¬ ((front ++ digitBytes whole).length < s.length ∧
        (memory.load ((front ++ digitBytes whole).length : Nat) = 46 ∧ w.dot = false)) := by
      rw [point]
      rintro ⟨c, head, here, -⟩
      exact (ends c head).2 rfl here
    rw [if_neg none_here]
    simpa [pointText] using held
  | some ds =>
    have here : (front ++ digitBytes whole).length < s.length ∧
        (memory.load ((front ++ digitBytes whole).length : Nat) = 46 ∧ w.dot = false) := by
      rw [point]
      exact ⟨46, rfl, rfl, undotted⟩
    rw [if_pos here]
    have behind : s = (front ++ digitBytes whole ++ [46]) ++ (digitBytes ds ++ back) := by
      rw [shape]
      simp [pointText]
    have second := memory.foldWhile_run behind (emitDigitBody true) (p := isDigit)
      (fun c there => digitBytes_isDigit (fun d there => digits d (by simp [there])) there)
      (fun c head => (ends c head).1) { w with dot := true }
    rw [List.length_append, List.length_singleton] at second
    rw [second]
    constructor
    · simp [pointText]
    · have dotted : Holds { w with dot := true } whole 0 := { held with }
      have fractions := @holds_digits _ _ _ _ true dotted digits few (by
        intro _
        simpa using room)
      simpa using fractions

theorem sign_ahead {s front : List UInt8} (memory : Window s) {sign : Sign}
    (shape : s = front ++ (sign.text ++ back))
    (stops : ∀ c, back.head? = some c → isSign c = false) :
    (front.length < s.length ∧ isSign (memory.load front.length) = true ↔ sign ≠ .none) ∧
      (front.length < s.length ∧ memory.load front.length = 45 ↔ sign = .minus) := by
  have signs := memory.ahead shape (fun c => isSign c = true)
  have minus := memory.ahead shape (fun c => c = 45)
  constructor
  · rw [signs]
    cases sign with
    | none =>
      refine ⟨?_, fun other => absurd rfl other⟩
      rintro ⟨c, head, here⟩
      rw [stops c head] at here
      cases here
    | plus => exact ⟨fun _ => by simp, fun _ => ⟨43, rfl, rfl⟩⟩
    | minus => exact ⟨fun _ => by simp, fun _ => ⟨45, rfl, rfl⟩⟩
  · rw [minus]
    cases sign with
    | none =>
      refine ⟨?_, fun other => by cases other⟩
      rintro ⟨c, head, rfl⟩
      exact absurd (stops 45 head) (by decide)
    | plus =>
      refine ⟨?_, fun other => by cases other⟩
      rintro ⟨c, head, rfl⟩
      simp [Sign.text] at head
    | minus => exact ⟨fun _ => rfl, fun _ => ⟨45, rfl, rfl⟩⟩

theorem sign_passed (front : List UInt8) (sign : Sign) :
    (if sign ≠ .none then front.length + 1 else front.length) = (front ++ sign.text).length := by
  cases sign <;> simp [Sign.text]

theorem digit_no_sign {d : Nat} (small : d < 10) : isSign (UInt8.ofNat (48 + d)) = false := by
  have cases : ∀ e : Fin 10, isSign (UInt8.ofNat (48 + e.val)) = false := by decide
  exact cases ⟨d, small⟩

theorem exponent_value {ds : List Nat} (digits : ∀ d ∈ ds, d < 10) {e : Nat} (capped : e ≤ 1000) :
    (digitBytes ds).foldl emitExponentDigit e = min 1000 (horner e ds) := by
  induction ds generalizing e with
  | nil => exact (min_eq_right capped).symm
  | cons d ds ih =>
    have small := digits d List.mem_cons_self
    have rest := fun e there => digits e (List.mem_cons_of_mem d there)
    have next : emitExponentDigit e (UInt8.ofNat (48 + d)) = min 1000 (e * 10 + d) := by
      unfold emitExponentDigit
      rw [digit_byte small]
      dsimp only
      split <;> omega
    rw [digitBytes, List.map_cons, List.foldl_cons, next]
    change (digitBytes ds).foldl emitExponentDigit _ = _
    rw [ih rest (min_le_left _ _), horner_cons]
    rcases Nat.le_total 1000 (e * 10 + d) with large | low
    · have grown := horner_le (e * 10 + d) ds
      have held := horner_le 1000 ds
      rw [min_eq_left large]
      omega
    · rw [min_eq_right low]

theorem exponent_holds (n : Numeral) (fit : n.Fit) {s front : List UInt8} (memory : Window s)
    {w : Slots} (shape : s = front ++ (n.exponentText ++ n.rest))
    (holds : Holds w (n.whole ++ n.fraction.getD []) (n.fraction.getD []).length) :
    emitExponent memory front.length w =
      (if n.exponent ≠ none ∧ n.mantissa = 0 then 0 else n.scale, false) := by
  have mark_ahead := memory.ahead shape (fun c => isExponent c = true)
  unfold emitExponent
  cases shown : n.exponent with
  | none =>
    have text : n.exponentText = [] := by simp [Numeral.exponentText, shown]
    have no_mark : ¬ (front.length < s.length ∧ isExponent (memory.load front.length) = true) := by
      rw [mark_ahead, text]
      rintro ⟨c, head, mark⟩
      rw [((n.ends c head).2 shown).1] at mark
      cases mark
    rw [if_neg no_mark, holds.frac, holds.overflow]
    simp [Numeral.scale, Numeral.power, shown]
  | some part =>
    obtain ⟨mark, sign, ds⟩ := part
    obtain ⟨is_mark, some_digit, digits⟩ := n.exponent_digits _ shown
    have text : n.exponentText = mark :: (sign.text ++ digitBytes ds) := by
      simp [Numeral.exponentText, shown]
    have here : front.length < s.length ∧ isExponent (memory.load front.length) = true := by
      rw [mark_ahead, text]
      exact ⟨mark, rfl, is_mark⟩
    rw [if_pos here]
    obtain ⟨d, ds', rfl⟩ := List.exists_cons_of_ne_nil some_digit
    have small : d < 10 := digits d List.mem_cons_self
    have signed : s = (front ++ [mark]) ++ (sign.text ++ (digitBytes (d :: ds') ++ n.rest)) := by
      rw [shape, text]
      simp
    have ahead := sign_ahead memory signed (by
      intro c head
      simp only [digitBytes, List.map_cons, List.cons_append, List.head?_cons,
        Option.some.injEq] at head
      rw [← head]
      exact digit_no_sign small)
    have place := sign_passed (front ++ [mark]) sign
    rw [List.length_append, List.length_singleton] at ahead place
    have negative : sign ≠ .none ∧ memory.load (front.length + 1 : Nat) = 45 ↔ sign = .minus := by
      constructor
      · exact fun both => ahead.2.mp ⟨(ahead.1.mpr both.1).1, both.2⟩
      · intro minus
        have some_sign : sign ≠ .none := by
          rw [minus]
          simp
        exact ⟨some_sign, (ahead.2.mpr minus).2⟩
    have first_shape : s = (front ++ [mark] ++ sign.text) ++ (digitBytes (d :: ds') ++ n.rest) := by
      rw [signed]
      simp
    have first := memory.ahead first_shape (fun c => c = UInt8.ofNat (48 + d))
    have first_here := first.mpr ⟨_, rfl, rfl⟩
    have first_digit : isDigit (UInt8.ofNat (48 + d)) = true :=
      @digitBytes_isDigit [d] (by simpa using small) _ (by simp [digitBytes])
    have rest_shape : s = (front ++ [mark] ++ sign.text ++ [UInt8.ofNat (48 + d)]) ++
        (digitBytes ds' ++ n.rest) := by
      rw [first_shape]
      simp [digitBytes]
    have run := memory.foldWhile_run rest_shape emitExponentDigit (p := isDigit)
      (fun c there =>
        digitBytes_isDigit (fun e there => digits e (List.mem_cons_of_mem d there)) there)
      (fun c head => (n.ends c head).1) d
    rw [List.length_append, List.length_singleton] at run
    have value := exponent_value (fun e there => digits e (List.mem_cons_of_mem d there))
      (show d ≤ 1000 by omega)
    simp only [ahead.1, negative, place, first_here, first_digit, and_self,
      if_true, digit_byte small,
      run, value, holds.all, holds.frac, holds.overflow]
    obtain ⟨m, mantissa⟩ : ∃ m, m = n.mantissa := ⟨_, rfl⟩
    obtain ⟨h, horner_h⟩ : ∃ h, h = horner d ds' := ⟨_, rfl⟩
    have due : n.scale = (n.fraction.getD []).length - sign.apply h := by
      rw [Numeral.scale, Numeral.power, shown, horner_h]
      change _ - sign.apply (horner (0 * 10 + d) ds') = _
      rw [Nat.zero_mul, Nat.zero_add]
    have scale := fit.2.2 (by simp [shown])
    have room := fit.2.1
    rw [← mantissa] at scale ⊢
    rw [show horner 0 (n.whole ++ n.fraction.getD []) = m from mantissa.symm, ← horner_h]
    by_cases zero : m = 0
    · simp [zero]
    · have small_scale := scale.resolve_left zero
      rw [due] at small_scale ⊢
      have shift : ((n.fraction.getD []).length : Int) +
          (if sign = .minus then ((min 1000 h : Nat) : Int) else -((min 1000 h : Nat) : Int)) =
            (n.fraction.getD []).length - sign.apply h := by
        unfold Sign.apply at small_scale ⊢
        split at small_scale
        · rw [if_pos ‹_›, if_pos ‹_›]
          omega
        · rw [if_neg ‹_›, if_neg ‹_›]
          omega
      have inside : -76 ≤ ((n.fraction.getD []).length : Int) - sign.apply h ∧
          ((n.fraction.getD []).length : Int) - sign.apply h ≤ 76 := by omega
      rw [shift]
      simp [zero, inside]

def Numeral.kept (n : Numeral) : Int := if n.exponent ≠ none ∧ n.mantissa = 0 then 0 else n.scale

theorem mantissa_bound (n : Numeral) (fit : n.Fit) : n.mantissa < 10 ^ 38 :=
  lt_of_lt_of_le (horner_significant n.digits) (Nat.pow_le_pow_right (by omega) fit.1)

theorem behind_sign (n : Numeral) :
    ∃ c, (digitBytes n.whole ++ (pointText n.fraction ++ (n.exponentText ++ n.rest))).head? =
      some c ∧
      isSign c = false ∧ isBlank c = false := by
  cases shown : n.whole with
  | cons d ds =>
    have small : d < 10 := n.digits d (by simp [shown])
    have no_blank : ∀ e : Fin 10, isBlank (UInt8.ofNat (48 + e.val)) = false := by decide
    exact ⟨_, rfl, digit_no_sign small, no_blank ⟨d, small⟩⟩
  | nil =>
    cases point : n.fraction with
    | none => exact absurd (by rw [shown, point]; rfl) n.some_digit
    | some ds => exact ⟨46, rfl, by decide, by decide⟩

theorem parse_numeral (n : Numeral) (fit : n.Fit) (memory : Window n.text) :
    emitFixedCharPartsLLVM memory = ⟨true, n.kept, n.sign.apply n.mantissa⟩ := by
  have whole : n.text = [] ++ (n.blanks ++ (n.sign.text ++ (digitBytes n.whole ++
      (pointText n.fraction ++ (n.exponentText ++ n.rest))))) := rfl
  obtain ⟨c, behind, no_sign, no_blank⟩ := behind_sign n
  have skipped := memory.foldWhile_run whole (fun _ _ => ()) (p := isBlank) n.blank (by
    intro x head
    cases sign : n.sign with
    | none =>
      rw [sign, Sign.text, List.nil_append, behind, Option.some.injEq] at head
      rw [← head]
      exact no_blank
    | plus =>
      rw [sign] at head
      cases head
      rfl
    | minus =>
      rw [sign] at head
      cases head
      rfl) ()
  have ahead := sign_ahead memory (show n.text = n.blanks ++ _ from rfl) (by
    intro x head
    rw [behind, Option.some.injEq] at head
    rw [← head]
    exact no_sign)
  have place := sign_passed n.blanks n.sign
  have shape : n.text = (n.blanks ++ n.sign.text) ++ (digitBytes n.whole ++
      (pointText n.fraction ++ (n.exponentText ++ n.rest))) := by
    rw [List.append_assoc]
    rfl
  have mantissa := mantissa_holds memory shape n.digits fit.1 fit.2.1 (by
    intro x head
    cases shown : n.exponent with
    | none =>
      rw [Numeral.exponentText, shown, List.nil_append] at head
      exact ⟨(n.ends x head).1, ((n.ends x head).2 shown).2⟩
    | some part =>
      obtain ⟨mark, sign, ds⟩ := part
      have is_mark := (n.exponent_digits _ shown).1
      rw [Numeral.exponentText, shown] at head
      cases head
      constructor
      · by_contra digit
        simp only [isExponent, Bool.or_eq_true, decide_eq_true_eq] at is_mark
        rcases is_mark with rfl | rfl
        · exact digit rfl
        · exact digit rfl
      · rintro - rfl
        cases is_mark)
  have tail : n.text = (n.blanks ++ n.sign.text ++ (digitBytes n.whole ++ pointText n.fraction)) ++
      (n.exponentText ++ n.rest) := by
    rw [shape]
    simp
  obtain ⟨w, slots⟩ : ∃ w, w = (emitMantissa memory (n.blanks ++ n.sign.text).length).2 := ⟨_, rfl⟩
  rw [← slots] at mantissa
  have exponent := exponent_holds n fit memory tail mantissa.2
  rw [← mantissa.1] at exponent
  have within : n.blanks.length < n.text.length := by
    have some_byte := List.length_pos_of_mem (List.mem_of_head? behind)
    rw [Numeral.text, List.length_append, List.length_append]
    omega
  have negative : memory.load n.blanks.length = 45 ↔ n.sign = .minus := by
    rw [← ahead.2]
    exact ⟨fun here => ⟨within, here⟩, fun both => both.2⟩
  unfold emitFixedCharPartsLLVM
  simp only [List.length_nil, List.nil_append] at skipped
  simp only [skipped, ahead.1, place, ← slots, exponent, negative]
  have bound := mantissa_bound n fit
  have all : w.all = n.mantissa := mantissa.2.all
  have saw : w.saw = true := by
    rw [mantissa.2.saw]
    exact decide_eq_true n.some_digit
  have fits : Fits 256 (0 - (n.mantissa : Int)) := by
    unfold Fits
    omega
  rw [saw, all, word_of_fits (by omega) fits, Sign.apply, zero_sub]
  rfl

theorem wide_room : 10 ^ 153 < 2 ^ (512 - 1) := by
  have halves : 2 ^ (512 - 1) = 2 ^ 256 * 2 ^ 255 := by rw [← pow_add]
  rw [halves]
  norm_num

theorem power_fits {k : Nat} (le : k ≤ 153) : Fits 512 ((10 ^ k : Nat) : Int) := by
  have room : ((10 ^ 153 : Nat) : Int) < 2 ^ (512 - 1) := by exact_mod_cast wide_room
  have small : 10 ^ k ≤ 10 ^ 153 := Nat.pow_le_pow_right (by omega) le
  have nonneg : 0 ≤ ((10 ^ k : Nat) : Int) := Int.natCast_nonneg _
  have below : ((10 ^ k : Nat) : Int) ≤ ((10 ^ 153 : Nat) : Int) := Int.ofNat_le.mpr small
  unfold Fits
  omega

theorem fits_less {m n : Nat} (fits : Fits 512 (n : Int)) (le : m ≤ n) : Fits 512 (m : Int) := by
  unfold Fits at *
  omega

theorem fits_opposite {m : Nat} (fits : Fits 512 (m : Int)) : Fits 512 (-(m : Int)) := by
  unfold Fits at *
  omega

theorem word_kept {n : Int} (fits : Fits 512 n) : word 512 n = n := word_of_fits (by omega) fits

theorem unsigned_nat {m : Nat} (fits : Fits 512 (m : Int)) : (m : Int) % 2 ^ 512 = m := by
  have double : (2 : Int) ^ 512 = 2 ^ (512 - 1) * 2 := by rw [← pow_succ]
  unfold Fits at fits
  exact Int.emod_eq_of_lt (by omega) (by omega)

theorem powLoop_eq (k : Nat) : powLoop k = word 512 ((10 ^ k : Nat) : Int) := by
  induction k with
  | zero => exact (word_kept (power_fits (show 0 ≤ 153 by omega))).symm
  | succ k ih =>
    rw [powLoop, ih, PliFixedText.word_mul_word, pow_succ]
    push_cast
    rfl

variable {dst : Ty}

def dividend (dst : Ty) (frac all : Int) : Nat :=
  all.natAbs * 10 ^ (-frac).toNat * base dst ^ dst.scale.toNat

def divisor (frac : Int) : Nat := 10 ^ frac.toNat

theorem dividend_scaled (dst : Ty) (frac all : Int) :
    all.natAbs * 10 ^ (-frac).toNat ≤ dividend dst frac all :=
  Nat.le_mul_of_pos_right _ (Nat.pow_pos (base_pos dst))

theorem divisor_pos (frac : Int) : 0 < divisor frac := Nat.pow_pos (by omega)

theorem divisor_small {frac : Int} (near : frac.natAbs ≤ 76) : divisor frac ≤ 10 ^ 76 :=
  Nat.pow_le_pow_right (by omega) (by omega)

def quotient (dst : Ty) (frac all : Int) : Nat :=
  let n := dividend dst frac all
  let d := divisor frac
  n / d + if dst.k = .fixedDec ∧ d ≤ n % d * 2 then 1 else 0

def signedQuotient (dst : Ty) (frac all : Int) : Int :=
  if all < 0 then -(quotient dst frac all : Int) else quotient dst frac all

theorem quotient_le (dst : Ty) (frac all : Int) :
    quotient dst frac all ≤ dividend dst frac all := by
  have split := Nat.div_add_mod (dividend dst frac all) (divisor frac)
  have some_divisor := divisor_pos frac
  unfold quotient
  dsimp only
  obtain ⟨q, floor⟩ : ∃ q, q = dividend dst frac all / divisor frac := ⟨_, rfl⟩
  rw [← floor] at split ⊢
  have times : q ≤ divisor frac * q := Nat.le_mul_of_pos_left q some_divisor
  split
  · omega
  · omega

theorem rescale_eq (declared : Declared dst) {frac all : Int} (near : frac.natAbs ≤ 76)
    (room : Fits 512 (dividend dst frac all : Int)) :
    rescaleChar dst frac all =
      if dst.k = .fixedDec then
        ⟨fitFixed dst (signedQuotient dst frac all),
          wideMagTrap 512 (signedQuotient dst frac all) dst.prec⟩
      else checkBin 512 dst (signedQuotient dst frac all) := by
  have small_divisor := divisor_small near
  have scaled_fits := fits_less room (dividend_scaled dst frac all)
  have ten_fits : ∀ m : Nat, m ≤ 10 ^ 153 → Fits 512 (m : Int) := fun m le =>
    fits_less (power_fits le_rfl) le
  have digits_fit : Fits 512 (all.natAbs : Int) :=
    fits_less scaled_fits (Nat.le_mul_of_pos_right _ (by positivity))
  have mag : (if all < 0 then word 512 (0 - all) else all) = (all.natAbs : Int) := by
    split
    · rw [show 0 - all = (all.natAbs : Int) by omega, word_kept digits_fit]
    · omega
  have loop : powLoop frac.natAbs = ((10 ^ frac.natAbs : Nat) : Int) := by
    rw [powLoop_eq, word_kept (power_fits (by omega))]
  have div10 : (if frac < 0 then 1 else powLoop frac.natAbs) = ((divisor frac : Nat) : Int) := by
    unfold divisor
    split
    · rw [show frac.toNat = 0 by omega]
      rfl
    · rw [loop, show frac.toNat = frac.natAbs by omega]
  have magScaled : (if frac < 0 then word 512 ((all.natAbs : Int) * powLoop frac.natAbs)
      else (all.natAbs : Int)) = ((all.natAbs * 10 ^ (-frac).toNat : Nat) : Int) := by
    split
    · rw [loop, ← Nat.cast_mul, show frac.natAbs = (-frac).toNat by omega, word_kept scaled_fits]
    · rw [show (-frac).toNat = 0 by omega, pow_zero, Nat.mul_one]
  have product : word 512 (((all.natAbs * 10 ^ (-frac).toNat : Nat) : Int) *
      intPowConst 512 (base dst) dst.scale) = dividend dst frac all := by
    rw [intPowConst, FixedPoint.word_mul_word le_rfl, ← Nat.cast_pow, ← Nat.cast_mul]
    exact word_kept room
  have quotient_fits := fits_less room (quotient_le dst frac all)
  unfold rescaleChar signedQuotient
  unfold quotient at quotient_fits ⊢
  simp only [mag, div10, magScaled]
  obtain ⟨n, dividend_n⟩ : ∃ n, n = dividend dst frac all := ⟨_, rfl⟩
  obtain ⟨d, divisor_d⟩ : ∃ d, d = divisor frac := ⟨_, rfl⟩
  have some_divisor := divisor_pos frac
  rw [← dividend_n] at room product quotient_fits ⊢
  rw [← divisor_d] at small_divisor some_divisor quotient_fits ⊢
  have floor : word 512 ((n : Int).tdiv d) = ((n / d : Nat) : Int) := by
    rw [← Int.ofNat_tdiv, word_kept (fits_less room (Nat.div_le_self n d))]
  have signs : ∀ m : Nat, Fits 512 (m : Int) →
      (if all < 0 then word 512 (0 - (m : Int)) else (m : Int)) =
        if all < 0 then -(m : Int) else m := by
    intro m fits
    rw [zero_sub, word_kept (fits_opposite fits)]
  rcases declared.1 with binary | decimal
  · rw [base_binary binary, Nat.cast_ofNat] at product
    have other : ¬ dst.k = .fixedDec := by simp [binary]
    simp only [other, false_and, if_false, Nat.add_zero] at quotient_fits ⊢
    simp only [product, floor]
    rw [signs _ quotient_fits]
  · rw [base_decimal decimal, Nat.cast_ofNat] at product
    have below : n % d < d := Nat.mod_lt n some_divisor
    have left : word 512 ((n : Int).tmod d) = ((n % d : Nat) : Int) := by
      rw [← Int.ofNat_tmod, word_kept (ten_fits _ (by omega))]
    have twice : word 512 (((n % d : Nat) : Int) * 2) = ((n % d * 2 : Nat) : Int) := by
      rw [← word_kept (ten_fits (n % d * 2) (by omega))]
      push_cast
      rfl
    have round : (d : Int) % 2 ^ 512 ≤ ((n % d * 2 : Nat) : Int) % 2 ^ 512 ↔ d ≤ n % d * 2 := by
      rw [unsigned_nat (ten_fits _ (by omega)), unsigned_nat (ten_fits _ (by omega))]
      omega
    simp only [decimal, true_and] at quotient_fits ⊢
    have up : word 512 (((n / d : Nat) : Int) + if d ≤ n % d * 2 then 1 else 0) =
        ((n / d + if d ≤ n % d * 2 then 1 else 0 : Nat) : Int) := by
      rw [← word_kept quotient_fits]
      push_cast
      rfl
    simp only [if_true, product, floor, left, twice, round, up]
    rw [signs _ quotient_fits]

def parsedType (frac : Int) : Ty := Ty.fixedDec 38 frac

theorem quotient_due (declared : Declared dst) (nonneg : 0 ≤ dst.scale) (frac all : Int) :
    required dst (value (parsedType frac) all) = signedQuotient dst frac all := by
  obtain ⟨n, numerator⟩ :
      ∃ n : Int, n = all * (10 ^ (-frac).toNat * base dst ^ dst.scale.toNat : Nat) := ⟨_, rfl⟩
  have factor : 0 < 10 ^ (-frac).toNat * base dst ^ dst.scale.toNat :=
    Nat.mul_pos (Nat.pow_pos (by omega)) (Nat.pow_pos (base_pos dst))
  have size : n.natAbs = dividend dst frac all := by
    rw [numerator, mul_natAbs, dividend, Nat.mul_assoc]
  have sign : n < 0 ↔ all < 0 := by
    have positive : (0 : Int) < (10 ^ (-frac).toNat * base dst ^ dst.scale.toNat : Nat) := by
      exact_mod_cast factor
    rw [numerator]
    constructor
    · intro negative
      by_contra nonneg
      exact absurd (Int.mul_nonneg (by omega : 0 ≤ all) positive.le) (by omega)
    · exact fun negative => Int.mul_neg_of_neg_of_pos negative positive
  have scaled : value (parsedType frac) all * (base dst : ℚ) ^ dst.scale =
      (n : ℚ) / divisor frac := by
    have none : (-dst.scale).toNat = 0 := by omega
    have ten : base (parsedType frac) = 10 := rfl
    rw [scaled_fraction, none, pow_zero, Nat.mul_one, ten, numerator, divisor]
    congr 2
    push_cast
    change all * 10 ^ (-frac).toNat * _ = _
    ring
  unfold signedQuotient quotient
  simp only [← size]
  rcases declared.1 with binary | decimal
  · have other : ¬ dst.k = .fixedDec := by simp [binary]
    rw [required_truncated (Or.inl binary) (divisor_pos frac) scaled]
    simp only [other, false_and, if_false, Nat.add_zero]
    split
    · exact tdiv_of_neg_natAbs (sign.mpr ‹_›) _
    · exact tdiv_of_nonneg_natAbs (by omega) _
  · simp only [decimal, true_and]
    rcases Int.lt_or_le 0 frac with some_fraction | none
    · obtain ⟨h, half⟩ : ∃ h, h = 5 * 10 ^ (frac.toNat - 1) := ⟨_, rfl⟩
      have twice : 2 * h = divisor frac := by
        rw [half, divisor, show frac.toNat = frac.toNat - 1 + 1 by omega, pow_succ,
          Nat.add_sub_cancel]
        ring
      have whole_twice : 2 * (h : Int) = divisor frac := by exact_mod_cast twice
      rw [required_rounded decimal nonneg (divisor_pos frac) whole_twice scaled]
      have rounded : (n.natAbs + h) / divisor frac =
          n.natAbs / divisor frac + if divisor frac ≤ n.natAbs % divisor frac * 2 then 1 else 0 :=
        add_half_div (divisor_pos frac) twice
      rw [← rounded]
      split
      · exact towardSign_tdiv_of_neg (sign.mpr ‹_›) h _
      · exact towardSign_tdiv_of_nonneg (by omega) h _
    · have one : divisor frac = 1 := by
        rw [divisor, show frac.toNat = 0 by omega, pow_zero]
      rw [one, Nat.cast_one, div_one] at scaled
      rw [required_whole scaled, one]
      simp only [Nat.div_one, Nat.mod_one, Nat.zero_mul, Nat.le_zero_eq, one_ne_zero, if_false,
        Nat.add_zero]
      split <;> omega

theorem wideMagTrap_wide (decimal : dst.k = .fixedDec) (prec : dst.prec ≤ 153) (r : Int) :
    wideMagTrap 512 r dst.prec = true ↔ ¬ InRange dst r := by
  have power := power_fits (show dst.prec.toNat ≤ 153 by omega)
  have limit := word_kept power
  have opposite := word_kept (fits_opposite power)
  push_cast at limit opposite
  unfold wideMagTrap
  dsimp only
  rw [limit, opposite, InRange, if_neg (by simp [decimal])]
  simp only [Bool.or_eq_true, decide_eq_true_eq]
  omega

theorem rescale_checks (declared : Declared dst) (prec : dst.k = .fixedDec → dst.prec ≤ 153)
    {frac all : Int} (near : frac.natAbs ≤ 76) (room : Fits 512 (dividend dst frac all : Int)) :
    Checks (rescaleChar dst frac all) dst (signedQuotient dst frac all) := by
  rw [rescale_eq declared near room]
  rcases declared.1 with binary | decimal
  · have quotient_fits := fits_less room (quotient_le dst frac all)
    have fits : Fits 512 (signedQuotient dst frac all) := by
      unfold signedQuotient
      split
      · exact fits_opposite quotient_fits
      · exact quotient_fits
    rw [if_neg (by simp [binary])]
    exact checkBin_checks binary declared.2.1 fits
  · rw [if_pos decimal]
    exact ⟨wideMagTrap_wide decimal (prec decimal) _, fun _ => rfl⟩

theorem rescale_exact (declared : Declared dst) (nonneg : 0 ≤ dst.scale)
    (prec : dst.k = .fixedDec → dst.prec ≤ 153) {frac all : Int} (near : frac.natAbs ≤ 76)
    (room : Fits 512 (dividend dst frac all : Int))
    (slot : SlotHolds dst (required dst (value (parsedType frac) all))) :
    ExactAt dst (required dst (value (parsedType frac) all)) (rescaleChar dst frac all) := by
  rw [quotient_due declared nonneg] at slot ⊢
  exact (checks_exact_iff (rescale_checks declared prec near room) slot fun _ => slot).mpr
    (Or.inl rfl)

/-- What the rescale asks for: the digits at the target's scale fit 512 bits, the target's
    power of ten too, and its word holds the number if that is in the declared range. -/
structure Scaled (dst : Ty) (n : Numeral) : Prop where
  nonneg : 0 ≤ dst.scale
  digits : Fits 512 (n.mantissa * 10 ^ (-n.scale).toNat * base dst ^ dst.scale.toNat : Nat)
  prec : dst.k = .fixedDec → dst.prec ≤ 153
  slot : SlotHolds dst (required dst n.number)

theorem kept_near (n : Numeral) (fit : n.Fit) : n.kept.natAbs ≤ 76 := by
  unfold Numeral.kept
  split
  · omega
  · rename_i other
    by_cases shown : n.exponent = none
    · have room := fit.2.1
      have none : n.power = 0 := by simp [Numeral.power, shown]
      rw [Numeral.scale, none]
      omega
    · exact (fit.2.2 shown).resolve_left (fun zero => other ⟨shown, zero⟩)

theorem number_parsed (n : Numeral) :
    n.number = value (parsedType n.kept) (n.sign.apply n.mantissa) := by
  have ten : (base (parsedType n.kept) : ℚ) = 10 := rfl
  rw [Numeral.number, PliFixedConvert.value, ten]
  change _ = _ * (10 : ℚ) ^ (-n.kept)
  unfold Numeral.kept
  split
  · rename_i zero
    rw [zero.2]
    simp [Sign.apply]
  · rfl

theorem sign_size (sign : Sign) (m : Nat) : (sign.apply m).natAbs = m := by
  unfold Sign.apply
  split <;> omega

theorem emitCharParts_eq (runtime : Bool) {s : List UInt8} (memory : Window s) :
    emitCharParts runtime memory = some (emitFixedCharPartsLLVM memory) := by
  unfold emitCharParts
  cases runtime with
  | false => rfl
  | true =>
    obtain ⟨out, parsed, ok, frac, all⟩ := parts_same memory
    have joined : word 128 (out.out.lo.toNat + out.out.hi.toUInt64.toNat * 2 ^ 64) =
        out.out.toInt := by
      have range := toInt_range out.out
      have high := hi_toUInt64 out.out.hi
      have fits : Fits 128 out.out.toInt := range
      rw [← word_of_fits (by omega) fits, word_eq_iff, Int.modEq_iff_dvd, high, PliI128.toInt]
      split
      · exact ⟨-1, by ring⟩
      · exact ⟨0, by ring⟩
    rw [if_pos rfl, parsed, Option.map_some, joined, ok, frac, all]

theorem dividend_fits (n : Numeral) (scaled : Scaled dst n) :
    Fits 512 (dividend dst n.kept (n.sign.apply n.mantissa) : Int) := by
  have same : dividend dst n.kept (n.sign.apply n.mantissa) =
      n.mantissa * 10 ^ (-n.scale).toNat * base dst ^ dst.scale.toNat := by
    rw [dividend, sign_size]
    unfold Numeral.kept
    split
    · rename_i zero
      simp [zero.2]
    · rfl
  rw [same]
  exact scaled.digits

theorem fixedFromChar_stores (n : Numeral) (fit : n.Fit) (runtime convChecks : Bool)
    (memory : Window n.text) {dst : Ty} (declared : Declared dst) (scaled : Scaled dst n) :
    ∃ c, emitFixedFromChar runtime convChecks memory dst = some (false, c) ∧
      ExactAt dst (required dst n.number) c := by
  have slot := scaled.slot
  have room := dividend_fits n scaled
  rw [number_parsed] at slot ⊢
  have exact_at := rescale_exact declared scaled.nonneg scaled.prec (kept_near n fit) room slot
  refine ⟨rescaleChar dst n.kept (n.sign.apply n.mantissa), ?_, exact_at⟩
  rw [emitFixedFromChar, emitCharParts_eq, parse_numeral n fit]
  simp

theorem convert_same {src : Ty} {raw : Int} {c : Converted} (conversion : Exact src dst raw)
    (inside : InRange dst (required dst (value src raw)))
    (exact_at : ExactAt dst (required dst (value src raw)) c) : convert src dst raw = some c := by
  obtain ⟨out, done, due⟩ := conversion
  have quiet : out.size = c.size := by
    rw [Bool.eq_iff_iff, due.1, exact_at.1]
  have same : out = c := by
    cases out
    cases c
    simp only [Converted.mk.injEq]
    exact ⟨(due.2 inside).trans (exact_at.2 inside).symm, quiet⟩
  rw [done, same]

/-- The two parsers agree on every string; a number whose digits fit is stored as a
    conversion to the type stores it, and raises SIZE when it is out of its range. -/
theorem char_conversion :
    (∀ (s : List UInt8) (memory : Window s), ∃ out, pliFixedCharParts s = some out ∧
      out.ok = (emitFixedCharPartsLLVM memory).ok ∧
      out.frac = (emitFixedCharPartsLLVM memory).frac ∧
      out.out.toInt = (emitFixedCharPartsLLVM memory).all) ∧
    ∀ (n : Numeral), n.Fit → ∀ (runtime convChecks : Bool) (memory : Window n.text) (dst : Ty),
      Declared dst → Scaled dst n →
      ∃ c, emitFixedFromChar runtime convChecks memory dst = some (false, c) ∧
        ExactAt dst (required dst n.number) c ∧
        ∀ (src : Ty) (raw : Int), value src raw = n.number → Exact src dst raw →
          InRange dst (required dst n.number) → convert src dst raw = some c := by
  refine ⟨fun s memory => parts_same memory, ?_⟩
  intro n fit runtime convChecks memory dst declared scaled
  obtain ⟨c, done, exact_at⟩ := fixedFromChar_stores n fit runtime convChecks memory declared scaled
  refine ⟨c, done, exact_at, ?_⟩
  intro src raw same conversion inside
  rw [← same] at inside exact_at
  exact convert_same conversion inside exact_at

def zeroWindow (s : List UInt8) : Window s where
  load i := s.getD i.toNat 0
  inside i within := by simp [within]

/-- ` -12.345E1`. -/
def sample : Numeral where
  blanks := [32]
  sign := .minus
  whole := [1, 2]
  fraction := some [3, 4, 5]
  exponent := some (69, .none, [1])
  rest := []
  blank := by decide +kernel
  digits := by decide +kernel
  some_digit := by decide
  exponent_digits := by
    rintro part ⟨⟩
    decide
  ends := by simp

/-- -123.45 becomes -123.5, as the conversion of -12345 from DECIMAL(5,2) makes it. -/
theorem sample_stored :
    ∃ c, emitFixedFromChar true true (zeroWindow sample.text) (.fixedDec 7 1) = some (false, c) ∧
      ExactAt (.fixedDec 7 1) (-1235) c ∧
      convert (.fixedDec 5 2) (.fixedDec 7 1) (-12345) = some c := by
  have fit : sample.Fit := by decide
  have number : sample.number = PliFixedConvert.value (.fixedDec 5 2) (-12345) := by decide +kernel
  have due : required (.fixedDec 7 1) sample.number = -1235 := by decide +kernel
  have scaled : Scaled (.fixedDec 7 1) sample := by
    refine ⟨by decide, by decide +kernel, by decide, ?_⟩
    rw [due]
    decide
  obtain ⟨c, done, exact_at, same⟩ :=
    char_conversion.2 sample fit true true (zeroWindow sample.text)
    (.fixedDec 7 1) (by decide) scaled
  rw [due] at exact_at same
  have conversion : Exact (.fixedDec 5 2) (.fixedDec 7 1) (-12345) := by
    refine ⟨⟨-1235, false⟩, by decide +kernel, ?_⟩
    rw [← number, due]
    exact ⟨by decide, by decide⟩
  exact ⟨c, done, exact_at, same (.fixedDec 5 2) (-12345) number.symm conversion (by decide)⟩

/-- `12345E-25`, which is 12345 in DECIMAL(5,25). -/
def tiny : Numeral where
  blanks := []
  sign := .none
  whole := [1, 2, 3, 4, 5]
  fraction := none
  exponent := some (69, .minus, [2, 5])
  rest := []
  blank := by simp
  digits := by decide +kernel
  some_digit := by decide
  exponent_digits := by
    rintro part ⟨⟩
    decide
  ends := by simp

/-- Where the conversion's constant wraps, the two differ: the character value gives 0. -/
theorem tiny_differs :
    tiny.Fit ∧ Declared (.fixedDec 5 0) ∧ Declared (.fixedDec 5 25) ∧
      Stored (.fixedDec 5 25) 12345 ∧ PliFixedConvert.value (.fixedDec 5 25) 12345 = tiny.number ∧
      emitFixedFromChar false true (zeroWindow tiny.text) (.fixedDec 5 0) =
        some (false, ⟨0, false⟩) ∧
      convert (.fixedDec 5 25) (.fixedDec 5 0) 12345 = some ⟨-5, false⟩ := by
  refine ⟨by decide, by decide, by decide, by decide, ?_, ?_, ?_⟩
  · decide +kernel
  · decide +kernel
  · decide +kernel

end PliFixedFromChar
