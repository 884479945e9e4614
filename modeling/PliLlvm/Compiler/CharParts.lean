import PliLlvm.Runtime.Strings
import PliLlvm.Lib.CheckedCells
import PliLlvm.Runtime.Wide128
import PliLlvm.Compiler.FixedText

/- The parse of a character value as a number: the scanner of the runtime
   (runtime/rt_stream.c, pli_fixed_char_parts) and the blocks emitted for it
   (src/irgen.cpp, emitFixedCharPartsLLVM). A block loads a byte before it knows that one is
   left, and memory behind the string holds anything. At most 38 digits are accumulated and
   76 counted as a fraction, so the 32-bit counts never wrap. -/
namespace PliCharParts
open CheckedCells FixedPoint PliStrings PliWide128 PliFixedText

def isBlank (c : UInt8) : Bool := c = 32 || c = 9

def isSign (c : UInt8) : Bool := c = 43 || c = 45

def isExponent (c : UInt8) : Bool := c = 101 || c = 69

structure Scanned where
  all : PliU128
  digits : Nat
  f : Nat
  saw : Bool
  seenNonzero : Bool
  dot : Bool
  overflow : Bool

structure CharParts where
  ok : Bool
  frac : Int
  out : PliI128

def skipLoop (s : List UInt8) : Option (Nat × Unit) :=
  foldWhile s isBlank (fun _ _ => ()) 0 ()

def optSign (s : List UInt8) (i : Nat) : Option (Bool × Nat) :=
  if i < s.length then
    (loadByte s i).map fun c => if isSign c then (decide (c = 45), i + 1) else (false, i)
  else some (false, i)

def takeDigit (v : Scanned) (c : UInt8) : Scanned :=
  let d := digitOf c
  let sig := v.seenNonzero || decide (d ≠ 0)
  let cap := sig && decide (38 ≤ v.digits) || v.dot && decide (76 ≤ v.f)
  let overflow := v.overflow || cap
  { v with
    all := if !overflow && sig then pliAddU (pliMulU v.all (pliU128 10 0))
      (pliU128 (UInt64.ofNat d) 0)
      else v.all
    digits := if !overflow && sig then v.digits + 1 else v.digits
    f := if v.dot && !overflow && decide (v.f < 76) then v.f + 1 else v.f
    saw := true
    seenNonzero := sig
    overflow := overflow }

def digitLoop (s : List UInt8) (i : Nat) (v : Scanned) : Option (Nat × Scanned) :=
  if i < s.length then
    (loadByte s i).bind fun c =>
      if isDigit c then digitLoop s (i + 1) (takeDigit v c)
      else if c = 46 ∧ !v.dot then digitLoop s (i + 1) { v with dot := true }
      else some (i, v)
  else some (i, v)
termination_by s.length - i

def exponentDigit (e : Nat × Nat) (c : UInt8) : Nat × Nat :=
  let next := if e.1 ≤ 1000 then e.1 * 10 + digitOf c else e.1
  (if 1000 < next then 1000 else next, e.2 + 1)

def exponentPart (s : List UInt8) (i : Nat) (v : Scanned) : Option (Int × Bool) :=
  if i < s.length then
    (loadByte s i).bind fun c =>
      if isExponent c then
        (optSign s (i + 1)).bind fun (eneg, i) =>
          (foldWhile s isDigit exponentDigit i (0, 0)).map fun (_, e, edigits) =>
            if edigits = 0 then (v.f, true)
            else
              let eff : Int := if eneg then v.f + e else v.f - e
              let isZero := pliCmpU v.all (pliU128 0 0) = 0
              if isZero then (0, v.overflow)
              else if 76 < eff ∨ eff < -76 then (v.f, true)
              else (eff, v.overflow)
      else some (v.f, v.overflow)
  else some (v.f, v.overflow)

def pliFixedCharParts (s : List UInt8) : Option CharParts :=
  (skipLoop s).bind fun (i, _) =>
    (optSign s i).bind fun (neg, i) =>
      (digitLoop s i ⟨pliU128 0 0, 0, 0, false, false, false, false⟩).bind fun (i, v) =>
        (exponentPart s i v).map fun (f, overflow) =>
          let w := pliToS v.all
          ⟨v.saw && !overflow, f, if neg then pliNegS w else w⟩

structure Slots where
  all : Int
  digits : Nat
  frac : Nat
  saw : Bool
  seen : Bool
  dot : Bool
  overflow : Bool

structure Parts where
  ok : Bool
  frac : Int
  all : Int

def emitDigitBody (fractional : Bool) (v : Slots) (c : UInt8) : Slots :=
  let dig := (c - 48).toNat
  let sig := v.seen || decide (dig ≠ 0)
  let capDigits := sig && decide (38 ≤ v.digits)
  let capFrac := fractional && decide (76 ≤ v.frac)
  let cap := capDigits || capFrac
  let canAcc := !v.overflow && !cap
  let nv := word 256 (word 256 (v.all * 10) + dig)
  let newOverflow := v.overflow || cap
  { v with
    all := if canAcc then nv else v.all
    digits := if canAcc && sig then v.digits + 1 else v.digits
    frac := if fractional && !newOverflow then v.frac + 1 else v.frac
    saw := true
    seen := v.seen || sig
    overflow := newOverflow }

section
variable {s : List UInt8}

/-- The blocks fxc.int to fxc.frac_body. -/
def emitMantissa (memory : Window s) (i : Nat) : Nat × Slots :=
  let (i, v) := memory.foldWhile isDigit (emitDigitBody false) i ⟨0, 0, 0, false,
    false, false, false⟩
  let c := memory.load i
  if i < s.length ∧ (c = 46 ∧ v.dot = false) then
    memory.foldWhile isDigit (emitDigitBody true) (i + 1) { v with dot := true }
  else (i, v)

/-- The block fxc.exp_body_body; an exponent past the scales saturates. -/
def emitExponentDigit (e : Nat) (c : UInt8) : Nat :=
  let next := e * 10 + (c - 48).toNat
  if 1000 < next then 1000 else next

/-- The blocks fxc.check_exp to fxc.exp_fail: the fraction count and the overflow flag. -/
def emitExponent (memory : Window s) (i : Nat) (v : Slots) : Int × Bool :=
  let mark := memory.load i
  if i < s.length ∧ isExponent mark then
    let i := i + 1
    let sign := memory.load i
    let hasSign := i < s.length ∧ isSign sign
    let expNeg := hasSign ∧ sign = 45
    let i := if hasSign then i + 1 else i
    let first := memory.load i
    if i < s.length ∧ isDigit first then
      let (_, e) := memory.foldWhile isDigit emitExponentDigit (i + 1) (first - 48).toNat
      let eff : Int := v.frac + if expNeg then (e : Int) else -e
      let zeroMag := v.all = 0
      let inRange := (-76 ≤ eff ∧ eff ≤ 76) ∨ zeroMag
      (if zeroMag then 0 else if inRange then eff else v.frac, v.overflow || !decide inRange)
    else (v.frac, true)
  else (v.frac, v.overflow)

def emitFixedCharPartsLLVM (memory : Window s) : Parts :=
  let (i, _) := memory.foldWhile isBlank (fun _ _ => ()) 0 ()
  let c := memory.load i
  let hasSign := i < s.length ∧ isSign c
  let isNeg := c = 45
  let (i, v) := emitMantissa memory (if hasSign then i + 1 else i)
  let (frac, overflow) := emitExponent memory i v
  ⟨v.saw && !overflow, frac, if isNeg then word 256 (0 - v.all) else v.all⟩

end

variable {c : UInt8}

theorem digit_small (digit : isDigit c = true) : digitOf c < 10 := by
  simp only [isDigit, Bool.and_eq_true, decide_eq_true_eq, UInt8.le_iff_toNat_le] at digit
  have low := digit.1
  have high := digit.2
  simp only [UInt8.reduceToNat] at low high
  unfold digitOf
  omega

theorem digit_sub (digit : isDigit c = true) : (c - 48).toNat = digitOf c := by
  simp only [isDigit, Bool.and_eq_true, decide_eq_true_eq] at digit
  exact UInt8.toNat_sub_of_le c 48 digit.1

theorem next_toNat {all : PliU128} {d digits : Nat} (digit : d < 10)
    (small : all.toNat < 10 ^ digits) (few : digits < 38) :
    (pliAddU (pliMulU all (pliU128 10 0)) (pliU128 (UInt64.ofNat d) 0)).toNat =
      all.toNat * 10 + d := by
  have power : 10 ^ digits ≤ 10 ^ 37 := Nat.pow_le_pow_right (by omega) (by omega)
  have ten : (pliU128 10 0).toNat = 10 := rfl
  have single : (pliU128 (UInt64.ofNat d) 0).toNat = d := by
    simp only [pliU128, PliU128.toNat, UInt64.toNat_ofNat']
    have zero : (0 : UInt64).toNat = 0 := rfl
    omega
  rw [add_toNat, mul_toNat, ten, single]
  omega

theorem next_word {all d digits : Nat} (digit : d < 10) (small : all < 10 ^ digits)
    (few : digits < 38) : word 256 (word 256 ((all : Int) * 10) + d) =
    ((all * 10 + d : Nat) : Int) := by
  have power : 10 ^ digits ≤ 10 ^ 37 := Nat.pow_le_pow_right (by omega) (by omega)
  have fits : ∀ n : Nat, n < 10 ^ 39 → Fits 256 (n : Int) := by
    intro n less
    unfold Fits
    omega
  rw [show ((all : Int) * 10) = ((all * 10 : Nat) : Int) by push_cast; rfl,
    word_of_fits (by omega) (fits _ (by omega)),
    show (((all * 10 : Nat) : Int) + d) = ((all * 10 + d : Nat) : Int) by push_cast; rfl,
    word_of_fits (by omega) (fits _ (by omega))]

structure Same (v : Scanned) (w : Slots) : Prop where
  all : w.all = v.all.toNat
  digits : w.digits = v.digits
  frac : w.frac = v.f
  saw : w.saw = v.saw
  seen : w.seen = v.seenNonzero
  dot : w.dot = v.dot
  overflow : w.overflow = v.overflow
  small : v.all.toNat < 10 ^ v.digits
  few : v.digits ≤ 38
  unseen : v.seenNonzero = false → v.all.toNat = 0

theorem takeDigit_dot (v : Scanned) (c : UInt8) : (takeDigit v c).dot = v.dot := rfl

theorem digit_same {v : Scanned} {w : Slots} (same : Same v w)
    (digit : isDigit c = true) : Same (takeDigit v c) (emitDigitBody v.dot w c) := by
  obtain ⟨all, digits, frac, saw, seen, dot, overflow, small, few, unseen⟩ := same
  have less := digit_small digit
  obtain ⟨d, found⟩ : ∃ d, d = digitOf c := ⟨_, rfl⟩
  have sub : (c - 48).toNat = d := by rw [digit_sub digit, found]
  rw [← found] at less
  obtain ⟨sig, counts⟩ : ∃ sig, sig = (v.seenNonzero || decide (d ≠ 0)) := ⟨_, rfl⟩
  obtain ⟨cap, capped⟩ :
      ∃ cap, cap = (sig && decide (38 ≤ v.digits) || v.dot && decide (76 ≤ v.f)) := ⟨_, rfl⟩
  have taken : takeDigit v c =
      { v with
        all := if !(v.overflow || cap) && sig then
            pliAddU (pliMulU v.all (pliU128 10 0)) (pliU128 (UInt64.ofNat d) 0)
          else v.all
        digits := if !(v.overflow || cap) && sig then v.digits + 1 else v.digits
        f := if v.dot && !(v.overflow || cap) && decide (v.f < 76) then v.f + 1 else v.f
        saw := true
        seenNonzero := sig
        overflow := v.overflow || cap } := by
    rw [capped, counts, found]
    rfl
  have stored : emitDigitBody v.dot w c =
      { w with
        all := if !v.overflow && !cap then word 256 (word 256 (w.all * 10) + d) else w.all
        digits := if (!v.overflow && !cap) && sig then v.digits + 1 else v.digits
        frac := if v.dot && !(v.overflow || cap) then v.f + 1 else v.f
        saw := true
        seen := v.seenNonzero || sig
        overflow := v.overflow || cap } := by
    rw [capped, counts]
    unfold emitDigitBody
    rw [sub, digits, frac, seen, overflow]
  have seen_all : (v.seenNonzero || sig) = sig := by
    rw [counts]
    cases v.seenNonzero <;> rfl
  have unseen_digit : sig = false → v.all.toNat = 0 ∧ d = 0 := by
    intro unsig
    rw [counts] at unsig
    simp only [Bool.or_eq_false_iff, decide_eq_false_iff_not, not_not] at unsig
    exact ⟨unseen unsig.1, unsig.2⟩
  rw [taken, stored]
  by_cases stuck : (v.overflow || cap) = true
  · have full : (!v.overflow && !cap) = false := by
      rw [← Bool.not_or, stuck]
      rfl
    constructor <;> simp [full, stuck, all, seen_all, dot, small, few]
    exact fun unsig => (unseen_digit unsig).1
  · have free : (v.overflow || cap) = false := by simpa using stuck
    have room : (!v.overflow && !cap) = true := by
      rw [← Bool.not_or, free]
      rfl
    have fraction : (v.dot && decide (v.f < 76)) = v.dot := by
      cases pointed : v.dot with
      | false => rfl
      | true =>
        have open_fraction : ¬ 76 ≤ v.f := by
          intro many
          simp [capped, pointed, many] at free
        simpa using open_fraction
    cases significant : sig with
    | false =>
      obtain ⟨none, zero⟩ := unseen_digit significant
      have still : word 256 (word 256 0 + d) = 0 := by
        rw [zero]
        rfl
      have unseen_before : v.seenNonzero = false := by
        rw [counts] at significant
        simp only [Bool.or_eq_false_iff] at significant
        exact significant.1
      constructor <;> simp [room, free, still, all, dot, few, fraction, none, unseen_before]
    | true =>
      have below : v.digits < 38 := by
        by_contra many
        simp [capped, significant, show 38 ≤ v.digits by omega] at free
      have next := next_toNat less small below
      constructor <;> simp [room, free, fraction, dot, next]
      · rw [all, next_word less small below]
        push_cast
        rfl
      · rw [pow_succ]
        omega
      · omega

theorem digits_same {v : Scanned} {w : Slots} {run : List UInt8} (same : Same v w)
    (digits : ∀ c ∈ run, isDigit c = true) :
    Same (run.foldl takeDigit v) (run.foldl (emitDigitBody v.dot) w) := by
  induction run generalizing v w with
  | nil => exact same
  | cons c run ih =>
    have next := digit_same same (digits c List.mem_cons_self)
    exact ih next (fun c there => digits c (List.mem_cons_of_mem _ there))

theorem digits_dot (v : Scanned) (run : List UInt8) : (run.foldl takeDigit v).dot = v.dot := by
  induction run generalizing v with
  | nil => rfl
  | cons c run ih => exact ih (takeDigit v c)

theorem run_digits {p : UInt8 → Bool} {s : List UInt8} (there : c ∈ s.takeWhile p) :
    p c = true := by
  rw [← List.all_eq_true.mp (List.all_takeWhile (l := s)) c there]

section
variable {s : List UInt8}

theorem digitLoop_run {i : Nat} (part : i ≤ s.length) (v : Scanned) :
    digitLoop s i v =
      let run := (s.drop i).takeWhile isDigit
      let w := run.foldl takeDigit v
      if s[i + run.length]? = some 46 ∧ v.dot = false then
        digitLoop s (i + run.length + 1) { w with dot := true }
      else some (i + run.length, w) := by
  induction left : s.length - i generalizing i v with
  | zero =>
    have past : s[i]? = none := List.getElem?_eq_none (by omega)
    rw [digitLoop, if_neg (by omega), List.drop_eq_nil_of_le (by omega)]
    simp [past]
  | succ m ih =>
    have within : i < s.length := by omega
    have load : loadByte s i = some s[i] := List.getElem?_eq_getElem within
    rw [digitLoop, if_pos within, load, Option.bind_some, List.drop_eq_getElem_cons within,
      List.takeWhile_cons]
    by_cases digit : isDigit s[i] = true
    · rw [if_pos digit, if_pos digit, ih (by omega) _ (by omega)]
      simp only [List.foldl_cons, List.length_cons, takeDigit_dot]
      rw [show i + 1 + ((s.drop (i + 1)).takeWhile isDigit).length =
        i + (((s.drop (i + 1)).takeWhile isDigit).length + 1) by omega]
      rfl
    · rw [if_neg digit, if_neg digit]
      simp [List.getElem?_eq_getElem within]

theorem takeWhile_part (p : UInt8 → Bool) {i : Nat} (part : i ≤ s.length) :
    i + ((s.drop i).takeWhile p).length ≤ s.length := by
  have short := (List.takeWhile_sublist p (l := s.drop i)).length_le
  rw [List.length_drop] at short
  omega

theorem mantissa_same (memory : Window s) {i : Nat} (part : i ≤ s.length) :
    ∃ v, digitLoop s i ⟨pliU128 0 0, 0, 0, false, false, false, false⟩ =
        some ((emitMantissa memory i).1, v) ∧
      Same v (emitMantissa memory i).2 ∧ (emitMantissa memory i).1 ≤ s.length := by
  have start : Same ⟨pliU128 0 0, 0, 0, false, false, false, false⟩
      ⟨0, 0, 0, false, false, false, false⟩ :=
    ⟨rfl, rfl, rfl, rfl, rfl, rfl, rfl, by decide, by decide, fun _ => rfl⟩
  have whole := digits_same start (fun c there => run_digits (s := s.drop i) (p := isDigit) there)
  have stop := takeWhile_part isDigit part
  obtain ⟨v, wholeV⟩ : ∃ v, v = ((s.drop i).takeWhile isDigit).foldl takeDigit
    ⟨pliU128 0 0, 0, 0, false, false, false, false⟩ := ⟨_, rfl⟩
  obtain ⟨w, wholeW⟩ : ∃ w, w = ((s.drop i).takeWhile isDigit).foldl (emitDigitBody false)
    ⟨0, 0, 0, false, false, false, false⟩ := ⟨_, rfl⟩
  have undotted : v.dot = false := by
    rw [wholeV, digits_dot]
  rw [← wholeV, ← wholeW] at whole
  have undotted_slot : w.dot = false := whole.dot.trans undotted
  rw [digitLoop_run part]
  unfold emitMantissa
  simp only [memory.foldWhile_spec isDigit (emitDigitBody false) part, ← wholeV, ← wholeW,
    undotted_slot]
  obtain ⟨j, place⟩ : ∃ j, j = i + ((s.drop i).takeWhile isDigit).length := ⟨_, rfl⟩
  rw [← place] at stop ⊢
  by_cases point : j < s.length ∧ memory.load j = 46
  · have here : s[j]? = some 46 := by
      rw [memory.read point.1, point.2]
    simp only [here, point, and_self, if_true]
    rw [digitLoop_run (by omega), memory.foldWhile_spec isDigit (emitDigitBody true) (by omega)]
    simp only [Bool.true_eq_false, and_false, if_false, Option.some.injEq, Prod.mk.injEq, true_and]
    have dotted : Same { v with dot := true } { w with dot := true } :=
      { whole with dot := rfl }
    have fraction := digits_same dotted
      (fun c there => run_digits (s := s.drop (j + 1)) (p := isDigit) there)
    exact ⟨_, rfl, fraction, takeWhile_part isDigit (by omega)⟩
  · have other : s[j]? ≠ some 46 := by
      intro here
      have within := (List.getElem?_eq_some_iff.mp here).1
      rw [memory.read within, Option.some.injEq] at here
      exact point ⟨within, here⟩
    have not_here : ¬ (j < s.length ∧ memory.load j = 46 ∧ True) := by
      rintro ⟨within, here, -⟩
      exact point ⟨within, here⟩
    simp only [other, false_and, if_false, if_neg not_here]
    exact ⟨v, rfl, whole, stop⟩

theorem exponentDigit_same {e k : Nat} {c : UInt8} (capped : e ≤ 1000) (digit : isDigit c = true) :
    exponentDigit (e, k) c = (emitExponentDigit e c, k + 1) := by
  simp [exponentDigit, emitExponentDigit, capped, digit_sub digit]

theorem firstDigit {c : UInt8} (digit : isDigit c = true) :
    emitExponentDigit 0 c = (c - 48).toNat := by
  have small := digit_small digit
  rw [← digit_sub digit] at small
  simp [emitExponentDigit, show ¬ 1000 < (c - 48).toNat by omega]

theorem emitExponentDigit_capped (e : Nat) (c : UInt8) : emitExponentDigit e c ≤ 1000 := by
  unfold emitExponentDigit
  dsimp only
  split <;> omega

theorem exponentDigits_same {e k : Nat} {run : List UInt8} (capped : e ≤ 1000)
    (digits : ∀ c ∈ run, isDigit c = true) :
    run.foldl exponentDigit (e, k) = (run.foldl emitExponentDigit e, k + run.length) := by
  induction run generalizing e k with
  | nil => rfl
  | cons c run ih =>
    rw [List.foldl_cons, exponentDigit_same capped (digits c List.mem_cons_self),
      ih (emitExponentDigit_capped e c) (fun c there => digits c (List.mem_cons_of_mem _ there)),
      List.foldl_cons, List.length_cons, Nat.add_assoc, Nat.add_comm 1]

theorem optSign_spec (memory : Window s) (i : Nat) :
    optSign s i =
      some (decide ((i < s.length ∧ isSign (memory.load i)) ∧ memory.load i = 45),
        if i < s.length ∧ isSign (memory.load i) then i + 1 else i) := by
  unfold optSign
  by_cases within : i < s.length
  · have load : loadByte s i = some (memory.load i) := memory.read within
    rw [if_pos within, load]
    by_cases sign : isSign (memory.load i) = true <;> simp [within, sign]
  · simp [within]

theorem isZero_iff (v : PliU128) : pliCmpU v (pliU128 0 0) = 0 ↔ v.toNat = 0 := by
  have zero : (pliU128 0 0).toNat = 0 := rfl
  rw [cmp_spec, zero]
  split_ifs <;> omega

theorem exponent_same (memory : Window s) {v : Scanned} {w : Slots} {i : Nat} (same : Same v w) :
    exponentPart s i v = some (emitExponent memory i w) := by
  unfold exponentPart emitExponent
  by_cases within : i < s.length
  · have load : loadByte s i = some (memory.load i) := memory.read within
    rw [if_pos within, load, Option.bind_some]
    by_cases mark : isExponent (memory.load i) = true
    · rw [if_pos mark, optSign_spec memory, Option.bind_some]
      simp only [within, mark, and_self, if_true]
      obtain ⟨eneg, sign⟩ : ∃ b : Bool, b = decide ((i + 1 < s.length ∧
        isSign (memory.load ↑(i + 1)) = true) ∧ memory.load ↑(i + 1) = 45) := ⟨_, rfl⟩
      obtain ⟨j, place⟩ : ∃ j, j = if i + 1 < s.length ∧ isSign (memory.load ↑(i + 1)) = true
        then i + 1 + 1 else i + 1 := ⟨_, rfl⟩
      have part : j ≤ s.length := by
        rw [place]
        split <;> omega
      have minus : ((i + 1 < s.length ∧ isSign (memory.load ↑(i + 1)) = true) ∧
          memory.load ↑(i + 1) = 45) ↔ eneg = true := by
        rw [sign, decide_eq_true_eq]
      simp only [← sign, ← place]
      rw [foldWhile_spec isDigit exponentDigit part]
      by_cases first : j < s.length ∧ isDigit (memory.load j) = true
      · have here : s[j] = memory.load j := (memory.inside j first.1).symm
        rw [if_pos first, List.drop_eq_getElem_cons first.1, here, List.takeWhile_cons,
          if_pos first.2, List.foldl_cons, exponentDigit_same (by omega) first.2,
          exponentDigits_same (emitExponentDigit_capped 0 _) (fun c there => run_digits there),
          firstDigit first.2, memory.foldWhile_spec isDigit emitExponentDigit first.1]
        obtain ⟨e, count⟩ : ∃ e, e = ((s.drop (j + 1)).takeWhile isDigit).foldl emitExponentDigit
          (memory.load j - 48).toNat := ⟨_, rfl⟩
        have some_digit : ¬ 0 + 1 + ((s.drop (j + 1)).takeWhile isDigit).length = 0 := by omega
        have zero : w.all = 0 ↔ pliCmpU v.all (pliU128 0 0) = 0 := by
          rw [same.all, isZero_iff]
          omega
        simp only [← count, if_neg some_digit, minus, zero, same.frac,
          same.overflow, Option.map_some]
        obtain ⟨eff, shift⟩ : ∃ eff : Int, eff = if eneg = true then (v.f : Int) + e else v.f - e :=
          ⟨_, rfl⟩
        have shifted : (v.f : Int) + (if eneg = true then (e : Int) else -e) = eff := by
          rw [shift]
          split <;> omega
        rw [← shift, shifted]
        by_cases none : pliCmpU v.all (pliU128 0 0) = 0
        · simp [none]
        · by_cases outside : 76 < eff ∨ eff < -76
          · have not_in : ¬ (-76 ≤ eff ∧ eff ≤ 76) := by omega
            simp [none, outside, not_in]
          · have inside : -76 ≤ eff ∧ eff ≤ 76 := by omega
            simp [none, outside, inside]
      · have nothing : (s.drop j).takeWhile isDigit = [] := by
          rcases Nat.lt_or_ge j s.length with inside | past
          · have here : s[j] = memory.load j := (memory.inside j inside).symm
            rw [List.drop_eq_getElem_cons inside, here, List.takeWhile_cons,
              if_neg (fun digit => first ⟨inside, digit⟩)]
          · rw [List.drop_eq_nil_of_le past]
            rfl
        rw [nothing, if_neg first]
        simp [same.frac]
    · rw [if_neg mark, if_neg (fun both => mark both.2), same.frac, same.overflow]
  · rw [if_neg within, if_neg (fun both => within both.1), same.frac, same.overflow]

theorem mantissa_end (memory : Window s) {i : Nat} (past : s.length ≤ i) :
    (emitMantissa memory i).2.all = 0 := by
  unfold emitMantissa
  rw [Window.foldWhile, if_neg (by omega)]
  dsimp only
  rw [if_neg (by omega)]

theorem signed_same {v : Scanned} {w : Slots} (same : Same v w) (neg : Bool) :
    (if neg = true then pliNegS (pliToS v.all) else pliToS v.all).toInt =
      if neg = true then word 256 (0 - w.all) else w.all := by
  have power : 10 ^ v.digits ≤ 10 ^ 38 := Nat.pow_le_pow_right (by omega) same.few
  have small := same.small
  have plain : (pliToS v.all).toInt = v.all.toNat := by
    rw [toS_toInt]
    split <;> omega
  cases neg with
  | false => simp [plain, same.all]
  | true =>
    have fits : Fits 256 (0 - (v.all.toNat : Int)) := by
      unfold Fits
      omega
    rw [if_pos rfl, if_pos rfl, neg_toInt, plain, same.all, word_of_fits (by omega) fits]
    split <;> omega

theorem parts_same (memory : Window s) :
    ∃ out, pliFixedCharParts s = some out ∧ out.ok = (emitFixedCharPartsLLVM memory).ok ∧
      out.frac = (emitFixedCharPartsLLVM memory).frac ∧
      out.out.toInt = (emitFixedCharPartsLLVM memory).all := by
  obtain ⟨i, skipped⟩ : ∃ i, i = (memory.foldWhile isBlank (fun _ _ => ()) 0 ()).1 := ⟨_, rfl⟩
  have blanks : skipLoop s = some (i, ()) := by
    rw [skipLoop, memory.foldWhile_eq, skipped]
  have part : i ≤ s.length := by
    rw [skipped, memory.foldWhile_spec isBlank _ (Nat.zero_le _)]
    exact takeWhile_part isBlank (Nat.zero_le _)
  obtain ⟨j, place⟩ : ∃ j, j = if i < s.length ∧ isSign (memory.load i) = true then i + 1 else i :=
    ⟨_, rfl⟩
  have inside : j ≤ s.length := by
    rw [place]
    split <;> omega
  obtain ⟨v, scanned, same, stop⟩ := mantissa_same memory inside
  obtain ⟨neg, minus⟩ : ∃ b : Bool, b = decide ((i < s.length ∧ isSign (memory.load i) = true) ∧
    memory.load i = 45) := ⟨_, rfl⟩
  obtain ⟨w, slots⟩ : ∃ w, w = (emitMantissa memory j).2 := ⟨_, rfl⟩
  obtain ⟨tail, after⟩ : ∃ tail, tail = emitExponent memory (emitMantissa memory j).1 w := ⟨_, rfl⟩
  rw [← slots] at same
  have exponent := exponent_same memory (i := (emitMantissa memory j).1) same
  rw [← after] at exponent
  have done : pliFixedCharParts s =
      some ⟨v.saw && !tail.2, tail.1, if neg then pliNegS (pliToS v.all) else pliToS v.all⟩ := by
    unfold pliFixedCharParts
    simp only [blanks, Option.bind_some, optSign_spec memory, ← place, ← minus, scanned, exponent,
      Option.map_some]
  have emitted : emitFixedCharPartsLLVM memory =
      ⟨w.saw && !tail.2, tail.1, if memory.load i = 45 then word 256 (0 - w.all) else w.all⟩ := by
    unfold emitFixedCharPartsLLVM
    simp only [← skipped, ← place, ← slots, ← after]
  rw [done, emitted]
  refine ⟨_, rfl, by rw [same.saw], rfl, ?_⟩
  rw [signed_same same]
  by_cases within : i < s.length
  · have signs : neg = true ↔ memory.load i = 45 := by
      rw [minus, decide_eq_true_eq]
      constructor
      · exact fun both => both.2
      · intro here
        exact ⟨⟨within, by rw [here]; rfl⟩, here⟩
    simp only [signs]
  · -- past the end the byte may be a minus, but there is no digit to negate
    have nothing : w.all = 0 := by
      rw [slots]
      exact mantissa_end memory (by rw [place]; split <;> omega)
    have zero : word 256 (0 - 0) = 0 := by decide
    rw [nothing, zero]
    split <;> split <;> rfl

end

end PliCharParts
