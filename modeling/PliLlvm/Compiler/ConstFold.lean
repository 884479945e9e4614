import PliLlvm.Lib.FixedPoint
import Mathlib.Algebra.Order.Field.Power

/- Constant folding of FIXED expressions (src/constfold.cpp). A PliI128 is a 128-bit
   word: the operators are those of the portable build, modulo 2^128 and with a
   division by zero answered by 0. An expression node keeps the fields the folder
   reads or writes; `other` stands for every kind it refuses. -/
namespace PliConstFold
open FixedPoint

inductive TK where
  | fixedBin
  | fixedDec
  | other
  deriving DecidableEq

structure Ty where
  k : TK
  prec : Int
  scale : Int
  wideDec : Bool
  deriving DecidableEq

def Ty.fixedDec (p q : Int) : Ty := ⟨.fixedDec, p, q, 18 < p⟩

def Ty.intBits (ty : Ty) : Nat :=
  match ty.k with
  | .fixedBin => if ty.prec ≤ 31 then 32 else 64
  | .fixedDec => if ty.wideDec then 128 else if ty.prec ≤ 9 then 32 else 64
  | .other => 32

inductive Tok where
  | plus
  | minus
  | star
  | other
  deriving DecidableEq

inductive Expr where
  | intLit (wideIval : BitVec 128)
  | decLit (wideIval : BitVec 128) (ival : BitVec 64) (decScale decPrec : Int) (ty : Option Ty)
      (folded : Bool)
  | unary (op : Tok) (a : Expr)
  | binary (op : Tok) (a b : Expr)
  | other
  deriving DecidableEq

/-- The loop `v = v * 10`, so many times. -/
def timesTen : Nat → BitVec 128 → BitVec 128
  | 0, v => v
  | k + 1, v => timesTen k (v * 10)

def pow10 (k : Nat) : BitVec 128 := timesTen k 1

def scaleUp (v : BitVec 128) (old new : Int) : BitVec 128 := timesTen (new - old).toNat v

def magS (v : BitVec 128) : BitVec 128 := if v.toInt < 0 then -v else v

def leafMag (v : BitVec 128) (leafScale scale : Int) (out : BitVec 128) : BitVec 128 :=
  let v := magS (if leafScale < scale then scaleUp v leafScale scale else v)
  if out.toInt < v.toInt then v else out

def maxLeafMag : Expr → Int → BitVec 128 → Option (BitVec 128)
  | .intLit v, scale, out => some (leafMag v 0 scale out)
  | .decLit v _ decScale _ _ _, scale, out => some (leafMag v decScale scale out)
  | .unary op a, scale, out => if op = .minus ∨ op = .plus then maxLeafMag a scale out else none
  | .binary op a b, scale, out =>
    if op = .plus ∨ op = .minus ∨ op = .star then
      match maxLeafMag a scale out with
      | some out => maxLeafMag b scale out
      | none => none
    else none
  | .other, _, _ => none

def storageDigits (ty : Ty) : Int :=
  if ty.intBits = 128 then 38 else if ty.intBits = 64 then 18 else 9

def digitTurns : Nat → Nat → Nat
  | 0, _ => 0
  | turns + 1, u => if u / 10 = 0 then 1 else digitTurns turns (u / 10) + 1

def constDigits (v : BitVec 128) : Int := digitTurns 39 (magS v).toNat

structure ConstNum where
  value : BitVec 128
  scale : Int
  prec : Int
  deriving DecidableEq

def constNumOf : Expr → Option ConstNum
  | .intLit v => some ⟨v, 0, constDigits v⟩
  | .decLit v _ decScale _ _ _ => some ⟨v, decScale, constDigits v⟩
  | .unary op a =>
    match constNumOf a with
    | none => none
    | some n =>
      match op with
      | .minus => some { n with value := -n.value }
      | .plus => some n
      | _ => none
  | .binary op a b =>
    match constNumOf a, constNumOf b with
    | some a, some b =>
      let s := max a.scale b.scale
      let sum (v : BitVec 128) : ConstNum := ⟨v, s, constDigits v⟩
      match op with
      | .plus => some (sum (scaleUp a.value a.scale s + scaleUp b.value b.scale s))
      | .minus => some (sum (scaleUp a.value a.scale s - scaleUp b.value b.scale s))
      | .star => some ⟨a.value * b.value, a.scale + b.scale, constDigits (a.value * b.value)⟩
      | .other => none
    | _, _ => none
  | .other => none

def rescale (n : ConstNum) (scale : Int) : BitVec 128 :=
  if n.scale < scale then scaleUp n.value n.scale scale
  else if scale < n.scale then
    let k := (n.scale - scale).toNat
    let half := pow10 (k - 1) * 5
    let sign : BitVec 128 := if n.value.toInt < 0 then -1 else 1
    (n.value + half * sign).sdiv (pow10 k)
  else n.value

def foldConstExpr (e : Expr) (ty : Ty) (scale : Int) : Expr × Bool :=
  if ty.k ≠ .fixedDec then (e, false)
  else match constNumOf e with
    | none => (e, false)
    | some n =>
      let v := rescale n scale
      let digits := constDigits v
      if ty.prec < digits ∨ storageDigits ty < digits then (e, false)
      else match maxLeafMag e scale 0 with
        | none => (e, false)
        | some leaf =>
          if ty.prec < constDigits leaf then (e, false)
          else (.decLit v (v.setWidth 64) scale digits (some ty) true, true)

/- What the expression denotes. -/

def value : Expr → ℚ
  | .intLit v => v.toInt
  | .decLit v _ decScale _ _ _ => v.toInt / 10 ^ decScale
  | .unary op a => if op = .minus then -value a else value a
  | .binary op a b =>
    match op with
    | .plus => value a + value b
    | .minus => value a - value b
    | .star => value a * value b
    | .other => 0
  | .other => 0

def exactScale : Expr → Int
  | .intLit _ => 0
  | .decLit _ _ decScale _ _ _ => decScale
  | .unary _ a => exactScale a
  | .binary op a b =>
    if op = .star then exactScale a + exactScale b else max (exactScale a) (exactScale b)
  | .other => 0

def exactNum : Expr → Int
  | .intLit v => v.toInt
  | .decLit v _ _ _ _ _ => v.toInt
  | .unary op a => if op = .minus then -exactNum a else exactNum a
  | .binary op a b =>
    let s := max (exactScale a) (exactScale b)
    let x := exactNum a * 10 ^ (s - exactScale a).toNat
    let y := exactNum b * 10 ^ (s - exactScale b).toNat
    match op with
    | .plus => x + y
    | .minus => x - y
    | .star => exactNum a * exactNum b
    | .other => 0
  | .other => 0

theorem timesTen_ofInt (k : Nat) (n : Int) :
    timesTen k (BitVec.ofInt 128 n) = BitVec.ofInt 128 (n * 10 ^ k) := by
  induction k generalizing n with
  | zero => simp [timesTen]
  | succ k ih =>
    have ten : BitVec.ofInt 128 n * 10 = BitVec.ofInt 128 (n * 10) := by
      rw [BitVec.ofInt_mul]
      rfl
    rw [timesTen, ten, ih]
    congr 1
    ring

theorem pow10_ofInt (k : Nat) : pow10 k = BitVec.ofInt 128 (10 ^ k) := by
  have one : (1 : BitVec 128) = BitVec.ofInt 128 1 := rfl
  rw [pow10, one, timesTen_ofInt, one_mul]

variable {e : Expr} {n : ConstNum}

theorem constNumOf_exact (h : constNumOf e = some n) :
    n.scale = exactScale e ∧ n.value = BitVec.ofInt 128 (exactNum e) := by
  induction e generalizing n with
  | intLit v | decLit v i s p ty f =>
    cases h
    exact ⟨rfl, (BitVec.ofInt_toInt).symm⟩
  | unary op a ih =>
    simp only [constNumOf] at h
    cases inner : constNumOf a with
    | none => simp [inner] at h
    | some m =>
      obtain ⟨scale, word⟩ := ih inner
      rw [inner] at h
      cases op with
      | minus =>
        cases h
        exact ⟨scale, by simp [exactNum, word, BitVec.ofInt_neg]⟩
      | plus =>
        cases h
        exact ⟨scale, by simp [exactNum, word]⟩
      | star | other => cases h
  | binary op a b iha ihb =>
    simp only [constNumOf] at h
    cases left : constNumOf a with
    | none => simp [left] at h
    | some m =>
      cases right : constNumOf b with
      | none => simp [left, right] at h
      | some p =>
        obtain ⟨scaleA, wordA⟩ := iha left
        obtain ⟨scaleB, wordB⟩ := ihb right
        rw [left, right] at h
        cases op with
        | plus =>
          cases h
          refine ⟨by simp [exactScale, scaleA, scaleB], ?_⟩
          simp [exactNum, scaleUp, wordA, wordB, scaleA, scaleB, timesTen_ofInt, BitVec.ofInt_add]
        | minus =>
          cases h
          refine ⟨by simp [exactScale, scaleA, scaleB], ?_⟩
          simp [exactNum, scaleUp, wordA, wordB, scaleA, scaleB, timesTen_ofInt, sub_eq_add_neg,
            BitVec.ofInt_add, BitVec.ofInt_neg]
        | star =>
          cases h
          refine ⟨by simp [exactScale, scaleA, scaleB], ?_⟩
          simp [exactNum, wordA, wordB, BitVec.ofInt_mul]
        | other => cases h
  | other => cases h

theorem scaled_up {n : Int} {s t : Int} (le : s ≤ t) :
    (n : ℚ) / 10 ^ s = ((n * 10 ^ (t - s).toNat : Int) : ℚ) / 10 ^ t := by
  have power : (10 : ℚ) ^ t = 10 ^ s * 10 ^ (t - s).toNat := by
    rw [← zpow_natCast, ← zpow_add₀ (by norm_num), Int.toNat_of_nonneg (by omega)]
    congr 1
    omega
  push_cast
  rw [power]
  field_simp

theorem value_exact (h : constNumOf e = some n) : value e = exactNum e / 10 ^ exactScale e := by
  induction e generalizing n with
  | intLit v | decLit v i s p ty f => simp [value, exactNum, exactScale]
  | unary op a ih =>
    simp only [constNumOf] at h
    cases inner : constNumOf a with
    | none => simp [inner] at h
    | some m =>
      have held := ih inner
      simp only [value, exactNum, exactScale, held]
      split
      · push_cast
        ring
      · rfl
  | binary op a b iha ihb =>
    simp only [constNumOf] at h
    cases left : constNumOf a with
    | none => simp [left] at h
    | some m =>
      cases right : constNumOf b with
      | none => simp [left, right] at h
      | some p =>
        have heldA := iha left
        have heldB := ihb right
        have upA := @scaled_up (exactNum a) _ _ (le_max_left (exactScale a) (exactScale b))
        have upB := @scaled_up (exactNum b) _ _ (le_max_right (exactScale a) (exactScale b))
        rw [left, right] at h
        cases op with
        | plus | minus =>
          simp only [value, exactNum, exactScale, heldA, heldB, upA, upB, reduceCtorEq, ↓reduceIte]
          push_cast
          ring
        | star =>
          simp only [value, exactNum, exactScale, heldA, heldB, ↓reduceIte]
          rw [zpow_add₀ (by norm_num)]
          push_cast
          field_simp
        | other => cases h
  | other => cases h

/- The condition under which no word is too small. -/

/-- Half a unit of the target scale, in units of a scale with `k` digits more. -/
def halfUnit (k : Nat) : Int := 5 * 10 ^ (k - 1)

/-- The exact numerator fits 128 bits at the target scale; where digits are dropped, at
    most 38 are, and the numerator moved half a unit away from zero fits. -/
def NumeratorFits (e : Expr) (scale : Int) : Prop :=
  if scale < exactScale e then
    exactScale e ≤ scale + 38 ∧
      Fits 128 (towardSign (exactNum e) (halfUnit (exactScale e - scale).toNat))
  else Fits 128 (exactNum e * 10 ^ (scale - exactScale e).toNat)

instance (e : Expr) (scale : Int) : Decidable (NumeratorFits e scale) :=
  inferInstanceAs (Decidable (if scale < exactScale e then
    exactScale e ≤ scale + 38 ∧
      Fits 128 (towardSign (exactNum e) (halfUnit (exactScale e - scale).toNat))
    else Fits 128 (exactNum e * 10 ^ (scale - exactScale e).toNat)))

theorem digitTurns_bound {turns u p : Nat} (count : digitTurns turns u ≤ p) (all : u < 10 ^ turns) :
    u < 10 ^ p := by
  induction turns generalizing u p with
  | zero =>
    have zero : u = 0 := by simpa using all
    rw [zero]
    positivity
  | succ turns ih =>
    simp only [digitTurns] at count
    split at count
    · calc u < 10 ^ 1 := by omega
        _ ≤ 10 ^ p := Nat.pow_le_pow_right (by omega) count
    · obtain ⟨q, rfl⟩ : ∃ q, p = q + 1 := ⟨p - 1, by omega⟩
      rw [pow_succ] at all ⊢
      have rest := @ih (u / 10) q (by omega) (by omega)
      omega

theorem magS_toNat (v : BitVec 128) : ((magS v).toNat : Int) = |v.toInt| := by
  have bound := v.isLt
  have signed : v.toInt = if 2 * v.toNat < 2 ^ 128 then (v.toNat : Int) else v.toNat - 2 ^ 128 := by
    rw [BitVec.toInt]
    push_cast
    rfl
  unfold magS
  split
  · rename_i negative
    rw [abs_of_neg negative, BitVec.toNat_neg]
    split at signed <;> omega
  · rename_i nonneg
    rw [abs_of_nonneg (not_lt.mp nonneg)]
    split at signed <;> omega

theorem constDigits_bound {v : BitVec 128} {p : Int} (count : constDigits v ≤ p) :
    |v.toInt| < 10 ^ p.toNat := by
  have small : (magS v).toNat < 10 ^ 39 := by
    have := (magS v).isLt
    omega
  unfold constDigits at count
  have bound := @digitTurns_bound 39 (magS v).toNat p.toNat (by omega) small
  rw [← magS_toNat]
  exact_mod_cast bound

theorem rescale_exact (h : constNumOf e = some n) (scale : Int) :
    (NumeratorFits e scale → (rescale n scale).toInt = roundAway (value e * 10 ^ scale)) ∧
      (exactScale e ≤ scale + 38 → (rescale n scale).toInt = roundAway (value e * 10 ^ scale) →
        NumeratorFits e scale) := by
  obtain ⟨hscale, hword⟩ := constNumOf_exact h
  have exact := value_exact h
  by_cases down : scale < exactScale e
  · obtain ⟨k, drop⟩ : ∃ k, k = (exactScale e - scale).toNat := ⟨_, rfl⟩
    have quotient : value e * 10 ^ scale = (exactNum e : ℚ) / ((10 ^ k : Nat) : ℚ) := by
      have power : (10 : ℚ) ^ exactScale e = 10 ^ scale * 10 ^ k := by
        rw [← zpow_natCast, ← zpow_add₀ (by norm_num)]
        congr 1
        omega
      rw [exact, power]
      push_cast
      field_simp
    have twice : 2 * halfUnit k = ((10 ^ k : Nat) : Int) := by
      obtain ⟨j, rfl⟩ : ∃ j, k = j + 1 := ⟨k - 1, by omega⟩
      simp only [halfUnit, Nat.add_sub_cancel]
      push_cast
      ring
    have words : rescale n scale = roundDiv (BitVec.ofInt 128 (exactNum e))
        (BitVec.ofInt 128 (halfUnit k)) (BitVec.ofInt 128 ((10 ^ k : Nat) : Int)) := by
      have half : pow10 (k - 1) * 5 = BitVec.ofInt 128 (halfUnit k) := by
        rw [pow10_ofInt, halfUnit, mul_comm 5, BitVec.ofInt_mul]
        rfl
      have ten : pow10 k = BitVec.ofInt 128 ((10 ^ k : Nat) : Int) := by
        rw [pow10_ofInt]
        push_cast
        rfl
      simp only [rescale, hscale, if_neg (not_lt.mpr (le_of_lt down)), if_pos down,
        ← drop, half, ten,
        hword]
      rfl
    rw [words, quotient, roundAway_div (by positivity) twice]
    have exactly : k ≤ 38 → _ := fun few => @roundDiv_exact_iff 128 (by omega) (exactNum e)
      (halfUnit k) (10 ^ k) (by positivity) twice (by
        have : (10 : Nat) ^ k ≤ 10 ^ 38 := Nat.pow_le_pow_right (by omega) few
        omega)
    simp only [NumeratorFits, if_pos down, ← drop]
    constructor
    · rintro ⟨few, fits⟩
      exact (exactly (by omega)).mpr fits
    · intro few same
      exact ⟨few, (exactly (by omega)).mp same⟩
  · have le := not_lt.mp down
    have whole : value e * 10 ^ scale =
        ((exactNum e * 10 ^ (scale - exactScale e).toNat : Int) : ℚ) := by
      rw [exact, scaled_up le]
      field_simp
    have words : rescale n scale =
        BitVec.ofInt 128 (exactNum e * 10 ^ (scale - exactScale e).toNat) := by
      simp only [rescale, hscale, if_neg down, hword]
      split
      · rw [scaleUp, timesTen_ofInt]
      · have level : (scale - exactScale e).toNat = 0 := by omega
        rw [level, pow_zero, mul_one]
    rw [words, whole, roundAway_intCast, toInt_ofInt_iff (by omega), NumeratorFits, if_neg down]
    exact ⟨id, fun _ => id⟩

/-- The node is a literal of the type whose value is the exact one, rounded to the
    type's scale, and fits its precision. -/
def RoundsTo (e : Expr) (ty : Ty) (e' : Expr) : Prop :=
  ∃ v ival decPrec, e' = .decLit v ival ty.scale decPrec (some ty) true ∧
    v.toInt = roundAway (value e * 10 ^ ty.scale) ∧ |v.toInt| < 10 ^ ty.prec.toNat

theorem fold_rewrites {e' : Expr} {ty : Ty} {scale : Int}
    (folded : foldConstExpr e ty scale = (e', true)) :
    ∃ n, constNumOf e = some n ∧ constDigits (rescale n scale) ≤ ty.prec ∧
      e' = .decLit (rescale n scale) ((rescale n scale).setWidth 64) scale
        (constDigits (rescale n scale)) (some ty) true := by
  unfold foldConstExpr at folded
  split at folded
  · cases folded
  · cases num : constNumOf e with
    | none => simp [num] at folded
    | some n =>
      simp only [num] at folded
      split at folded
      · cases folded
      · rename_i checked
        split at folded
        · cases folded
        · split at folded
          · cases folded
          · cases folded
            exact ⟨n, rfl, by omega, rfl⟩

theorem fold_keeps {e' : Expr} {ty : Ty} {scale : Int}
    (kept : foldConstExpr e ty scale = (e', false)) : e' = e := by
  unfold foldConstExpr at kept
  split at kept
  · cases kept
    rfl
  · cases num : constNumOf e with
    | none =>
      simp only [num] at kept
      cases kept
      rfl
    | some n =>
      simp only [num] at kept
      split at kept
      · cases kept
        rfl
      · split at kept
        · cases kept
          rfl
        · split at kept
          · cases kept
            rfl
          · cases kept

/-- A call that folds nothing leaves the node as it is; one that folds is exact when the
    numerator fits, and, as long as at most 38 digits are dropped, only then. -/
theorem fold_exact_iff_fits (e : Expr) (ty : Ty) :
    (∀ e', foldConstExpr e ty ty.scale = (e', false) → e' = e) ∧
      ∀ e', foldConstExpr e ty ty.scale = (e', true) →
        (NumeratorFits e ty.scale → RoundsTo e ty e') ∧
          (exactScale e ≤ ty.scale + 38 → (RoundsTo e ty e' ↔ NumeratorFits e ty.scale)) := by
  refine ⟨fun e' kept => fold_keeps kept, ?_⟩
  intro e' folded
  obtain ⟨n, num, digits, rewritten⟩ := fold_rewrites folded
  obtain ⟨enough, needed⟩ := rescale_exact num ty.scale
  have sound : NumeratorFits e ty.scale → RoundsTo e ty e' := by
    intro whole
    exact ⟨_, _, _, rewritten, enough whole, constDigits_bound digits⟩
  refine ⟨sound, fun few => ⟨?_, sound⟩⟩
  rintro ⟨v, ival, decPrec, same, rounded, -⟩
  rw [rewritten] at same
  cases same
  exact needed few rounded

/-- 2.5 + 0.25 as a DECIMAL(5,1) is 2.8. -/
theorem sum_rounds_away :
    RoundsTo (.binary .plus (.decLit 25 25 1 2 none false) (.decLit 25 25 2 3 none false))
      (Ty.fixedDec 5 1) (.decLit 28 28 1 2 (some (Ty.fixedDec 5 1)) true) := by
  refine ((fold_exact_iff_fits _ _).2 _ ?_).1 ?_
  · decide
  · decide

def wideProduct : Expr := .binary .star (.intLit (2 ^ 64)) (.intLit (2 ^ 64))

/-- The product wraps to 0 and folds to the literal 0 of type DECIMAL(31,0). -/
theorem wide_product_folds_to_zero :
    ¬ ∀ e ty e', foldConstExpr e ty ty.scale = (e', true) → RoundsTo e ty e' := by
  intro exact
  have folded : foldConstExpr wideProduct (Ty.fixedDec 31 0) 0 =
      (.decLit 0 0 0 1 (some (Ty.fixedDec 31 0)) true, true) := by
    decide +kernel
  obtain ⟨v, ival, decPrec, same, rounded, -⟩ := exact wideProduct (Ty.fixedDec 31 0) _ folded
  cases same
  have num : constNumOf wideProduct = some ⟨0, 0, 1⟩ := by
    decide +kernel
  have fits := (rescale_exact num 0).2 (by decide +kernel) rounded
  exact absurd fits (by decide +kernel)

end PliConstFold
