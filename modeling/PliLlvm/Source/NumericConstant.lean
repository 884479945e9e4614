import PliLlvm.Source.LexerGrammar
import PliLlvm.Compiler.ConstFold
import PliLlvm.Lib.Decimal
import Mathlib.Data.List.TakeWhile

/- Integer, decimal, binary and sterling constants, from the token to their type
   (src/parser.cpp, parseIntConstant, parseDecConstant and parseSterlingConstant; src/sema.cpp,
   typeExpr; src/irgen.cpp for the form that is used). A PliI128 wraps modulo 2^128. FLOAT and
   imaginary constants, whose values are doubles, are left out. -/
namespace PliNumericConstant
open Scan Scan.Cursor FixedPoint Decimal PliConstFold
open PliLexer hiding word

inductive Kind where
  | intLit
  | decLit

structure Literal where
  kind : Kind
  ival : Int
  wideIval : Int
  decScale : Nat
  decPrec : Nat

/-- `c - '0'` -/
def digit (c : Byte) : Nat := c.toNat - 48

/-- `for (char c : text) v = v * base + (c - '0');` in a PliI128. -/
def accumulate (base : Nat) (v : Int) (text : List Byte) : Int :=
  text.foldl (fun v c => word 128 (v * base + digit c)) v

def positional (base : Nat) (text : List Byte) : Nat :=
  text.foldl (fun v c => v * base + digit c) 0

def strtoll (text : List Byte) (base : Nat) : Int :=
  min (positional base (text.takeWhile fun c => digit c < base)) (2 ^ 63 - 1)

def parseIntConstant (text : List Byte) (base : Nat) : Literal :=
  { kind := .intLit
    ival := strtoll text base
    wideIval := accumulate base 0 (text.filter fun c => digit c < base)
    decScale := 0, decPrec := 0 }

def cutAtDot (text : List Byte) : List Byte × Option (List Byte) :=
  match text.dropWhile (· != ch '.') with
  | [] => (text, none)
  | _ :: rest => (text.takeWhile (· != ch '.'), some rest)

def parseDecConstant (text : List Byte) : Literal :=
  let intPart := (cutAtDot text).1
  let fracPart := (cutAtDot text).2.getD []
  let scaled := accumulate 10 (accumulate 10 0 intPart) fracPart
  { kind := .decLit, ival := word 64 scaled, wideIval := scaled
    decScale := fracPart.length, decPrec := intPart.length + fracPart.length }

def allDigits (s : List Byte) : Bool := !s.isEmpty && s.all isDigit

/-- `do { pli_divmod10(&mag); ++prec; } while (!pli_iszero_u(mag));` -/
def digitCount (mag : Nat) : Nat := (image mag).length

def poundsDigits (poundsS : List Byte) : Nat :=
  let poundsSig := poundsS.dropWhile (· == ch '0')
  if poundsSig.isEmpty then 1 else poundsSig.length

/-- `for (int i = 0; i < scale; ++i) value = value * 10;` -/
def timesTen128 : Nat → Int → Int
  | 0, v => v
  | k + 1, v => timesTen128 k (word 128 (v * 10))

def sterlingValue (poundsS : List Byte) (shill penceInt : Int) (penceFracS : List Byte) : Int :=
  let pounds := accumulate 10 0 poundsS
  let penceFrac := accumulate 10 0 penceFracS
  let value := word 128 (pounds * 240 + shill * 12 + penceInt)
  word 128 (timesTen128 penceFracS.length value + penceFrac)

def parseSterlingConstant (text : List Byte) : Option Literal :=
  match cutAtDot text with
  | (_, none) => none
  | (poundsS, some rest) =>
    match cutAtDot rest with
    | (_, none) => none
    | (shillS, some penceS) =>
      let penceIntS := (cutAtDot penceS).1
      let frac := (cutAtDot penceS).2
      let penceFracS := frac.getD []
      if !allDigits poundsS || !allDigits shillS || !allDigits penceIntS ||
          (frac.isSome && !allDigits penceFracS) then none
      else if 2 < shillS.length ∨ 2 < penceIntS.length ∨ 38 < penceFracS.length then none
      else
        let shill := positional 10 shillS
        let penceInt := positional 10 penceIntS
        if 20 ≤ shill ∨ 12 ≤ penceInt then none
        else
          if 38 < poundsDigits poundsS + penceFracS.length + 3 then none
          else
            let value := sterlingValue poundsS shill penceInt penceFracS
            let prec := digitCount value.natAbs
            if 38 < prec then none
            else some
              { kind := .decLit, ival := word 64 value, wideIval := value
                decScale := penceFracS.length, decPrec := prec }

/-- The Number branch of parsePrimary; none for a FLOAT or imaginary constant, or with a
    diagnostic. -/
def parseNumber (t : Token) : Option Literal :=
  if t.sterling then parseSterlingConstant t.text
  else if t.imaginary then none
  else if t.isFloat then
    if t.binaryRadix then none else if t.hasExp then none else some (parseDecConstant t.text)
  else if t.binaryRadix then some (parseIntConstant t.text 2)
  else some (parseIntConstant t.text 10)

def fixedBin (p q : Int) : Ty := ⟨.fixedBin, p, q, false⟩

def typeLiteral (e : Literal) : Ty :=
  match e.kind with
  | .intLit =>
    let ty :=
      if e.wideIval ≠ e.ival then Ty.fixedDec (digitCount e.wideIval.natAbs) 0
      else Ty.fixedDec (if 99999 < e.ival ∨ e.ival < -99999 then 15 else 5) 0
    if ty.intBits = 32 ∧ (2147483647 < e.ival ∨ e.ival < -2147483648) then fixedBin 63 0 else ty
  | .decLit => Ty.fixedDec (if 0 < e.decPrec then (e.decPrec : Int) else 1) e.decScale

def stored (e : Literal) : Int :=
  if (typeLiteral e).intBits = 128 then e.wideIval else e.ival

/- What the constants denote. -/

def Binary (ds : List Byte) : Prop := ∀ c ∈ ds, c = ch '0' ∨ c = ch '1'

instance (ds : List Byte) : Decidable (Binary ds) :=
  inferInstanceAs (Decidable (∀ c ∈ ds, _))

inductive Denotes : Token → Nat → Nat → Prop
  | integer {t : Token} (plain : t.isFloat = false ∧ t.binaryRadix = false ∧ t.sterling = false)
      (digits : ∀ c ∈ t.text, isDigit c = true) : Denotes t (positional 10 t.text) 0
  | binary {t : Token} (radix : t.isFloat = false ∧ t.binaryRadix = true ∧ t.sterling = false)
      (digits : Binary t.text) : Denotes t (positional 2 t.text) 0
  | decimal {t : Token} {int frac : List Byte} (point : t.isFloat = true ∧ t.sterling = false)
      (digits : ∀ c ∈ int ++ frac, isDigit c = true) (parts : t.text = int ++ ch '.' :: frac) :
      Denotes t (positional 10 (int ++ frac)) frac.length
  | sterling {t : Token} {pounds shillings pence frac part : List Byte} (sign : t.sterling = true)
      (digits : ∀ c ∈ pounds ++ shillings ++ pence ++ frac, isDigit c = true)
      (fraction : part = [] ∧ frac = [] ∨ part = ch '.' :: frac)
      (parts : t.text = pounds ++ ch '.' :: shillings ++ ch '.' :: pence ++ part) :
      Denotes t ((positional 10 pounds * 240 + positional 10 shillings * 12 + positional 10 pence) *
        10 ^ frac.length + positional 10 frac) frac.length

/-- The value is stored at its scale, in forms that agree where 64 bits hold it, and with a
    type whose precision does. -/
structure Right (e : Literal) (v q : Nat) : Prop where
  value : stored e = v
  scale : (typeLiteral e).scale = q ∧ e.decScale = q
  agree : v < 2 ^ 63 → e.ival = e.wideIval
  precise : (v : Int) < (if (typeLiteral e).k =
    .fixedBin then 2 else 10) ^ (typeLiteral e).prec.toNat

theorem fold_shift (base acc : Nat) (text : List Byte) :
    text.foldl (fun v c => v * base + digit c) acc =
      acc * base ^ text.length + positional base text := by
  unfold positional
  induction text generalizing acc with
  | nil => simp
  | cons c cs ih =>
    rw [List.foldl_cons, List.foldl_cons, ih, ih (0 * base + digit c), List.length_cons, pow_succ]
    ring

theorem positional_append (base : Nat) (a b : List Byte) :
    positional base (a ++ b) = positional base a * base ^ b.length + positional base b := by
  rw [positional, List.foldl_append, fold_shift]
  rfl

variable {base : Nat} {text : List Byte}

theorem positional_lt (digits : ∀ c ∈ text, digit c < base) :
    positional base text < base ^ text.length := by
  induction text using List.reverseRecOn with
  | nil => simp [positional]
  | append_singleton cs c ih =>
    have small := ih fun d there => digits d (List.mem_append_left _ there)
    have last := digits c (by simp)
    have single : positional base [c] = digit c := by simp [positional]
    rw [positional_append, single, List.length_append, List.length_singleton, pow_one, pow_succ]
    nlinarith

theorem accumulate_word (base : Nat) (n : Int) (text : List Byte) :
    accumulate base (word 128 n) text =
      word 128 (n * base ^ text.length + positional base text) := by
  induction text generalizing n with
  | nil => simp [accumulate, positional]
  | cons c cs ih =>
    have step : word 128 (word 128 n * base + digit c) = word 128 (n * base + digit c) := by
      apply word_eq_iff.mpr
      exact ((word_mod_eq 128 n).mul_right _).add_right _
    have whole : positional base (c :: cs) = digit c * base ^ cs.length + positional base cs := by
      have split := positional_append base [c] cs
      simpa [positional] using split
    change accumulate base (word 128 (word 128 n * base + digit c)) cs = _
    rw [step, ih, whole, List.length_cons, pow_succ]
    congr 1
    push_cast
    ring

theorem accumulate_zero (base : Nat) (text : List Byte) :
    accumulate base 0 text = word 128 (positional base text) := by
  have zero : word 128 0 = 0 := by decide
  have all := accumulate_word base 0 text
  rwa [zero, zero_mul, zero_add] at all

theorem word_nat {w : Nat} (pos : 0 < w) {v : Nat} : word w v = v ↔ v < 2 ^ (w - 1) := by
  constructor
  · intro same
    have fits := word_fits pos v
    rw [same] at fits
    exact_mod_cast fits.2
  · intro small
    refine word_of_fits pos ⟨?_, by exact_mod_cast small⟩
    have power : (0 : Int) < 2 ^ (w - 1) := by positivity
    omega

theorem digitCount_lt (n : Nat) : n < 10 ^ digitCount n := by
  obtain ⟨k, length⟩ : ∃ k, (image n).length = k + 1 :=
    Nat.exists_eq_succ_of_ne_zero (by simpa using image_ne_nil n)
  rw [digitCount, length]
  exact (image_length_iff n k).mp (by omega)

theorem digitCount_ge {n k : Nat} (large : 10 ^ (k + 1) ≤ n) : k + 1 < digitCount n := by
  by_contra short
  have small := (image_length_iff n k).mp (Nat.not_lt.mp short)
  omega

theorem fixedDec_bits (p : Int) (q : Int) :
    (Ty.fixedDec p q).intBits = if 18 < p then 128 else if p ≤ 9 then 32 else 64 := by
  by_cases wide : 18 < p
  · simp [Ty.fixedDec, Ty.intBits, wide]
  · by_cases narrow : p ≤ 9 <;> simp [Ty.fixedDec, Ty.intBits, wide, narrow]

theorem fixedDec_kind (p q : Int) : (Ty.fixedDec p q).k = .fixedDec := rfl

theorem fixedDec_prec (p q : Int) : (Ty.fixedDec p q).prec = p := rfl

variable {e : Literal} {v : Nat}

theorem small_int_type (int : e.kind = .intLit) (ival : e.ival = v)
    (wide : e.wideIval = v) (small : v < 2 ^ 63) :
    typeLiteral e = Ty.fixedDec (if 99999 < v then 15 else 5) 0 := by
  have tier : (99999 < e.ival ∨ e.ival < -99999) ↔ 99999 < v := by
    rw [ival]
    omega
  have same : ¬ e.wideIval ≠ e.ival := by simp [ival, wide]
  simp only [typeLiteral, int, if_neg same, tier]
  refine if_neg ?_
  rw [fixedDec_bits, ival]
  split
  · simp
  · simp
    omega

theorem small_int_right (int : e.kind = .intLit) (ival : e.ival = v)
    (wide : e.wideIval = v) (noScale : e.decScale = 0) (small : v < 2 ^ 63) :
    Right e v 0 ↔ v < 10 ^ 15 := by
  have type := small_int_type int ival wide small
  have narrow : (typeLiteral e).intBits ≠ 128 := by
    rw [type, fixedDec_bits]
    split <;> simp
  have value : stored e = v := by rw [stored, if_neg narrow, ival]
  constructor
  · intro right
    have precise := right.precise
    rw [type, fixedDec_kind, fixedDec_prec, if_neg (by simp)] at precise
    split at precise
    · exact_mod_cast precise
    · omega
  · intro fits
    refine ⟨value, ?_, fun _ => ival.trans wide.symm, ?_⟩
    · rw [type, noScale]
      exact ⟨rfl, rfl⟩
    · rw [type, fixedDec_kind, fixedDec_prec, if_neg (by simp)]
      split
      · exact_mod_cast fits
      · have tier : v < 10 ^ 5 := by omega
        exact_mod_cast tier

theorem large_int_type (int : e.kind = .intLit)
    (ival : e.ival = 2 ^ 63 - 1) (wide : e.wideIval = v) (large : 2 ^ 63 ≤ v) :
    typeLiteral e = Ty.fixedDec (digitCount v) 0 ∧ 19 ≤ digitCount v := by
  have digits : 19 ≤ digitCount v :=
    digitCount_ge (k := 17) (Nat.le_trans (by norm_num) large)
  have other : (v : Int) ≠ e.ival := by
    rw [ival]
    omega
  refine ⟨?_, digits⟩
  simp only [typeLiteral, int, wide, if_pos other, Int.natAbs_natCast]
  refine if_neg ?_
  rw [fixedDec_bits, if_pos (by omega)]
  simp

theorem large_int_right (int : e.kind = .intLit)
    (ival : e.ival = 2 ^ 63 - 1) (wide : e.wideIval = word 128 v) (noScale : e.decScale = 0)
    (large : 2 ^ 63 ≤ v) : Right e v 0 ↔ v < 2 ^ 127 := by
  constructor
  · intro right
    have value := right.value
    unfold stored at value
    split at value
    · rw [wide] at value
      exact (word_nat (by omega)).mp value
    · rw [ival] at value
      omega
  · intro fits
    have form : e.wideIval = v := by rw [wide, (word_nat (by omega)).mpr fits]
    obtain ⟨type, digits⟩ := large_int_type int ival form large
    have bits : (typeLiteral e).intBits = 128 := by
      rw [type, fixedDec_bits, if_pos (by omega)]
    refine ⟨by rw [stored, if_pos bits, form], ?_, fun small => by omega, ?_⟩
    · rw [type, noScale]
      exact ⟨rfl, rfl⟩
    · rw [type, fixedDec_kind, fixedDec_prec, if_neg (by simp), Int.toNat_natCast]
      exact_mod_cast digitCount_lt v

def IntHolds (v : Nat) : Prop := v < 10 ^ 15 ∨ 2 ^ 63 ≤ v ∧ v < 2 ^ 127

instance (v : Nat) : Decidable (IntHolds v) := by
  unfold IntHolds
  infer_instance

theorem int_forms (digits : ∀ c ∈ text, digit c < base) :
    (parseIntConstant text base).ival = min (positional base text : Int) (2 ^ 63 - 1) ∧
      (parseIntConstant text base).wideIval = word 128 (positional base text) := by
  have all : text.filter (fun c => digit c < base) = text :=
    List.filter_eq_self.mpr fun c there => decide_eq_true (digits c there)
  have taken : text.takeWhile (fun c => digit c < base) = text :=
    List.takeWhile_eq_self_iff.mpr fun c there => decide_eq_true (digits c there)
  constructor
  · rw [parseIntConstant, strtoll, taken]
  · rw [parseIntConstant, all, accumulate_zero]

theorem int_right_iff (digits : ∀ c ∈ text, digit c < base) :
    Right (parseIntConstant text base) (positional base text) 0 ↔
      IntHolds (positional base text) := by
  obtain ⟨ival, wide⟩ := int_forms digits
  generalize positional base text = v at wide ival ⊢
  unfold IntHolds
  by_cases small : v < 2 ^ 63
  · rw [small_int_right rfl (by rw [ival]; omega)
      (by rw [wide, (word_nat (by omega)).mpr (by omega)]) rfl small]
    omega
  · rw [large_int_right rfl (by rw [ival]; omega) wide rfl (by omega)]
    omega

theorem dec_right_iff {q p : Nat} (dec : e.kind = .decLit)
    (wide : e.wideIval = word 128 v) (ival : e.ival = word 64 e.wideIval) (scale : e.decScale = q)
    (prec : e.decPrec = p) (bounded : v < 10 ^ p) : Right e v q ↔ v < 2 ^ 127 := by
  have type : typeLiteral e = Ty.fixedDec (if 0 < p then (p : Int) else 1) q := by
    rw [typeLiteral, dec, prec, scale]
  have precise : (v : Int) <
      (if (typeLiteral e).k = .fixedBin then 2 else 10) ^ (typeLiteral e).prec.toNat := by
    rw [type, fixedDec_kind, fixedDec_prec, if_neg (by simp)]
    split
    · rw [Int.toNat_natCast]
      exact_mod_cast bounded
    · have none : p = 0 := by omega
      rw [none] at bounded
      have zero : v = 0 := by omega
      rw [zero]
      norm_num
  by_cases digits : 18 < p
  · have bits : (typeLiteral e).intBits = 128 := by
      rw [type, fixedDec_bits, if_pos (by split <;> omega)]
    have value : stored e = word 128 v := by rw [stored, if_pos bits, wide]
    constructor
    · intro right
      have same := right.value
      rw [value] at same
      exact (word_nat (by omega)).mp same
    · intro fits
      have form := (word_nat (w := 128) (by omega)).mpr fits
      refine ⟨value.trans form, ?_, ?_, precise⟩
      · rw [type, scale]
        exact ⟨rfl, rfl⟩
      · intro small
        rw [ival, wide, form, (word_nat (by omega)).mpr small]
  · have short : v < 10 ^ 18 :=
      Nat.lt_of_lt_of_le bounded (Nat.pow_le_pow_right (by omega) (by omega))
    have form := (word_nat (w := 128) (v := v) (by omega)).mpr (by omega)
    have form64 := (word_nat (w := 64) (v := v) (by omega)).mpr (by omega)
    have bits : (typeLiteral e).intBits ≠ 128 := by
      have narrow : ∀ k : Int, (if k ≤ 9 then 32 else 64) ≠ 128 := by
        intro k
        split <;> simp
      rw [type, fixedDec_bits, if_neg (by split <;> omega)]
      exact narrow _
    refine iff_of_true ⟨?_, ?_, ?_, precise⟩ (by omega)
    · rw [stored, if_neg bits, ival, wide, form, form64]
    · rw [type, scale]
      exact ⟨rfl, rfl⟩
    · intro _
      rw [ival, wide, form, form64]

theorem isDigit_iff (c : Byte) : isDigit c = true ↔ 48 ≤ c.toNat ∧ c.toNat ≤ 57 := by
  have zero : ch '0' = 48 := by decide
  have nine : ch '9' = 57 := by decide
  rw [isDigit, zero, nine, Bool.and_eq_true, decide_eq_true_eq, decide_eq_true_eq,
    UInt8.le_iff_toNat_le, UInt8.le_iff_toNat_le]
  rfl

theorem digit_lt {c : Byte} (decimal : isDigit c = true) : digit c < 10 := by
  rw [isDigit_iff] at decimal
  unfold digit
  omega

theorem digit_noDot {c : Byte} (decimal : isDigit c = true) : (c != ch '.') = true := by
  rw [bne_iff_ne]
  rintro rfl
  exact absurd decimal (by decide)

theorem cutAtDot_none {a : List Byte} (digits : ∀ c ∈ a, isDigit c = true) :
    cutAtDot a = (a, none) := by
  have all : a.dropWhile (· != ch '.') = [] :=
    List.dropWhile_eq_nil_iff.mpr fun c there => digit_noDot (digits c there)
  rw [cutAtDot, all]

theorem cutAtDot_some {a : List Byte} (digits : ∀ c ∈ a, isDigit c = true) (b : List Byte) :
    cutAtDot (a ++ ch '.' :: b) = (a, some b) := by
  have plain : ∀ c ∈ a, (c != ch '.') = true := fun c there => digit_noDot (digits c there)
  have drop : (a ++ ch '.' :: b).dropWhile (· != ch '.') = ch '.' :: b := by
    rw [List.dropWhile_append_of_pos plain, List.dropWhile_cons_of_neg (by simp)]
  have take : (a ++ ch '.' :: b).takeWhile (· != ch '.') = a := by
    rw [List.takeWhile_append_of_pos plain, List.takeWhile_cons_of_neg (by simp), List.append_nil]
  rw [cutAtDot, drop, take]

variable {frac : List Byte}

theorem decimal_parsed {int : List Byte}
    (digits : ∀ c ∈ int ++ frac, isDigit c = true) (parts : text = int ++ ch '.' :: frac) :
    parseDecConstant text =
      { kind := .decLit, ival := word 64 (accumulate 10 0 (int ++ frac))
        wideIval := accumulate 10 0 (int ++ frac), decScale := frac.length
        decPrec := (int ++ frac).length } := by
  have cut : cutAtDot text = (int, some frac) := by
    rw [parts]
    exact cutAtDot_some (fun c there => digits c (List.mem_append_left _ there)) frac
  simp only [parseDecConstant, cut, Option.getD_some, accumulate, List.foldl_append,
    List.length_append]

variable {t : Token}

theorem decimal_right_iff {int : List Byte}
    (digits : ∀ c ∈ int ++ frac, isDigit c = true) (parts : t.text = int ++ ch '.' :: frac) :
    Right (parseDecConstant t.text) (positional 10 (int ++ frac)) frac.length ↔
      positional 10 (int ++ frac) < 2 ^ 127 := by
  rw [decimal_parsed digits parts]
  exact dec_right_iff rfl (accumulate_zero 10 _) rfl rfl rfl
    (positional_lt fun c there => digit_lt (digits c there))

theorem positional_zeros (text : List Byte) :
    positional 10 (text.dropWhile (· == ch '0')) = positional 10 text := by
  induction text with
  | nil => rfl
  | cons c cs ih =>
    rw [List.dropWhile_cons]
    split
    · rename_i zero
      have none : digit c = 0 := by
        rw [beq_iff_eq.mp zero]
        decide
      have split := positional_append 10 [c] cs
      have first : positional 10 [c] = 0 := by simp [positional, none]
      rw [ih]
      simpa [first] using split.symm
    · rfl

variable {pounds : List Byte}

theorem pounds_lt (digits : ∀ c ∈ pounds, isDigit c = true) :
    positional 10 pounds < 10 ^ poundsDigits pounds := by
  have small : positional 10 (pounds.dropWhile (· == ch '0')) <
      10 ^ (pounds.dropWhile (· == ch '0')).length :=
    positional_lt fun c there => digit_lt (digits c ((List.dropWhile_suffix _).subset there))
  rw [positional_zeros] at small
  unfold poundsDigits
  dsimp only
  split
  · rename_i none
    rw [List.isEmpty_iff.mp none] at small
    have zero : positional 10 pounds = 0 := by simpa using small
    rw [zero]
    norm_num
  · exact small

theorem timesTen128_word (k : Nat) (n : Int) : timesTen128 k (word 128 n) = word 128
    (n * 10 ^ k) := by
  induction k generalizing n with
  | zero => simp [timesTen128]
  | succ k ih =>
    have step : word 128 (word 128 n * 10) = word 128 (n * 10) :=
      word_eq_iff.mpr ((word_mod_eq 128 n).mul_right _)
    rw [timesTen128, step, ih, pow_succ]
    congr 1
    ring

theorem sterlingValue_word (pounds frac : List Byte) (shill pence : Int) :
    sterlingValue pounds shill pence frac =
      word 128 ((positional 10 pounds * 240 + shill * 12 + pence) * 10 ^ frac.length +
        positional 10 frac) := by
  have whole : word 128 (accumulate 10 0 pounds * 240 + shill * 12 + pence) =
      word 128 (positional 10 pounds * 240 + shill * 12 + pence) := by
    rw [accumulate_zero]
    apply word_eq_iff.mpr
    exact (((word_mod_eq 128 _).mul_right _).add_right _).add_right _
  simp only [sterlingValue]
  rw [whole, timesTen128_word, accumulate_zero]
  exact word_eq_iff.mpr ((word_mod_eq 128 _).add (word_mod_eq 128 _))

theorem sterling_parsed {shillings pence part : List Byte}
    (digits : ∀ c ∈ pounds ++ shillings ++ pence ++ frac, isDigit c = true)
    (fraction : part = [] ∧ frac = [] ∨ part = ch '.' :: frac)
    (parts : t.text = pounds ++ ch '.' :: shillings ++ ch '.' :: pence ++ part)
    (parsed : parseSterlingConstant t.text = some e) {v : Nat}
    (number : v = (positional 10 pounds * 240 + positional 10 shillings * 12 +
      positional 10 pence) * 10 ^ frac.length + positional 10 frac) :
    e = { kind := .decLit, ival := word 64 (word 128 v), wideIval := word 128 v
          decScale := frac.length, decPrec := digitCount v } ∧ v < 10 ^ 38 := by
  simp only [List.mem_append, or_imp, forall_and] at digits
  obtain ⟨⟨⟨inPounds, inShillings⟩, inPence⟩, inFrac⟩ := digits
  have first : cutAtDot t.text = (pounds, some (shillings ++ ch '.' :: (pence ++ part))) := by
    have shape : t.text = pounds ++ ch '.' :: (shillings ++ ch '.' :: (pence ++ part)) := by
      rw [parts]
      simp
    rw [shape]
    exact cutAtDot_some inPounds _
  have second := cutAtDot_some inShillings (pence ++ part)
  have third : (cutAtDot (pence ++ part)).1 = pence ∧
      ((cutAtDot (pence ++ part)).2).getD [] = frac := by
    rcases fraction with ⟨rfl, rfl⟩ | rfl
    · rw [List.append_nil, cutAtDot_none inPence]
      exact ⟨rfl, rfl⟩
    · rw [cutAtDot_some inPence]
      exact ⟨rfl, rfl⟩
  simp only [parseSterlingConstant, first, second, third.1, third.2] at parsed
  split at parsed
  · cases parsed
  split at parsed
  · cases parsed
  split at parsed
  · cases parsed
  split at parsed
  · cases parsed
  rename_i _ _ range size
  split at parsed
  · cases parsed
  have pounds_small := pounds_lt inPounds
  have frac_small : positional 10 frac < 10 ^ frac.length :=
    positional_lt fun c there => digit_lt (inFrac c there)
  have value_small : (positional 10 pounds * 240 + positional 10
    shillings * 12 + positional 10 pence) *
      10 ^ frac.length + positional 10 frac < 10 ^ 38 := by
    have units : positional 10 pounds * 240 + positional 10
      shillings * 12 + positional 10 pence + 1 ≤
        10 ^ (poundsDigits pounds + 3) := by
      rw [pow_add]
      omega
    have scaled := Nat.mul_le_mul_right (10 ^ frac.length) units
    rw [← pow_add] at scaled
    have most : 10 ^ (poundsDigits pounds + 3 + frac.length) ≤ 10 ^ 38 :=
      Nat.pow_le_pow_right (by omega) (by omega)
    rw [Nat.add_mul, Nat.one_mul] at scaled
    omega
  have value : sterlingValue pounds (positional 10 shillings) (positional 10 pence) frac =
      word 128 (((positional 10 pounds * 240 + positional 10 shillings * 12 + positional 10 pence) *
        10 ^ frac.length + positional 10 frac : Nat) : Int) := by
    rw [sterlingValue_word]
    push_cast
    rfl
  rw [value] at parsed
  generalize (positional 10 pounds * 240 + positional 10 shillings * 12 + positional 10 pence) *
      10 ^ frac.length + positional 10 frac = n at value_small parsed number
  subst number
  have form := (word_nat (w := 128) (v := v) (by omega)).mpr (by omega)
  cases parsed
  refine ⟨?_, value_small⟩
  rw [form, Int.natAbs_natCast]

theorem sterling_right {shillings pence part : List Byte}
    (digits : ∀ c ∈ pounds ++ shillings ++ pence ++ frac, isDigit c = true)
    (fraction : part = [] ∧ frac = [] ∨ part = ch '.' :: frac)
    (parts : t.text = pounds ++ ch '.' :: shillings ++ ch '.' :: pence ++ part)
    (parsed : parseSterlingConstant t.text = some e) :
    Right e ((positional 10 pounds * 240 + positional 10 shillings * 12 + positional 10 pence) *
      10 ^ frac.length + positional 10 frac) frac.length := by
  obtain ⟨rfl, small⟩ := sterling_parsed digits fraction parts parsed rfl
  refine (dec_right_iff rfl rfl rfl rfl rfl (digitCount_lt _)).mpr (by omega)

def Holds (t : Token) (v : Nat) : Prop := if t.isFloat then v < 2 ^ 127 else IntHolds v

instance (t : Token) (v : Nat) : Decidable (Holds t v) := by
  unfold Holds
  infer_instance

theorem binary_digits (binary : Binary text) : ∀ c ∈ text, digit c < 2 := by
  intro c there
  rcases binary c there with rfl | rfl <;> decide

theorem right_iff (parsed : parseNumber t = some e) {v q : Nat}
    (denotes : Denotes t v q) : Right e v q ↔ t.sterling = true ∨ Holds t v := by
  unfold parseNumber at parsed
  cases denotes with
  | integer plain digits =>
    obtain ⟨noPoint, decimal, noSign⟩ := plain
    simp only [noSign, noPoint, decimal, Bool.false_eq_true, if_false] at parsed
    split at parsed
    · cases parsed
    · cases parsed
      rw [int_right_iff fun c there => digit_lt (digits c there)]
      simp [noSign, Holds, noPoint]
  | binary radix digits =>
    obtain ⟨noPoint, binary, noSign⟩ := radix
    simp only [noSign, noPoint, binary, Bool.false_eq_true, if_false, if_true] at parsed
    split at parsed
    · cases parsed
    · cases parsed
      rw [int_right_iff (binary_digits digits)]
      simp [noSign, Holds, noPoint]
  | decimal point digits parts =>
    obtain ⟨float, noSign⟩ := point
    simp only [noSign, float, Bool.false_eq_true, if_false, if_true] at parsed
    split at parsed
    · cases parsed
    split at parsed
    · cases parsed
    split at parsed
    · cases parsed
    cases parsed
    rw [decimal_right_iff digits parts]
    simp [noSign, Holds, float]
  | sterling sign digits fraction parts =>
    rw [if_pos sign] at parsed
    exact iff_of_true (sterling_right digits fraction parts parsed) (Or.inl sign)

theorem point_digits {bs : List Byte} (point : Point bs) :
    ∃ ds, bs = ch '.' :: ds ∧ ∀ c ∈ ds, isDigit c = true := by
  obtain ⟨ds, shape, digits⟩ := point
  exact ⟨ds, shape, digits.2⟩

theorem sterling_denotes {bs : List Byte} (spelled : Spelled t bs)
    (sign : t.sterling = true) : ∃ v q, Denotes t v q := by
  cases spelled with
  | @sterling int shillings pence part loc digits second third fourth =>
    obtain ⟨sh, rfl, inSh⟩ := point_digits second
    obtain ⟨pe, rfl, inPe⟩ := point_digits third
    have last : ∃ frac, (part = [] ∧ frac = [] ∨ part = ch '.' :: frac) ∧
        ∀ c ∈ frac, isDigit c = true := by
      rcases fourth with rfl | more
      · exact ⟨[], Or.inl ⟨rfl, rfl⟩, by simp⟩
      · obtain ⟨fr, shape, inFr⟩ := point_digits more
        exact ⟨fr, Or.inr shape, inFr⟩
    obtain ⟨frac, fraction, inFrac⟩ := last
    refine ⟨_, _, Denotes.sterling sign ?_ fraction rfl⟩
    simp only [List.mem_append, or_imp, forall_and]
    exact ⟨⟨⟨digits, inSh⟩, inPe⟩, inFrac⟩
  | _ => simp [Token.fresh] at sign

/-- Every numeric constant that the lexer makes and the parser takes without a diagnostic is
    kept exactly, in a type that holds it, just where it is a sterling constant or writes a
    number that meets the condition: a binary constant has binary digits. -/
theorem constant_exact_iff {s s' : Cursor} {t : Token} {e : Literal}
    (starts : isDigit s.cur = true ∨ pointAhead s = true) (lexed : lexNumber s = (t, s', []))
    (parsed : parseNumber t = some e) :
    (∃ v q, Denotes t v q ∧ Right e v q) ↔
      t.sterling = true ∨ ∃ v q, Denotes t v q ∧ Holds t v := by
  constructor
  · rintro ⟨v, q, denotes, right⟩
    rcases (right_iff parsed denotes).mp right with sign | holds
    · exact Or.inl sign
    · exact Or.inr ⟨v, q, denotes, holds⟩
  · rintro (sign | ⟨v, q, denotes, holds⟩)
    · obtain ⟨bs, -, -, spelled⟩ := lexNumber_spec starts
      rw [lexed] at spelled
      obtain ⟨v, q, denotes⟩ := sterling_denotes (spelled rfl).1 sign
      exact ⟨v, q, denotes, (right_iff parsed denotes).mpr (Or.inl sign)⟩
    · exact ⟨v, q, denotes, (right_iff parsed denotes).mpr (Or.inr holds)⟩

/-- 1111B, four digits of a BINARY constant. -/
theorem binary_constant_exact :
    ∃ s', lexNumber ⟨[49, 49, 49, 49, 66], ⟨1, 1⟩⟩ =
        ({ Token.fresh .number ⟨1, 1⟩ with
          text := [49, 49, 49, 49], binaryRadix := true }, s', []) ∧
      ∃ v q, Denotes { Token.fresh .number ⟨1, 1⟩ with
          text := [49, 49, 49, 49], binaryRadix := true } v q ∧
        Right (parseIntConstant [49, 49, 49, 49] 2) v q :=
  ⟨_, rfl, (@constant_exact_iff ⟨[49, 49, 49, 49, 66], ⟨1, 1⟩⟩ _
    { Token.fresh .number ⟨1, 1⟩ with text := [49, 49, 49, 49], binaryRadix := true } _
    (Or.inl (by decide)) rfl rfl).mpr
    (Or.inr ⟨_, _, Denotes.binary ⟨rfl, rfl, rfl⟩ (by decide +kernel), by decide⟩)⟩

/-- 10^15 has a type of 15 digits, 2^128 + 5 is kept as 2^63 - 1, and 12B as 1. -/
theorem constants_misread :
    (typeLiteral (parseIntConstant [49, 48, 48, 48, 48, 48, 48, 48, 48, 48, 48, 48,
      48, 48, 48, 48] 10)
        = Ty.fixedDec 15 0 ∧
      positional 10 [49, 48, 48, 48, 48, 48, 48, 48, 48, 48, 48, 48, 48, 48, 48, 48] = 10 ^ 15) ∧
      (stored (parseIntConstant (("340282366920938463463374607431768211461".toList).map ch) 10)
          = 2 ^ 63 - 1 ∧
        positional 10 (("340282366920938463463374607431768211461".toList).map ch) = 2 ^ 128 + 5) ∧
      stored (parseIntConstant [49, 50] 2) = 1 := by
  decide +kernel

end PliNumericConstant
