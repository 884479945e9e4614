import PliLlvm.Compiler.BinaryView
import PliLlvm.Source.NumericConstant

/- The scale of a quotient whose operands are expressions (src/sema.cpp, typeExpr, arithResultType,
   mulResultType and divResultType). A parenthesis leaves no node. A literal is the token with the
   number it writes, in units of its scale. FLOAT subexpressions have no type here. -/
namespace PliQuotientScale
open Scan Scan.Cursor FixedPoint PliFixedConvert PliFixedArith PliFixedDivision PliBinaryView
open PliLexer
open PliConstFold hiding value Expr Tok
open PliNumericConstant (parseNumber typeLiteral Denotes digitCount digit positional
  parseIntConstant)

inductive Expr where
  | varRef (ty : Ty)
  | literal (t : Token) (v q : Nat)
  | minus (a : Expr)
  | binary (op : Op) (a b : Expr)

def typeExpr : Expr → Option Ty
  | .varRef ty => some ty
  | .literal t _ _ => (parseNumber t).map typeLiteral
  | .minus a => typeExpr a
  | .binary op a b => (typeExpr a).bind fun x => (typeExpr b).bind fun y => resultType op x y

/- What the rule gives an expression, in the base and at the scale of its own. -/

def written (t : Token) (v : Nat) : Nat :=
  if t.sterling then digitCount v else (t.text.filter isDigit).length

def binToDecDigits (p : Int) : Int := min 31 (1 + (p * 25 + 82) / 83)

def maxDigits (k : TK) : Int := if k = .fixedDec then 31 else 63

def digitsIn (k : TK) (o : Ty) : Int :=
  if o.k = k then o.prec
  else if k = .fixedDec then binToDecDigits o.prec else decToBinDigits o.prec

def placesIn (k : TK) (o : Ty) : Int :=
  if o.k = k then o.prec - o.scale
  else decToBinDigits o.prec - min 62 (decToBinScale o.scale)

def commonBase (op : Op) (a b : Ty) : Option TK :=
  if BothDec a b then some .fixedDec
  else if op ≠ .star then some .fixedBin
  else if a.k = .fixedBin ∧ b.k = .fixedDec ∧ 0 < a.scale ∨
      a.k = .fixedDec ∧ b.k = .fixedBin ∧ 0 < b.scale then none
  else if a.k = .fixedBin ∧ b.k = .fixedDec ∧ 0 < b.scale ∨
      a.k = .fixedDec ∧ b.k = .fixedBin ∧ 0 < a.scale then some .fixedDec
  else some .fixedBin

def declared (k : TK) (p q : Int) : Ty := if k = .fixedDec then Ty.fixedDec p q else bin p q

def ruleResult (op : Op) (a b : Ty) (k : TK) : Ty :=
  match op with
  | .plus | .minus =>
    let q := max a.scale b.scale
    declared k (min (maxDigits k) (max (placesIn k a) (placesIn k b) + q + 1)) q
  | .star =>
    declared k (min (maxDigits k) (digitsIn k a + digitsIn k b + 1)) (a.scale + b.scale)

def ruleType : Expr → Option Ty
  | .varRef ty => some ty
  | .literal t v q => some (Ty.fixedDec (written t v) q)
  | .minus a => ruleType a
  | .binary op a b => (ruleType a).bind fun x => (ruleType b).bind fun y =>
      (commonBase op x y).map (ruleResult op x y)

def ruleBase (a : Expr) : Option TK := (ruleType a).map Ty.k

def ruleDigits (a : Expr) : Int := ((ruleType a).map Ty.prec).getD 0

def ruleScale (a : Expr) : Int := ((ruleType a).map Ty.scale).getD 0

/- How an expression is stored, from the words of its leaves. -/

structure Storage where
  word : Nat
  digits : Int

def decimalWord (p : Int) : Nat := if 18 < p then 128 else if p ≤ 9 then 32 else 64

def literalDigits (t : Token) (v : Nat) : Int :=
  if t.isFloat ∨ t.sterling then written t v
  else if v ≤ 99999 then 5
  else if v < 2 ^ 63 then 15
  else digitCount v

/-- 63 digits stand for a word of 64 bits, 31 for any other; only the factors of a DECIMAL product
    keep their digits. -/
def storedResult (op : Op) (bothDecimal decimal : Bool) (x y : Storage) : Storage :=
  let sentinel : Int := if max x.word y.word = 64 then 63 else 31
  let wide := x.word = 128 ∨ y.word = 128
  if bothDecimal then
    match op with
    | .star =>
      let p := min (x.digits + y.digits) 31
      ⟨if wide then 128 else decimalWord p, p⟩
    | .plus | .minus => ⟨if wide then 128 else 64, sentinel⟩
  else ⟨if decimal then 128 else if sentinel = 63 then 64 else 32, sentinel⟩

def storage : Expr → Storage
  | .varRef ty => ⟨ty.intBits, ty.prec⟩
  | .literal t v _ => ⟨decimalWord (literalDigits t v), literalDigits t v⟩
  | .minus a => storage a
  | .binary op a b =>
    storedResult op (ruleBase a = some .fixedDec ∧ ruleBase b = some .fixedDec)
      (ruleBase (.binary op a b) = some .fixedDec) (storage a) (storage b)

def WellFormed : Expr → Prop
  | .varRef ty => Declared ty
  | .literal t v q => Denotes t v q ∧ 0 < written t v ∧ v < 2 ^ 127
  | .minus a => WellFormed a
  | .binary _ a b => WellFormed a ∧ WellFormed b

/-- The quotient has the scale of the rule, a negative one included, and so its type, and is the
    quotient of variables of the rule's types that hold the same numbers, where the bases are two
    with each operand converted as its type is. -/
def Right (ta tb ra rb : Ty) : Prop :=
  quotientScale ta tb = quotientScale ra rb ∧ divResultType ta tb = divResultType ra rb ∧
    (∀ x y, slash ta tb x y = slash ra rb x y) ∧
    (∀ viaFloat x y, (ta.k = tb.k → Fits ta.intBits x → Fits ra.intBits x → Fits tb.intBits y →
      Fits rb.intBits y →
        emitSlash viaFloat ⟨ta, x⟩ ⟨tb, y⟩ = emitSlash viaFloat ⟨ra, x⟩ ⟨rb, y⟩)) ∧
    ∀ viaFloat x y, FloatOfWord viaFloat → Stored ta x → Stored ra x → Stored tb y → Stored rb y →
      emitSlash viaFloat ⟨ta, x⟩ ⟨tb, y⟩ = emitSlash viaFloat ⟨ra, x⟩ ⟨rb, y⟩

/-- The dividend's storage has the digits of the rule; in a mixed pair 19 DECIMAL digits and more
    are one number of bits. -/
def DigitsKept (a b : Expr) : Prop :=
  (storage a).digits = ruleDigits a ∨
    (ruleBase a = some .fixedDec ∧ ruleBase b ≠ some .fixedDec ∧ 19 ≤ (storage a).digits ∧
      19 ≤ ruleDigits a)

/-- The word of 128 bits is for more than 18 digits of the rule; or the scale is one at which the
    word makes no difference. -/
def WordKept (a : Expr) (gone : Int) : Prop :=
  ((storage a).word = 128 ↔ 18 < ruleDigits a) ∨ 0 ≤ ruleScale a ∧ ruleScale a ≤ 38 ∨
    ruleScale a ≤ gone

def Kept (a b : Expr) : Prop :=
  DigitsKept a b ∧
    (ruleBase a = some .fixedDec → ruleBase b = some .fixedBin → WordKept a (-256)) ∧
    (ruleBase a = some .fixedBin → ruleBase b = some .fixedDec → WordKept b (-64))

/-- The rule's type has the base and the scale of sema's, and the storage its word and digits. -/
structure Agrees (t r : Ty) (s : Storage) : Prop where
  fixed : t.k = .fixedBin ∨ t.k = .fixedDec
  base : r.k = t.k
  scale : r.scale = t.scale
  word : s.word = t.intBits
  digits : s.digits = t.prec
  some_digits : 0 < t.prec
  wide : t.wideDec = true → 18 < t.prec
  declared : Declared r

theorem decimalWord_eq (p q : Int) : decimalWord p = (Ty.fixedDec p q).intBits :=
  (PliNumericConstant.fixedDec_bits p q).symm

theorem declared_kind (k : TK) (fixed : k = .fixedBin ∨ k = .fixedDec) (p q : Int) :
    (declared k p q).k = k ∧ (declared k p q).prec = p ∧ (declared k p q).scale = q := by
  rcases fixed with rfl | rfl <;> exact ⟨rfl, rfl, rfl⟩

theorem ruleResult_attributes (op : Op) (a b : Ty) {k : TK}
    (fixed : k = .fixedBin ∨ k = .fixedDec) :
    (ruleResult op a b k).k = k ∧
      (ruleResult op a b k).scale =
        if op = .star then a.scale + b.scale else max a.scale b.scale := by
  cases op <;> exact ⟨(declared_kind k fixed _ _).1, (declared_kind k fixed _ _).2.2⟩

variable {op : Op} {a b : Ty}

theorem commonBase_eq (first : a.k = .fixedBin ∨ a.k = .fixedDec)
    (second : b.k = .fixedBin ∨ b.k = .fixedDec) :
    commonBase op a b = (resultType op a b).map Ty.k := by
  rcases first with one | one <;> rcases second with other | other <;> cases op <;>
    simp [commonBase, resultType, arithResultType, mulResultType, BothDec, bin, one, other]
  · by_cases left : 0 < a.scale <;> by_cases right : 0 < b.scale <;> simp [left, right]
  · by_cases left : 0 < b.scale <;> by_cases right : 0 < a.scale <;> simp [left, right]

variable {x y : Ty}

theorem arith_decimal (both : BothDec x y) : arithResultType x y =
      ⟨.fixedDec, if max x.intBits y.intBits = 64 then 63 else 31, max x.scale y.scale,
        x.wideDec || y.wideDec⟩ := if_pos both

theorem arith_binary (both : ¬BothDec x y) : arithResultType x y =
      bin (if max x.intBits y.intBits = 64 then 63 else 31) (max x.scale y.scale) := if_neg both

theorem decimal_bits (p q : Int) (wide : Bool) :
    Ty.intBits ⟨.fixedDec, p, q, wide⟩ = if wide then 128 else if p ≤ 9 then 32 else 64 := rfl

theorem wide_either (both : BothDec x y) :
    (x.intBits = 128 ∨ y.intBits = 128) ↔ (x.wideDec || y.wideDec) = true := by
  rw [decimal_wide both.1, decimal_wide both.2, Bool.or_eq_true]

theorem sentinel_word {n : Nat} (q : Int) :
    (if (if n = 64 then 63 else 31 : Int) = 63 then 64 else 32 : Nat) =
      (bin (if n = 64 then 63 else 31) q).intBits := by
  by_cases double : n = 64 <;> simp [double, bin, Ty.intBits]

theorem stored_sum {x y : Ty} {sx sy : Storage} (left : sx.word = x.intBits)
    (right : sy.word = y.intBits) {op : Op} (sum : op ≠ .star) {decimal : Bool}
    (binary : ¬BothDec x y → decimal = false) :
    (storedResult op (BothDec x y) decimal sx sy).word = (arithResultType x y).intBits ∧
      (storedResult op (BothDec x y) decimal sx sy).digits = (arithResultType x y).prec := by
  by_cases both : BothDec x y
  · have shape : storedResult op (BothDec x y) decimal sx sy =
        ⟨if x.intBits = 128 ∨ y.intBits = 128 then 128 else 64,
          if max x.intBits y.intBits = 64 then 63 else 31⟩ := by
      cases op <;> simp_all [storedResult]
    have long : ¬(if max x.intBits y.intBits = 64 then 63 else 31 : Int) ≤ 9 := by
      split <;> omega
    rw [shape, arith_decimal both]
    refine ⟨?_, rfl⟩
    rw [decimal_bits, if_neg long]
    simp only [wide_either both]
  · have shape : storedResult op (BothDec x y) decimal sx sy =
        ⟨if (if max x.intBits y.intBits = 64 then 63 else 31 : Int) = 63 then 64 else 32,
          if max x.intBits y.intBits = 64 then 63 else 31⟩ := by
      simp [storedResult, both, binary both, left, right]
    rw [shape, arith_binary both]
    exact ⟨sentinel_word _, rfl⟩

variable {t : Ty}

theorem mixed_product (first : x.k = .fixedBin) (second : y.k = .fixedDec)
    (typed : mulResultType x y = some t) :
    t.prec = (arithResultType x y).prec ∧
      (t.k = .fixedDec ∧ t.wideDec = true ∨ t.k = .fixedBin) := by
  by_cases float : 0 < x.scale
  · rw [mul_float first second float] at typed
    cases typed
  by_cases fraction : 0 < y.scale
  · rw [mul_fraction first second (by omega) fraction] at typed
    cases typed
    exact ⟨rfl, Or.inl ⟨rfl, rfl⟩⟩
  · rw [mul_whole first second (by omega) (by omega)] at typed
    cases typed
    exact ⟨rfl, Or.inr rfl⟩

theorem stored_product {sx sy : Storage} (first : x.k = .fixedBin ∨ x.k = .fixedDec)
    (second : y.k = .fixedBin ∨ y.k = .fixedDec) (left : sx.word = x.intBits ∧ sx.digits = x.prec)
    (right : sy.word = y.intBits ∧ sy.digits = y.prec) (typed : mulResultType x y = some t) :
    (storedResult .star (BothDec x y) (t.k = .fixedDec) sx sy).word = t.intBits ∧
      (storedResult .star (BothDec x y) (t.k = .fixedDec) sx sy).digits = t.prec := by
  by_cases both : BothDec x y
  · rw [mul_decimal both.1 both.2] at typed
    cases typed
    have wide := wide_either both
    have chosen : decide (BothDec x y) = true := decide_eq_true both
    simp only [storedResult, chosen, if_true, left, right, decimal_bits, decimalWord]
    by_cases held : x.intBits = 128 ∨ y.intBits = 128
    · simp [held, wide.mp held]
    · have narrow : (x.wideDec || y.wideDec) = false := by
        rw [← Bool.not_eq_true]
        exact mt wide.mpr held
      simp [held, narrow]
  · have sentinel : (arithResultType x y).prec = if max x.intBits y.intBits =
      64 then 63 else 31 := by
      rw [arith_binary both]
      rfl
    have shape (decimal : Bool) : storedResult .star (BothDec x y) decimal sx sy =
        ⟨if decimal then 128 else (bin (arithResultType x y).prec 0).intBits,
          (arithResultType x y).prec⟩ := by
      rw [sentinel, ← sentinel_word]
      simp [storedResult, both, left, right]
    rw [shape]
    have same : t.prec = (arithResultType x y).prec ∧
        (t.k = .fixedDec ∧ t.wideDec = true ∨ t.k = .fixedBin) := by
      rcases first with one | one <;> rcases second with other | other
      · rw [mul_binary one other] at typed
        cases typed
        exact ⟨rfl, Or.inr rfl⟩
      · exact mixed_product one other typed
      · rw [mulResultType_comm] at typed
        rw [arithResultType_comm]
        exact mixed_product other one typed
      · exact absurd ⟨one, other⟩ both
    obtain ⟨prec, ⟨decimal, wide⟩ | binary⟩ := same
    · refine ⟨?_, prec.symm⟩
      simp [decimal, Ty.intBits, wide]
    · refine ⟨?_, prec.symm⟩
      have word : t.intBits = (bin (arithResultType x y).prec 0).intBits := by
        unfold Ty.intBits
        rw [binary, prec]
        rfl
      simp [binary, word]

theorem commonBase_congr {a' b' : Ty} (base : a'.k = a.k) (base' : b'.k = b.k)
    (scale : a'.scale = a.scale) (scale' : b'.scale = b.scale) :
    commonBase op a' b' = commonBase op a b := by
  simp only [commonBase, BothDec, base, base', scale, scale']

theorem commonBase_fixed {k : TK} (common : commonBase op a b = some k) :
    k = .fixedBin ∨ k = .fixedDec := by
  unfold commonBase at common
  split at common
  · exact Or.inr (Option.some.inj common).symm
  split at common
  · exact Or.inl (Option.some.inj common).symm
  split at common
  · cases common
  split at common
  · exact Or.inr (Option.some.inj common).symm
  · exact Or.inl (Option.some.inj common).symm

theorem result_scale (typed : resultType op x y = some t) :
    t.scale = if op = .star then x.scale + y.scale else max x.scale y.scale := by
  cases op with
  | star =>
    simp only [resultType, mulResultType] at typed
    split at typed
    · cases typed
    · cases typed
      rfl
  | plus | minus =>
    cases typed
    unfold arithResultType
    dsimp only
    split <;> rfl

theorem declared_type {k : TK} (fixed : k = .fixedBin ∨ k = .fixedDec) {p q : Int}
    (some_digits : 0 < p) : Declared (declared k p q) := by
  rcases fixed with rfl | rfl
  · exact ⟨Or.inl rfl, some_digits, rfl⟩
  · exact ⟨Or.inr rfl, some_digits, by simp [declared, Ty.fixedDec]⟩

theorem ruleResult_declared (first : Declared a) (second : Declared b) {k : TK}
    (common : commonBase op a b = some k) : Declared (ruleResult op a b k) := by
  have fixed := commonBase_fixed common
  have top : 0 < maxDigits k := by
    unfold maxDigits
    split <;> decide
  obtain ⟨kind_a, some_a, -⟩ := first
  obtain ⟨kind_b, some_b, -⟩ := second
  have sum (plain : op ≠ .star) :
      0 < max (placesIn k a) (placesIn k b) + max a.scale b.scale + 1 := by
    have own : a.k = k ∨ b.k = k := by
      unfold commonBase at common
      split at common
      · rename_i both
        exact Or.inl (both.1.trans (Option.some.inj common))
      · rename_i mixed
        have is := Option.some.inj common
        unfold BothDec at mixed
        grind
    rcases own with own | own
    · have places : placesIn k a = a.prec - a.scale := if_pos own
      omega
    · have places : placesIn k b = b.prec - b.scale := if_pos own
      omega
  have factor {o : Ty} (some_digits : 0 < o.prec) : 0 < digitsIn k o := by
    unfold digitsIn binToDecDigits decToBinDigits
    split
    · exact some_digits
    · split <;> omega
  have factors := factor some_a
  have factors' := factor some_b
  cases op with
  | plus => exact declared_type fixed (by have := sum (by simp); omega)
  | minus => exact declared_type fixed (by have := sum (by simp); omega)
  | star => exact declared_type fixed (by omega)

theorem result_digits (first : 0 < x.prec ∧ (x.wideDec = true → 18 < x.prec))
    (second : 0 < y.prec ∧ (y.wideDec = true → 18 < y.prec)) (typed : resultType op x y = some t) :
    0 < t.prec ∧ (t.wideDec = true → 18 < t.prec) := by
  have sentinel := arith_sentinel x y
  have sum : 0 < (arithResultType x y).prec ∧
      ((arithResultType x y).wideDec = true → 18 < (arithResultType x y).prec) := by
    omega
  cases op with
  | plus | minus =>
    cases typed
    exact sum
  | star =>
    by_cases both : BothDec x y
    · rw [resultType, mul_decimal both.1 both.2] at typed
      cases typed
      have wide := first.2
      have wide' := second.2
      refine ⟨by change 0 < min _ _; omega, fun long => ?_⟩
      simp only [Bool.or_eq_true, decide_eq_true_eq] at long
      change 18 < min _ _
      rcases long with (one | other) | more
      · have := wide one
        omega
      · have := wide' other
        omega
      · exact more
    · simp only [resultType, mulResultType] at typed
      split at typed
      · cases typed
      · cases typed
        change 0 < (arithResultType x y).prec ∧ (_ → 18 < (arithResultType x y).prec)
        exact ⟨by omega, fun _ => by omega⟩

theorem result_agrees {rx ry : Ty} {sx sy : Storage} (first : Agrees x rx sx)
    (second : Agrees y ry sy) (typed : resultType op x y = some t) :
    commonBase op rx ry = some t.k ∧
      Agrees t (ruleResult op rx ry t.k)
        (storedResult op (BothDec rx ry) (t.k = .fixedDec) sx sy) := by
  have common : commonBase op rx ry = some t.k := by
    rw [commonBase_congr first.base second.base first.scale second.scale,
      commonBase_eq first.fixed second.fixed, typed]
    rfl
  have fixed := commonBase_fixed common
  have both : BothDec rx ry ↔ BothDec x y := by
    rw [BothDec, BothDec, first.base, second.base]
  obtain ⟨base, scale⟩ := ruleResult_attributes op rx ry fixed
  have stored : (storedResult op (BothDec rx ry) (t.k = .fixedDec) sx sy).word = t.intBits ∧
      (storedResult op (BothDec rx ry) (t.k = .fixedDec) sx sy).digits = t.prec := by
    simp only [both]
    have sum (plain : op ≠ .star) (is : arithResultType x y = t) := by
      have kept := @stored_sum x y sx sy first.word second.word op plain (t.k = .fixedDec) ?_
      · rw [is] at kept
        exact kept
      · intro mixed
        rw [← is, arith_binary mixed]
        rfl
    cases op with
    | star =>
      exact stored_product first.fixed second.fixed ⟨first.word, first.digits⟩
        ⟨second.word, second.digits⟩ typed
    | plus | minus => exact sum (by simp) (Option.some.inj typed)
  obtain ⟨some_digits, wide⟩ := result_digits ⟨first.some_digits, first.wide⟩
    ⟨second.some_digits, second.wide⟩ typed
  refine ⟨common, fixed, base, ?_, stored.1, stored.2, some_digits, wide,
    ruleResult_declared first.declared second.declared common⟩
  rw [scale, result_scale typed, first.scale, second.scale]

theorem int_literal_type {base : Nat} {text : List Byte} (digits : ∀ c ∈ text, digit c < base)
    (small : positional base text < 2 ^ 127) {t : Token}
    (plain : t.isFloat = false ∧ t.sterling = false) :
    typeLiteral (parseIntConstant text base) =
      Ty.fixedDec (literalDigits t (positional base text)) 0 := by
  obtain ⟨ival, wide⟩ := PliNumericConstant.int_forms digits
  generalize positional base text = v at ival wide small ⊢
  rw [(PliNumericConstant.word_nat (by omega)).mpr small] at wide
  rw [literalDigits, if_neg (by simp [plain])]
  by_cases narrow : v < 2 ^ 63
  · rw [PliNumericConstant.small_int_type rfl (by rw [ival]; omega) wide narrow, if_pos narrow]
    by_cases short : v ≤ 99999
    · rw [if_pos short, if_neg (by omega)]
    · rw [if_neg short, if_pos (by omega)]
  · rw [(PliNumericConstant.large_int_type rfl (by rw [ival]; omega) wide (by omega)).1,
      if_neg narrow, if_neg (by omega)]

theorem literal_type {t : Token} {v q : Nat} {e : PliNumericConstant.Literal}
    (denotes : Denotes t v q) (some_digit : 0 < written t v) (small : v < 2 ^ 127)
    (parsed : parseNumber t = some e) : typeLiteral e = Ty.fixedDec (literalDigits t v) q := by
  unfold parseNumber at parsed
  cases denotes with
  | integer plain digits =>
    obtain ⟨noPoint, decimal, noSign⟩ := plain
    simp only [noSign, noPoint, decimal, Bool.false_eq_true, if_false] at parsed
    split at parsed
    · cases parsed
    · cases parsed
      exact int_literal_type (fun c there => PliNumericConstant.digit_lt (digits c there)) small
        ⟨noPoint, noSign⟩
  | binary radix digits =>
    obtain ⟨noPoint, binary, noSign⟩ := radix
    simp only [noSign, noPoint, binary, Bool.false_eq_true, if_false, if_true] at parsed
    split at parsed
    · cases parsed
    · cases parsed
      exact int_literal_type (PliNumericConstant.binary_digits digits) small ⟨noPoint, noSign⟩
  | @decimal int frac point digits parts =>
    obtain ⟨float, noSign⟩ := point
    simp only [noSign, float, Bool.false_eq_true, if_false, if_true] at parsed
    split at parsed
    · cases parsed
    split at parsed
    · cases parsed
    split at parsed
    · cases parsed
    have all : (t.text.filter isDigit).length = (int ++ frac).length := by
      have dot : isDigit (ch '.') = false := by decide
      have whole := List.filter_eq_self.mpr digits
      rw [List.filter_append] at whole
      rw [parts, List.filter_append, List.filter_cons_of_neg (by simp [dot]), whole]
    rw [written, if_neg (by simp [noSign]), all] at some_digit
    cases parsed
    rw [PliNumericConstant.decimal_parsed digits parts, literalDigits,
      if_pos (Or.inl float), written,
      if_neg (by simp [noSign]), all, typeLiteral]
    dsimp only
    rw [if_pos some_digit]
  | sterling sign digits fraction parts =>
    rw [if_pos sign] at parsed
    obtain ⟨rfl, -⟩ := PliNumericConstant.sterling_parsed digits fraction parts parsed rfl
    rw [written, if_pos sign] at some_digit
    rw [literalDigits, if_pos (Or.inr sign), written, if_pos sign, typeLiteral]
    dsimp only
    rw [if_pos some_digit]

theorem expression_agrees {a : Expr} (leaves : WellFormed a) (typed : typeExpr a = some t) :
    ∃ r, ruleType a = some r ∧ Agrees t r (storage a) := by
  induction a generalizing t with
  | varRef ty =>
    cases typed
    obtain ⟨fixed, some_digits, wide⟩ := leaves
    exact ⟨_, rfl, fixed, rfl, rfl, rfl, rfl, some_digits, by grind, fixed, some_digits, wide⟩
  | literal tok v q =>
    obtain ⟨denotes, some_digit, small⟩ := leaves
    obtain ⟨e, parsed, rfl⟩ := Option.map_eq_some_iff.mp typed
    rw [literal_type denotes some_digit small parsed]
    have stored_digits : 0 < literalDigits tok v := by
      unfold literalDigits
      have long (large : 10 ^ 1 ≤ v) := PliNumericConstant.digitCount_ge (k := 0) large
      split_ifs <;> omega
    exact ⟨_, rfl, Or.inr rfl, rfl, rfl, decimalWord_eq _ _, rfl, stored_digits,
      of_decide_eq_true, @declared_type .fixedDec (Or.inr rfl) _ _ (by exact_mod_cast some_digit)⟩
  | minus a ih => exact ih leaves typed
  | binary op a b left right =>
    obtain ⟨x, first, rest⟩ := Option.bind_eq_some_iff.mp typed
    obtain ⟨y, second, result⟩ := Option.bind_eq_some_iff.mp rest
    obtain ⟨rx, rule_a, agrees_a⟩ := left leaves.1 first
    obtain ⟨ry, rule_b, agrees_b⟩ := right leaves.2 second
    obtain ⟨common, agrees⟩ := result_agrees agrees_a agrees_b result
    have rule : ruleType (.binary op a b) = some (ruleResult op rx ry t.k) := by
      rw [ruleType, rule_a, rule_b, Option.bind_some, Option.bind_some, common, Option.map_some]
    refine ⟨_, rule, ?_⟩
    have stored : storage (.binary op a b) =
        storedResult op (BothDec rx ry) (t.k = .fixedDec) (storage a) (storage b) := by
      have same : ruleBase (.binary op a b) = some t.k := by
        rw [ruleBase, rule, Option.map_some, agrees.base]
      rw [storage, same, ruleBase, ruleBase, rule_a, rule_b]
      simp [BothDec]
    rw [stored]
    exact agrees

theorem decToBinDigits_eq_iff {p p' : Int} :
    decToBinDigits p = decToBinDigits p' ↔ p = p' ∨ 19 ≤ p ∧ 19 ≤ p' := by
  unfold decToBinDigits
  omega

theorem dividendDigits_iff {ta tb ra rb : Ty} (base : ra.k = ta.k) (base' : rb.k = tb.k) :
    dividendDigits ta tb = dividendDigits ra rb ↔
      ta.prec = ra.prec ∨
        (ta.k = .fixedDec ∧ tb.k ≠ .fixedDec ∧ 19 ≤ ta.prec ∧ 19 ≤ ra.prec) := by
  unfold dividendDigits
  rw [base, base']
  split
  · rename_i mixed
    rw [decToBinDigits_eq_iff]
    simp [mixed]
  · rename_i plain
    have never : ¬(ta.k = .fixedDec ∧ tb.k ≠ .fixedDec ∧ 19 ≤ ta.prec ∧ 19 ≤ ra.prec) :=
      fun all => plain ⟨all.1, all.2.1⟩
    simp only [never, or_false]

theorem Agrees.twin {s : Storage} {r : Ty} (agrees : Agrees t r s) (decimal : t.k = .fixedDec) :
    Twin t r where
  decimal := decimal
  other := agrees.base.trans decimal
  scale := agrees.scale
  some_digits := agrees.some_digits
  other_digits := agrees.declared.2.1
  wide := fun wide => agrees.wide ((decimal_wide decimal).mp wide)
  other_wide := fun wide => by
    have long := (decimal_wide (agrees.base.trans decimal)).mp wide
    rw [agrees.declared.2.2, Bool.and_eq_true] at long
    exact of_decide_eq_true long.2

theorem right_iff {ta tb ra rb : Ty} {sa sb : Storage} (first : Agrees ta ra sa)
    (second : Agrees tb rb sb) :
    Right ta tb ra rb ↔ dividendDigits ta tb = dividendDigits ra rb ∧
      (ta.k = .fixedDec → tb.k = .fixedBin → SameView ta ra (-256)) ∧
      (ta.k = .fixedBin → tb.k = .fixedDec → SameView tb rb (-64)) := by
  have base := first.base
  have base' := second.base
  have both : BothDec ra rb ↔ BothDec ta tb := by rw [BothDec, BothDec, base, base']
  have top : maxP ra rb = maxP ta tb := by simp only [maxP, both]
  have from_a : operandScale ra rb = operandScale ta tb := by
    simp only [operandScale, base, base', first.scale]
  have from_b : operandScale rb ra = operandScale tb ta := by
    simp only [operandScale, base, base', second.scale]
  have scales : quotientScale ta tb = quotientScale ra rb ↔
      dividendDigits ta tb = dividendDigits ra rb := by
    unfold quotientScale
    omega
  have divided (digits : dividendDigits ta tb = dividendDigits ra rb) (x y : Int) :
      slash ta tb x y = slash ra rb x y := by
    simp only [slash, numerator, scaledUp, wordBits, power, both, top, digits, scales.mpr digits]
  have plain {viaFloat : Ty → Ty → Int → Converted} {x y : Int} (same : ta.k = tb.k)
      (digits : dividendDigits ta tb = dividendDigits ra rb) (held_x : Fits ta.intBits x)
      (held_x' : Fits ra.intBits x) (held_y : Fits tb.intBits y) (held_y' : Fits rb.intBits y) :
      emitSlash viaFloat ⟨ta, x⟩ ⟨tb, y⟩ = emitSlash viaFloat ⟨ra, x⟩ ⟨rb, y⟩ := by
    have plain : BothDec ta tb ∨ ta.k = .fixedBin := by
      rcases first.fixed with binary | decimal
      · exact Or.inr binary
      · exact Or.inl ⟨decimal, same ▸ decimal⟩
    have plain' : BothDec ra rb ∨ ra.k = .fixedBin := by rwa [both, base]
    have other : BothDec tb ta ∨ tb.k = .fixedBin :=
      plain.imp And.symm fun binary => same ▸ binary
    have other' : BothDec rb ra ∨ rb.k = .fixedBin := by
      rwa [BothDec, base, base']
    refine same_quotient ?_ ?_ (divided digits)
    · rw [plain_operand held_x plain, plain_operand held_x' plain']
    · rw [plain_operand held_y other, plain_operand held_y' other']
  have dividend (decimal : ta.k = .fixedDec) (binary : tb.k = .fixedBin)
      (digits : dividendDigits ta tb = dividendDigits ra rb) :=
    dividend_same_iff (first.twin decimal)
      (by simpa [dividendDigits, decimal, binary, base, base'] using digits)
      ⟨binary, second.some_digits⟩ ⟨base'.trans binary, second.declared.2.1⟩ (scales.mpr digits)
      (divided digits)
  have divisor (binary : ta.k = .fixedBin) (decimal : tb.k = .fixedDec)
      (digits : dividendDigits ta tb = dividendDigits ra rb) :=
    divisor_same_iff (second.twin decimal) ⟨binary, first.some_digits⟩
      ⟨base.trans binary, first.declared.2.1⟩ (divided digits)
  constructor
  · rintro ⟨level, -, -, -, mixed⟩
    have digits := scales.mp level
    exact ⟨digits, fun decimal binary => (dividend decimal binary digits).mp mixed,
      fun binary decimal => (divisor binary decimal digits).mp mixed⟩
  · rintro ⟨digits, kept, kept'⟩
    refine ⟨scales.mpr digits, ?_, divided digits, fun _ _ _ same => plain same digits, ?_⟩
    · simp only [divResultType, both, scales.mpr digits]
    · rcases first.fixed with binary | decimal <;> rcases second.fixed with binary' | decimal'
      · intro viaFloat x y _ held held' other other'
        exact plain (binary.trans binary'.symm) digits held.2 held'.2 other.2 other'.2
      · exact (divisor binary decimal' digits).mpr (kept' binary decimal')
      · exact (dividend decimal binary' digits).mpr (kept decimal binary')
      · intro viaFloat x y _ held held' other other'
        exact plain (decimal.trans decimal'.symm) digits held.2 held'.2 other.2 other'.2

theorem wordKept_iff {a : Expr} {r : Ty} (agrees : Agrees t r (storage a))
    (rule : ruleType a = some r) (decimal : t.k = .fixedDec) (gone : Int) :
    SameView t r gone ↔ WordKept a gone := by
  have other := agrees.base.trans decimal
  have wide : r.intBits = 128 ↔ 18 < r.prec := by
    rw [decimal_wide other, agrees.declared.2.2]
    simp [other]
  rw [SameView, WordKept, ruleDigits, ruleScale, rule, Option.map_some, Option.map_some,
    Option.getD_some, Option.getD_some, wide, agrees.word, agrees.scale]

/-- A FIXED quotient of expressions has the scale of the rule, and the value that variables with
    the digits of the rule give, exactly where the dividend's storage has those digits and the
    DECIMAL operand of a mixed pair the word. -/
theorem quotient_scale_iff {a b : Expr} (leaves : WellFormed a)
    (leaves' : WellFormed b) {ta tb : Ty}
    (dividend : typeExpr a = some ta) (divisor : typeExpr b = some tb) :
    ∃ ra rb, ruleType a = some ra ∧ ruleType b = some rb ∧ (Right ta tb ra rb ↔ Kept a b) := by
  obtain ⟨ra, rule_a, first⟩ := expression_agrees leaves dividend
  obtain ⟨rb, rule_b, second⟩ := expression_agrees leaves' divisor
  refine ⟨ra, rb, rule_a, rule_b, ?_⟩
  have base_a : ruleBase a = some ta.k := by rw [ruleBase, rule_a, Option.map_some, first.base]
  have base_b : ruleBase b = some tb.k := by rw [ruleBase, rule_b, Option.map_some, second.base]
  have digits : dividendDigits ta tb = dividendDigits ra rb ↔ DigitsKept a b := by
    rw [dividendDigits_iff first.base second.base, DigitsKept, base_a, base_b, ruleDigits, rule_a,
      first.digits]
    simp only [Option.map_some, Option.getD_some, Option.some.injEq, ne_eq]
  rw [right_iff first second, digits, Kept, base_a, base_b]
  simp only [Option.some.injEq]
  refine and_congr_right fun _ => and_congr ?_ ?_
  · exact forall_congr' fun decimal => imp_congr_right fun _ => wordKept_iff first rule_a decimal _
  · exact imp_congr_right fun _ => forall_congr' fun decimal => wordKept_iff second rule_b decimal _

def amount : Expr := .varRef (Ty.fixedDec 10 2)

def three : Token := { Token.fresh .number ⟨1, 1⟩ with text := [51] }

def longProduct : Expr :=
  .minus (.binary .star (.varRef (Ty.fixedDec 20 0)) (.varRef (Ty.fixedDec 20 0)))

/-- -(x * y) of long factors has the scale of the rule over a + 3 and over a BINARY variable. -/
theorem long_product_kept :
    (∃ ra rb, ruleType longProduct = some ra ∧
      ruleType (.binary .plus amount (.literal three 3 0)) = some rb ∧
      Right ⟨.fixedDec, 31, 0, true⟩ ⟨.fixedDec, 63, 2, false⟩ ra rb) ∧
    ∃ ra rb, ruleType longProduct = some ra ∧ ruleType (.varRef (bin 31 0)) = some rb ∧
      Right ⟨.fixedDec, 31, 0, true⟩ (bin 31 0) ra rb := by
  have factors : WellFormed longProduct :=
    ⟨(by decide : Declared (Ty.fixedDec 20 0)), (by decide : Declared (Ty.fixedDec 20 0))⟩
  constructor
  · obtain ⟨ra, rb, rule_a, rule_b, kept⟩ := @quotient_scale_iff longProduct
      (.binary .plus amount (.literal three 3 0)) factors
      ⟨(by decide : Declared (Ty.fixedDec 10 2)),
        Denotes.integer ⟨rfl, rfl, rfl⟩ (by decide +kernel), by decide, by decide⟩
      ⟨.fixedDec, 31, 0, true⟩ ⟨.fixedDec, 63, 2, false⟩ rfl (by decide +kernel)
    exact ⟨ra, rb, rule_a, rule_b, kept.mpr ⟨Or.inl (by decide +kernel),
      fun _ binary => absurd binary (by decide +kernel),
      fun binary => absurd binary (by decide +kernel)⟩⟩
  · obtain ⟨ra, rb, rule_a, rule_b, kept⟩ := @quotient_scale_iff longProduct (.varRef (bin 31 0))
      factors (by decide : Declared (bin 31 0)) ⟨.fixedDec, 31, 0, true⟩ (bin 31 0) rfl rfl
    exact ⟨ra, rb, rule_a, rule_b, kept.mpr ⟨Or.inl (by decide +kernel),
      fun _ _ => Or.inl (by decide +kernel), fun binary => absurd binary (by decide +kernel)⟩⟩

/-- (1.00 + 2.00) / 2.00 of DECIMAL(10,2) has 63 digits to divide and is FIXEDOVERFLOW, where a
    DECIMAL(11,2) gives 1.5 with 20 places; a product of two DECIMAL(5) has one place less than the
    rule gives, and 1 / 3 has 26 for 30. 100000 / 1 of a sum of two DECIMAL(18,-2) over BINARY is
    converted in i128, where a DECIMAL(19,-2) is in i256. -/
theorem long_sum_overflows :
    (typeExpr (.binary .plus amount amount) = some ⟨.fixedDec, 63, 2, false⟩ ∧
      ruleType (.binary .plus amount amount) = some (Ty.fixedDec 11 2) ∧
      quotientScale ⟨.fixedDec, 63, 2, false⟩ (Ty.fixedDec 10 2) = -32 ∧
      quotientScale (Ty.fixedDec 11 2) (Ty.fixedDec 10 2) = 20 ∧
      slash ⟨.fixedDec, 63, 2, false⟩ (Ty.fixedDec 10 2) 300 200 = .result ⟨10 ^ 32, true⟩ ∧
      slash (Ty.fixedDec 11 2) (Ty.fixedDec 10 2) 300 200 = .result ⟨15 * 10 ^ 19, false⟩ ∧
      ¬Right ⟨.fixedDec, 63, 2, false⟩ (Ty.fixedDec 10 2) (Ty.fixedDec 11 2) (Ty.fixedDec 10 2)) ∧
    (typeExpr (.binary .star (.varRef (Ty.fixedDec 5 0)) (.varRef (Ty.fixedDec 5 0))) =
        some (Ty.fixedDec 10 0) ∧
      ruleType (.binary .star (.varRef (Ty.fixedDec 5 0)) (.varRef (Ty.fixedDec 5 0))) =
        some (Ty.fixedDec 11 0)) ∧
    (typeExpr (.binary .plus (.varRef (Ty.fixedDec 18 (-2))) (.varRef (Ty.fixedDec 18 (-2)))) =
        some ⟨.fixedDec, 63, -2, false⟩ ∧
      ruleType (.binary .plus (.varRef (Ty.fixedDec 18 (-2))) (.varRef (Ty.fixedDec 18 (-2)))) =
        some (Ty.fixedDec 19 (-2)) ∧
      emitSlash noisy ⟨⟨.fixedDec, 63, -2, false⟩, 1000⟩ ⟨bin 31 0, 1⟩ =
        some (.result ⟨89600, false⟩) ∧
      emitSlash noisy ⟨Ty.fixedDec 19 (-2), 1000⟩ ⟨bin 31 0, 1⟩ =
        some (.result ⟨12800000, false⟩)) ∧
    typeExpr (.literal three 3 0) = some (Ty.fixedDec 5 0) ∧
      ruleType (.literal three 3 0) = some (Ty.fixedDec 1 0) := by
  refine ⟨⟨by decide +kernel, by decide +kernel, by decide, by decide, by decide +kernel,
    by decide +kernel, ?_⟩, by decide +kernel, by decide +kernel, by decide +kernel⟩
  rintro ⟨level, -⟩
  exact absurd level (by decide)

end PliQuotientScale
