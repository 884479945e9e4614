import PliLlvm.Compiler.FixedConvert
import PliLlvm.Source.NumericConstant

/- The raw value that an INITIAL literal gives a FIXED variable (src/irgen.cpp, src/sema.cpp,
   src/parser.cpp) in each storage class, and the one that an assignment of the same literal
   gives it. A long long and a PliI128 are integers reduced after every operation. Literals
   are unsigned, as the parser makes them; a sign or an operator makes an expression. EXTERNAL
   variables, FLOAT literals and the array and structure walks are left out. -/
namespace PliInitialValue
open Scan FixedPoint PliConstFold PliFixedConvert PliLexer
open PliNumericConstant (digit positional parseIntConstant parseDecConstant)

inductive LitKind where
  | intLit
  | decLit
  deriving DecidableEq

structure Lit where
  kind : LitKind
  wideIval : Int
  ival : Int
  decScale : Int
  decPrec : Int
  ty : Ty
  deriving DecidableEq

def untyped : Ty := ⟨.other, 0, 0, false⟩

/-- A number in the source: decimal or binary digits, or digits with a point. -/
inductive Literal where
  | integer (base : Nat) (text : List Byte) (digits : ∀ c ∈ text, digit c < base)
  | decimal (int frac : List Byte) (digits : ∀ c ∈ int ++ frac, isDigit c = true)

def literalNode (e : PliNumericConstant.Literal) : Lit :=
  { kind := match e.kind with
      | .intLit => .intLit
      | .decLit => .decLit
    wideIval := e.wideIval, ival := e.ival, decScale := e.decScale, decPrec := e.decPrec
    ty := untyped }

def Literal.parse : Literal → Lit
  | .integer base text _ => literalNode (parseIntConstant text base)
  | .decimal int frac _ => literalNode (parseDecConstant (int ++ ch '.' :: frac))

def literalTy (lit : Lit) : Ty :=
  match lit.kind with
  | .intLit =>
    let ty :=
      if lit.wideIval ≠ lit.ival then Ty.fixedDec (constDigits (BitVec.ofInt 128 lit.wideIval)) 0
      else Ty.fixedDec (if 99999 < lit.ival ∨ lit.ival < -99999 then 15 else 5) 0
    if ty.intBits = 32 ∧ (2147483647 < lit.ival ∨ lit.ival < -2147483648) then bin 63 0 else ty
  | .decLit => Ty.fixedDec (if 0 < lit.decPrec then lit.decPrec else 1) lit.decScale

def needsWideDecLit (lit : Lit) (t : Ty) : Bool :=
  match lit.kind with
  | .decLit => t.intBits = 128 || 18 < lit.decPrec
  | .intLit => t.intBits = 128

def emitLiteral (lit : Lit) (ty : Ty) : Int :=
  if needsWideDecLit lit ty then lit.wideIval else word ty.intBits lit.ival

def assigned (dst : Ty) (lit : Lit) : Option Converted :=
  convert (literalTy lit) dst (emitLiteral lit (literalTy lit))

def Lit.expr (lit : Lit) : Expr :=
  match lit.kind with
  | .intLit => .intLit (BitVec.ofInt 128 lit.wideIval)
  | .decLit =>
    .decLit (BitVec.ofInt 128 lit.wideIval) (BitVec.ofInt 64 lit.ival) lit.decScale lit.decPrec
      (some lit.ty) false

def foldInitialConstant (lit : Lit) (ty : Ty) : Option Lit :=
  match ty.k with
  | .fixedDec =>
    match foldConstExpr lit.expr ty ty.scale with
    | (.decLit wideIval ival _ decPrec _ _, true) =>
      some ⟨.decLit, wideIval.toInt, ival.toInt, ty.scale, decPrec, Ty.fixedDec decPrec ty.scale⟩
    | _ => none
  | .fixedBin => some { lit with ty := bin ty.prec ty.scale }
  | .other => some lit

def wideDecConstant (t : Ty) (w : Int) : Int :=
  if t.intBits = 128 then w else word t.intBits (word 64 w)

def pliRescaleDown (v k : Int) (decTarget : Bool) : Int :=
  if decTarget then roundedSDiv 64 v (word 64 (pliPow10 (k - 1) * 5)) (pliPow10 k)
  else word 64 (v.tdiv (pliPow10 k))

def pliRescaleDown128 (v k : Int) (decTarget : Bool) : Int :=
  if decTarget then roundedSDiv 128 v (word 128 (pliPow10_128 (k - 1) * 5)) (pliPow10_128 k)
  else word 128 (v.tdiv (pliPow10_128 k))

def decLitRescaled128 (lit : Lit) (t : Ty) : Int :=
  let dq := t.scale - lit.decScale
  if 0 < dq then word 128 (lit.wideIval * pliPow10_128 dq)
  else if dq < 0 then pliRescaleDown128 lit.wideIval (-dq) (t.k = .fixedDec)
  else lit.wideIval

def binLitRescaled (lit : Lit) (t : Ty) : Int :=
  let v := match lit.kind with
    | .decLit => lit.wideIval
    | .intLit => lit.ival
  let v :=
    if 0 < t.scale then word 128 (v * oneShl t.scale)
    else if t.scale < 0 then word 128 (v.tdiv (oneShl (-t.scale)))
    else v
  if lit.kind = .decLit ∧ 0 < lit.decScale then word 128 (v.tdiv (pliPow10_128 lit.decScale)) else v

def ivalRescaled (lit : Lit) (t : Ty) : Int :=
  match lit.kind with
  | .decLit =>
    let dq := t.scale - lit.decScale
    if 0 < dq then word 64 (lit.ival * pliPow10 dq)
    else if dq < 0 then pliRescaleDown lit.ival (-dq) (t.k = .fixedDec)
    else lit.ival
  | .intLit => lit.ival

def decimalInit (t : Ty) (lit : Lit) : Int :=
  if needsWideDecLit lit t then wideDecConstant t (decLitRescaled128 lit t)
  else word t.intBits (ivalRescaled lit t)

def scalarInitConstant (t : Ty) (lit : Lit) : Int :=
  if t.k = .fixedBin then wideDecConstant t (binLitRescaled lit t) else decimalInit t lit

def constScalarInit (t : Ty) (lit : Lit) : Int :=
  if t.k = .fixedBin then wideDecConstant t (binLitRescaled lit t) else decimalInit t lit

def initValue (t : Ty) (lit : Lit) : Int :=
  if t.k = .fixedBin then
    (fixedBinPrecTrap t.intBits (wideDecConstant t (binLitRescaled lit t)) t.prec).raw
  else decimalInit t lit

/-- storeTo converts the value, which has the variable's own type, as an assignment does. -/
def storeTo (t : Ty) (raw : Int) : Int := ((convert t t raw).map (·.raw)).getD raw

def emitCtlInit (t : Ty) (lit : Lit) : Int := storeTo t (decimalInit t lit)

/-- Where the initial value goes. A STATIC structure takes the type of a member from the
    literal; the elements and members of other storage all go through initValue. -/
inductive Storage where
  | static
  | staticMember
  | automatic
  | element
  | controlled
  deriving DecidableEq

def initialRaw (storage : Storage) (t : Ty) (lit : Lit) : Int :=
  match storage with
  | .static => scalarInitConstant t lit
  | .staticMember => scalarInitConstant lit.ty lit
  | .automatic => storeTo t (constScalarInit t lit)
  | .element => initValue t lit
  | .controlled => emitCtlInit t lit

def Literal.number : Literal → Nat
  | .integer base text _ => positional base text
  | .decimal int frac _ => positional 10 (int ++ frac)

def Literal.scale : Literal → Nat
  | .integer .. => 0
  | .decimal _ frac _ => frac.length

/-- A literal that takes 128 bits: an integer past a long long, a decimal of more than 18 digits. -/
def Literal.wide : Literal → Bool
  | .integer base text _ => 2 ^ 63 ≤ positional base text
  | .decimal int frac _ => 18 < (int ++ frac).length

def Literal.shortNumber (l : Literal) : Nat :=
  match l with
  | .integer .. => min l.number (2 ^ 63 - 1)
  | .decimal .. => l.number

variable {l : Literal} {n : Nat}

theorem integer_parsed {base : Nat} {text : List Byte} (digits : ∀ c ∈ text, digit c < base)
    (number : positional base text = n) (holds : n < 2 ^ 127) :
    (Literal.integer base text digits).parse = ⟨.intLit, n, min n (2 ^ 63 - 1), 0, 0, untyped⟩ := by
  obtain ⟨ival, wide⟩ := PliNumericConstant.int_forms digits
  rw [number] at ival wide
  rw [(PliNumericConstant.word_nat (by omega)).mpr holds] at wide
  rw [Literal.parse, literalNode, ival, wide]
  rfl

theorem decimal_parsed {int frac : List Byte} (digits : ∀ c ∈ int ++ frac, isDigit c = true)
    (number : positional 10 (int ++ frac) = n) (holds : n < 2 ^ 127) :
    (Literal.decimal int frac digits).parse =
      ⟨.decLit, n, word 64 n, frac.length, (int ++ frac).length, untyped⟩ := by
  have wide : PliNumericConstant.accumulate 10 0 (int ++ frac) = n := by
    rw [PliNumericConstant.accumulate_zero, number,
      (PliNumericConstant.word_nat (by omega)).mpr holds]
  rw [Literal.parse, PliNumericConstant.decimal_parsed digits rfl, literalNode]
  simp only [wide]

theorem parse_wideIval (holds : l.number < 2 ^ 127) : l.parse.wideIval = l.number := by
  cases l with
  | integer base text digits => rw [integer_parsed digits rfl holds]; rfl
  | decimal int frac digits => rw [decimal_parsed digits rfl holds]; rfl

theorem decimal_lt {int frac : List Byte} (digits : ∀ c ∈ int ++ frac, isDigit c = true) :
    positional 10 (int ++ frac) < 10 ^ (int ++ frac).length :=
  PliNumericConstant.positional_lt fun c there => PliNumericConstant.digit_lt (digits c there)

theorem narrow_number {l : Literal} (narrow : l.wide = false) : l.number < 2 ^ 63 := by
  cases l with
  | integer base text digits => simpa [Literal.wide, Literal.number] using narrow
  | decimal int frac digits =>
    have bound := decimal_lt digits
    have few : (int ++ frac).length ≤ 18 := by simpa [Literal.wide] using narrow
    have power : 10 ^ (int ++ frac).length ≤ 10 ^ 18 := Nat.pow_le_pow_right (by omega) few
    exact lt_of_lt_of_le bound (le_trans power (by norm_num))

theorem digitTurns_enough {turns u k : Nat} (small : u < 10 ^ turns) (large : 10 ^ k ≤ u) :
    k < digitTurns turns u := by
  induction turns generalizing u k with
  | zero =>
    have power : 0 < 10 ^ k := by positivity
    omega
  | succ turns ih =>
    rw [digitTurns]
    cases k with
    | zero => split <;> omega
    | succ k =>
      rw [pow_succ] at small large
      have some_tens : 10 ^ k ≤ u / 10 := by omega
      have power : 0 < 10 ^ k := by positivity
      rw [if_neg (by omega)]
      have rest := ih (by omega : u / 10 < 10 ^ turns) some_tens
      omega

theorem wide_digits (large : 2 ^ 63 ≤ n) (holds : n < 2 ^ 127) :
    18 < constDigits (BitVec.ofInt 128 n) := by
  have kept : (BitVec.ofInt 128 (n : Int)).toInt = n := by
    apply word_of_fits (by omega)
    unfold Fits
    omega
  have magnitude := magS_toNat (BitVec.ofInt 128 (n : Int))
  rw [kept, abs_of_nonneg (by omega)] at magnitude
  have turns : 18 < digitTurns 39 (magS (BitVec.ofInt 128 (n : Int))).toNat := by
    apply digitTurns_enough
    · omega
    · omega
  unfold constDigits
  omega

structure Emits (l : Literal) : Prop where
  decimal : (literalTy l.parse).k = .fixedDec
  scale : (literalTy l.parse).scale = l.scale
  wide : (literalTy l.parse).wideDec = l.wide
  raw : emitLiteral l.parse (literalTy l.parse) = l.number

theorem fixedDec_bits (p q : Int) :
    (Ty.fixedDec p q).intBits = if 18 < p then 128 else if p ≤ 9 then 32 else 64 := by
  unfold Ty.intBits Ty.fixedDec
  by_cases wide : 18 < p
  · simp [wide]
  · simp [wide]

theorem fixedDec_wide (p q : Int) : (Ty.fixedDec p q).intBits = 128 ↔ 18 < p := by
  rw [fixedDec_bits]
  split
  · simp_all
  · split <;> simp_all

theorem fixedDec_holds {p : Nat} (digits : n < 10 ^ p) (short : p ≤ 18) {p' : Int}
    (le : p ≤ p') (q : Int) :
    Fits (Ty.fixedDec p' q).intBits (n : Int) := by
  have power : 10 ^ p ≤ 10 ^ 18 := Nat.pow_le_pow_right (by omega) short
  rw [fixedDec_bits]
  unfold Fits
  split
  · omega
  · split
    · have nine : 10 ^ p ≤ 10 ^ 9 := Nat.pow_le_pow_right (by omega) (by omega)
      omega
    · omega

theorem integer_ty (holds : n < 2 ^ 127) :
    ∃ p, literalTy ⟨.intLit, n, min n (2 ^ 63 - 1), 0, 0, untyped⟩ = Ty.fixedDec p 0 ∧
      (18 < p ↔ 2 ^ 63 ≤ n) ∧ (n < 2 ^ 63 → Fits (Ty.fixedDec p 0).intBits n) := by
  unfold literalTy
  dsimp only
  by_cases large : 2 ^ 63 ≤ n
  · have many := wide_digits large holds
    have apart : (n : Int) ≠ min (n : Int) (2 ^ 63 - 1) := by omega
    have bits := (fixedDec_wide (constDigits (BitVec.ofInt 128 n)) 0).mpr many
    refine ⟨constDigits (BitVec.ofInt 128 n), ?_, by omega, by omega⟩
    rw [if_pos apart, bits, if_neg (by simp)]
  · have same : min (n : Int) (2 ^ 63 - 1) = n := by omega
    have equal : ¬ ((n : Int) ≠ n) := fun apart => apart rfl
    rw [same, if_neg equal]
    by_cases tier : 99999 < n
    · refine ⟨15, ?_, by omega, ?_⟩
      · rw [if_pos (Or.inl (by exact_mod_cast tier)), fixedDec_bits, if_neg (by simp)]
      · intro short
        rw [fixedDec_bits]
        unfold Fits
        norm_num
        omega
    · refine ⟨5, ?_, by omega, ?_⟩
      · rw [if_neg (by omega), if_neg (by omega)]
      · intro short
        rw [fixedDec_bits]
        unfold Fits
        norm_num
        omega

theorem integer_emits {base : Nat} {text : List Byte} (digits : ∀ c ∈ text, digit c < base)
    (holds : positional base text < 2 ^ 127) : Emits (.integer base text digits) := by
  generalize number : positional base text = n at holds
  have parsed := integer_parsed digits number holds
  have is : (Literal.integer base text digits).number = n := number
  have is_wide : (Literal.integer base text digits).wide = decide (2 ^ 63 ≤ n) := by
    rw [← number]
    rfl
  obtain ⟨p, ty, tier, kept⟩ := integer_ty holds
  rw [← parsed] at ty
  constructor
  · rw [ty]
    rfl
  · rw [ty]
    rfl
  · rw [ty, is_wide, ← decide_eq_decide.mpr tier]
    rfl
  · rw [ty, is, parsed]
    unfold emitLiteral needsWideDecLit
    dsimp only
    by_cases large : 2 ^ 63 ≤ n
    · rw [if_pos (by simpa [fixedDec_wide, tier] using large)]
    · have same : min (n : Int) (2 ^ 63 - 1) = n := by omega
      rw [if_neg (by simpa [fixedDec_wide, tier] using large), same]
      exact word_of_fits (intBits_pos _) (kept (by omega))

theorem decimal_emits {int frac : List Byte} (digits : ∀ c ∈ int ++ frac, isDigit c = true)
    (holds : positional 10 (int ++ frac) < 2 ^ 127) : Emits (.decimal int frac digits) := by
  have bound := decimal_lt digits
  generalize number : positional 10 (int ++ frac) = n at holds bound
  have parsed := decimal_parsed digits number holds
  have is : (Literal.decimal int frac digits).number = n := number
  have is_wide : (Literal.decimal int frac digits).wide = decide (18 < (int ++ frac).length) := rfl
  generalize (int ++ frac).length = p at bound parsed is_wide
  obtain ⟨p', ty, le, tier⟩ : ∃ p' : Int, literalTy (Literal.decimal int frac digits).parse =
      Ty.fixedDec p' frac.length ∧ p ≤ p' ∧ (18 < p' ↔ 18 < p) := by
    rw [parsed]
    refine ⟨if 0 < (p : Int) then p else 1, rfl, ?_, ?_⟩ <;> split <;> omega
  constructor
  · rw [ty]
    rfl
  · rw [ty]
    rfl
  · rw [ty, is_wide, ← decide_eq_decide.mpr tier]
    rfl
  · rw [ty, is, parsed]
    unfold emitLiteral needsWideDecLit
    dsimp only
    by_cases large : 18 < p
    · rw [if_pos (by simp [large])]
    · have short : p ≤ 18 := by omega
      have long : Fits 64 (n : Int) := fixedDec_holds bound short (Int.ofNat_le.mpr short) 0
      have kept := fixedDec_holds bound short le frac.length
      rw [if_neg (by simp [fixedDec_wide, tier, large]), word_of_fits (by omega) long]
      exact word_of_fits (intBits_pos _) kept

theorem literal_emits (holds : l.number < 2 ^ 127) : Emits l := by
  cases l with
  | integer base text digits => exact integer_emits digits holds
  | decimal int frac digits => exact decimal_emits digits holds

def folded (l : Literal) (dst : Ty) : BitVec 128 :=
  rescale ⟨BitVec.ofInt 128 l.parse.wideIval, l.scale,
    constDigits (BitVec.ofInt 128 l.parse.wideIval)⟩ dst.scale

theorem fold_digits {e e' : Expr} {ty : Ty} {scale : Int}
    (fold : foldConstExpr e ty scale = (e', true))
    {n : ConstNum} (number : constNumOf e = some n) : constDigits
    (rescale n scale) ≤ storageDigits ty := by
  unfold foldConstExpr at fold
  split at fold
  · cases fold
  · rw [number] at fold
    dsimp only at fold
    split at fold
    · cases fold
    · omega

variable {dst : Ty}

theorem accepted_decimal (decimal : dst.k = .fixedDec) {lit : Lit}
    (accepted : foldInitialConstant l.parse dst = some lit) :
    lit = ⟨.decLit, (folded l dst).toInt, ((folded l dst).setWidth 64).toInt, dst.scale,
        constDigits (folded l dst), Ty.fixedDec (constDigits (folded l dst)) dst.scale⟩ ∧
      constDigits (folded l dst) ≤ storageDigits dst := by
  have number : constNumOf l.parse.expr = some ⟨BitVec.ofInt 128 l.parse.wideIval, l.scale,
      constDigits (BitVec.ofInt 128 l.parse.wideIval)⟩ := by
    cases l with
    | integer base text digits => rfl
    | decimal int frac digits =>
      rw [Literal.parse, PliNumericConstant.decimal_parsed digits rfl]
      rfl
  unfold foldInitialConstant at accepted
  rw [decimal] at accepted
  dsimp only at accepted
  split at accepted
  · rename_i wideIval ival scale decPrec ty whole fold
    cases accepted
    have kept := fold_digits fold number
    obtain ⟨n, same, digits, node⟩ := fold_rewrites fold
    rw [number] at same
    cases same
    cases node
    exact ⟨rfl, kept⟩
  · cases accepted

theorem folded_fits (kept : constDigits (folded l dst) ≤ storageDigits dst) :
    Fits dst.intBits (folded l dst).toInt ∧
      Fits (Ty.fixedDec (constDigits (folded l dst)) dst.scale).intBits (folded l dst).toInt := by
  have bound := constDigits_bound (le_refl (constDigits (folded l dst)))
  generalize (folded l dst).toInt = v at bound
  generalize constDigits (folded l dst) = p at bound kept
  have few : ∀ k : Nat, p ≤ k → -10 ^ k < v ∧ v < 10 ^ k := by
    intro k le
    have power : (10 : Int) ^ p.toNat ≤ 10 ^ k := by
      exact_mod_cast Nat.pow_le_pow_right (by omega) (by omega : p.toNat ≤ k)
    exact abs_lt.mp (lt_of_lt_of_le bound power)
  have widths : p ≤ 38 := by
    unfold storageDigits at kept
    split at kept
    · exact kept
    · split at kept <;> omega
  have most := few 38 widths
  constructor
  · unfold storageDigits at kept
    unfold Fits
    rcases slot_cases dst with bits | bits | bits
    · have short := few 9 (by simpa [bits] using kept)
      rw [bits]
      omega
    · have long := few 18 (by simpa [bits] using kept)
      rw [bits]
      omega
    · rw [bits]
      omega
  · rw [fixedDec_bits]
    unfold Fits
    split
    · omega
    · have long := few 18 (by omega)
      split
      · have short := few 9 (by omega)
        omega
      · omega

theorem storeTo_decimal (decimal : dst.k = .fixedDec) {raw : Int} (fits : Fits dst.intBits raw) :
    storeTo dst raw = raw := by
  have done : convert dst dst raw = some (decToDec dst dst raw) := by
    simp [convert, throughFloat, decimal]
  have level : dst.scale - dst.scale = 0 := Int.sub_self _
  rw [storeTo, done]
  simp only [decToDec, level, Int.lt_irrefl, if_false, checkDec, fitFixed, Option.map_some,
    Option.getD_some]
  exact word_of_fits (intBits_pos dst) fits

theorem decimal_initial (decimal : dst.k = .fixedDec) {lit : Lit}
    (accepted : foldInitialConstant l.parse dst = some lit) (storage : Storage) :
    initialRaw storage dst lit = (folded l dst).toInt := by
  obtain ⟨node, kept⟩ := accepted_decimal decimal accepted
  obtain ⟨slot, own⟩ := folded_fits kept
  have wide_only : 18 < constDigits (folded l dst) → dst.intBits = 128 := by
    intro many
    unfold storageDigits at kept
    split at kept
    · assumption
    · split at kept <;> omega
  have low : ((folded l dst).setWidth 64).toInt = word 64 (folded l dst).toInt := by
    rw [← BitVec.signExtend_eq_setWidth_of_le _ (by omega)]
    rfl
  have initial : ∀ t : Ty, t.scale = dst.scale → Fits t.intBits (folded l dst).toInt →
      (18 < constDigits (folded l dst) → t.intBits = 128) →
      decimalInit t lit = (folded l dst).toInt := by
    intro t scale fits many
    have same_scale : t.scale - dst.scale = 0 := by omega
    unfold decimalInit
    rw [node]
    dsimp only [needsWideDecLit, decLitRescaled128, ivalRescaled]
    rw [same_scale]
    simp only [lt_irrefl, if_false]
    by_cases wide : t.intBits = 128
    · rw [if_pos (by simp [wide]), wideDecConstant, if_pos wide]
    · have few : ¬ 18 < constDigits (folded l dst) := fun many_digits => wide (many many_digits)
      have bits : t.intBits ≤ 64 := by
        have widths := slot_cases t
        omega
      rw [if_neg (by simp [wide, few]), low, word_word bits]
      exact word_of_fits (intBits_pos t) fits
  cases storage with
  | static =>
    show scalarInitConstant dst lit = _
    rw [scalarInitConstant, if_neg (by simp [decimal])]
    exact initial dst rfl slot wide_only
  | staticMember =>
    show scalarInitConstant lit.ty lit = _
    have ty : lit.ty = Ty.fixedDec (constDigits (folded l dst)) dst.scale := by rw [node]
    rw [scalarInitConstant, if_neg (by rw [ty]; simp [Ty.fixedDec]), ty]
    exact initial _ rfl own (fixedDec_wide _ _).mpr
  | automatic =>
    show storeTo dst (constScalarInit dst lit) = _
    rw [constScalarInit, if_neg (by simp [decimal]), initial dst rfl slot wide_only]
    exact storeTo_decimal decimal slot
  | element =>
    show initValue dst lit = _
    rw [initValue, if_neg (by simp [decimal])]
    exact initial dst rfl slot wide_only
  | controlled =>
    show storeTo dst (decimalInit dst lit) = _
    rw [initial dst rfl slot wide_only]
    exact storeTo_decimal decimal slot

theorem parsed_word (holds : l.number < 2 ^ 127) :
    (BitVec.ofInt 128 l.parse.wideIval).toInt = l.number := by
  rw [parse_wideIval holds]
  apply word_of_fits (by omega)
  unfold Fits
  omega

theorem folded_up (holds : l.number < 2 ^ 127) (up : l.scale < dst.scale) :
    (folded l dst).toInt = word 128 (l.number * 10 ^ (dst.scale - l.scale).toNat) := by
  unfold folded rescale scaleUp
  rw [if_pos up, timesTen_ofInt, parse_wideIval holds]
  rfl

theorem folded_level {l : Literal} {dst : Ty} (holds : l.number < 2 ^ 127)
    (level : dst.scale = l.scale) :
    (folded l dst).toInt = l.number := by
  unfold folded rescale
  rw [if_neg (by dsimp only; omega), if_neg (by dsimp only; omega)]
  exact parsed_word holds

theorem folded_down (holds : l.number < 2 ^ 127) {k : Int}
    (drop : k = l.scale - dst.scale) (down : 0 < k) :
    (folded l dst).toInt =
      roundedSDiv 128 l.number (word 128 (pliPow10_128 (k - 1) * 5)) (pliPow10_128 k) := by
  have one_less : k.toNat - 1 = (k - 1).toNat := by omega
  have half : pow10 (k - 1).toNat * 5 = BitVec.ofInt 128 (word 128 (pliPow10_128 (k - 1) * 5)) := by
    rw [ofInt_word, BitVec.ofInt_mul, pliPow10_128, ofInt_word, pow10_ofInt]
    rfl
  generalize word 128 (pliPow10_128 (k - 1) * 5) = h at half ⊢
  have moved : BitVec.ofInt 128 (l.number : Int) + BitVec.ofInt 128 h * (if
    (l.number : Int) < 0 then -1 else 1) =
      BitVec.ofInt 128 (l.number + word 128 (h * if (l.number : Int) < 0 then -1 else 1)) := by
    rw [BitVec.ofInt_add, ofInt_word, BitVec.ofInt_mul]
    split <;> rfl
  unfold folded rescale roundedSDiv
  rw [if_neg (by dsimp only; omega), if_pos (by dsimp only; omega)]
  dsimp only
  rw [parsed_word holds, ← drop, one_less, half, parse_wideIval holds, moved,
    BitVec.toInt_sdiv, pow10_ofInt]
  exact (BitVec.toInt_ofInt _).symm

def decimalWidth (l : Literal) (dst : Ty) : Nat := if l.wide || dst.wideDec then 128 else 64

def decimalPower (l : Literal) (dst : Ty) : Int → Int :=
  if l.wide || dst.wideDec then pliPow10_128 else pliPow10

theorem assigned_decimal (holds : l.number < 2 ^ 127) (decimal : dst.k = .fixedDec) :
    (assigned dst l.parse).map (·.raw) =
      some (word dst.intBits (
        if l.scale < dst.scale then
          word (decimalWidth l dst) (l.number * decimalPower l dst (dst.scale - l.scale))
        else if dst.scale < l.scale then
          if dst.scale < 0 then
            word (decimalWidth l dst) ((l.number : Int).tdiv
              (decimalPower l dst (l.scale - dst.scale)))
          else roundedSDiv (decimalWidth l dst) l.number
            (word (decimalWidth l dst) (decimalPower l dst (l.scale - dst.scale - 1) * 5))
            (decimalPower l dst (l.scale - dst.scale))
        else l.number)) := by
  have emits := literal_emits holds
  have width := decToDec_width emits.decimal decimal
  rw [emits.wide] at width
  have done : assigned dst l.parse = some (decToDec (literalTy l.parse) dst l.number) := by
    simp [assigned, convert, throughFloat, emits.decimal, decimal, emits.raw]
  rw [done, Option.map_some]
  congr 1
  unfold decToDec decimalWidth decimalPower
  dsimp only
  rw [emits.scale]
  have reversed : -(dst.scale - (l.scale : Int)) = l.scale - dst.scale := by ring
  rw [reversed]
  by_cases wide : (l.wide || dst.wideDec) = true
  · rw [if_pos (width.mpr wide), if_pos (width.mpr wide), if_pos wide, if_pos wide]
    by_cases up : (l.scale : Int) < dst.scale
    · rw [if_pos (by omega), if_pos up]
      rfl
    · rw [if_neg (by omega), if_neg up]
      by_cases down : dst.scale < l.scale
      · rw [if_pos (by omega), if_pos down]
        split <;> rfl
      · rw [if_neg (by omega), if_neg down]
        rfl
  · have narrow : ¬ max (literalTy l.parse).intBits dst.intBits = 128 :=
      fun full => wide (width.mp full)
    rw [if_neg narrow, if_neg narrow, if_neg wide, if_neg wide]
    by_cases up : (l.scale : Int) < dst.scale
    · rw [if_pos (by omega), if_pos up]
      rfl
    · rw [if_neg (by omega), if_neg up]
      by_cases down : dst.scale < l.scale
      · rw [if_pos (by omega), if_pos down]
        split <;> rfl
      · rw [if_neg (by omega), if_neg down]
        rfl

theorem half_twice {k : Int} (down : 0 < k) : 2 * (10 ^ (k - 1).toNat * 5) = 10 ^ k.toNat := by
  rw [shift_steps down]
  ring

theorem rounded_word (k : Int) (bits : Nat) (pow : Int → Int)
    (powers : pow k = 10 ^ k.toNat ∧ pow (k - 1) = 10 ^ (k - 1).toNat)
    (some_bits : 0 < bits) (room : ((n + 10 ^ (k - 1).toNat * 5 : Nat) : Int) < 2 ^ (bits - 1)) :
    roundedSDiv bits n (word bits (pow (k - 1) * 5)) (pow k) =
      (towardSign n (10 ^ (k - 1).toNat * 5 : Nat)).tdiv (10 ^ k.toNat : Nat) := by
  have moved : towardSign (n : Int) (10 ^ (k - 1).toNat * 5 : Nat) =
    (n + 10 ^ (k - 1).toNat * 5 : Nat) := by
    unfold towardSign
    rw [if_neg (by omega)]
    push_cast
    rfl
  have nonneg : (0 : Int) ≤ (10 ^ (k - 1).toNat * 5 : Nat) := by positivity
  have range : (0 : Int) < 2 ^ (bits - 1) := by positivity
  have kept : Fits bits ((10 ^ (k - 1).toNat * 5 : Nat) : Int) := by
    unfold Fits
    omega
  have sum : Fits bits (towardSign (n : Int) (10 ^ (k - 1).toNat * 5 : Nat)) := by
    rw [moved]
    unfold Fits
    omega
  have product : pow (k - 1) * 5 = ((10 ^ (k - 1).toNat * 5 : Nat) : Int) := by
    rw [powers.2]
    push_cast
    rfl
  have divisor : pow k = ((10 ^ k.toNat : Nat) : Int) := by
    rw [powers.1]
    push_cast
    rfl
  rw [product, word_of_fits some_bits kept, divisor]
  exact roundedSDiv_eq some_bits kept sum _

theorem narrow_drop (narrow : l.wide = false) (some_fraction : 0 < l.scale) :
    l.scale ≤ 18 ∧ l.number < 10 ^ 18 := by
  cases l with
  | integer base text digits => cases some_fraction
  | decimal int frac digits =>
    have bound := decimal_lt digits
    have few : (int ++ frac).length ≤ 18 := by simpa [Literal.wide] using narrow
    have power : 10 ^ (int ++ frac).length ≤ 10 ^ 18 := Nat.pow_le_pow_right (by omega) few
    have parts := @List.length_append _ int frac
    exact ⟨by change frac.length ≤ 18; omega, lt_of_lt_of_le bound power⟩

theorem decimal_same (holds : l.number < 2 ^ 127)
    (fits : Fits dst.intBits (folded l dst).toInt) (decimal : dst.k = .fixedDec)
    (same : l.scale ≤ dst.scale ∨ 0 ≤ dst.scale) :
    (assigned dst l.parse).map (·.raw) = some (folded l dst).toInt := by
  have pos := intBits_pos dst
  have kept := word_of_fits pos fits
  have narrow : (l.wide || dst.wideDec) = false → dst.intBits ≤ 64 := by
    intro both
    have slim : dst.intBits ≠ 128 := by
      rw [Ne, decimal_wide decimal]
      simp_all
    have widths := slot_cases dst
    omega
  have slot : dst.intBits ≤ decimalWidth l dst := by
    unfold decimalWidth
    split
    · have widths := slot_cases dst
      omega
    · exact narrow (by simp_all)
  rw [assigned_decimal holds decimal]
  congr 1
  by_cases up : l.scale < dst.scale
  · have whole := folded_up holds up
    have power : word dst.intBits (l.number * decimalPower l dst (dst.scale - l.scale)) =
        word dst.intBits (l.number * 10 ^ (dst.scale - l.scale).toNat) := by
      unfold decimalPower
      split
      · have widths := slot_cases dst
        exact word_mul_word (by omega) _ _
      · exact word_mul_word (narrow (by simp_all)) _ _
    rw [if_pos up, word_word slot, power, ← kept, whole]
    have widths := slot_cases dst
    exact (word_word (by omega) _).symm
  · rw [if_neg up]
    by_cases down : dst.scale < l.scale
    · have nonneg : 0 ≤ dst.scale := by omega
      have some_drop : 0 < (l.scale : Int) - dst.scale := by omega
      have whole := folded_down holds rfl some_drop
      rw [if_pos down, if_neg (not_lt.mpr nonneg), ← kept, whole]
      unfold decimalWidth decimalPower
      by_cases wide : (l.wide || dst.wideDec) = true
      · rw [if_pos wide, if_pos wide]
      · have narrow_literal : l.wide = false := by simp_all
        obtain ⟨short, small⟩ := narrow_drop narrow_literal (by omega)
        have power : 10 ^ ((l.scale : Int) - dst.scale - 1).toNat ≤ 10 ^ 17 :=
          Nat.pow_le_pow_right (by omega) (by omega)
        rw [if_neg wide, if_neg wide,
          rounded_word _ 64 pliPow10 ⟨pliPow10_eq (by omega),
            pliPow10_eq (by omega)⟩ (by omega) (by omega),
          rounded_word _ 128 pliPow10_128 ⟨pliPow10_128_eq (by omega), pliPow10_128_eq (by omega)⟩
            (by omega) (by omega)]
    · rw [if_neg down, ← @folded_level l dst holds (by omega)]
      exact kept

theorem decimal_truncated_iff (holds : l.number < 2 ^ 127)
    (fits : Fits dst.intBits (folded l dst).toInt) (decimal : dst.k = .fixedDec)
    (negative : dst.scale < 0) {k : Int} (drop : k = l.scale - dst.scale)
    (power : k ≤ if l.wide || dst.wideDec then 38 else 18)
    (room : l.number + 10 ^ (k - 1).toNat * 5 < 2 ^ 127) :
    (assigned dst l.parse).map (·.raw) = some (folded l dst).toInt ↔
      l.number % 10 ^ k.toNat < 10 ^ (k - 1).toNat * 5 := by
  have down : 0 < k := by omega
  have pos := intBits_pos dst
  have long : k ≤ 38 := by split at power <;> omega
  have whole := folded_down holds drop down
  rw [rounded_word _ 128 pliPow10_128 ⟨pliPow10_128_eq long, pliPow10_128_eq (by omega)⟩ (by omega)
    (by push_cast; exact_mod_cast room)] at whole
  have divisor : decimalPower l dst k = ((10 ^ k.toNat : Nat) : Int) := by
    unfold decimalPower
    push_cast
    split at power
    · rw [if_pos ‹_›]
      exact pliPow10_128_eq power
    · rw [if_neg ‹_›]
      exact pliPow10_eq power
  have width : Fits (decimalWidth l dst) (l.number : Int) := by
    unfold decimalWidth
    split
    · unfold Fits
      omega
    · have short := narrow_number (l := l) (by simp_all)
      unfold Fits
      omega
  have some_width : 0 < decimalWidth l dst := by
    unfold decimalWidth
    split <;> omega
  have twice := half_twice down
  have exactly := rounded_eq_tdiv_iff (l.number : Int) (by positivity) twice
  rw [← whole, Int.natAbs_natCast] at exactly
  have toward := tdiv_toward_rounded (l.number : Int) (10 ^ (k - 1).toNat * 5) (10 ^ k.toNat)
  rw [← whole] at toward
  have truncated : Fits dst.intBits ((l.number : Int).tdiv (10 ^ k.toNat : Nat)) := by
    unfold Fits Toward at *
    omega
  rw [assigned_decimal holds decimal, if_neg (by omega), if_pos (by omega),
    if_pos negative, ← drop, divisor,
    word_of_fits some_width (tdiv_fits width _), word_of_fits pos truncated, ← exactly,
      Option.some.injEq]
  exact eq_comm

def keptBits (dst : Ty) : Nat := min (dst.prec.toNat + 1) dst.intBits

def binaryDue (n s : Nat) (q : Int) : Nat := n * 2 ^ q.toNat / (2 ^ (-q).toNat * 10 ^ s)

theorem trap_raw {bits : Nat} {v prec : Int} (some_prec : 0 < prec) (room : prec < bits - 1) :
    (fixedBinPrecTrap bits v prec).raw = word (prec.toNat + 1) v := by
  unfold fixedBinPrecTrap
  rw [if_neg (by omega)]
  dsimp only
  split
  · rfl
  · symm
    apply word_of_fits (by omega)
    unfold Fits
    rw [Nat.add_sub_cancel]
    omega

theorem checkBin_raw {bits : Nat} {r : Int} (some_prec : 0 < dst.prec)
    (wider : dst.intBits ≤ bits) : (checkBin bits dst r).raw = word (keptBits dst) r := by
  unfold checkBin fitFixed keptBits
  dsimp only
  by_cases room : dst.prec < bits - 1
  · rw [trap_raw some_prec room]
    rcases Nat.le_total (dst.prec.toNat + 1) dst.intBits with le | ge
    · rw [min_eq_left le]
      exact word_of_fits (intBits_pos dst) (fits_mono le (word_fits (by omega) r))
    · rw [min_eq_right ge, word_word ge]
  · have pos := intBits_pos dst
    unfold fixedBinPrecTrap
    rw [if_pos (by omega), min_eq_right (by omega)]

theorem binary_slot (binary : dst.k = .fixedBin) : dst.intBits = 32 ∨ dst.intBits = 64 := by
  unfold Ty.intBits
  rw [binary]
  dsimp only
  split
  · exact Or.inl rfl
  · exact Or.inr rfl

/-- What an assignment to BINARY makes of the number: the 256-bit path leaves a negative scale
    out. -/
def assignedNumber (l : Literal) (dst : Ty) : Nat :=
  if l.wide ∧ dst.scale < 0 then l.number / 10 ^ l.scale else binaryDue l.number l.scale dst.scale

theorem decToBinNarrow_due {src : Ty} {s : Nat} (scale : src.scale = s)
    (target : dst.scale.natAbs ≤ 62)
    (short : s ≤ 38) (room : n * 2 ^ dst.scale.toNat < 2 ^ 127) :
    decToBinNarrow src dst n = binaryDue n s dst.scale := by
  have no_power : (-src.scale).toNat = 0 := by omega
  have source : src.scale.toNat = s := by omega
  have less : n / 2 ^ (-dst.scale).toNat * 2 ^ dst.scale.toNat ≤ n * 2 ^ dst.scale.toNat :=
    Nat.mul_le_mul_right _ (Nat.div_le_self _ _)
  have scaled : ((n : Int).tdiv (2 ^ (-dst.scale).toNat : Nat) * 2 ^ dst.scale.toNat * 10
    ^ (-src.scale).toNat) =
      ((n / 2 ^ (-dst.scale).toNat * 2 ^ dst.scale.toNat : Nat) : Int) := by
    rw [no_power, ← Int.ofNat_tdiv]
    push_cast
    ring
  have fits : Fits 128 ((n : Int).tdiv (2 ^ (-dst.scale).toNat : Nat) * 2 ^ dst.scale.toNat *
      10 ^ (-src.scale).toNat) := by
    rw [scaled]
    unfold Fits
    omega
  rw [decToBinNarrow_eq target (by omega) fits, scaled, source, ← Int.ofNat_tdiv]
  congr 1
  unfold binaryDue
  rcases Int.le_total 0 dst.scale with up | down
  · have level : (-dst.scale).toNat = 0 := by omega
    rw [level, pow_zero, Nat.div_one, one_mul]
  · have level : dst.scale.toNat = 0 := by omega
    rw [level, pow_zero, mul_one, mul_one, Nat.div_div_eq_div_mul]

theorem assigned_binary (holds : l.number < 2 ^ 127) (binary : dst.k = .fixedBin)
    (some_prec : 0 < dst.prec) (target : dst.scale.natAbs ≤ 62) (short : l.scale ≤ 38) :
    (assigned dst l.parse).map (·.raw) = some (word (keptBits dst) (assignedNumber l dst)) := by
  have emits := literal_emits holds
  have slot := binary_slot binary
  have done : assigned dst l.parse = some (decToBin (literalTy l.parse) dst l.number) := by
    have scale : ¬ 38 < (l.scale : Int) := by omega
    simp [assigned, convert, throughFloat, emits.decimal, emits.scale, binary, emits.raw, scale]
  have two : (2 : Nat) ^ dst.scale.toNat ≤ 2 ^ 62 := Nat.pow_le_pow_right (by omega) (by omega)
  rw [done, Option.map_some]
  congr 1
  unfold decToBin assignedNumber
  cases wide : l.wide with
  | true =>
    have full : (literalTy l.parse).intBits = 128 :=
      (decimal_wide emits.decimal).mpr (emits.wide.trans wide)
    have no_power : (-(literalTy l.parse).scale).toNat = 0 := by rw [emits.scale]; omega
    have source : (literalTy l.parse).scale.toNat = l.scale := by rw [emits.scale]; omega
    have scaled : ((l.number : Int) * 2 ^ dst.scale.toNat * 10
      ^ (-(literalTy l.parse).scale).toNat) =
        ((l.number * 2 ^ dst.scale.toNat : Nat) : Int) := by
      rw [no_power]
      push_cast
      ring
    have fits : Fits 256 ((l.number : Int) * 2 ^ dst.scale.toNat * 10
      ^ (-(literalTy l.parse).scale).toNat) := by
      have product : l.number * 2 ^ dst.scale.toNat ≤ 2 ^ 127 * 2 ^ 62 :=
        Nat.mul_le_mul holds.le two
      rw [scaled]
      unfold Fits
      omega
    rw [if_pos full, checkBin_raw some_prec (by omega),
      decToBinWide_eq (by omega) (by rw [emits.scale]; omega) fits,
      scaled, source, ← Int.ofNat_tdiv]
    congr 2
    by_cases negative : dst.scale < 0
    · have level : dst.scale.toNat = 0 := by omega
      rw [if_pos ⟨rfl, negative⟩, level, pow_zero, mul_one]
    · have level : (-dst.scale).toNat = 0 := by omega
      rw [if_neg (by simp [negative]), binaryDue, level, pow_zero, one_mul]
  | false =>
    have slim : ¬ (literalTy l.parse).intBits = 128 := by
      rw [decimal_wide emits.decimal, emits.wide, wide]
      simp
    have small := narrow_number wide
    have product : l.number * 2 ^ dst.scale.toNat ≤ 2 ^ 63 * 2 ^ 62 := Nat.mul_le_mul small.le two
    rw [if_neg slim, checkBin_raw some_prec (by omega),
      decToBinNarrow_due emits.scale target short (by omega),
      if_neg (by simp)]

/-- The powers of ten by which a CONTROLLED scalar's initialiser goes down; an integer has none. -/
def Literal.tens (l : Literal) (dst : Ty) : Int :=
  match l with
  | .integer .. => 0
  | .decimal _ frac _ => frac.length - dst.scale

def chosenNumber (storage : Storage) (l : Literal) (dst : Ty) : Nat :=
  if storage = .controlled then l.shortNumber * 10 ^ (-l.tens dst).toNat / 10 ^ (l.tens dst).toNat
  else binaryDue l.shortNumber l.scale dst.scale

theorem accepted_binary (binary : dst.k = .fixedBin) (declared : Declared dst) {lit : Lit}
    (accepted : foldInitialConstant l.parse dst = some lit) : lit = { l.parse with ty := dst } := by
  have same : bin dst.prec dst.scale = dst := by
    have narrow := declared.2.2
    rw [binary] at narrow
    cases dst
    simp_all [bin]
  unfold foldInitialConstant at accepted
  rw [binary, same] at accepted
  exact (Option.some.inj accepted).symm

theorem binLitRescaled_due (holds : l.number < 2 ^ 127) (target : dst.scale.natAbs ≤ 62)
    (short : l.scale ≤ 38) (room : l.shortNumber * 2 ^ dst.scale.toNat < 2 ^ 127) (ty : Ty) :
    binLitRescaled { l.parse with ty := ty } dst = binaryDue l.shortNumber l.scale dst.scale := by
  have emits := literal_emits holds
  rw [← decToBinNarrow_due emits.scale target short room]
  cases l with
  | integer base text digits =>
    generalize number : (Literal.integer base text digits).number = n at holds
    have saturated : ((min n (2 ^ 63 - 1) : Nat) : Int) = min (n : Int) (2 ^ 63 - 1) := by omega
    have level := emits.scale
    rw [integer_parsed digits number holds] at level ⊢
    unfold decToBinNarrow binLitRescaled Literal.shortNumber
    rw [level, number, saturated]
    rfl
  | decimal int frac digits =>
    generalize number : (Literal.decimal int frac digits).number = n at holds
    have level := emits.scale
    rw [decimal_parsed digits number holds] at level ⊢
    unfold decToBinNarrow binLitRescaled Literal.shortNumber
    rw [level, number]
    dsimp only [Literal.scale]
    have nonneg : ¬ ((frac.length : Int) < 0) := by omega
    simp only [nonneg, if_false, true_and]

theorem trap_slot (some_prec : 0 < dst.prec) (n : Int) :
    (fixedBinPrecTrap dst.intBits (word dst.intBits n) dst.prec).raw = word (keptBits dst) n := by
  unfold keptBits
  by_cases room : dst.prec < dst.intBits - 1
  · rw [trap_raw some_prec room, min_eq_left (by omega), word_word (by omega)]
  · unfold fixedBinPrecTrap
    rw [if_pos (by omega), min_eq_right (by omega)]

theorem storeTo_binary (binary : dst.k = .fixedBin) (some_prec : 0 < dst.prec) (n : Int) :
    storeTo dst (word dst.intBits n) = word (keptBits dst) n := by
  have done : convert dst dst (word dst.intBits n) =
    some (binToBin dst dst (word dst.intBits n)) := by
    simp [convert, throughFloat, binary]
  have level : dst.scale - dst.scale = 0 := Int.sub_self _
  rw [storeTo, done, Option.map_some, Option.getD_some, binToBin]
  simp only [level, if_true]
  rw [checkBin_raw some_prec (Nat.le_refl _)]
  exact word_word (Nat.min_le_right _ _) n

/-- STATIC storage takes the constant as it is, without the check of the declared precision. -/
def unchecked (storage : Storage) : Prop := storage = .static ∨ storage = .staticMember

instance (storage : Storage) : Decidable (unchecked storage) :=
  inferInstanceAs (Decidable (_ ∨ _))

theorem initial_binary (holds : l.number < 2 ^ 127) (binary : dst.k = .fixedBin)
    (declared : Declared dst) (target : dst.scale.natAbs ≤ 62) (short : l.scale ≤ 38)
    (room : l.shortNumber * 2 ^ dst.scale.toNat < 2 ^ 127) {storage : Storage}
    (other : storage ≠ .controlled) :
    initialRaw storage dst { l.parse with ty := dst } =
      word (if unchecked storage then dst.intBits else keptBits dst)
        (chosenNumber storage l dst) := by
  have slot := binary_slot binary
  have constant : wideDecConstant dst (binLitRescaled { l.parse with ty := dst } dst) =
      word dst.intBits (chosenNumber storage l dst) := by
    have slim : ¬ dst.intBits = 128 := by omega
    rw [wideDecConstant, if_neg slim, word_word (by omega),
      binLitRescaled_due holds target short room,
      chosenNumber, if_neg other]
  cases storage with
  | controlled => exact absurd rfl other
  | element =>
    show initValue dst _ = _
    rw [initValue, if_pos binary, constant, if_neg (by decide)]
    exact trap_slot declared.2.1 _
  | static | staticMember =>
    show scalarInitConstant dst _ = _
    rw [scalarInitConstant, if_pos binary, constant, if_pos (by decide)]
  | automatic =>
    show storeTo dst (constScalarInit dst _) = _
    rw [constScalarInit, if_pos binary, constant, if_neg (by decide)]
    exact storeTo_binary binary declared.2.1 _

theorem tens_word {v w n : Nat} (narrower : v ≤ w) (some_bits : 0 < w) (fits : Fits w n) {dq : Int}
    {pow : Int → Int} (powers : ∀ k, pow k = word w (10 ^ k.toNat))
    (exact_power : pow (-dq) = (10 ^ (-dq).toNat : Nat)) :
    word v (if 0 < dq then word w (n * pow dq) else if dq < 0 then word w
      ((n : Int).tdiv (pow (-dq))) else n) =
      word v ((n * 10 ^ dq.toNat / 10 ^ (-dq).toNat : Nat) : Int) := by
  by_cases up : 0 < dq
  · have level : (-dq).toNat = 0 := by omega
    rw [if_pos up, word_word narrower, powers, word_mul_word narrower, level, pow_zero, Nat.div_one]
    push_cast
    rfl
  · have level : dq.toNat = 0 := by omega
    rw [if_neg up, level, pow_zero, mul_one]
    by_cases down : dq < 0
    · rw [if_pos down, exact_power, word_of_fits some_bits (tdiv_fits fits _), ← Int.ofNat_tdiv]
    · have flat : (-dq).toNat = 0 := by omega
      rw [if_neg down, flat, pow_zero, Nat.div_one]

theorem controlled_binary (holds : l.number < 2 ^ 127) (binary : dst.k = .fixedBin)
    (some_prec : 0 < dst.prec) (power : l.tens dst ≤ if l.wide then 38 else 18) (ty : Ty) :
    initialRaw .controlled dst { l.parse with ty := ty } =
      word (keptBits dst) (chosenNumber .controlled l dst) := by
  have slot := binary_slot binary
  rw [← storeTo_binary binary some_prec]
  show storeTo dst (decimalInit dst _) = _
  congr 1
  unfold decimalInit chosenNumber
  rw [if_pos rfl]
  cases l with
  | integer base text digits =>
    generalize number : (Literal.integer base text digits).number = n at holds
    have saturated : ((min n (2 ^ 63 - 1) : Nat) : Int) = min (n : Int) (2 ^ 63 - 1) := by omega
    rw [integer_parsed digits number holds]
    unfold needsWideDecLit ivalRescaled Literal.shortNumber Literal.tens
    dsimp only
    rw [if_neg (by simp; omega), number, Int.toNat_zero, Int.neg_zero, Int.toNat_zero,
      pow_zero, mul_one,
      Nat.div_one, saturated]
  | decimal int frac digits =>
    have wide_iff : (Literal.decimal int frac digits).wide = decide (18 < (int ++ frac).length) :=
      rfl
    have small := @narrow_number (Literal.decimal int frac digits)
    have drop : (Literal.decimal int frac digits).tens dst = -(dst.scale - frac.length) := by
      unfold Literal.tens
      ring
    generalize number : (Literal.decimal int frac digits).number = n at holds small
    generalize (Literal.decimal int frac digits).wide = wide at wide_iff power small
    rw [drop] at power ⊢
    rw [decimal_parsed digits number holds, neg_neg]
    unfold needsWideDecLit Literal.shortNumber
    dsimp only
    rw [number]
    have not_decimal : decide (dst.k = .fixedDec) = false := by simp [binary]
    have parts := @List.length_append _ int frac
    cases wide with
    | true =>
      have many : 18 < (int ++ frac).length := by simpa using wide_iff.symm
      have slim : ¬ dst.intBits = 128 := by omega
      have tens := @tens_word dst.intBits 128 n (by omega) (by omega) (by unfold Fits; omega)
        (dst.scale - frac.length) pliPow10_128 (fun _ => rfl)
        ((pliPow10_128_eq (by simpa using power)).trans (by push_cast; rfl))
      rw [if_pos (by simp; omega), wideDecConstant, if_neg slim, word_word (by omega), ← tens]
      unfold decLitRescaled128 pliRescaleDown128
      simp only [not_decimal, Bool.false_eq_true, if_false]
    | false =>
      have few : ¬ 18 < (int ++ frac).length := by simpa using wide_iff.symm
      have slim : ¬ dst.intBits = 128 := by omega
      have fits : Fits 64 (n : Int) := by
        have bound := small rfl
        unfold Fits
        omega
      have tens := @tens_word dst.intBits 64 n (by omega) (by omega) fits
        (dst.scale - frac.length) pliPow10 (fun _ => rfl)
        ((pliPow10_eq (by simpa using power)).trans (by push_cast; rfl))
      rw [if_neg (by simp [slim]; omega), word_of_fits (by omega) fits, ← tens]
      unfold ivalRescaled pliRescaleDown
      simp only [not_decimal, Bool.false_eq_true, if_false]

def PowersHold (storage : Storage) (l : Literal) (dst : Ty) : Prop :=
  l.number < 2 ^ 127 ∧
    if dst.k = .fixedBin then
      dst.scale.natAbs ≤ 62 ∧ l.scale ≤ 38 ∧ l.shortNumber * 2 ^ dst.scale.toNat < 2 ^ 127 ∧
        (storage = .controlled → l.tens dst ≤ if l.wide then 38 else 18)
    else
      dst.scale < 0 →
        l.scale - dst.scale ≤ (if l.wide || dst.wideDec then (38 : Int) else 18) ∧
          l.number + 10 ^ (l.scale - dst.scale - 1).toNat * 5 < 2 ^ 127

def StartsAssigned (storage : Storage) (l : Literal) (dst : Ty) : Prop :=
  if dst.k = .fixedBin then
    (chosenNumber storage l dst : Int) ≡ assignedNumber l dst [ZMOD 2 ^ keptBits dst] ∧
      (unchecked storage → Fits (keptBits dst) (word dst.intBits (chosenNumber storage l dst)))
  else
    dst.scale < 0 →
      l.number % 10 ^ (l.scale - dst.scale).toNat < 10 ^ (l.scale - dst.scale - 1).toNat * 5

def oneAndHalf : Literal := .decimal [ch '1'] [ch '5'] (by decide +kernel)

end PliInitialValue
