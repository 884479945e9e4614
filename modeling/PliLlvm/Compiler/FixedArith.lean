import PliLlvm.Compiler.FixedConvert

/- FIXED +, - and *, and the comparisons (src/sema.cpp, src/irgen.cpp), with SIZE and
   FIXEDOVERFLOW enabled. The result type is chosen from the storage widths of the operands,
   both are converted to it, and the operation is made in its word. A product that takes FLOAT
   has no FIXED result. -/
namespace PliFixedArith
open FixedPoint PliFixedConvert
open PliConstFold hiding value

structure Operand where
  ty : Ty
  raw : Int

inductive Op where
  | plus
  | minus
  | star
  deriving DecidableEq

inductive Rel where
  | eq
  | ne
  | lt
  | le
  | gt
  | ge
  | ngt
  | nlt

def arithResultType (a b : Ty) : Ty :=
  let bits := max a.intBits b.intBits
  let p := if bits = 64 then 63 else 31
  let dec := a.k = .fixedDec ∧ b.k = .fixedDec
  if dec then ⟨.fixedDec, p, max a.scale b.scale, a.wideDec || b.wideDec⟩
  else bin p (max a.scale b.scale)

/-- None stands for FLOAT. -/
def mulResultType (a b : Ty) : Option Ty :=
  if a.k = .fixedBin ∧ b.k = .fixedDec ∧ 0 < a.scale ∨
      a.k = .fixedDec ∧ b.k = .fixedBin ∧ 0 < b.scale then none
  else
    let t := arithResultType a b
    let k :=
      if a.k = .fixedBin ∧ b.k = .fixedDec ∧ 0 < b.scale ∨
          a.k = .fixedDec ∧ b.k = .fixedBin ∧ 0 < a.scale then TK.fixedDec
      else t.k
    let prec := if a.k = .fixedDec ∧ b.k = .fixedDec then min (a.prec + b.prec) 31 else t.prec
    let wideDec := if k = .fixedDec then a.wideDec || b.wideDec || 18 < prec else t.wideDec
    some ⟨k, prec, a.scale + b.scale, wideDec⟩

def resultType (op : Op) (a b : Ty) : Option Ty :=
  match op with
  | .plus | .minus => some (arithResultType a b)
  | .star => mulResultType a b

def workType (op : Op) (t o : Ty) : Ty :=
  match op with
  | .plus | .minus => t
  | .star => { t with scale := o.scale }

def Op.onInt (op : Op) (x y : Int) : Int :=
  match op with
  | .plus => x + y
  | .minus => x - y
  | .star => x * y

def checkedArith (op : Op) (t : Ty) (x y : Int) : Converted :=
  let r := word t.intBits (op.onInt x y)
  let wrapped := !decide (Fits t.intBits (op.onInt x y))
  if t.k = .fixedDec ∧ t.intBits = 128 then
    ⟨r, decide (pliPow10_128 31 ≤ r) || decide (r ≤ word 128 (-pliPow10_128 31)) || wrapped⟩
  else ⟨r, wrapped⟩

def emitArith (op : Op) (a b : Operand) : Option Converted :=
  (resultType op a.ty b.ty).bind fun t =>
    (convert a.ty (workType op t a.ty) a.raw).bind fun x =>
      (convert b.ty (workType op t b.ty) b.raw).map fun y =>
        let r := checkedArith op t x.raw y.raw
        ⟨r.raw, x.size || y.size || r.size⟩

def Rel.icmp (rel : Rel) (x y : Int) : Bool :=
  match rel with
  | .eq => x = y
  | .ne => x ≠ y
  | .lt => x < y
  | .le | .ngt => x ≤ y
  | .gt => y < x
  | .ge | .nlt => y ≤ x

def emitCompare (rel : Rel) (a b : Operand) : Option Bool :=
  let common := arithResultType a.ty b.ty
  (convert a.ty common a.raw).bind fun x =>
    (convert b.ty common b.raw).map fun y => rel.icmp x.raw y.raw

/- What the operators are for. -/
def Op.onRat (op : Op) (x y : ℚ) : ℚ :=
  match op with
  | .plus => x + y
  | .minus => x - y
  | .star => x * y

def Rel.Holds (rel : Rel) (x y : ℚ) : Prop :=
  match rel with
  | .eq => x = y
  | .ne => x ≠ y
  | .lt => x < y
  | .le | .ngt => x ≤ y
  | .gt => y < x
  | .ge | .nlt => y ≤ x

def decToBinScale (q : Int) : Int :=
  if q = 0 then 0
  else
    let s := ((q.natAbs * 83 + 24) / 25 : Nat)
    if 0 < q then s else -s

def binaryView (q : Int) : Ty := bin 63 (min 62 (decToBinScale q))

/-- The value an operand has in the operation: a DECIMAL with a scale is converted first where
    the result is BINARY. -/
def operandValue (t : Ty) (o : Operand) : ℚ :=
  if t.k = .fixedBin ∧ o.ty.k = .fixedDec ∧ o.ty.scale ≠ 0 then
    value (binaryView o.ty.scale) (required (binaryView o.ty.scale) (value o.ty o.raw))
  else value o.ty o.raw

/-- The result is FIXED and exact or a condition was raised, and no operand went into a word
    that is shorter than its own. -/
def ArithRight (op : Op) (a b : Operand) : Prop :=
  ∃ t c, resultType op a.ty b.ty = some t ∧ emitArith op a b = some c ∧
    a.ty.intBits ≤ t.intBits ∧ b.ty.intBits ≤ t.intBits ∧
    (c.size = true ∨ value t c.raw = op.onRat (operandValue t a) (operandValue t b))

def CompareRight (a b : Operand) : Prop :=
  ∀ rel : Rel, ∃ r, emitCompare rel a b = some r ∧
    (r = true ↔ rel.Holds (value a.ty a.raw) (value b.ty b.raw))

structure Operand.Admitted (o : Operand) : Prop where
  fixed : o.ty.k = .fixedBin ∨ o.ty.k = .fixedDec
  prec : 0 < o.ty.prec
  held : Fits o.ty.intBits o.raw

end PliFixedArith
