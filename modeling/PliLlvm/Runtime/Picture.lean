import Mathlib.Data.List.Basic
import Mathlib.Algebra.Ring.Int.Defs

/- The picture formatter of P output (runtime/rt_edit.c). The value is a 128-bit
   integer given as an Int in range, a picture its list of characters. The output
   buffer holds `cap` characters; the scale is never negative. -/
namespace PliPicture

def picDigitClass (c : Char) : Bool :=
  c == '9' || c == 'Z' || c == 'Y' || c == '*' || c == '$' || c == 'T' || c == 'I' || c == 'R'

def forced (c : Char) : Bool := c == '9' || c == 'T' || c == 'I' || c == 'R'

def suppressing (c : Char) : Bool := c == 'Z' || c == 'Y' || c == '*' || c == '$'

/-- The digits of a magnitude, least significant first, at most `room` of them. -/
def digitLoop : Nat → Nat → List Nat
  | 0, _ => []
  | room + 1, av => if av = 0 then [] else av % 10 :: digitLoop room (av / 10)

/-- The array `digits` after its reversal: most significant first, a single 0 for 0. -/
def decimalDigits (av : Nat) : List Nat := if av = 0 then [0] else (digitLoop 64 av).reverse

def digitChar (d : Nat) : Char := Char.ofNat (48 + d)

structure PicValue where
  isneg : Bool
  digits : List Nat
  valInt : Nat
  valFrac : Nat

def picValue (isneg : Bool) (av scale : Nat) : PicValue :=
  let digits := decimalDigits av
  let ndig := digits.length
  ⟨isneg, digits, if scale < ndig then ndig - scale else 0, if scale < ndig then scale else ndig⟩

/-- pli_mag_s when the sign is negative, pli_to_u otherwise. -/
def picMagnitude (val : Int) (isneg : Bool) : Nat :=
  if isneg then val.natAbs else (val % 2 ^ 128).toNat

def picPoint (pic : List Char) : Option Nat := pic.findIdx? fun c => c == 'V' || c == '.'

def fixedCurrency : List Char → Bool
  | '$' :: '$' :: rest => rest.head? ≠ some '$'
  | _ => false

/-- The first run of `$`, as its bounds. -/
def currencyRun (pic : List Char) : Option (Nat × Nat) :=
  (pic.findIdx? (· == '$')).map fun start =>
    (start, start + ((pic.drop start).takeWhile (· == '$')).length)

def picIntTotal (pic : List Char) : Nat :=
  let part := pic.take ((picPoint pic).getD pic.length)
  ((if fixedCurrency pic then part.drop 1 else part).filter picDigitClass).length

def picFracTotal (pic : List Char) : Nat :=
  match picPoint pic with
  | some k => ((pic.drop (k + 1)).filter picDigitClass).length
  | none => 0

def hasExplicitSign : List Char → Bool
  | [] => false
  | c :: rest =>
    c == '+' || c == '-' || c == 'S' || (c == 'C' && rest.head? == some 'R') ||
      (c == 'D' && rest.head? == some 'B') || hasExplicitSign rest

def isExponent (c : Char) : Bool := c == 'E' || c == 'K'

structure PicOut where
  out : List Char
  ledZero : Bool
  intIdx : Nat
  fracIdx : Nat
  exponentPos : Option Nat

def PicOut.put (st : PicOut) (cs : List Char) : PicOut := { st with out := st.out ++ cs }

def placeDigit (st : PicOut) (c : Char) (d : Nat) : PicOut :=
  if suppressing c && digitChar d == '0' && st.ledZero then
    st.put [if c == '*' then '*' else ' ']
  else { st.put [digitChar d] with ledZero := false }

def fillAfter (st : PicOut) (c : Char) : PicOut :=
  st.put [if forced c then '0'
    else if c == '*' then (if st.ledZero then '*' else '0')
    else if st.ledZero then ' ' else '0']

def fillBefore (st : PicOut) (c : Char) : PicOut :=
  st.put [if forced c then '0' else if c == '*' then '*' else ' ']

def digitAt (v : PicValue) (i : Nat) : Nat := v.digits.getD i 0

def formatDigit (v : PicValue) (intTotal : Nat) (isFractional : Bool) (st : PicOut) (c : Char) :
    PicOut :=
  if isFractional then
    let st' := if st.fracIdx < v.valFrac then placeDigit st c (digitAt v (v.valInt + st.fracIdx))
      else fillAfter st c
    { st' with fracIdx := st.fracIdx + 1 }
  else
    let srcIdx : Int := st.intIdx - (intTotal - v.valInt)
    let st' := if srcIdx < 0 then fillBefore st c
      else if srcIdx < v.valInt then placeDigit st c (digitAt v srcIdx.toNat)
      else fillAfter st c
    { st' with intIdx := st.intIdx + 1 }

def formatChar (v : PicValue) (pic : List Char) (ocap pi : Nat) (c : Char) (next : Option Char)
    (st : PicOut) : PicOut × Bool :=
  if c == 'V' then (st, false)
  else if fixedCurrency pic && pi == 0 && c == '$' then (st.put ['$'], false)
  else if picDigitClass c then
    (formatDigit v (picIntTotal pic) ((picPoint pic).any (· < pi)) st c, false)
  else if c == '.' then (st.put ['.'], false)
  else if c == ',' then (st.put [','], false)
  else if c == 'B' then (st.put [' '], false)
  else if c == '/' then (st.put ['/'], false)
  else if c == '+' || c == '-' then
    (st.put [if v.isneg then '-' else if c == '-' then ' ' else '+'], false)
  else if c == 'S' then (st.put [if v.isneg then '-' else ' '], false)
  else if c == 'C' && next == some 'R' then
    if st.out.length + 2 ≤ ocap then (st.put (if v.isneg then ['C', 'R'] else [' ', ' ']), true)
    else (st, false)
  else if c == 'D' && next == some 'B' then
    if st.out.length + 2 ≤ ocap then (st.put (if v.isneg then ['D', 'B'] else [' ', ' ']), true)
    else (st, false)
  else if c == 'X' || c == 'A' then (st.put [' '], false)
  else if isExponent c then
    if st.out.length + 4 ≤ ocap then
      ({ st.put [' ', ' ', ' ', ' '] with exponentPos := some st.out.length }, false)
    else (st, false)
  else (st.put [c], false)

def formatWalk (v : PicValue) (pic : List Char) (ocap : Nat) : Nat → List Char → PicOut → PicOut
  | _, [], st => st
  | pi, c :: rest, st =>
    if ocap ≤ st.out.length then st
    else
      match formatChar v pic ocap pi c rest.head? st with
      | (st', false) => formatWalk v pic ocap (pi + 1) rest st'
      | (st', true) =>
        match rest with
        | [] => st'
        | _ :: rest' => formatWalk v pic ocap (pi + 2) rest' st'

def floatCurrency (pic out : List Char) : List Char :=
  match currencyRun pic with
  | none => out
  | some (first, last) =>
    if fixedCurrency pic || out.length < last then out
    else
      let si := out.findIdx (· ≠ ' ')
      if 0 < si ∧ first ≤ si - 1 ∧ si - 1 < last then out.set (si - 1) '$'
      else if si = out.length ∧ first < out.length then out.set first '$'
      else out

def putExponent (scale fracTotal : Nat) (pos : Option Nat) (out : List Char) : List Char :=
  match pos with
  | none => out
  | some p =>
    let e : Int := scale - fracTotal
    let n := e.natAbs
    (((out.set p 'E').set (p + 1) (if 0 ≤ e then '+' else '-')).set (p + 2)
      (digitChar (n / 10 % 10))).set (p + 3) (digitChar (n % 10))

/-- What the formatter writes for the value, at most `cap` characters. -/
def picFormat128 (val : Int) (scale : Nat) (sign : Int) (pic : List Char) (cap : Nat) : List Char :=
  if pic.length = 0 ∨ cap = 0 then []
  else
    let isneg : Bool := sign < 0
    let v := picValue isneg (picMagnitude val isneg) scale
    let maxout := pic.length + 3 * (pic.filter isExponent).length
    let st := formatWalk v pic (min maxout cap) 0 pic ⟨[], true, 0, 0, none⟩
    let out := putExponent scale (picFracTotal pic) st.exponentPos (floatCurrency pic st.out)
    if isneg && !hasExplicitSign pic && out.length < cap then out ++ ['-'] else out

def pliPutEditPic (val : Int) (scale : Nat) (sign : Int) (pic : List Char) : List Char :=
  picFormat128 val scale sign pic 127

end PliPicture
