import PliLlvm.Compiler.CharOfFixed
import PliLlvm.Compiler.FixedFromChar

/- A FIXED value as CHARACTER and back: what CHAR leaves in a field that has room for the
   text, FIXED reads as the value. -/
namespace PliCharRoundTrip
open CheckedCells FixedPoint Decimal PliSubstr PliConstFold PliFixedConvert
  PliFixedText PliFixedFromChar
open PliCharOfFixed
open PliCharParts (isBlank isExponent)

theorem no_blank : ∀ c ∈ ([] : List UInt8), isBlank c = true := by simp

theorem no_exponent : ∀ part ∈ (none : Option (UInt8 × Sign × List Nat)),
    isExponent part.1 = true ∧ part.2.2 ≠ [] ∧ ∀ d ∈ part.2.2, d < 10 := by simp

theorem written_digits (v : BitVec 64) :
    ∀ d ∈ image v.toInt.natAbs ++ (none : Option (List Nat)).getD [], d < 10 := by
  intro d there
  rw [Option.getD_none, List.append_nil] at there
  exact image_digits there

theorem written_some_digit (v : BitVec 64) :
    image v.toInt.natAbs ++ (none : Option (List Nat)).getD [] ≠ [] := by
  simpa using image_ne_nil _

theorem padding_ends (n : Nat) : ∀ c, (List.replicate n blank).head? = some c →
    isDigit c = false ∧ ((none : Option (UInt8 × Sign × List Nat)) = none →
      isExponent c = false ∧ ((none : Option (List Nat)) = none → c ≠ 46)) := by
  intro c head
  rw [List.eq_of_mem_replicate (List.mem_of_mem_head? head)]
  decide

/-- The field that CHAR fills, as a numeral. -/
def written (v : BitVec 64) (cap : Nat) : Numeral where
  blanks := []
  sign := if v.toInt < 0 then .minus else .none
  whole := image v.toInt.natAbs
  fraction := none
  exponent := none
  rest := List.replicate (cap - (text v).length) blank
  blank := no_blank
  digits := written_digits v
  some_digit := written_some_digit v
  exponent_digits := no_exponent
  ends := padding_ends (cap - (text v).length)

theorem written_text {v : BitVec 64} {cap : Nat} (fits : (text v).length ≤ cap) :
    (written v cap).text = field v cap := by
  have sign : (if v.toInt < 0 then Sign.minus else Sign.none).text = signText v.toInt := by
    unfold signText
    split <;> rfl
  rw [field, List.take_of_length_le fits]
  unfold Numeral.text Numeral.exponentText written
  simp only [pointText, List.nil_append, sign]
  rw [text, List.append_assoc]

theorem written_fit (v : BitVec 64) (cap : Nat) : (written v cap).Fit := by
  have short := image_word_length (magnitude v)
  rw [magnitude_toNat] at short
  refine ⟨?_, by simp [written], by simp [written]⟩
  have dropped : significant (image v.toInt.natAbs) ≤ (image v.toInt.natAbs).length :=
    (List.dropWhile_sublist _).length_le
  simp only [written, Option.getD_none, List.append_nil]
  omega

theorem written_mantissa (v : BitVec 64) (cap : Nat) :
    (written v cap).mantissa = v.toInt.natAbs := by
  simp [Numeral.mantissa, written, image_zero_value]

theorem written_number (v : BitVec 64) (cap : Nat) : (written v cap).number = v.toInt := by
  have scale : (written v cap).scale = 0 := rfl
  rw [Numeral.number, written_mantissa, scale, neg_zero, zpow_zero, mul_one]
  congr 1
  unfold Sign.apply written
  by_cases negative : v.toInt < 0
  · rw [if_pos negative, if_pos rfl]
    omega
  · rw [if_neg negative, if_neg (by simp)]
    omega

/-- The bounds of the 512-bit rescale on the value itself. -/
structure Rescaled (ty : Ty) (v : Int) : Prop where
  nonneg : 0 ≤ ty.scale
  digits : Fits 512 (v.natAbs * base ty ^ ty.scale.toNat : Nat)
  prec : ty.k = .fixedDec → ty.prec ≤ 153
  slot : SlotHolds ty (required ty v)

theorem written_scaled {v : BitVec 64} (cap : Nat) {ty : Ty} (rescaled : Rescaled ty v.toInt) :
    Scaled ty (written v cap) := by
  refine ⟨rescaled.nonneg, ?_, rescaled.prec, ?_⟩
  · have whole : (-(written v cap).scale).toNat = 0 := rfl
    rw [written_mantissa, whole, pow_zero, Nat.mul_one]
    exact rescaled.digits
  · rw [written_number]
    exact rescaled.slot

variable (scratch work tmp : Scratch) (runtime convChecks : Bool)

/-- Where the text fits, the emitted code and the runtime leave the same bytes, and FIXED of
    them, by either parser, is the value converted to the type asked for. -/
theorem fixed_char_round_trip {dst : List UInt8} {v : BitVec 64}
    (fits : TextFits dst.length v.toInt)
    {ty : Ty} (declared : Declared ty) (rescaled : Rescaled ty v.toInt) :
    ∃ out, emitCharOfFixedLLVM scratch dst v = some out ∧ pliCharOfFixed work tmp dst v = some out ∧
      ∀ memory : Window out, ∃ c, emitFixedFromChar runtime convChecks memory ty = some (false, c) ∧
        ExactAt ty (required ty v.toInt) c := by
  have room := (text_fits_iff dst.length v).mpr fits
  refine ⟨_, emitCharOfFixed_fits scratch room, pliCharOfFixed_spec work tmp dst v, ?_⟩
  have read := fixedFromChar_stores (written v dst.length) (written_fit v _) runtime convChecks
  rw [written_text room, written_number] at read
  exact fun memory => read memory declared (written_scaled _ rescaled)

theorem minus_forty_two_comes_back :
    ∃ out, emitCharOfFixedLLVM zeros [0, 0, 0, 0] (-42) = some out ∧
      pliCharOfFixed zeros zeros [0, 0, 0, 0] (-42) = some out ∧
      ∀ memory : Window out, ∃ c, emitFixedFromChar true true memory (.fixedDec 5 2) =
        some (false, c) ∧
          ExactAt (.fixedDec 5 2) (required (.fixedDec 5 2) (-42 : BitVec 64).toInt) c :=
  fixed_char_round_trip zeros zeros zeros true true ⟨by decide, by decide, by decide⟩ (by decide)
    ⟨by decide, by decide +kernel, by decide, by decide +kernel⟩

end PliCharRoundTrip
