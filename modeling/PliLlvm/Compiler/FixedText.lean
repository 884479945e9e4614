import PliLlvm.Lib.Decimal
import PliLlvm.Compiler.FixedConvert
import Mathlib.Tactic.IntervalCases
import Mathlib.RingTheory.Coprime.Lemmas

/- The text of a FIXED value in a data list (runtime/rt_stream.c, rt_get.c) and the calls that
   PUT DATA and GET DATA make for it (src/irgen.cpp). A token is what get_token leaves in its
   buffer. Signed long long arithmetic wraps; the formatters' own buffers are never filled, so
   their limits are left out; 128-bit values are the compiler's own type. -/
namespace PliFixedText
open FixedPoint Decimal PliConstFold PliFixedConvert

def digitBytes (ds : List Nat) : List UInt8 := ds.map fun d => UInt8.ofNat (48 + d)

def signText (v : Int) : List UInt8 := if v < 0 then [45] else []

/-- pli_snprintf of %lld, the text of pli_put_list_fixed. -/
def fmtInt (v : Int) : List UInt8 := signText v ++ digitBytes (image v.natAbs)

def rtFormatDecfixed (v q : Int) : List UInt8 :=
  let mag := v.natAbs
  if q < 0 then
    let factor := 10 ^ (min (-q) 18).toNat
    signText v ++ digitBytes (image (mag * factor % 2 ^ 64))
  else
    let factor := 10 ^ (min q 18).toNat
    signText v ++ digitBytes (image (mag / factor)) ++
      if 0 < q then 46 :: digitBytes (padded (min q 20).toNat (mag % factor)) else []

def rtFormatDecfixed128 (v q : Int) : List UInt8 :=
  let mag := v.natAbs
  let factor := 10 ^ (min q 38).toNat
  signText v ++ digitBytes (image (mag / factor)) ++
    if 0 < q then 46 :: digitBytes (padded (min q 38).toNat (mag % factor)) else []

def formatFixedScaled (v scale : Int) : List UInt8 :=
  if scale = 0 then fmtInt v
  else if scale < 0 then
    let factor := 2 ^ (min (-scale) 62).toNat
    signText v ++ digitBytes (image (v.natAbs * factor % 2 ^ 64))
  else
    let scale := (min scale 62).toNat
    let sign := signText v
    let v := if v < 0 then word 64 (-v) else v
    let rem := (v % 2 ^ 64 % 2 ^ scale).toNat
    sign ++ fmtInt (v.tdiv (2 ^ scale)) ++
      if rem ≠ 0 then 46 :: digitBytes (expansion scale 60 rem) else []

def isSpace (c : UInt8) : Bool := c = 32 || c = 9 || c = 10 || c = 13

def isDigit (c : UInt8) : Bool := 48 ≤ c && c ≤ 57

def digitOf (c : UInt8) : Nat := c.toNat - 48

def takeSign : List UInt8 → Bool × List UInt8
  | 45 :: p => (true, p)
  | 43 :: p => (false, p)
  | p => (false, p)

def digitsAt (p : List UInt8) : List Nat := (p.takeWhile isDigit).map digitOf

def fractionAt (p : List UInt8) : List Nat :=
  match p.dropWhile isDigit with
  | 46 :: q => digitsAt q
  | _ => []

/-- The accumulating loop of pli_strtoll, which leaves at the first digit that overflows. -/
def saturate (neg : Bool) : List Nat → Nat → Nat
  | [], acc => acc
  | d :: ds, acc =>
    if (2 ^ 64 - 1 - d) / 10 < acc then if neg then 2 ^ 63 else 2 ^ 64 - 1
    else saturate neg ds (acc * 10 + d)

def pliStrtoll (tok : List UInt8) : Int :=
  let (neg, p) := takeSign (tok.dropWhile isSpace)
  let acc := saturate neg (digitsAt p) 0
  if neg then word 64 (-acc) else word 64 acc

def pliGetListFixed (tok : List UInt8) : Int := pliStrtoll tok

def horner64 (acc : Int) (ds : List Nat) : Int := ds.foldl (fun acc d => word 64 (acc * 10 + d)) acc

def timesTen64 : Nat → Int → Int
  | 0, v => v
  | k + 1, v => timesTen64 k (word 64 (v * 10))

def divTen : Nat → Int → Int → Int
  | 0, whole, _ => whole
  | k + 1, whole, frac => divTen k (whole.tdiv 10) (word 64 (frac + whole.tmod 10) |>.tdiv 10)

def pliGetListDecfixed (tok : List UInt8) (q : Int) : Int :=
  let (neg, p) := takeSign tok
  let whole := horner64 0 (digitsAt p)
  let fdigits := (fractionAt p).take q.toNat
  let frac := timesTen64 (q.toNat - fdigits.length) (horner64 0 fdigits)
  let v :=
    if 0 ≤ q then word 64 (timesTen64 q.toNat whole + frac)
    else divTen (min (-q) 18).toNat whole frac
  if neg then word 64 (-v) else v

def pliGetListFixedScaled (tok : List UInt8) (q : Int) : Int :=
  let (neg, p) := takeSign tok
  let whole := (digitsAt p).take 18
  let frac := (fractionAt p).take (18 - whole.length)
  let num := horner (horner 0 whole) frac
  let quo :=
    if 0 ≤ q then num * 2 ^ (min q 62).toNat / 10 ^ frac.length
    else num / (10 ^ frac.length * 2 ^ (min (-q) 62).toNat)
  let mag : Int := min (quo % 2 ^ 64) (2 ^ 63 - 1)
  if neg then -mag else mag

def valueText (ty : Ty) (raw : Int) : List UInt8 :=
  if ty.k = .fixedDec ∧ 0 < ty.scale then
    if ty.intBits = 128 then rtFormatDecfixed128 raw ty.scale else rtFormatDecfixed raw ty.scale
  else if ty.k = .fixedDec ∧ ty.intBits = 128 then rtFormatDecfixed128 raw 0
  else if ty.k = .fixedBin ∧ 0 < ty.scale then formatFixedScaled raw ty.scale
  else fmtInt raw

/-- emitGetDataItems on a FIXED item: the reader's type, its value, and the store's conversion. -/
def readValue (ty : Ty) (tok : List UInt8) : Option Int :=
  if ty.k = .fixedDec ∧ 0 < ty.scale then
    (convert ty ty (word ty.intBits (pliGetListDecfixed tok ty.scale))).map (·.raw)
  else if ty.k = .fixedBin ∧ 0 < ty.scale then
    (convert (bin 63 ty.scale) ty (pliGetListFixedScaled tok ty.scale)).map (·.raw)
  else (convert (bin 63 0) ty (pliGetListFixed tok)).map (·.raw)

theorem word_add_word (w : Nat) (a b : Int) : word w (word w a + b) = word w (a + b) := by
  unfold word
  rw [BitVec.ofInt_add, BitVec.ofInt_toInt, ← BitVec.ofInt_add]

theorem word_mul_word (w : Nat) (a b : Int) : word w (word w a * b) = word w (a * b) := by
  unfold word
  rw [BitVec.ofInt_mul, BitVec.ofInt_toInt, ← BitVec.ofInt_mul]

theorem word_neg_word (w : Nat) (a : Int) : word w (-word w a) = word w (-a) := by
  unfold word
  rw [BitVec.ofInt_neg, BitVec.ofInt_toInt, ← BitVec.ofInt_neg]

theorem word_zero (w : Nat) : word w 0 = 0 := by simp [word]

theorem horner64_word (ds : List Nat) (acc : Nat) :
    horner64 (word 64 acc) ds = word 64 (horner acc ds : Nat) := by
  induction ds generalizing acc with
  | nil => rfl
  | cons d ds ih =>
    have step : word 64 (word 64 acc * 10 + d) = word 64 ((acc * 10 + d : Nat) : Int) := by
      have moved : word 64 (word 64 acc * 10 + d) = word 64 (word 64 (word 64 acc * 10) + d) := by
        rw [word_add_word]
      rw [moved, word_mul_word, word_add_word]
      push_cast
      rfl
    rw [horner_cons, ← ih, ← step]
    rfl

theorem horner64_zero (ds : List Nat) : horner64 0 ds = word 64 (horner 0 ds : Nat) := by
  have start := horner64_word ds 0
  rwa [Nat.cast_zero, word_zero] at start

theorem timesTen64_word (k : Nat) (v : Int) : timesTen64 k (word 64 v) = word 64 (v * 10 ^ k) := by
  induction k generalizing v with
  | zero => rw [timesTen64, pow_zero, mul_one]
  | succ k ih =>
    rw [timesTen64, word_mul_word, ih]
    congr 1
    ring

theorem digitBytes_isDigit {ds : List Nat} (small : ∀ d ∈ ds, d < 10) {c : UInt8}
    (there : c ∈ digitBytes ds) : isDigit c = true := by
  obtain ⟨d, inside, rfl⟩ := List.mem_map.mp there
  have low := small d inside
  unfold isDigit
  interval_cases d <;> decide

theorem digitBytes_digitOf {ds : List Nat} (small : ∀ d ∈ ds, d < 10) :
    (digitBytes ds).map digitOf = ds := by
  unfold digitBytes
  rw [List.map_map]
  conv_rhs => rw [← List.map_id ds]
  apply List.map_congr_left
  intro d inside
  have low := small d inside
  dsimp only [Function.comp, id]
  interval_cases d <;> decide

theorem digitsAt_text {ds : List Nat} (small : ∀ d ∈ ds, d < 10) {rest : List UInt8}
    (stops : ∀ c ∈ rest.head?, isDigit c = false) :
    digitsAt (digitBytes ds ++ rest) = ds ∧ (digitBytes ds ++ rest).dropWhile isDigit = rest := by
  have front : ∀ c ∈ digitBytes ds, isDigit c = true :=
    fun c there => digitBytes_isDigit small there
  have after : rest.takeWhile isDigit = [] ∧ rest.dropWhile isDigit = rest := by
    cases rest with
    | nil => exact ⟨rfl, rfl⟩
    | cons c rest =>
      have stop := stops c rfl
      simp [stop]
  constructor
  · rw [digitsAt, List.takeWhile_append_of_pos front, after.1, List.append_nil,
      digitBytes_digitOf small]
  · rw [List.dropWhile_append_of_pos front, after.2]

def pointed (fraction : List Nat) : List UInt8 :=
  if fraction = [] then [] else 46 :: digitBytes fraction

theorem pointed_stops (fraction : List Nat) : ∀ c ∈
    (pointed fraction).head?, isDigit c = false := by
  intro c there
  unfold pointed at there
  split at there
  · cases there
  · cases there
    rfl

theorem fractionAt_text {whole fraction : List Nat} (small : ∀ d ∈ whole, d < 10)
    (low : ∀ d ∈ fraction, d < 10) :
    digitsAt (digitBytes whole ++ pointed fraction) = whole ∧
      fractionAt (digitBytes whole ++ pointed fraction) = fraction := by
  have parsed := digitsAt_text small (pointed_stops fraction)
  refine ⟨parsed.1, ?_⟩
  rw [fractionAt, parsed.2]
  unfold pointed
  by_cases whole_number : fraction = []
  · rw [if_pos whole_number, whole_number]
  · have tail := (@digitsAt_text fraction low [] (by simp)).1
    rw [List.append_nil] at tail
    rw [if_neg whole_number]
    exact tail

theorem takeSign_text (v : Int) {whole : List Nat} (some_digit : whole ≠ [])
    (small : ∀ d ∈ whole, d < 10)
    (rest : List UInt8) :
    takeSign (signText v ++ (digitBytes whole ++ rest)) =
      (decide (v < 0), digitBytes whole ++ rest) := by
  unfold signText
  by_cases negative : v < 0
  · simp [negative, takeSign]
  · obtain ⟨d, ds, rfl⟩ := List.exists_cons_of_ne_nil some_digit
    have low := small d List.mem_cons_self
    rw [if_neg negative, List.nil_append]
    simp only [digitBytes, List.map_cons, List.cons_append, negative, decide_false]
    interval_cases d <;> rfl

def signed (v n : Int) : Int := if v < 0 then -n else n

theorem signed_natAbs (v : Int) : signed v v.natAbs = v := by
  unfold signed
  split <;> omega

variable {v q : Int}

theorem getDecfixed_text {whole fraction : List Nat} (some_digit : whole ≠ [])
    (small : ∀ d ∈ whole, d < 10) (low : ∀ d ∈ fraction, d < 10) (nonneg : 0 ≤ q)
    (fits : fraction.length ≤ q.toNat) :
    pliGetListDecfixed (signText v ++ (digitBytes whole ++ pointed fraction)) q =
      word 64 (signed v ((horner 0 whole * 10 ^ q.toNat +
        horner 0 fraction * 10 ^ (q.toNat - fraction.length) : Nat) : Int)) := by
  have parts := fractionAt_text small low
  have kept : fraction.take q.toNat = fraction := List.take_of_length_le fits
  have total : word 64 (timesTen64 q.toNat (horner64 0 whole) +
      timesTen64 (q.toNat - fraction.length) (horner64 0 fraction)) =
      word 64 ((horner 0 whole * 10 ^ q.toNat +
        horner 0 fraction * 10 ^ (q.toNat - fraction.length) : Nat) : Int) := by
    rw [horner64_zero, horner64_zero, timesTen64_word, timesTen64_word, word_add_word, Int.add_comm,
      word_add_word]
    push_cast
    rw [Int.add_comm]
  unfold pliGetListDecfixed
  rw [takeSign_text v some_digit small]
  dsimp only
  rw [parts.1, parts.2, kept, if_pos nonneg, total]
  unfold signed
  by_cases negative : v < 0
  · simp [negative, word_neg_word]
  · simp [negative]

theorem saturate_eq (neg : Bool) {ds : List Nat} (small : ∀ d ∈ ds, d < 10) {acc : Nat}
    (room : acc ≤ 2 ^ 64 - 1) :
    saturate neg ds acc =
      if horner acc ds ≤ 2 ^ 64 - 1 then horner acc ds
      else if neg then 2 ^ 63 else 2 ^ 64 - 1 := by
  induction ds generalizing acc with
  | nil =>
    have exact : horner acc [] ≤ 2 ^ 64 - 1 := room
    rw [if_pos exact]
    rfl
  | cons d ds ih =>
    have low := small d List.mem_cons_self
    have grows := horner_le (acc * 10 + d) ds
    unfold saturate
    rw [horner_cons]
    split
    · rename_i overflow
      have large : ¬ horner (acc * 10 + d) ds ≤ 2 ^ 64 - 1 := by omega
      rw [if_neg large]
    · exact ih (fun e there => small e (List.mem_cons_of_mem d there)) (by omega)

theorem text_not_space (v : Int) {whole : List Nat} (some_digit : whole ≠ [])
    (small : ∀ d ∈ whole, d < 10) (rest : List UInt8) :
    (signText v ++ (digitBytes whole ++ rest)).dropWhile isSpace =
      signText v ++ (digitBytes whole ++ rest) := by
  unfold signText
  by_cases negative : v < 0
  · rw [if_pos negative]
    rfl
  · obtain ⟨d, ds, rfl⟩ := List.exists_cons_of_ne_nil some_digit
    have low := small d List.mem_cons_self
    rw [if_neg negative]
    simp only [digitBytes, List.map_cons, List.cons_append, List.nil_append]
    interval_cases d <;> rfl

theorem strtoll_fmtInt_iff (v : Int) : pliStrtoll (fmtInt v) = v ↔ Fits 64 v := by
  have small : ∀ d ∈ image v.natAbs, d < 10 := fun d there => image_digits there
  have parsed := (@digitsAt_text (image v.natAbs) small [] (by simp)).1
  have text : fmtInt v = signText v ++ (digitBytes (image v.natAbs) ++ []) := by
    rw [fmtInt, List.append_nil]
  have magnitude : horner 0 (image v.natAbs) = v.natAbs := by
    rw [image_value, Nat.zero_mul, Nat.zero_add]
  unfold pliStrtoll
  rw [text, text_not_space v (image_ne_nil _) small, takeSign_text v (image_ne_nil _) small]
  dsimp only
  rw [parsed, saturate_eq _ small (by omega), magnitude]
  have exact : Fits 64 v → word 64 v = v := word_of_fits (by omega)
  have back : word 64 v = v → Fits 64 v := by
    intro same
    rw [← same]
    exact word_fits (by omega) v
  by_cases negative : v < 0
  · simp only [negative, decide_true, if_true]
    split
    · have opposite : -(v.natAbs : Int) = v := by omega
      rw [opposite]
      exact ⟨back, exact⟩
    · constructor
      · intro same
        have lowest : word 64 (-((2 ^ 63 : Nat) : Int)) = -2 ^ 63 := by decide +kernel
        rw [lowest] at same
        omega
      · intro fits
        unfold Fits at fits
        omega
  · simp only [negative, decide_false, Bool.false_eq_true, if_false]
    split
    · have same : (v.natAbs : Int) = v := by omega
      rw [same]
      exact ⟨back, exact⟩
    · constructor
      · intro same
        have minus_one : word 64 ((2 ^ 64 - 1 : Nat) : Int) = -1 := by decide +kernel
        rw [minus_one] at same
        omega
      · intro fits
        unfold Fits at fits
        omega

theorem getFixedScaled_text {v q : Int} {whole fraction : List Nat} (some_digit : whole ≠ [])
    (small : ∀ d ∈ whole, d < 10) (low : ∀ d ∈ fraction, d < 10) (nonneg : 0 ≤ q) :
    let front := whole.take 18
    let back := fraction.take (18 - front.length)
    pliGetListFixedScaled (signText v ++ (digitBytes whole ++ pointed fraction)) q =
      signed v (min ((horner (horner 0 front) back * 2 ^ (min q 62).toNat / 10 ^ back.length % 2
        ^ 64 : Nat) : Int)
        (2 ^ 63 - 1)) := by
  have parts := fractionAt_text small low
  dsimp only
  unfold pliGetListFixedScaled
  rw [takeSign_text v some_digit small]
  dsimp only
  rw [parts.1, parts.2, if_pos nonneg]
  unfold signed
  by_cases negative : v < 0
  · simp [negative]
  · simp [negative]

theorem signed_mul (v : Int) (k : Nat) : signed v ((v.natAbs * k : Nat) : Int) = v * k := by
  have parts := signed_natAbs v
  unfold signed at *
  rw [Nat.cast_mul]
  split
  · rename_i negative
    rw [if_pos negative] at parts
    rw [← neg_mul, parts]
  · rename_i nonneg
    rw [if_neg nonneg] at parts
    rw [parts]

theorem signText_length (v : Int) : (signText v).length ≤ 1 := by
  unfold signText
  split <;> simp

theorem digitBytes_length (ds : List Nat) : (digitBytes ds).length = ds.length := List.length_map ..

theorem pointed_length (ds : List Nat) : (pointed ds).length ≤ 1 + ds.length := by
  unfold pointed
  split
  · simp
  · rw [List.length_cons, digitBytes_length]
    omega

theorem pointed_padded {k : Nat} (some_digit : 0 < k) (n : Nat) :
    pointed (padded k n) = 46 :: digitBytes (padded k n) := by
  have nonempty : padded k n ≠ [] := by
    intro empty
    have length := padded_length k n
    rw [empty] at length
    simp at length
    omega
  rw [pointed, if_neg nonempty]

theorem padded_zero_value (k n : Nat) : horner 0 (padded k n) = n % 10 ^ k := by
  rw [padded_value, Nat.zero_mul, Nat.zero_add]

theorem image_zero_value (n : Nat) : horner 0 (image n) = n := by
  rw [image_value, Nat.zero_mul, Nat.zero_add]

theorem decfixed_shape (fraction : 0 < q) : rtFormatDecfixed v q = signText v ++
    (digitBytes (image (v.natAbs / 10 ^ (min q 18).toNat)) ++
      pointed (padded (min q 20).toNat (v.natAbs % 10 ^ (min q 18).toNat))) := by
  unfold rtFormatDecfixed
  dsimp only
  rw [if_neg (by omega), if_pos fraction, pointed_padded (by omega), List.append_assoc]

theorem decfixed128_shape (fraction : 0 < q) : rtFormatDecfixed128 v q = signText v ++
    (digitBytes (image (v.natAbs / 10 ^ (min q 38).toNat)) ++
      pointed (padded (min q 38).toNat (v.natAbs % 10 ^ (min q 38).toNat))) := by
  unfold rtFormatDecfixed128
  dsimp only
  rw [if_pos fraction, pointed_padded (by omega), List.append_assoc]

theorem decfixed_read (fraction : 0 < q) (narrow : v.natAbs < 10 ^ 18) :
    pliGetListDecfixed ((rtFormatDecfixed v q).take 63) q = word 64 (v * 10 ^ (q - 20).toNat) := by
  have short : (rtFormatDecfixed v q).length ≤ 63 := by
    have sign := signText_length v
    have below : v.natAbs / 10 ^ (min q 18).toNat < 10 ^ (17 + 1) :=
      lt_of_le_of_lt (Nat.div_le_self _ _) narrow
    have whole := (image_length_iff (v.natAbs / 10 ^ (min q 18).toNat) 17).mpr below
    have point := pointed_length (padded (min q 20).toNat (v.natAbs % 10 ^ (min q 18).toNat))
    rw [padded_length] at point
    rw [decfixed_shape fraction, List.length_append, List.length_append, digitBytes_length]
    omega
  have value : horner 0 (image (v.natAbs / 10 ^ (min q 18).toNat)) * 10 ^ q.toNat +
      horner 0 (padded (min q 20).toNat (v.natAbs % 10 ^ (min q 18).toNat)) *
        10 ^ (q.toNat - (padded (min q 20).toNat (v.natAbs % 10 ^ (min q 18).toNat)).length) =
      v.natAbs * 10 ^ (q - 20).toNat := by
    rw [image_zero_value, padded_zero_value, padded_length]
    by_cases few : q ≤ 18
    · have same : (min q 18).toNat = q.toNat ∧ (min q 20).toNat = q.toNat ∧
        (q - 20).toNat = 0 := by omega
      rw [same.1, same.2.1, same.2.2, Nat.mod_mod, Nat.sub_self, pow_zero, mul_one, mul_one]
      exact Nat.div_add_mod' _ _
    · have whole : (min q 18).toNat = 18 := by omega
      have left : q.toNat - (min q 20).toNat = (q - 20).toNat := by omega
      have inside : v.natAbs < 10 ^ (min q 20).toNat := by
        calc v.natAbs < 10 ^ 18 := narrow
          _ ≤ 10 ^ (min q 20).toNat := Nat.pow_le_pow_right (by omega) (by omega)
      rw [whole, left, Nat.div_eq_of_lt narrow, Nat.mod_eq_of_lt narrow, Nat.mod_eq_of_lt inside]
      omega
  rw [List.take_of_length_le short, decfixed_shape fraction,
    getDecfixed_text (image_ne_nil _) (fun d there => image_digits there)
      (fun d there => padded_digits there) (by omega) (by rw [padded_length]; omega),
    value, signed_mul]
  push_cast
  rfl

theorem decfixed128_read (fraction : 0 < q) (wide : v.natAbs < 10 ^ 39) :
    pliGetListDecfixed ((rtFormatDecfixed128 v q).take 63) q =
      word 64 (v * 10 ^ (q - 38).toNat) := by
  have short : (rtFormatDecfixed128 v q).length ≤ 63 := by
    have sign := signText_length v
    have below : v.natAbs / 10 ^ (min q 38).toNat < 10 ^ (38 - (min q 38).toNat + 1) := by
      rw [Nat.div_lt_iff_lt_mul (by positivity), ← pow_add]
      calc v.natAbs < 10 ^ 39 := wide
        _ = 10 ^ (38 - (min q 38).toNat + 1 + (min q 38).toNat) := by
          congr 1
          omega
    have whole := (image_length_iff (v.natAbs / 10 ^ (min q 38).toNat) _).mpr below
    have point := pointed_length (padded (min q 38).toNat (v.natAbs % 10 ^ (min q 38).toNat))
    rw [padded_length] at point
    rw [decfixed128_shape fraction, List.length_append, List.length_append, digitBytes_length]
    omega
  have value : horner 0 (image (v.natAbs / 10 ^ (min q 38).toNat)) * 10 ^ q.toNat +
      horner 0 (padded (min q 38).toNat (v.natAbs % 10 ^ (min q 38).toNat)) *
        10 ^ (q.toNat - (padded (min q 38).toNat (v.natAbs % 10 ^ (min q 38).toNat)).length) =
      v.natAbs * 10 ^ (q - 38).toNat := by
    rw [image_zero_value, padded_zero_value, padded_length, Nat.mod_mod]
    have left : q.toNat - (min q 38).toNat = (q - 38).toNat := by omega
    have whole : q.toNat = (min q 38).toNat + (q - 38).toNat := by omega
    rw [left]
    conv_lhs => rw [whole, pow_add]
    conv_rhs => rw [← Nat.div_add_mod' v.natAbs (10 ^ (min q 38).toNat)]
    ring
  rw [List.take_of_length_le short, decfixed128_shape fraction,
    getDecfixed_text (image_ne_nil _) (fun d there => image_digits there)
      (fun d there => padded_digits there) (by omega) (by rw [padded_length]; omega),
    value, signed_mul]
  push_cast
  rfl

theorem fmtInt_short (small : v.natAbs < 10 ^ 39) : (fmtInt v).take 63 = fmtInt v := by
  have whole := (image_length_iff v.natAbs 38).mpr small
  have sign := signText_length v
  apply List.take_of_length_le
  rw [fmtInt, List.length_append, digitBytes_length]
  omega

theorem formatDecfixed128_whole (v : Int) : rtFormatDecfixed128 v 0 = fmtInt v := by
  simp [rtFormatDecfixed128, fmtInt]

variable {w : Nat}

theorem word_scaled_iff {k : Nat} (pos : 0 < w) (fits : Fits w v) (some_power : 0 < k) :
    word w (v * 10 ^ k) = v ↔ v = 0 := by
  constructor
  · intro same
    obtain ⟨m, off⟩ := toInt_ofInt_off w (v * 10 ^ k)
    have whole : v * (10 ^ k - 1) = (2 : Int) ^ w * -m := by
      unfold word at same
      rw [same] at off
      linarith
    have odd : IsCoprime ((2 : Int) ^ w) (10 ^ k - 1) := by
      apply IsCoprime.pow_left
      obtain ⟨half, twice⟩ : ∃ half : Int, (10 : Int) ^ k = 2 * half := by
        obtain ⟨j, rfl⟩ : ∃ j, k = j + 1 := ⟨k - 1, by omega⟩
        exact ⟨5 * 10 ^ j, by ring⟩
      exact ⟨half, -1, by rw [twice]; ring⟩
    have divides : (2 : Int) ^ w ∣ v := odd.dvd_of_dvd_mul_right ⟨-m, whole⟩
    have range : (2 : Int) ^ w = 2 * 2 ^ (w - 1) := by
      rw [← pow_succ']
      congr 1
      omega
    have some_range : (0 : Int) < 2 ^ (w - 1) := by positivity
    obtain ⟨c, multiple⟩ := divides
    unfold Fits at fits
    rw [range] at multiple
    have none_over : c = 0 := by
      by_contra nonzero
      rcases Int.lt_or_gt_of_ne nonzero with below | above
      · have : 2 * 2 ^ (w - 1) * c ≤ 2 * 2 ^ (w - 1) * (-1) := by
          apply mul_le_mul_of_nonneg_left <;> omega
        omega
      · have : 2 * 2 ^ (w - 1) * 1 ≤ 2 * 2 ^ (w - 1) * c := by
          apply mul_le_mul_of_nonneg_left <;> omega
        omega
    rw [multiple, none_over, mul_zero]
  · rintro rfl
    rw [zero_mul, word_zero]

def exactDigits (scale mag : Nat) : Nat :=
  (image (mag / 2 ^ scale)).length + (expansion scale 60 (mag % 2 ^ scale)).length

theorem digitBytes_take (ds : List Nat) (k : Nat) :
    (digitBytes ds).take k = digitBytes (ds.take k) :=
  (List.map_take ..).symm

theorem token_text (v : Int) {whole fraction : List Nat} (few : whole.length ≤ 19) :
    ∃ j, 18 ≤ j ∧ (signText v ++ (digitBytes whole ++ pointed fraction)).take 63 =
      signText v ++ (digitBytes whole ++ pointed (fraction.take j)) := by
  have sign := signText_length v
  refine ⟨62 - (signText v).length - whole.length, by omega, ?_⟩
  have front : (signText v).length ≤ 63 := by omega
  rw [List.take_append, List.take_of_length_le front, List.take_append,
    List.take_of_length_le (by rw [digitBytes_length]; omega), digitBytes_length]
  congr 2
  obtain ⟨n, room⟩ : ∃ n, 63 - (signText v).length - whole.length = n + 1 :=
    ⟨62 - (signText v).length - whole.length, by omega⟩
  have left : 62 - (signText v).length - whole.length = n := by omega
  rw [room, left]
  have some_left : n ≠ 0 := by omega
  unfold pointed
  by_cases empty : fraction = []
  · simp [empty]
  · have kept : fraction.take n ≠ [] := by
      intro none_kept
      rcases List.take_eq_nil_iff.mp none_kept with none_taken | none_there
      · exact some_left none_taken
      · exact empty none_there
    rw [if_neg empty, if_neg kept, List.take_succ_cons, digitBytes_take]

theorem expansion_pointed (scale rem : Nat) :
    (if rem ≠ 0 then 46 :: digitBytes (expansion scale 60 rem) else []) =
      pointed (expansion scale 60 rem) := by
  unfold pointed
  by_cases whole_number : rem = 0
  · simp [whole_number, expansion]
  · have nonempty : expansion scale 60 rem ≠ [] := by
      rw [expansion, if_neg whole_number]
      simp
    rw [if_pos whole_number, if_neg nonempty]

theorem eighteen_digits {mag scale j : Nat} (room : 18 ≤ j)
    (few : (image (mag / 2 ^ scale)).length ≤ 19) :
    let front := (image (mag / 2 ^ scale)).take 18
    let back := ((expansion scale 60 (mag % 2 ^ scale)).take j).take (18 - front.length)
    let quo := horner (horner 0 front) back * 2 ^ scale / 10 ^ back.length
    (exactDigits scale mag ≤ 18 → quo = mag) ∧ (¬ exactDigits scale mag ≤ 18 → quo < mag) := by
  have some_digit : 0 < (image (mag / 2 ^ scale)).length := List.length_pos_iff.mpr (image_ne_nil _)
  have value := image_zero_value (mag / 2 ^ scale)
  have parts := Nat.div_add_mod' mag (2 ^ scale)
  have small : mag % 2 ^ scale < 2 ^ scale := Nat.mod_lt _ (by positivity)
  unfold exactDigits
  generalize wholeDigits : image (mag / 2 ^ scale) = whole at *
  generalize fractionDigits : expansion scale 60 (mag % 2 ^ scale) = fraction at *
  dsimp only
  by_cases fits : whole.length ≤ 18
  · have front : whole.take 18 = whole := List.take_of_length_le fits
    have again : (fraction.take j).take (18 - whole.length) =
      fraction.take (18 - whole.length) := by
      rw [List.take_take, Nat.min_eq_left (by omega)]
    rw [front, again, value, horner_shift]
    generalize back_eq : fraction.take (18 - whole.length) = back at *
    have quotient : (mag / 2 ^ scale * 10 ^ back.length + horner 0 back) * 2 ^ scale /
      10 ^ back.length =
        mag / 2 ^ scale * 2 ^ scale + horner 0 back * 2 ^ scale / 10 ^ back.length := by
      have sum : (mag / 2 ^ scale * 10 ^ back.length + horner 0 back) * 2 ^ scale =
          horner 0 back * 2 ^ scale + mag / 2 ^ scale * 2 ^ scale * 10 ^ back.length := by ring
      rw [sum, Nat.add_mul_div_right _ _ (by positivity), Nat.add_comm]
    rw [quotient]
    constructor
    · intro within
      have all : back = fraction := by
        rw [← back_eq]
        exact List.take_of_length_le (by omega)
      have exact := @expansion_floor_eq scale 60 (mag % 2 ^ scale) small
        (by rw [fractionDigits]; omega)
      rw [fractionDigits] at exact
      rw [all, exact, Nat.mul_div_cancel _ (by positivity)]
      exact parts
    · intro beyond
      have length : back.length = 18 - whole.length := by
        rw [← back_eq]
        exact List.length_take_of_le (by omega)
      have short := @expansion_floor_lt scale 60 (mag % 2 ^ scale) (18 - whole.length) small
        (by rw [fractionDigits]; omega)
      rw [fractionDigits, back_eq, ← length] at short
      have less := (Nat.div_lt_iff_lt_mul (by positivity : 0 < 10 ^ back.length)).mpr short
      omega
  · have nineteen : whole.length = 19 := by omega
    have front : (whole.take 18).length = 18 := List.length_take_of_le (by omega)
    rw [front, Nat.sub_self, List.take_zero]
    simp only [horner, List.foldl_nil, List.length_nil, pow_zero, Nat.div_one]
    constructor
    · intro within
      omega
    · intro _
      have last : (whole.drop 18).length = 1 := by
        rw [List.length_drop]
        omega
      obtain ⟨d, single⟩ := List.length_eq_one_iff.mp last
      have split_value : horner (horner 0 (whole.take 18)) (whole.drop 18) = mag / 2 ^ scale := by
        rw [← horner_append, List.take_append_drop, value]
      rw [single] at split_value
      simp only [horner, List.foldl_cons, List.foldl_nil] at split_value
      have large : 10 ^ 18 ≤ mag / 2 ^ scale := by
        by_contra below
        have few_digits := (image_length_iff (mag / 2 ^ scale) 17).mpr (by omega)
        rw [wholeDigits] at few_digits
        omega
      have positive : 0 < 2 ^ scale := by positivity
      have less : (whole.take 18).foldl (fun acc d => acc * 10 + d) 0 < mag / 2 ^ scale := by omega
      calc (whole.take 18).foldl (fun acc d => acc * 10 + d) 0 * 2 ^ scale
          < mag / 2 ^ scale * 2 ^ scale := Nat.mul_lt_mul_of_pos_right less positive
        _ ≤ mag := Nat.div_mul_le_self _ _

theorem lowest_read {s : Nat} (small : s ≤ 62) (q : Int) :
    pliGetListFixedScaled
      ((signText (-2 ^ 63) ++ fmtInt ((if (-2 ^ 63 : Int) < 0 then word 64
        (-(-2 ^ 63)) else -2 ^ 63).tdiv (2 ^ s)) ++
        if ((if (-2 ^ 63 : Int) < 0 then word 64 (-(-2 ^ 63)) else -2 ^ 63) % 2 ^ 64 % 2
          ^ s).toNat ≠ 0 then
          46 :: digitBytes
            (expansion s 60 (((if (-2 ^ 63 : Int) < 0 then word 64 (-(-2 ^ 63)) else -2 ^ 63) %
            2 ^ 64 % 2 ^ s).toNat)) else []).take 63) q = 0 := by
  have wrapped : (if (-2 ^ 63 : Int) < 0 then word 64 (-(-2 ^ 63)) else -2 ^ 63) = -2 ^ 63 := by
    decide +kernel
  rw [wrapped]
  have power : (2 : Int) ^ 63 = 2 ^ s * 2 ^ (63 - s) := by
    rw [← pow_add]
    congr 1
    omega
  have negative : (-2 ^ 63 : Int).tdiv (2 ^ s) < 0 := by
    have positive : (0 : Int) < 2 ^ s := by positivity
    have quotient : (0 : Int) < 2 ^ (63 - s) := by positivity
    rw [power, ← mul_neg, Int.mul_tdiv_cancel_left _ (by omega)]
    omega
  have text : fmtInt ((-2 ^ 63 : Int).tdiv (2 ^ s)) =
      45 :: digitBytes (image ((-2 ^ 63 : Int).tdiv (2 ^ s)).natAbs) := by
    rw [fmtInt, signText, if_pos negative]
    rfl
  rw [text]
  have sign : signText (-2 ^ 63) = [45] := rfl
  rw [sign]
  have nothing : ∀ rest : List UInt8, pliGetListFixedScaled (45 :: 45 :: rest) q = 0 := by
    intro rest
    have none_read : digitsAt (45 :: rest) = [] ∧ fractionAt (45 :: rest) = [] := ⟨rfl, rfl⟩
    unfold pliGetListFixedScaled
    simp [takeSign, none_read, horner]
  simp only [List.cons_append, List.nil_append, List.take_succ_cons]
  exact nothing _

theorem formatFixedScaled_text (fraction : 0 < q) (fits : Fits 64 v) (other : v ≠ -2 ^ 63) :
    formatFixedScaled v q = signText v ++
      (digitBytes (image (v.natAbs / 2 ^ (min q 62).toNat)) ++
        pointed (expansion (min q 62).toNat 60 (v.natAbs % 2 ^ (min q 62).toNat))) := by
  obtain ⟨s, scale⟩ : ∃ s, s = (min q 62).toNat := ⟨_, rfl⟩
  unfold Fits at fits
  unfold formatFixedScaled
  rw [if_neg (by omega), if_neg (by omega), ← scale]
  dsimp only
  have magnitude : (if v < 0 then word 64 (-v) else v) = v.natAbs := by
    split
    · rw [word_of_fits (by omega) (by unfold Fits; omega)]
      omega
    · omega
  have rem : ((v.natAbs : Int) % 2 ^ 64 % 2 ^ s).toNat = v.natAbs % 2 ^ s := by
    have inner : (v.natAbs : Int) % 2 ^ 64 = v.natAbs := Int.emod_eq_of_lt (by omega) (by omega)
    have cast : ((v.natAbs : Int) % 2 ^ s) = ((v.natAbs % 2 ^ s : Nat) : Int) := by push_cast; rfl
    rw [inner, cast, Int.toNat_natCast]
  have quotient : (v.natAbs : Int).tdiv (2 ^ s) = ((v.natAbs / 2 ^ s : Nat) : Int) := by
    have power : ((2 : Int) ^ s) = ((2 ^ s : Nat) : Int) := by push_cast; rfl
    rw [power, ← Int.ofNat_tdiv]
  have plain : fmtInt ((v.natAbs / 2 ^ s : Nat) : Int) = digitBytes (image (v.natAbs / 2 ^ s)) := by
    have nonneg : ¬ ((v.natAbs / 2 ^ s : Nat) : Int) < 0 := by
      have := Int.natCast_nonneg (v.natAbs / 2 ^ s)
      omega
    rw [fmtInt, signText, if_neg nonneg, List.nil_append, Int.natAbs_natCast]
  rw [magnitude, rem, quotient, plain, expansion_pointed, List.append_assoc]

theorem fixedScaled_read (fraction : 0 < q) (fits : Fits 64 v) :
    let r := pliGetListFixedScaled ((formatFixedScaled v q).take 63) q
    (v ≠ -2 ^ 63 ∧ exactDigits (min q 62).toNat v.natAbs ≤ 18 → r = v) ∧
      (¬ (v ≠ -2 ^ 63 ∧ exactDigits (min q 62).toNat v.natAbs ≤ 18) → r.natAbs < v.natAbs) := by
  obtain ⟨s, scale⟩ : ∃ s, s = (min q 62).toNat := ⟨_, rfl⟩
  have bounds : 1 ≤ s ∧ s ≤ 62 := by omega
  by_cases lowest : v = -2 ^ 63
  · subst lowest
    refine ⟨fun right => absurd rfl right.1, fun _ => ?_⟩
    unfold formatFixedScaled
    rw [if_neg (by omega), if_neg (by omega), ← scale]
    dsimp only
    rw [lowest_read bounds.2 q]
    decide
  · have text := formatFixedScaled_text fraction fits lowest
    unfold Fits at fits
    have large : v.natAbs < 2 ^ 63 := by omega
    have few : (image (v.natAbs / 2 ^ s)).length ≤ 19 := by
      apply (image_length_iff _ 18).mpr
      have smaller := Nat.div_le_self v.natAbs (2 ^ s)
      omega
    dsimp only
    rw [text, ← scale]
    obtain ⟨j, room, token⟩ := @token_text v _ (expansion s 60 (v.natAbs % 2 ^ s)) few
    have read := @getFixedScaled_text v q _ ((expansion s 60 (v.natAbs % 2 ^ s)).take j)
      (image_ne_nil (v.natAbs / 2 ^ s)) (fun d there => image_digits there)
      (fun d there => expansion_digits (Nat.mod_lt _ (by positivity)) (List.mem_of_mem_take there))
        (by omega)
    have digits := @eighteen_digits v.natAbs s j room few
    dsimp only at read digits
    rw [token, read, ← scale]
    generalize horner (horner 0 _) _ * 2 ^ s / 10 ^ _ = quo at digits ⊢
    have no_more : quo ≤ v.natAbs := by
      by_cases within : exactDigits s v.natAbs ≤ 18
      · exact (digits.1 within).le
      · exact (digits.2 within).le
    have kept : min ((quo % 2 ^ 64 : Nat) : Int) (2 ^ 63 - 1) = quo := by
      rw [Nat.mod_eq_of_lt (by omega)]
      omega
    rw [kept]
    constructor
    · rintro ⟨-, within⟩
      rw [digits.1 within]
      exact signed_natAbs v
    · intro beyond
      have less := digits.2 fun within => beyond ⟨lowest, within⟩
      unfold signed
      split <;> omega

/-- Which values come back from their own text. A FIXED value of negative scale is written raw and
    read as a number; the narrow DECIMAL formatter stops at 20 digits of fraction; the wide
    DECIMAL readers go through a long long; a scaled BINARY keeps 18 digits. -/
def ReadsBack (ty : Ty) (raw : Int) : Prop :=
  if ty.k = .fixedBin then
    if ty.scale < 0 then raw = 0
    else 0 < ty.scale → raw ≠ -2 ^ 63 ∧ exactDigits (min ty.scale 62).toNat raw.natAbs ≤ 18
  else if ty.wideDec then Fits 64 raw ∧ (38 < ty.scale → raw = 0)
  else (ty.scale < 0 ∨ 20 < ty.scale) → raw = 0

variable {ty : Ty} {r : Int}

theorem inRange_smaller (less : r.natAbs < v.natAbs) (inside : InRange ty v) : InRange ty r := by
  unfold InRange at *
  split at inside
  · rw [if_pos ‹_›]
    omega
  · rw [if_neg ‹_›]
    omega

theorem fits_smaller (less : r.natAbs < v.natAbs) (fits : Fits w v) : Fits w r := by
  unfold Fits at *
  omega

theorem stored_slot (stored : Stored ty r) : fitFixed ty r = r := word_of_fits
    (intBits_pos ty) stored.2

theorem checkBin_stored (binary : ty.k = .fixedBin) {r : Int} (stored : Stored ty r)
    (bits : Nat) : checkBin bits ty r = ⟨r, false⟩ := by
  have inside := stored.1
  rw [InRange, if_pos binary] at inside
  have kept := stored_slot stored
  unfold checkBin fixedBinPrecTrap
  split
  · dsimp only
    rw [kept]
  · rw [if_neg (by omega)]
    dsimp only
    rw [kept]

theorem binary_same_scale (binary : ty.k = .fixedBin) {r : Int} (stored : Stored ty r) :
    (convert (bin 63 ty.scale) ty r).map (·.raw) = some r := by
  have done : convert (bin 63 ty.scale) ty r = some (binToBin (bin 63 ty.scale) ty r) := by
    simp [convert, throughFloat, bin, binary]
  rw [done]
  simp [binToBin, bin, checkBin_stored binary stored]

theorem decimal_itself (decimal : ty.k = .fixedDec) (r : Int) :
    (convert ty ty (word ty.intBits r)).map (·.raw) = some (word ty.intBits r) := by
  have done : ∀ v, convert ty ty v = some (decToDec ty ty v) := by
    intro v
    simp [convert, throughFloat, decimal]
  have kept : fitFixed ty (word ty.intBits r) = word ty.intBits r :=
    word_of_fits (intBits_pos ty) (word_fits (intBits_pos ty) r)
  have same : decToDec ty ty (word ty.intBits r) = checkDec ty ty (word ty.intBits r) := by
    simp [decToDec]
  rw [done, same]
  simp [checkDec, kept]

theorem word_even {n half : Int} (even : n = 2 * half) : (word 64 n).natAbs ≠ 1 := by
  obtain ⟨m, off⟩ := toInt_ofInt_off 64 n
  unfold word
  rw [off, even]
  have shape : 2 * half + m * 2 ^ 64 = 2 * (half + m * 2 ^ 63) := by ring
  rw [shape]
  generalize half + m * 2 ^ 63 = x
  omega

theorem pow_even {b half : Int} (even : b = 2 * half) {k : Nat} (some_power : 0 < k) :
    ∃ h, b ^ k = 2 * h := by
  obtain ⟨j, rfl⟩ : ∃ j, k = j + 1 := ⟨k - 1, by omega⟩
  exact ⟨b ^ j * half, by rw [pow_succ, even]; ring⟩

theorem tdiv_smaller {w : Int} (no_unit : w.natAbs ≠ 1) (nonzero : r ≠ 0) :
    (r.tdiv w).natAbs < r.natAbs := by
  have some_size : 0 < r.natAbs := by omega
  rw [Int.natAbs_tdiv]
  show r.natAbs / w.natAbs < r.natAbs
  rcases Nat.eq_zero_or_pos w.natAbs with zero | pos
  · rw [zero, Nat.div_zero]
    exact some_size
  · exact Nat.div_lt_self some_size (by omega)

theorem divided_iff {w : Int} (no_unit : w.natAbs ≠ 1) : r.tdiv w = r ↔ r = 0 := by
  constructor
  · intro same
    by_contra nonzero
    have less := tdiv_smaller no_unit nonzero
    rw [same] at less
    omega
  · rintro rfl
    simp

theorem divided_stored {w : Int} (no_unit : w.natAbs ≠ 1) (stored : Stored ty r) :
    Stored ty (r.tdiv w) := by
  by_cases zero : r = 0
  · rw [zero] at stored ⊢
    simpa using stored
  · have less := tdiv_smaller no_unit zero
    exact ⟨inRange_smaller less stored.1, fits_smaller less stored.2⟩

theorem binary_negative_scale (binary : ty.k = .fixedBin) (negative : ty.scale < 0) {r : Int}
    (stored : Stored ty r) : (convert (bin 63 0) ty r).map (·.raw) = some r ↔ r = 0 := by
  have done : convert (bin 63 0) ty r = some (binToBin (bin 63 0) ty r) := by
    simp [convert, throughFloat, bin, binary]
  obtain ⟨h, even⟩ := @pow_even 2 1 (by norm_num) (-ty.scale).toNat (by omega)
  have no_unit : (oneShl (-ty.scale)).natAbs ≠ 1 := word_even even
  have quotient := divided_stored no_unit stored
  have fits : Fits 128 (r.tdiv (oneShl (-ty.scale))) :=
    fits_mono (by have := binary_word binary; omega) quotient.2
  have computed : binToBin (bin 63 0) ty r = ⟨r.tdiv (oneShl (-ty.scale)), false⟩ := by
    unfold binToBin
    have drop : ty.scale - (bin 63 0).scale = ty.scale := by simp [bin]
    rw [drop]
    dsimp only
    rw [if_neg (by omega), if_neg (by omega), word_of_fits (by omega) fits,
      checkBin_stored binary quotient]
  rw [done, computed, Option.map_some, Option.some.injEq]
  exact divided_iff no_unit

theorem checkDec_stored {src : Ty} (stored : Stored ty r) :
    (checkDec src ty r).raw = r := stored_slot stored

theorem narrow_bits (decimal : ty.k = .fixedDec) (narrow : ty.wideDec = false) :
    ty.intBits ≤ 64 ∧ ty.intBits ≠ 128 := by
  unfold Ty.intBits
  rw [decimal, narrow]
  simp only [Bool.false_eq_true, if_false]
  split <;> omega

theorem binary_source (ty : Ty) (decimal : ty.k = .fixedDec) (whole : ty.scale ≤ 0) (r : Int) :
    convert (bin 63 0) ty r = some (binToDec (bin 63 0) ty r) := by
  have level : ¬ 38 < ty.scale := by omega
  simp [convert, throughFloat, bin, decimal, level]

theorem narrow_decimal_read (decimal : ty.k = .fixedDec) (narrow : ty.wideDec = false)
    (whole : ty.scale ≤ 0) {r : Int} (stored : Stored ty r) :
    (convert (bin 63 0) ty r).map (·.raw) = some r ↔ (ty.scale < 0 → r = 0) := by
  have bits := narrow_bits decimal narrow
  have none_left : (bin 63 0).scale = 0 := rfl
  have up : ¬ 0 < ty.scale := by omega
  rw [binary_source ty decimal whole, Option.map_some, Option.some.injEq, binToDec, if_neg bits.2]
  by_cases negative : ty.scale < 0
  · obtain ⟨h, even⟩ := @pow_even 10 5 (by norm_num) (-ty.scale).toNat (by omega)
    have no_unit : (pliPow10 (-ty.scale)).natAbs ≠ 1 := word_even even
    have quotient := divided_stored no_unit stored
    have fits : Fits 128 (r.tdiv (pliPow10 (-ty.scale))) := fits_mono (by omega) quotient.2
    have computed : binToDecNarrow (bin 63 0) ty r = r.tdiv (pliPow10 (-ty.scale)) := by
      simp [binToDecNarrow, none_left, up, negative, word_of_fits (by omega : 0 < 128) fits]
    rw [computed, checkDec_stored quotient, divided_iff no_unit]
    exact ⟨fun zero _ => zero, fun zero => zero negative⟩
  · have computed : binToDecNarrow (bin 63 0) ty r = r := by
      simp [binToDecNarrow, none_left, up, negative]
    rw [computed, checkDec_stored stored]
    simp [negative]

theorem wide_decimal_read (decimal : ty.k = .fixedDec) (wide : ty.wideDec = true)
    (whole : ty.scale ≤ 0) {r : Int} (fits : Fits 64 r) :
    (convert (bin 63 0) ty r).map (·.raw) = some r := by
  have bits : ty.intBits = 128 := (decimal_wide decimal).mpr wide
  have none_left : (bin 63 0).scale = 0 := rfl
  have up : ¬ 0 < ty.scale := by omega
  have computed : binToDecWide (bin 63 0) ty r = r := by
    simp [binToDecWide, none_left, up]
  have kept : fitFixed ty r = r := by
    rw [fitFixed, bits]
    exact word_of_fits (by omega) (fits_mono (by omega) fits)
  rw [binary_source ty decimal whole, Option.map_some, binToDec, if_pos bits, computed]
  dsimp only
  rw [kept]

theorem fits_small (fits : Fits 128 r) : r.natAbs < 10 ^ 39 := by
  unfold Fits at fits
  omega

theorem word_narrower (pos : 0 < w) (le : w ≤ 64) (n : Int) : word w (word 64 n) = word w n := by
  obtain ⟨m, off⟩ := toInt_ofInt_off 64 n
  have range : (2 : Int) ^ 64 = 2 ^ (64 - w) * 2 ^ w := by
    rw [← pow_add]
    congr 1
    omega
  unfold word
  rw [off, range, BitVec.ofInt_add, BitVec.ofInt_mul, BitVec.ofInt_mul]
  have none_left : BitVec.ofInt w ((2 : Int) ^ w) = 0#w := by
    apply BitVec.eq_of_toInt_eq
    have self := @Int.bmod_self (2 ^ w)
    push_cast at self
    simp [self]
  rw [none_left]
  simp

theorem strtoll_fits (tok : List UInt8) : Fits 64 (pliStrtoll tok) := by
  unfold pliStrtoll
  dsimp only
  split <;> exact word_fits (by omega) _

theorem value_reads_iff {raw : Int} (declared : Declared ty) (stored : Stored ty raw) :
    readValue ty ((valueText ty raw).take 63) = some raw ↔ ReadsBack ty raw := by
  unfold readValue valueText ReadsBack
  rcases declared.1 with binary | decimal
  · have word_size := binary_word binary
    have kept : Fits 64 raw := stored_fits stored word_size
    have short := fmtInt_short (fits_small (fits_mono (by omega) kept))
    simp only [binary, reduceCtorEq, false_and, if_false, true_and, if_true]
    by_cases up : 0 < ty.scale
    · have read := fixedScaled_read up kept
      dsimp only at read
      simp only [up, if_true, if_neg (not_lt.mpr up.le), true_implies]
      by_cases right : raw ≠ -2 ^ 63 ∧ exactDigits (min ty.scale 62).toNat raw.natAbs ≤ 18
      · rw [read.1 right, binary_same_scale binary stored]
        exact ⟨fun _ => right, fun _ => rfl⟩
      · have less := read.2 right
        have smaller : Stored ty _ := ⟨inRange_smaller less stored.1, fits_smaller less stored.2⟩
        rw [binary_same_scale binary smaller, Option.some.injEq]
        constructor
        · intro same
          rw [same] at less
          omega
        · intro impossible
          exact absurd impossible right
    · simp only [up, if_false, false_implies]
      rw [short, pliGetListFixed, (strtoll_fmtInt_iff raw).mpr kept]
      by_cases negative : ty.scale < 0
      · rw [if_pos negative]
        exact binary_negative_scale binary negative stored
      · have level : ty.scale = 0 := by omega
        have same := binary_same_scale binary stored
        rw [level] at same
        rw [if_neg negative]
        exact ⟨fun _ => trivial, fun _ => same⟩
  · simp only [decimal, reduceCtorEq, false_and, if_false, true_and]
    by_cases wide : ty.wideDec = true
    · have bits : ty.intBits = 128 := (decimal_wide decimal).mpr wide
      have kept : Fits 128 raw := stored_fits stored (by omega)
      have short := fmtInt_short (fits_small kept)
      simp only [bits, wide, if_true]
      by_cases up : 0 < ty.scale
      · rw [if_pos up, if_pos up, decfixed128_read up (fits_small kept), ← bits,
          decimal_itself decimal, Option.some.injEq, bits,
          word_of_fits (by omega) (fits_mono (by omega) (word_fits (by omega : 0 < 64) _))]
        constructor
        · intro same
          have fits : Fits 64 raw := by
            rw [← same]
            exact word_fits (by omega) _
          refine ⟨fits, fun many => ?_⟩
          exact (word_scaled_iff (by omega) fits (by omega)).mp same
        · rintro ⟨fits, zero⟩
          by_cases many : 38 < ty.scale
          · exact (word_scaled_iff (by omega) fits (by omega)).mpr (zero many)
          · have none_left : (ty.scale - 38).toNat = 0 := by omega
            rw [none_left, pow_zero, mul_one]
            exact word_of_fits (by omega) fits
      · rw [if_neg up, if_neg up, formatDecfixed128_whole, short, pliGetListFixed]
        constructor
        · intro same
          rw [wide_decimal_read decimal wide (by omega) (strtoll_fits _), Option.some.injEq] at same
          exact ⟨(strtoll_fmtInt_iff raw).mp same, fun many => absurd many (by omega)⟩
        · rintro ⟨fits, -⟩
          rw [(strtoll_fmtInt_iff raw).mpr fits]
          exact wide_decimal_read decimal wide (by omega) fits
    · have narrow : ty.wideDec = false := by simpa using wide
      have bits := narrow_bits decimal narrow
      have kept : Fits 64 raw := stored_fits stored bits.1
      have short := fmtInt_short (fits_small (fits_mono (by omega) kept))
      have few : ty.prec ≤ 18 := by
        have flag := declared.2.2
        simp only [decimal, narrow, decide_true, Bool.true_and] at flag
        simpa using flag.symm
      simp only [bits.2, narrow, if_false, Bool.false_eq_true]
      by_cases up : 0 < ty.scale
      · have below : raw.natAbs < 10 ^ 18 := by
          have smaller : (10 : Int) ^ ty.prec.toNat ≤ 10 ^ 18 := by
            exact_mod_cast Nat.pow_le_pow_right (by omega) (by omega : ty.prec.toNat ≤ 18)
          have inside := stored.1
          rw [InRange, if_neg (by simp [decimal])] at inside
          omega
        rw [if_pos up, if_pos up, decfixed_read up below, decimal_itself decimal, Option.some.injEq,
          word_narrower (intBits_pos ty) bits.1]
        by_cases many : 20 < ty.scale
        · rw [word_scaled_iff (intBits_pos ty) stored.2 (by omega)]
          exact ⟨fun zero _ => zero, fun zero => zero (Or.inr many)⟩
        · have none_left : (ty.scale - 20).toNat = 0 := by omega
          rw [none_left, pow_zero, mul_one, word_of_fits (intBits_pos ty) stored.2]
          constructor
          · rintro - (negative | impossible)
            · omega
            · exact absurd impossible many
          · exact fun _ => rfl
      · rw [if_neg up, if_neg up, short, pliGetListFixed, (strtoll_fmtInt_iff raw).mpr kept,
          narrow_decimal_read decimal narrow (by omega) stored]
        constructor
        · rintro zero (negative | impossible)
          · exact zero negative
          · omega
        · exact fun zero negative => zero (Or.inl negative)

end PliFixedText
