import PliLlvm.Runtime.Picture

/- Picture classification and the compile-time picture conversion
   (src/irgen_decisions.cpp), against the formatter of the runtime. -/
namespace PliPictureFold
open PliPicture

structure PictureSpec where
  valid : Bool := false
  numeric : Bool := false
  foldable : Bool := false
  sterling : Bool := false
  binary : Bool := false
  hasRepeat : Bool := false
  hasScale : Bool := false
  width : Nat := 0
  intDigits : Nat := 0
  fracDigits : Nat := 0
  point : Option Nat := none
  scale : Int := 0
  badChar : Option Char := none
  expanded : List Char := []

def isPictureChar (c : Char) : Bool := "ABCDEGHIKMPSTVYZ$.,*/1236789XFR+-".toList.contains c

def isNumericPictureChar (c : Char) : Bool :=
  "9ZV.,$+-SY*EKCRDTIB/GHMP678".toList.contains c

def isFoldablePictureChar (c : Char) : Bool := "9ZV.+-SXA".toList.contains c

/-- The digits of an unsigned integer: its value, whether there were any, and the rest;
    none once it passes 1000000. -/
def scanInt : List Char → Nat → Bool → Option (Nat × Bool × List Char)
  | [], n, digits => some (n, digits, [])
  | c :: rest, n, digits =>
    if c.isDigit then
      let n := n * 10 + (c.toNat - 48)
      if 1000000 < n then none else scanInt rest n true
    else some (n, digits, c :: rest)

/-- An optional repetition factor before a picture character: the factor, whether there
    was one, the character and the rest. -/
def scanRepeat : List Char → Option (Nat × Bool × Char × List Char)
  | [] => none
  | '(' :: rest =>
    match scanInt rest 0 false with
    | some (n, true, ')' :: c :: rest) => some (n, true, c, rest)
    | _ => none
  | c :: rest => some (1, false, c, rest)

def scanScale : List Char → Option Int
  | '(' :: rest =>
    let (sign, rest) : Int × List Char := match rest with
      | '+' :: rest => (1, rest)
      | '-' :: rest => (-1, rest)
      | rest => (1, rest)
    match scanInt rest 0 false with
    | some (n, true, [')']) => some (sign * n)
    | _ => none
  | _ => none

/-- The expansion loop; each turn takes at least one character. An early return is an
    error that carries the specification so far. -/
def expandLoop : Nat → List Char → PictureSpec → Except PictureSpec PictureSpec
  | _, [], s => .ok s
  | 0, _ :: _, s => .error s
  | turns + 1, pic, s =>
    match scanRepeat pic with
    | none => .error s
    | some (count, repeated, c, rest) =>
      if c == 'F' then
        match if repeated then none else scanScale rest with
        | none => .error s
        | some scale => .ok { s with hasScale := true, scale := scale }
      else if isPictureChar c then
        expandLoop turns rest { s with
          binary := s.binary || c == '1' || c == '2' || c == '3'
          hasRepeat := s.hasRepeat || repeated
          expanded := s.expanded ++ List.replicate count c
          width := if c == 'V' then s.width else s.width + count }
      else .error { s with badChar := some c }

def sterlingLoop : List Char → Nat → Nat → PictureSpec → PictureSpec
  | [], field, digits, s =>
    if field ≠ 2 || digits = 0 || s.width = 0 || 127 < s.width || 38 < s.intDigits then s
    else { s with valid := true }
  | c :: rest, field, digits, s =>
    if c == 'M' then
      if digits = 0 || 2 ≤ field then s else sterlingLoop rest (field + 1) 0 s
    else if c == '9' || c == 'Z' then
      sterlingLoop rest field (digits + 1)
        { s with width := s.width + 1, intDigits := s.intDigits + 1 }
    else if field = 0 || (c ≠ '.' && c ≠ 'B' && c ≠ '/' && c ≠ 'H' && c ≠ 'P') then s
    else sterlingLoop rest field digits { s with width := s.width + 1 }

def classifySterling (s : PictureSpec) : PictureSpec :=
  let s := { s with
    sterling := true, numeric := true, foldable := false, width := 0, intDigits := 0
    fracDigits := 0 }
  match s.expanded with
  | _ :: 'M' :: rest => sterlingLoop rest 0 0 s
  | _ => s

def countDigits (cs : List Char) : Nat := (cs.filter picDigitClass).length

def classifyNumeric (s : PictureSpec) : PictureSpec :=
  let point := s.expanded.findIdx? fun c => c == 'V' || c == '.'
  let intDigits := match point with
    | some k => countDigits (s.expanded.take (k + 1))
    | none => countDigits s.expanded
  let fracDigits := match point with
    | some k => countDigits (s.expanded.drop (k + 1))
    | none => 0
  let numeric := s.expanded.any isNumericPictureChar
  { s with
    point := point
    intDigits := intDigits
    fracDigits := fracDigits
    numeric := numeric
    foldable := numeric && !s.hasRepeat && !s.hasScale && 0 < s.width &&
      s.expanded.length ≤ 127 && 0 < intDigits + fracDigits && s.expanded.all isFoldablePictureChar
    valid := true }

def classifyPicture (pic : List Char) : PictureSpec :=
  match expandLoop pic.length pic {} with
  | .error s => s
  | .ok s =>
    if s.expanded = [] then s
    else if s.expanded.head? = some 'G' then classifySterling s
    else classifyNumeric s

structure FoldOut where
  text : List Char
  ledZero : Bool
  fracIdx : Nat

def FoldOut.put (st : FoldOut) (c : Char) : FoldOut := { st with text := st.text ++ [c] }

def foldDigit (v : PicValue) (spec : PictureSpec) (pi : Nat) (c : Char) (st : FoldOut) : FoldOut :=
  if spec.point.any (· < pi) then
    if st.fracIdx < v.valFrac then
      { st.put (digitChar (digitAt v (v.valInt + st.fracIdx))) with
        ledZero := false, fracIdx := st.fracIdx + 1 }
    else { st.put '0' with fracIdx := st.fracIdx + 1 }
  else
    let intIdx := ((spec.expanded.take pi).filter fun c => c == 'Z' || c == '9').length
    let srcIdx : Int := intIdx - (spec.intDigits - v.valInt)
    if srcIdx < 0 then st.put (if c == '9' then '0' else ' ')
    else if srcIdx < v.valInt then
      let d := digitChar (digitAt v srcIdx.toNat)
      if c == 'Z' && d == '0' && st.ledZero then st.put ' '
      else { st.put d with ledZero := false }
    else st.put (if c == '9' then '0' else ' ')

def foldChar (v : PicValue) (spec : PictureSpec) (pi : Nat) (c : Char) (st : FoldOut) : FoldOut :=
  if c == 'V' then st
  else if c == '9' || c == 'Z' then foldDigit v spec pi c st
  else if c == '.' then st.put '.'
  else if c == '+' then st.put (if v.isneg then '-' else '+')
  else if c == '-' || c == 'S' then st.put (if v.isneg then '-' else ' ')
  else if c == 'X' || c == 'A' then st.put ' '
  else st.put c

def foldWalk (v : PicValue) (spec : PictureSpec) : Nat → List Char → FoldOut → FoldOut
  | _, [], st => st
  | pi, c :: rest, st => foldWalk v spec (pi + 1) rest (foldChar v spec pi c st)

def foldPictureConversion (value scale : Int) (spec : PictureSpec) : Option (List Char) :=
  if !spec.valid || !spec.foldable || scale < 0 then none
  else if value = -2 ^ 63 then none
  else
    let isneg : Bool := value < 0
    let av := if isneg then (-(value + 1)).toNat + 1 else value.toNat
    let v := picValue isneg av scale.toNat
    let text := (foldWalk v spec 0 spec.expanded ⟨[], true, 0⟩).text
    if text.length ≠ spec.width then none else some text

/- The classifier hands the folder only pictures of its own alphabet. -/

variable {pic : List Char}

theorem expandLoop_foldable {turns : Nat} {s s' : PictureSpec}
    (h : expandLoop turns pic s = .ok s' ∨ expandLoop turns pic s = .error s') :
    s'.foldable = s.foldable := by
  induction turns generalizing pic s with
  | zero =>
    cases pic with
    | nil =>
      simp only [expandLoop, Except.ok.injEq, reduceCtorEq, or_false] at h
      rw [h]
    | cons c rest =>
      simp only [expandLoop, Except.error.injEq, reduceCtorEq, false_or] at h
      rw [h]
  | succ turns ih =>
    cases pic with
    | nil =>
      simp only [expandLoop, Except.ok.injEq, reduceCtorEq, or_false] at h
      rw [h]
    | cons c rest =>
      simp only [expandLoop] at h
      split at h
      · simp only [Except.error.injEq, reduceCtorEq, false_or] at h
        rw [h]
      · split at h
        · split at h
          · simp only [Except.error.injEq, reduceCtorEq, false_or] at h
            rw [h]
          · simp only [Except.ok.injEq, reduceCtorEq, or_false] at h
            rw [← h]
        · split at h
          · have kept := ih h
            exact kept
          · simp only [Except.error.injEq, reduceCtorEq, false_or] at h
            rw [← h]

theorem sterlingLoop_foldable (cs : List Char) (field digits : Nat) (s : PictureSpec) :
    (sterlingLoop cs field digits s).foldable = s.foldable := by
  induction cs generalizing field digits s with
  | nil =>
    simp only [sterlingLoop]
    split <;> rfl
  | cons c rest ih =>
    simp only [sterlingLoop]
    split
    · split
      · rfl
      · exact ih _ _ _
    · split
      · exact ih _ _ _
      · split
        · rfl
        · exact ih _ _ _

structure Foldable (spec : PictureSpec) : Prop where
  point : spec.point = picPoint spec.expanded
  intDigits : spec.intDigits = picIntTotal spec.expanded
  short : spec.expanded.length ≤ 127
  chars : ∀ c ∈ spec.expanded, isFoldablePictureChar c = true
  held : spec.expanded ≠ []

theorem fixedCurrency_foldable (chars : ∀ c ∈ pic, isFoldablePictureChar c = true) :
    fixedCurrency pic = false := by
  unfold fixedCurrency
  split
  · exact absurd (chars '$' (by simp)) (by decide)
  · rfl

theorem countDigits_point {k : Nat} (at' : picPoint pic = some k) :
    countDigits (pic.take (k + 1)) = countDigits (pic.take k) := by
  obtain ⟨bound, here, -⟩ := List.findIdx?_eq_some_iff_getElem.mp at'
  rw [List.take_add_one, List.getElem?_eq_getElem bound]
  have other : picDigitClass pic[k] = false := by
    simp only [Bool.or_eq_true, beq_iff_eq] at here
    rcases here with h | h <;> rw [h] <;> decide
  simp only [countDigits, Option.toList_some, List.filter_append, List.filter_cons, other,
    Bool.false_eq_true, ↓reduceIte, List.filter_nil, List.append_nil]

theorem classifyNumeric_foldable {s : PictureSpec} (h : (classifyNumeric s).foldable = true)
    (held : s.expanded ≠ []) : Foldable (classifyNumeric s) := by
  simp only [classifyNumeric, Bool.and_eq_true, decide_eq_true_eq, List.all_eq_true] at h
  obtain ⟨⟨⟨-, short⟩, -⟩, chars⟩ := h
  refine ⟨rfl, ?_, short, chars, held⟩
  have total : picIntTotal s.expanded =
      countDigits (s.expanded.take ((picPoint s.expanded).getD s.expanded.length)) := by
    simp [picIntTotal, fixedCurrency_foldable chars, countDigits]
  change (match picPoint s.expanded with
    | some k => countDigits (s.expanded.take (k + 1))
    | none => countDigits s.expanded) = picIntTotal s.expanded
  rw [total]
  cases at' : picPoint s.expanded with
  | none => simp
  | some k => exact countDigits_point at'

theorem classify_foldable (h : (classifyPicture pic).foldable = true) :
    Foldable (classifyPicture pic) := by
  unfold classifyPicture at h ⊢
  cases looped : expandLoop pic.length pic {} with
  | error s =>
    rw [looped] at h
    have := expandLoop_foldable (Or.inr looped)
    simp [this] at h
  | ok s =>
    rw [looped] at h
    have plain := expandLoop_foldable (Or.inl looped)
    simp only at h ⊢
    split at h
    · simp [plain] at h
    · rename_i held
      split at h
      · unfold classifySterling at h
        simp only at h
        split at h
        · simp [sterlingLoop_foldable] at h
        · simp at h
      · rename_i decimal
        rw [if_neg held, if_neg decimal]
        exact classifyNumeric_foldable h held

/- Which digit of the value each position of a picture receives. -/

def afterPoint (pic : List Char) (p : Nat) : Bool := (picPoint pic).any (· < p)

def fracBefore (pic : List Char) (p : Nat) : Nat :=
  match picPoint pic with
  | some k => countDigits ((pic.take p).drop (k + 1))
  | none => 0

def received (v : PicValue) (pic : List Char) (p : Nat) : Option Nat :=
  if afterPoint pic p then
    if fracBefore pic p < v.valFrac then some (digitAt v (v.valInt + fracBefore pic p)) else none
  else
    let srcIdx : Int := countDigits (pic.take p) - (picIntTotal pic - v.valInt)
    if srcIdx < 0 then none else some (digitAt v srcIdx.toNat)

def PrintsDigit (v : PicValue) (pic : List Char) (p : Nat) : Prop :=
  ∃ c d, pic[p]? = some c ∧ received v pic p = some d ∧ (c = '9' ∨ c = 'Z' ∧ d ≠ 0)

def ZeroShown (v : PicValue) (pic : List Char) (p : Nat) : Prop :=
  pic[p]? = some 'Z' → afterPoint pic p = true → ∃ q, q ≤ p ∧ PrintsDigit v pic q

variable {c : Char}

theorem foldable_cases (h : isFoldablePictureChar c = true) :
    c = '9' ∨ c = 'Z' ∨ c = 'V' ∨ c = '.' ∨ c = '+' ∨ c = '-' ∨ c = 'S' ∨ c = 'X' ∨ c = 'A' := by
  simpa [isFoldablePictureChar] using h

theorem foldable_digit (h : isFoldablePictureChar c = true) :
    (c == 'Z' || c == '9') = picDigitClass c := by
  rcases foldable_cases h with rfl | rfl | rfl | rfl | rfl | rfl | rfl | rfl | rfl <;> rfl

theorem countDigits_mono (pic : List Char) {a b : Nat} (le : a ≤ b) :
    countDigits (pic.take a) ≤ countDigits (pic.take b) := by
  have shorter : ((pic.take b).take a).Sublist (pic.take b) := List.take_sublist _ _
  rw [List.take_take, Nat.min_eq_left le] at shorter
  exact (shorter.filter _).length_le

variable {p : Nat}

theorem countDigits_take_succ (here : pic[p]? = some c) : countDigits (pic.take (p + 1)) =
      countDigits (pic.take p) + if picDigitClass c then 1 else 0 := by
  rw [List.take_add_one, here]
  simp only [countDigits, Option.toList_some, List.filter_append, List.length_append,
    List.filter_cons, List.filter_nil]
  split <;> rfl

theorem int_position_lt
    (chars : ∀ c ∈ pic, isFoldablePictureChar c = true) (here : pic[p]? = some c)
    (digit : picDigitClass c = true) (before : afterPoint pic p = false) :
    countDigits (pic.take p) < picIntTotal pic := by
  have total : picIntTotal pic = countDigits (pic.take ((picPoint pic).getD pic.length)) := by
    simp [picIntTotal, fixedCurrency_foldable chars, countDigits]
  have bound : p < pic.length := (List.getElem?_eq_some_iff.mp here).1
  have inside : p + 1 ≤ (picPoint pic).getD pic.length := by
    cases at' : picPoint pic with
    | none => exact bound
    | some k =>
      simp only [afterPoint, at', Option.any_some, decide_eq_false_iff_not] at before
      obtain ⟨_, mark, _⟩ := List.findIdx?_eq_some_iff_getElem.mp at'
      have other : p ≠ k := by
        rintro rfl
        have same : pic[p] = c := (List.getElem?_eq_some_iff.mp here).2
        rw [same, Bool.or_eq_true, beq_iff_eq, beq_iff_eq] at mark
        rcases mark with rfl | rfl <;> exact absurd digit (by decide)
      simp only [Option.getD_some]
      omega
  have next := countDigits_take_succ here
  rw [if_pos digit] at next
  have := countDigits_mono pic inside
  omega

theorem fracBefore_succ (here : pic[p]? = some c) : fracBefore pic (p + 1) =
      fracBefore pic p + if afterPoint pic p && picDigitClass c then 1 else 0 := by
  unfold fracBefore afterPoint
  cases picPoint pic with
  | none => simp
  | some k =>
    simp only [Option.any_some]
    have bound : p < pic.length := (List.getElem?_eq_some_iff.mp here).1
    rw [List.take_add_one, here]
    by_cases later : k < p
    · have room : k + 1 ≤ (pic.take p).length := by
        rw [List.length_take]
        omega
      rw [List.drop_append_of_le_length room]
      simp only [countDigits, Option.toList_some, List.filter_append, List.length_append,
        List.filter_cons, List.filter_nil, later, decide_true, Bool.true_and]
      split <;> rfl
    · have short : (pic.take p ++ (some c).toList).length ≤ k + 1 := by
        simp
        omega
      have short' : (pic.take p).length ≤ k + 1 := by
        simp
        omega
      rw [List.drop_eq_nil_of_le short, List.drop_eq_nil_of_le short']
      simp [later]

theorem digitLoop_lt (room av : Nat) : ∀ d ∈ digitLoop room av, d < 10 := by
  induction room generalizing av with
  | zero => simp [digitLoop]
  | succ room ih =>
    intro d mem
    simp only [digitLoop] at mem
    split at mem
    · simp at mem
    · rcases List.mem_cons.mp mem with rfl | mem
      · exact Nat.mod_lt _ (by omega)
      · exact ih _ d mem

theorem digitAt_lt (isneg : Bool) (av scale i : Nat) : digitAt
    (picValue isneg av scale) i < 10 := by
  have small : ∀ d ∈ decimalDigits av, d < 10 := by
    unfold decimalDigits
    split
    · simp
    · intro d mem
      exact digitLoop_lt 64 av d (by simpa using mem)
  simp only [digitAt, picValue, List.getD_eq_getElem?_getD]
  cases here : (decimalDigits av)[i]? with
  | none => simp
  | some d => exact small d (List.mem_of_getElem? here)

theorem digitChar_zero {d : Nat} (small : d < 10) : (digitChar d == '0') = decide (d = 0) := by
  have all : ∀ d < 10, (digitChar d == '0') = decide (d = 0) := by decide
  exact all d small

/-- The two walks at one position: what each has counted, and the suppression state as
    a fact about the positions before. -/
structure Paired (v : PicValue) (pic : List Char) (pi : Nat) (r : PicOut) (t : FoldOut) : Prop where
  length : r.out.length = t.text.length
  short : r.out.length ≤ pi
  intIdx : afterPoint pic pi = false → r.intIdx = countDigits (pic.take pi)
  fracIdx : r.fracIdx = fracBefore pic pi
  foldFrac : t.fracIdx = fracBefore pic pi
  led : r.ledZero = true ↔ ∀ q < pi, ¬ PrintsDigit v pic q
  foldLed : afterPoint pic pi = false → t.ledZero = r.ledZero
  plain : r.exponentPos = none

theorem afterPoint_succ (h : afterPoint pic (p + 1) = false) : afterPoint pic p = false := by
  unfold afterPoint at h ⊢
  cases at' : picPoint pic with
  | none => rfl
  | some k =>
    simp only [at', Option.any_some, decide_eq_false_iff_not] at h ⊢
    omega

variable {v : PicValue}

theorem printsDigit_here (here : pic[p]? = some c) :
    PrintsDigit v pic p ↔ ∃ d, received v pic p = some d ∧ (c = '9' ∨ c = 'Z' ∧ d ≠ 0) := by
  constructor
  · rintro ⟨c', d, here', got, prints⟩
    rw [here] at here'
    cases here'
    exact ⟨d, got, prints⟩
  · rintro ⟨d, got, prints⟩
    exact ⟨c, d, here, got, prints⟩

theorem zeroShown_other (here : pic[p]? = some c) (other : c ≠ 'Z') : ZeroShown v pic p := by
  intro at'
  rw [here] at at'
  exact absurd (Option.some.inj at') other

theorem snoc_eq_iff {xs ys : List Char} {a b : Char} (length : xs.length = ys.length) :
    xs ++ [a] = ys ++ [b] ↔ xs = ys ∧ a = b := by
  constructor
  · intro h
    obtain ⟨left, right⟩ := List.append_inj h length
    exact ⟨left, by simpa using right⟩
  · rintro ⟨rfl, rfl⟩
    rfl

variable {pi : Nat} {r : PicOut}

theorem pair_plain {t : FoldOut}
    (paired : Paired v pic pi r t) (here : pic[pi]? = some c) (other : picDigitClass c = false)
    (out : List Char) (fits : out.length ≤ 1) :
    Paired v pic (pi + 1) (r.put out) { t with text := t.text ++ out } ∧
      ((r.put out).out = t.text ++ out ↔ r.out = t.text ∧ ZeroShown v pic pi) := by
  have silent : ¬ PrintsDigit v pic pi := by
    rw [printsDigit_here here]
    rintro ⟨d, -, rfl | ⟨rfl, -⟩⟩ <;> exact absurd other (by decide)
  have vacuous : ZeroShown v pic pi := by
    refine zeroShown_other here ?_
    rintro rfl
    exact absurd other (by decide)
  refine ⟨⟨?_, ?_, ?_, ?_, ?_, ?_, ?_, paired.plain⟩, ?_⟩
  · simp [PicOut.put, paired.length]
  · have := paired.short
    simp only [PicOut.put, List.length_append]
    omega
  · intro before
    rw [countDigits_take_succ here]
    simp [other, PicOut.put, paired.intIdx (afterPoint_succ before)]
  · rw [fracBefore_succ here]
    simp [other, PicOut.put, paired.fracIdx]
  · rw [fracBefore_succ here]
    simp [other, paired.foldFrac]
  · rw [Nat.forall_lt_succ_right]
    simp [silent, PicOut.put, paired.led]
  · intro before
    exact paired.foldLed (afterPoint_succ before)
  · simp [PicOut.put, vacuous]

theorem pair_digit {v : PicValue} {pic : List Char} {pi : Nat} {c : Char} {r r' : PicOut}
    {t t' : FoldOut} {a b : Char} (paired : Paired v pic pi r t) (here : pic[pi]? = some c)
    (digit : picDigitClass c = true) (out : r'.out = r.out ++ [a]) (text : t'.text = t.text ++ [b])
    (intIdx : afterPoint pic pi = false → r'.intIdx = r.intIdx + 1)
    (fracIdx : r'.fracIdx = r.fracIdx + if afterPoint pic pi then 1 else 0)
    (foldFrac : t'.fracIdx = t.fracIdx + if afterPoint pic pi then 1 else 0)
    (led : r'.ledZero = true ↔ r.ledZero = true ∧ ¬ PrintsDigit v pic pi)
    (foldLed : afterPoint pic pi = false → t'.ledZero = r'.ledZero)
    (plain : r'.exponentPos = r.exponentPos) (agree : a = b ↔ ZeroShown v pic pi) :
    Paired v pic (pi + 1) r' t' ∧ (r'.out = t'.text ↔ r.out = t.text ∧ ZeroShown v pic pi) := by
  refine ⟨⟨?_, ?_, ?_, ?_, ?_, ?_, ?_, plain.trans paired.plain⟩, ?_⟩
  · simp [out, text, paired.length]
  · have := paired.short
    simp only [out, List.length_append, List.length_singleton]
    omega
  · intro before
    have here' := afterPoint_succ before
    rw [countDigits_take_succ here, if_pos digit, intIdx here', paired.intIdx here']
  · rw [fracBefore_succ here, fracIdx, paired.fracIdx]
    simp [digit]
  · rw [fracBefore_succ here, foldFrac, paired.foldFrac]
    simp [digit]
  · rw [Nat.forall_lt_succ_right, led, paired.led]
  · intro before
    exact foldLed (afterPoint_succ before)
  · rw [out, text, snoc_eq_iff paired.length, agree]

theorem fold_front (chars : ∀ c ∈ pic, isFoldablePictureChar c = true) (p : Nat) :
    ((pic.take p).filter fun c => c == 'Z' || c == '9').length = countDigits (pic.take p) := by
  have same : (pic.take p).filter (fun c => c == 'Z' || c == '9') =
      (pic.take p).filter picDigitClass := by
    refine List.filter_congr ?_
    intro c mem
    exact foldable_digit (chars c (List.mem_of_mem_take mem))
  rw [same, countDigits]

theorem placeDigit_suppressed (led : r.ledZero = true) : placeDigit r 'Z' 0 = r.put [' '] := by
  have zero : (digitChar 0 == '0') = true := by decide
  simp [placeDigit, suppressing, zero, led]

theorem placeDigit_printed {d : Nat} (class' : c = '9' ∨ c = 'Z')
    (small : d < 10) (shown : ¬ (c = 'Z' ∧ d = 0 ∧ r.ledZero = true)) :
    placeDigit r c d = { r.put [digitChar d] with ledZero := false } := by
  have guard : (suppressing c && digitChar d == '0' && r.ledZero) = false := by
    rw [digitChar_zero small]
    rcases class' with rfl | rfl
    · rfl
    · cases led : r.ledZero <;> simp_all [suppressing]
  simp [placeDigit, guard]

theorem led_after {v : PicValue} {pic : List Char} {pi : Nat} {c : Char} {d : Nat} {r : PicOut}
    (here : pic[pi]? = some c) (got : received v pic pi = some d) (class' : c = '9' ∨ c = 'Z') :
    (c = 'Z' ∧ d = 0 ∧ r.ledZero = true) ↔ (r.ledZero = true ∧ ¬ PrintsDigit v pic pi) := by
  rw [printsDigit_here here]
  constructor
  · rintro ⟨rfl, rfl, led⟩
    refine ⟨led, ?_⟩
    rintro ⟨d, same, nine | ⟨-, other⟩⟩
    · exact absurd nine (by decide)
    · rw [got] at same
      exact other (Option.some.inj same).symm
  · rintro ⟨led, silent⟩
    have zero : ¬ (c = '9' ∨ c = 'Z' ∧ d ≠ 0) := fun prints => silent ⟨d, got, prints⟩
    rcases class' with rfl | rfl
    · exact absurd (Or.inl rfl) zero
    · refine ⟨rfl, ?_, led⟩
      by_contra other
      exact zero (Or.inr ⟨rfl, other⟩)

theorem silent_unreceived (none_here : received v pic pi = none) : ¬ PrintsDigit v pic pi := by
  rintro ⟨c, d, -, got, -⟩
  rw [none_here] at got
  cases got

variable {spec : PictureSpec}

theorem pair_int (ok : Foldable spec) {pi : Nat} {c : Char}
    {r : PicOut} {t : FoldOut} (small : ∀ i, digitAt v i < 10)
    (paired : Paired v spec.expanded pi r t) (here : spec.expanded[pi]? = some c)
    (class' : c = '9' ∨ c = 'Z') (before : afterPoint spec.expanded pi = false) :
    Paired v spec.expanded (pi + 1) (formatDigit v (picIntTotal spec.expanded) false r c)
        (foldDigit v spec pi c t) ∧
      ((formatDigit v (picIntTotal spec.expanded) false r c).out = (foldDigit v spec pi c t).text ↔
        r.out = t.text ∧ ZeroShown v spec.expanded pi) := by
  have digit : picDigitClass c = true := by rcases class' with rfl | rfl <;> rfl
  have index := int_position_lt ok.chars here digit before
  have shown : ZeroShown v spec.expanded pi := by
    intro _ after
    rw [before] at after
    cases after
  have point : spec.point.any (· < pi) = false := by
    rw [ok.point]
    exact before
  have led := paired.foldLed before
  obtain ⟨k, src⟩ : ∃ k : Int, k =
      countDigits (spec.expanded.take pi) - (picIntTotal spec.expanded - v.valInt) := ⟨_, rfl⟩
  have got : received v spec.expanded pi = if k < 0 then none else some (digitAt v k.toNat) := by
    simp [received, before, src]
  have inside : k < v.valInt := by omega
  by_cases early : k < 0
  · rw [if_pos early] at got
    have r_eq : formatDigit v (picIntTotal spec.expanded) false r c =
        { fillBefore r c with intIdx := r.intIdx + 1 } := by
      simp [formatDigit, paired.intIdx before, ← src, early]
    have t_eq : foldDigit v spec pi c t = t.put (if c == '9' then '0' else ' ') := by
      simp [foldDigit, point, fold_front ok.chars, ok.intDigits, ← src, early]
    rw [r_eq, t_eq]
    refine @pair_digit v _ pi c r _ t _ (if c == '9' then '0' else ' ')
      (if c == '9' then '0' else ' ') paired here digit ?_ rfl (fun _ => rfl) ?_ ?_ ?_
      (fun _ => led) rfl (by simp [shown])
    · rcases class' with rfl | rfl <;> rfl
    · simp [before, fillBefore, PicOut.put]
    · simp [before, FoldOut.put]
    · simp [fillBefore, PicOut.put, silent_unreceived got]
  · rw [if_neg early] at got
    have r_eq : formatDigit v (picIntTotal spec.expanded) false r c =
        { placeDigit r c (digitAt v k.toNat) with intIdx := r.intIdx + 1 } := by
      simp [formatDigit, paired.intIdx before, ← src, early, inside]
    have t_eq : foldDigit v spec pi c t =
        if c == 'Z' && digitChar (digitAt v k.toNat) == '0' && t.ledZero then t.put ' '
        else { t.put (digitChar (digitAt v k.toNat)) with ledZero := false } := by
      simp [foldDigit, point, fold_front ok.chars, ok.intDigits, ← src, early, inside]
    have after := @led_after v _ pi c _ r here got class'
    rw [r_eq, t_eq, digitChar_zero (small _), led]
    by_cases suppressed : c = 'Z' ∧ digitAt v k.toNat = 0 ∧ r.ledZero = true
    · obtain ⟨rfl, zero, leading⟩ := suppressed
      rw [zero, placeDigit_suppressed leading, if_pos (by simp [leading])]
      refine @pair_digit v _ pi 'Z' r _ t _ ' ' ' ' paired here digit rfl rfl (fun _ => rfl) ?_ ?_
        ?_ (fun _ => led) rfl (by simp [shown])
      · simp [before, PicOut.put]
      · simp [before, FoldOut.put]
      · rw [← after, zero]
        simp [PicOut.put, leading]
    · rw [placeDigit_printed class' (small _) suppressed,
        if_neg (by simpa [and_assoc] using suppressed)]
      refine @pair_digit v _ pi c r _ t _ _ _ paired here digit rfl rfl (fun _ => rfl) ?_ ?_ ?_
        (fun _ => rfl) rfl (by simp [shown])
      · simp [before, PicOut.put]
      · simp [before, FoldOut.put]
      · rw [← after]
        simp [suppressed]

theorem zeroShown_iff {t : FoldOut} (paired : Paired v pic pi r t) (here : pic[pi]? = some c)
    (after : afterPoint pic pi = true) :
    ZeroShown v pic pi ↔ ¬ (c = 'Z' ∧ r.ledZero = true ∧ ¬ PrintsDigit v pic pi) := by
  rw [paired.led]
  constructor
  · rintro shown ⟨rfl, quiet, silent⟩
    obtain ⟨q, le, prints⟩ := shown here after
    rcases Nat.lt_or_eq_of_le le with earlier | rfl
    · exact quiet q earlier prints
    · exact silent prints
  · intro covered isZ _
    rw [here] at isZ
    have isZ := Option.some.inj isZ
    by_contra none_printed
    refine covered ⟨isZ, ?_, ?_⟩
    · intro q earlier prints
      exact none_printed ⟨q, Nat.le_of_lt earlier, prints⟩
    · intro prints
      exact none_printed ⟨pi, Nat.le_refl _, prints⟩

theorem pair_frac (ok : Foldable spec) {pi : Nat} {c : Char}
    {r : PicOut} {t : FoldOut} (small : ∀ i, digitAt v i < 10)
    (paired : Paired v spec.expanded pi r t) (here : spec.expanded[pi]? = some c)
    (class' : c = '9' ∨ c = 'Z') (after : afterPoint spec.expanded pi = true) :
    Paired v spec.expanded (pi + 1) (formatDigit v (picIntTotal spec.expanded) true r c)
        (foldDigit v spec pi c t) ∧
      ((formatDigit v (picIntTotal spec.expanded) true r c).out = (foldDigit v spec pi c t).text ↔
        r.out = t.text ∧ ZeroShown v spec.expanded pi) := by
  have digit : picDigitClass c = true := by rcases class' with rfl | rfl <;> rfl
  have point : spec.point.any (· < pi) = true := by
    rw [ok.point]
    exact after
  have shown := zeroShown_iff paired here after
  have beyond : afterPoint spec.expanded pi = false → ∀ p : Prop, p := by
    intro before
    rw [after] at before
    cases before
  obtain ⟨k, place⟩ : ∃ k, k = fracBefore spec.expanded pi := ⟨_, rfl⟩
  have rIdx := paired.fracIdx
  have tIdx := paired.foldFrac
  have got : received v spec.expanded pi =
      if k < v.valFrac then some (digitAt v (v.valInt + k)) else none := by
    simp [received, after, place]
  rw [← place] at rIdx tIdx
  by_cases more : k < v.valFrac
  · rw [if_pos more] at got
    have r_eq : formatDigit v (picIntTotal spec.expanded) true r c =
        { placeDigit r c (digitAt v (v.valInt + k)) with fracIdx := r.fracIdx + 1 } := by
      simp [formatDigit, rIdx, more]
    have t_eq : foldDigit v spec pi c t = { t.put (digitChar (digitAt v (v.valInt + k))) with
        ledZero := false, fracIdx := t.fracIdx + 1 } := by
      simp [foldDigit, point, tIdx, more]
    have next := @led_after v _ pi c _ r here got class'
    rw [r_eq, t_eq]
    by_cases suppressed : c = 'Z' ∧ digitAt v (v.valInt + k) = 0 ∧ r.ledZero = true
    · have hidden := next.mp suppressed
      obtain ⟨rfl, zero, leading⟩ := suppressed
      rw [zero, placeDigit_suppressed leading]
      refine @pair_digit v _ pi 'Z' r _ t _ ' ' (digitChar 0) paired here digit rfl rfl
        (fun b => beyond b _) ?_ ?_ ?_ (fun b => beyond b _) rfl ?_
      · simp [after]
      · simp [after]
      · simp [PicOut.put, leading, hidden.2]
      · rw [shown]
        have differ : (' ' : Char) ≠ digitChar 0 := by decide
        simp [differ, leading, hidden.2]
    · rw [placeDigit_printed class' (small _) suppressed]
      refine @pair_digit v _ pi c r _ t _ _ _ paired here digit rfl rfl
        (fun b => beyond b _) ?_ ?_ ?_ (fun b => beyond b _) rfl ?_
      · simp [after]
      · simp [after]
      · rw [← next]
        simp [suppressed]
      · rw [shown]
        have printed : ¬ (r.ledZero = true ∧ ¬ PrintsDigit v spec.expanded pi) :=
          fun hidden => suppressed (next.mpr hidden)
        exact iff_of_true rfl fun hidden => printed hidden.2
  · rw [if_neg more] at got
    have silent := silent_unreceived got
    have r_eq : formatDigit v (picIntTotal spec.expanded) true r c =
        { fillAfter r c with fracIdx := r.fracIdx + 1 } := by
      simp [formatDigit, rIdx, more]
    have t_eq : foldDigit v spec pi c t = { t.put '0' with fracIdx := t.fracIdx + 1 } := by
      simp [foldDigit, point, tIdx, more]
    rw [r_eq, t_eq]
    refine @pair_digit v _ pi c r _ t _ (if c = 'Z' ∧ r.ledZero = true then ' ' else '0') '0'
      paired here digit ?_ rfl (fun b => beyond b _) ?_ ?_ ?_ (fun b => beyond b _) rfl ?_
    · rcases class' with rfl | rfl <;> simp [fillAfter, forced, PicOut.put]
    · simp [after]
    · simp [after]
    · simp [fillAfter, PicOut.put, silent]
    · rw [shown]
      by_cases hidden : c = 'Z' ∧ r.ledZero = true
      · simp [hidden, silent]
      · simp [hidden, silent]

theorem pair_char (ok : Foldable spec) {pi : Nat} {c : Char}
    {r : PicOut} {t : FoldOut} (small : ∀ i, digitAt v i < 10) (ocap : Nat) (next : Option Char)
    (paired : Paired v spec.expanded pi r t) (here : spec.expanded[pi]? = some c) :
    ∃ r', formatChar v spec.expanded ocap pi c next r = (r', false) ∧
      Paired v spec.expanded (pi + 1) r' (foldChar v spec pi c t) ∧
      (r'.out = (foldChar v spec pi c t).text ↔ r.out = t.text ∧ ZeroShown v spec.expanded pi) := by
  have fixed := fixedCurrency_foldable ok.chars
  have plain := fun (other : picDigitClass c = false) (out : List Char) (fits : out.length ≤ 1) =>
    pair_plain paired here other out fits
  have digit : c = '9' ∨ c = 'Z' →
      ∃ r', (formatDigit v (picIntTotal spec.expanded) (afterPoint spec.expanded pi) r c, false) =
        (r', false) ∧ Paired v spec.expanded (pi + 1) r' (foldDigit v spec pi c t) ∧
        (r'.out = (foldDigit v spec pi c t).text ↔
          r.out = t.text ∧ ZeroShown v spec.expanded pi) := by
    intro class'
    refine ⟨_, rfl, ?_⟩
    cases part : afterPoint spec.expanded pi with
    | false => exact pair_int ok small paired here class' part
    | true => exact pair_frac ok small paired here class' part
  rcases foldable_cases (ok.chars c (List.mem_of_getElem? here)) with
    rfl | rfl | rfl | rfl | rfl | rfl | rfl | rfl | rfl
  · simpa [formatChar, fixed, foldChar, picDigitClass, afterPoint] using digit (Or.inl rfl)
  · simpa [formatChar, fixed, foldChar, picDigitClass, afterPoint] using digit (Or.inr rfl)
  · exact ⟨r, by simp [formatChar], by simpa [foldChar, PicOut.put] using plain rfl [] (by simp)⟩
  · exact ⟨r.put ['.'], by simp [formatChar, fixed, picDigitClass],
      by simpa [foldChar, FoldOut.put] using plain rfl ['.'] (by simp)⟩
  · exact ⟨r.put [if v.isneg then '-' else '+'], by simp [formatChar, fixed, picDigitClass],
      by simpa [foldChar, FoldOut.put] using plain rfl [if v.isneg then '-' else '+'] (by simp)⟩
  · exact ⟨r.put [if v.isneg then '-' else ' '], by simp [formatChar, fixed, picDigitClass],
      by simpa [foldChar, FoldOut.put] using plain rfl [if v.isneg then '-' else ' '] (by simp)⟩
  · exact ⟨r.put [if v.isneg then '-' else ' '], by simp [formatChar, fixed, picDigitClass],
      by simpa [foldChar, FoldOut.put] using plain rfl [if v.isneg then '-' else ' '] (by simp)⟩
  · exact ⟨r.put [' '], by simp [formatChar, fixed, picDigitClass],
      by simpa [foldChar, FoldOut.put] using plain rfl [' '] (by simp)⟩
  · exact ⟨r.put [' '], by simp [formatChar, fixed, picDigitClass],
      by simpa [foldChar, FoldOut.put] using plain rfl [' '] (by simp)⟩

/-- The whole walks, by induction on what is left of the picture. -/
theorem walks_agree (ok : Foldable spec)
    (small : ∀ i, digitAt v i < 10) {rest : List Char} {pi : Nat} {r : PicOut} {t : FoldOut}
    (left : spec.expanded.drop pi = rest) (paired : Paired v spec.expanded pi r t) :
    Paired v spec.expanded (pi + rest.length)
        (formatWalk v spec.expanded spec.expanded.length pi rest r) (foldWalk v spec pi rest t) ∧
      ((formatWalk v spec.expanded spec.expanded.length pi rest r).out =
          (foldWalk v spec pi rest t).text ↔
        r.out = t.text ∧ ∀ p, pi ≤ p → ZeroShown v spec.expanded p) := by
  induction rest generalizing pi r t with
  | nil =>
    refine ⟨paired, ?_⟩
    have done : ∀ p, pi ≤ p → ZeroShown v spec.expanded p := by
      intro p later isZ
      have short := List.drop_eq_nil_iff.mp left
      rw [List.getElem?_eq_none (by omega)] at isZ
      cases isZ
    simp only [formatWalk, foldWalk]
    tauto
  | cons c rest ih =>
    have here : spec.expanded[pi]? = some c := by
      rw [← List.head?_drop, left]
      rfl
    have tail : spec.expanded.drop (pi + 1) = rest := by
      rw [← List.tail_drop, left]
      rfl
    obtain ⟨r', turn, paired', agree⟩ :=
      pair_char ok small spec.expanded.length rest.head? paired here
    obtain ⟨final, agree'⟩ := ih tail paired'
    have room : ¬ spec.expanded.length ≤ r.out.length := by
      have := paired.short
      have := (List.getElem?_eq_some_iff.mp here).1
      omega
    have walk : formatWalk v spec.expanded spec.expanded.length pi (c :: rest) r =
        formatWalk v spec.expanded spec.expanded.length (pi + 1) rest r' := by
      simp [formatWalk, room, turn]
    rw [walk]
    have next : pi + (c :: rest).length = pi + 1 + rest.length := by
      simp only [List.length_cons]
      omega
    rw [next]
    refine ⟨final, agree'.trans ?_⟩
    rw [agree]
    constructor
    · rintro ⟨⟨same, first⟩, later⟩
      refine ⟨same, ?_⟩
      intro p le
      rcases Nat.eq_or_lt_of_le le with rfl | lt
      · exact first
      · exact later p lt
    · rintro ⟨same, all⟩
      exact ⟨⟨same, all pi (Nat.le_refl _)⟩, fun p le => all p (by omega)⟩

/-- The picture has a place for a negative value's sign, or is as wide as the runtime's
    buffer, so that none is appended. -/
def SignShown (value : Int) (spec : PictureSpec) : Prop :=
  0 ≤ value ∨ (∃ c ∈ spec.expanded, c = '+' ∨ c = '-' ∨ c = 'S') ∨ 127 ≤ spec.width

section
variable (chars : ∀ c ∈ pic, isFoldablePictureChar c = true)
include chars

theorem hasExplicitSign_foldable :
    hasExplicitSign pic = true ↔ ∃ c ∈ pic, c = '+' ∨ c = '-' ∨ c = 'S' := by
  induction pic with
  | nil => simp [hasExplicitSign]
  | cons c rest ih =>
    have ih := ih fun d mem => chars d (by simp [mem])
    have class' := chars c (by simp)
    have first : c ≠ 'C' ∧ c ≠ 'D' := by
      constructor <;> rintro rfl <;> exact absurd class' (by decide)
    simp [hasExplicitSign, first.1, first.2, ih, or_assoc]

theorem currencyRun_foldable : currencyRun pic = none := by
  have absent : pic.findIdx? (· == '$') = none := by
    rw [List.findIdx?_eq_none_iff]
    intro c mem
    by_contra isCurrency
    simp only [Bool.not_eq_false, beq_iff_eq] at isCurrency
    exact absurd (chars c mem) (by rw [isCurrency]; decide)
  simp [currencyRun, absent]

theorem exponents_foldable : pic.filter isExponent = [] := by
  rw [List.filter_eq_nil_iff]
  intro c mem
  rcases foldable_cases (chars c mem) with rfl | rfl | rfl | rfl | rfl | rfl | rfl | rfl | rfl <;>
    decide

end

theorem start_paired (v : PicValue) (pic : List Char) :
    Paired v pic 0 ⟨[], true, 0, 0, none⟩ ⟨[], true, 0⟩ := by
  have start : fracBefore pic 0 = 0 := by
    unfold fracBefore
    cases picPoint pic <;> rfl
  exact ⟨rfl, Nat.le_refl _, fun _ => rfl, start.symm, start.symm, by simp, fun _ => rfl, rfl⟩

theorem picFormat_foldable {spec : PictureSpec} (ok : Foldable spec) {value : Int} {scale : Nat}
    (range : -2 ^ 63 ≤ value ∧ value < 2 ^ 63) :
    ∃ st : PicOut, formatWalk (picValue (value < 0) value.natAbs scale) spec.expanded
        spec.expanded.length 0 spec.expanded ⟨[], true, 0, 0, none⟩ = st ∧
      pliPutEditPic value scale value.sign spec.expanded =
        if value < 0 ∧ hasExplicitSign spec.expanded = false ∧ st.out.length < 127
        then st.out ++ ['-'] else st.out := by
  refine ⟨_, rfl, ?_⟩
  have nonempty : ¬ (spec.expanded.length = 0 ∨ 127 = 0) := by
    simpa using ok.held
  have sign : decide (value.sign < 0) = decide (value < 0) := by simp
  have magnitude : picMagnitude value (decide (value < 0)) = value.natAbs := by
    unfold picMagnitude
    split
    · rfl
    · rename_i nonneg
      simp only [decide_eq_true_eq, Int.not_lt] at nonneg
      omega
  have cap : min (spec.expanded.length + 3 * (spec.expanded.filter isExponent).length) 127 =
      spec.expanded.length := by
    rw [exponents_foldable ok.chars]
    have := ok.short
    simp
    omega
  have small := digitAt_lt (decide (value < 0)) value.natAbs scale
  have whole : spec.expanded.drop 0 = spec.expanded := rfl
  have walked := (walks_agree ok small whole (start_paired _ spec.expanded)).1
  simp only [pliPutEditPic, picFormat128, nonempty, ↓reduceIte, sign, magnitude, cap,
    floatCurrency, currencyRun_foldable ok.chars, walked.plain, putExponent]
  simp [and_assoc]

theorem fold_text {value : Int} {scale : Nat} {out : List Char}
    (folded : foldPictureConversion value scale spec = some out) :
    spec.foldable = true ∧ out.length = spec.width ∧
      out = (foldWalk (picValue (value < 0) value.natAbs scale) spec 0 spec.expanded
        ⟨[], true, 0⟩).text := by
  have magnitude : (if decide (value < 0) = true then (-(value + 1)).toNat + 1 else value.toNat) =
      value.natAbs := by
    split <;> simp only [decide_eq_true_eq] at * <;> omega
  simp only [foldPictureConversion, magnitude, Int.toNat_natCast] at folded
  split at folded
  · cases folded
  · rename_i accepted
    split at folded
    · cases folded
    · split at folded
      · cases folded
      · rename_i width
        have text := Option.some.inj folded
        refine ⟨?_, ?_, text.symm⟩
        · cases h : spec.foldable with
          | true => rfl
          | false => simp [h] at accepted
        · rw [← text]
          exact Decidable.not_not.mp width

/-- The folded text is the runtime's exactly when every Z after the point comes at or
    after a printed digit and a negative value's sign has its place. -/
theorem fold_matches_runtime_iff {pic : List Char} {value : Int} {scale : Nat} {out : List Char}
    (range : -2 ^ 63 ≤ value ∧ value < 2 ^ 63)
    (folded : foldPictureConversion value scale (classifyPicture pic) = some out) :
    out = pliPutEditPic value scale value.sign (classifyPicture pic).expanded ↔
      SignShown value (classifyPicture pic) ∧
        ∀ p, ZeroShown (picValue (value < 0) value.natAbs scale)
          (classifyPicture pic).expanded p := by
  obtain ⟨foldable, width, text⟩ := fold_text folded
  have ok := classify_foldable foldable
  obtain ⟨st, walked, runtime⟩ := @picFormat_foldable _ ok value scale range
  have small := digitAt_lt (decide (value < 0)) value.natAbs scale
  have whole : (classifyPicture pic).expanded.drop 0 = (classifyPicture pic).expanded := rfl
  obtain ⟨paired, agree⟩ := walks_agree ok small whole (start_paired _ _)
  rw [walked] at paired agree
  have length := paired.length
  rw [← text] at agree length
  have same : st.out = out ↔
      ∀ p, ZeroShown (picValue (value < 0) value.natAbs scale)
        (classifyPicture pic).expanded p := by
    simpa using agree
  have sign := hasExplicitSign_foldable ok.chars
  rw [runtime, ← same]
  by_cases appended : value < 0 ∧ hasExplicitSign (classifyPicture pic).expanded = false ∧
      st.out.length < 127
  · -- one character more than the folded text
    rw [if_pos appended]
    have longer : out ≠ st.out ++ ['-'] := by
      intro h
      have := congrArg List.length h
      simp [length] at this
    have hidden : ¬ SignShown value (classifyPicture pic) := by
      rintro (nonneg | place | wide)
      · omega
      · rw [← sign, appended.2.1] at place
        cases place
      · omega
    simp [longer, hidden]
  · rw [if_neg appended]
    have placed : SignShown value (classifyPicture pic) := by
      by_contra hidden
      simp only [SignShown, not_or] at hidden
      refine appended ⟨by omega, ?_, by omega⟩
      rw [← sign, Bool.not_eq_true] at hidden
      exact hidden.2.1
    simp [placed, eq_comm]

/-- 1.05 through 9.ZZ: the 9 prints its digit, so the zero after the point stays. -/
theorem fold_matches_after_nine :
    foldPictureConversion 105 2 (classifyPicture ['9', '.', 'Z', 'Z']) = some ['1', '.', '0', '5'] ∧
      (['1', '.', '0', '5'] = pliPutEditPic 105 2 1 ['9', '.', 'Z', 'Z'] ↔
        SignShown 105 (classifyPicture ['9', '.', 'Z', 'Z']) ∧
          ∀ p, ZeroShown (picValue false 105 2) ['9', '.', 'Z', 'Z'] p) := by
  have folded : foldPictureConversion 105 2 (classifyPicture ['9', '.', 'Z', 'Z']) =
      some ['1', '.', '0', '5'] := by
    decide
  exact ⟨folded, @fold_matches_runtime_iff ['9', '.', 'Z', 'Z'] 105 2 _ (by decide) folded⟩

/-- 0 through 9.Z folds to "0.0"; the runtime still suppresses the zero after the point
    and writes "0. ". -/
theorem fold_prints_suppressed_zero :
    ¬ ∀ (pic : List Char) (value : Int) (scale : Nat) (out : List Char),
      -2 ^ 63 ≤ value ∧ value < 2 ^ 63 →
      foldPictureConversion value scale (classifyPicture pic) = some out →
      out = pliPutEditPic value scale value.sign (classifyPicture pic).expanded := by
  intro agree
  have folded : foldPictureConversion 0 (1 : Nat) (classifyPicture ['9', '.', 'Z']) =
      some ['0', '.', '0'] := by
    decide
  have runtime : pliPutEditPic 0 1 0 (classifyPicture ['9', '.', 'Z']).expanded =
      ['0', '.', ' '] := by
    decide
  have same := agree ['9', '.', 'Z'] 0 1 ['0', '.', '0'] (by decide) folded
  exact absurd (same.trans runtime) (by decide)

end PliPictureFold
