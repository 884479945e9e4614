import PliLlvm.Compiler.DataDirected

/- List-directed output and input of FIXED values (src/irgen.cpp: emitPut, emitGet). The value
   writers and readers are the ones that the data lists use; here are the separators between
   the values, what a text denotes, and the text read back item by item. The stream goes to a
   file or to SYSPRINT; STRING, COPY and the other item types are left out. -/
namespace PliListDirected
open Decimal FixedPoint PliFixedConvert PliFixedText PliDataDirected
open PliConstFold (Ty)

structure Item where
  ty : Ty
  raw : Int
  deriving DecidableEq

def Item.image (i : Item) : List UInt8 := valueText i.ty i.raw

def emitPutItems (w : Writer) (items : List Item) : Writer :=
  items.foldl (fun w i => putValue w i.image) w

def listText (w : Writer) (items : List Item) : List UInt8 :=
  (emitPutItems w items).text.drop w.text.length

def emitGetItems : List Ty → Input → List (Option Int) × Input
  | [], s => ([], s)
  | ty :: tys, s =>
    let token := rtGetToken s 64
    let later := emitGetItems tys token.2
    (readValue ty (token.1.getD []) :: later.1, later.2)

/- What a text denotes. -/
def wellFormed (p : List UInt8) : Bool :=
  !(digitsAt p).isEmpty &&
    match p.dropWhile isDigit with
    | [] => true
    | 46 :: q => !q.isEmpty && q.all isDigit
    | _ => false

def textValue (t : List UInt8) : Option ℚ :=
  let (neg, p) := takeSign t
  let mag : ℚ := horner 0 (digitsAt p) + horner 0 (fractionAt p) / 10 ^ (fractionAt p).length
  if wellFormed p then some (if neg then -mag else mag) else none

/-- The writer of the type makes a text that denotes the value, and the reader makes the value
    of that text. -/
def Kept (i : Item) : Prop :=
  textValue i.image = some (value i.ty i.raw) ∧
    readValue i.ty (i.image.take 63) = some i.raw

/-- What stands between the text before and a value's image: a blank, and the line breaks of
    LINESIZE. -/
def gap (w : Writer) (image : List UInt8) : List UInt8 :=
  if w.dataValueNext || w.itemsOnLine == 0 then w.line.lead image.length
  else w.line.lead 1 ++ [32] ++ (w.line.put 1).lead image.length

theorem putValue_text (w : Writer) (image : List UInt8) :
    (putValue w image).text = w.text ++ (gap w image ++ image) := by
  unfold putValue rtSeparate gap
  cases next : w.dataValueNext with
  | true => simp [rtPutRaw]
  | false =>
    by_cases first : w.itemsOnLine = 0
    · simp [first, rtPutRaw]
    · have some' : 0 < w.itemsOnLine := Nat.pos_of_ne_zero first
      simp [first, some', rtPutRaw]

def laidOut : Writer → List Item → List UInt8
  | _, [] => []
  | w, i :: items => gap w i.image ++ (i.image ++ laidOut (putValue w i.image) items)

theorem putItems_text (w : Writer) (items : List Item) :
    (emitPutItems w items).text = w.text ++ laidOut w items := by
  induction items generalizing w with
  | nil => simp [emitPutItems, laidOut]
  | cons i items ih =>
    have rest := ih (putValue w i.image)
    unfold emitPutItems at rest ⊢
    rw [List.foldl_cons, rest, putValue_text, laidOut]
    simp

theorem listText_eq (w : Writer) (items : List Item) : listText w items = laidOut w items := by
  rw [listText, putItems_text, List.drop_left]

def spaced : Writer → List Item → Bool
  | _, [] => true
  | w, i :: items => !(gap w i.image).isEmpty && spaced (putValue w i.image) items

def setApart (w : Writer) : List Item → Bool
  | [] => true
  | i :: items => spaced (putValue w i.image) items

theorem lead_space (l : Line) (n : Nat) : ∀ c ∈ l.lead n, isSpace c = true := by
  intro c there
  rcases lead_cases l n with empty | newline
  · rw [empty] at there
    cases there
  · rw [newline, List.mem_singleton] at there
    rw [there]
    rfl

theorem gap_space (w : Writer) (image : List UInt8) : ∀ c ∈ gap w image, isSpace c = true := by
  intro c there
  unfold gap at there
  split at there
  · exact lead_space _ _ c there
  · rcases List.mem_append.mp there with front | back
    · rcases List.mem_append.mp front with wrapped | blank
      · exact lead_space _ _ c wrapped
      · rw [List.mem_singleton] at blank
        rw [blank]
        rfl
    · exact lead_space _ _ c back

theorem image_token (i : Item) : ∀ c ∈ i.image, inToken c = true ∧ isSpace c = false := by
  intro c there
  have facts := imageChar_facts c (valueText_image i.ty i.raw c there)
  exact ⟨facts.2.2.2.2.2.2.1, facts.1⟩

def Ends (tail : List UInt8) : Prop := ∀ c ∈ tail.head?, inToken c = false

theorem getToken_image {blanks image tail : List UInt8} (space : ∀ c ∈ blanks, isSpace c = true)
    (token : ∀ c ∈ image, inToken c = true ∧ isSpace c = false) (nonempty : image ≠ [])
    (ends : Ends tail) (semi : Bool) (cap : Nat) :
    rtGetToken ⟨blanks ++ (image ++ tail), semi⟩ cap =
      (some (image.take (cap - 1)), ⟨tail.tail, semi || tail.head? == some 59⟩) := by
  obtain ⟨c, cs, rfl⟩ := List.exists_cons_of_ne_nil nonempty
  have start : (blanks ++ (c :: cs ++ tail)).dropWhile isSpace = c :: (cs ++ tail) := by
    rw [List.dropWhile_append_of_pos space]
    simp [(token c List.mem_cons_self).2]
  have inside : ∀ d ∈ c :: cs, inToken d = true := fun d there => (token d there).1
  have after : tail.takeWhile inToken = [] ∧ tail.dropWhile inToken = tail := by
    cases tail with
    | nil => exact ⟨rfl, rfl⟩
    | cons d ds =>
      have stop := ends d rfl
      simp [stop]
  have taken : (c :: (cs ++ tail)).takeWhile inToken = c :: cs := by
    rw [← List.cons_append, List.takeWhile_append_of_pos inside, after.1, List.append_nil]
  have left : (c :: (cs ++ tail)).dropWhile inToken = tail := by
    rw [← List.cons_append, List.dropWhile_append_of_pos inside, after.2]
  unfold rtGetToken
  simp only [start, taken, left]

def readItems (items : List Item) : List (Option Int) :=
  items.map fun i => readValue i.ty (i.image.take 63)

def types (items : List Item) : List Ty := items.map (·.ty)

variable {w : Writer} {items : List Item}

theorem laidOut_ends (apart : spaced w items = true)
    {tail : List UInt8} (ends : Ends tail) : Ends (laidOut w items ++ tail) := by
  cases items with
  | nil => exact ends
  | cons i items =>
    intro c there
    simp only [spaced, Bool.and_eq_true, Bool.not_eq_true', List.isEmpty_eq_false_iff] at apart
    obtain ⟨d, g, shape⟩ := List.exists_cons_of_ne_nil apart.1
    have space := gap_space w i.image d (by rw [shape]; exact List.mem_cons_self)
    simp only [laidOut, shape, List.cons_append, List.head?_cons, Option.mem_some_iff] at there
    subst there
    simp [inToken, space]

theorem spaced_reads (apart : spaced w items = true) (i : Item)
    {blanks tail : List UInt8} (space : ∀ c ∈ blanks, isSpace c = true) (ends : Ends tail)
    (semi : Bool) :
    emitGetItems (types (i :: items))
        ⟨blanks ++ (i.image ++ (laidOut w items ++ tail)), semi⟩ =
      (readItems (i :: items), ⟨tail.tail, semi || tail.head? == some 59⟩) := by
  induction items generalizing i w blanks semi with
  | nil =>
    have token := getToken_image space (image_token i) (valueText_ne_nil i.ty i.raw) ends semi 64
    simp only [laidOut, List.nil_append, types, List.map_cons, List.map_nil, emitGetItems]
    rw [token]
    rfl
  | cons j items ih =>
    have token := getToken_image space (image_token i) (valueText_ne_nil i.ty i.raw)
      (laidOut_ends apart ends) semi 64
    simp only [spaced, Bool.and_eq_true, Bool.not_eq_true', List.isEmpty_eq_false_iff] at apart
    obtain ⟨c, g, shape⟩ := List.exists_cons_of_ne_nil apart.1
    have spaces : ∀ d ∈ c :: g, isSpace d = true := shape ▸ gap_space w j.image
    have blank : c ≠ 59 := by
      rintro rfl
      cases spaces 59 List.mem_cons_self
    have rest := ih apart.2 j (fun d there => spaces d (List.mem_cons_of_mem c there)) semi
    simp only [laidOut, shape, List.cons_append, List.append_assoc, List.tail_cons,
      List.head?_cons] at token
    have clear : (semi || some c == some 59) = semi := by simp [blank]
    rw [clear] at token
    have more : types (i :: j :: items) = i.ty :: types (j :: items) := rfl
    simp only [laidOut, shape, List.cons_append, List.append_assoc]
    rw [more, emitGetItems, token]
    dsimp only
    rw [rest]
    rfl

def behind (items : List Item) (tail : List UInt8) : List UInt8 :=
  if items = [] then tail else tail.tail

theorem setApart_reads (apart : setApart w items = true)
    {tail : List UInt8} (ends : Ends tail) (semi : Bool) :
    (emitGetItems (types items) ⟨listText w items ++ tail, semi⟩).1 = readItems items ∧
      (emitGetItems (types items) ⟨listText w items ++ tail, semi⟩).2.rest =
        behind items tail := by
  rw [listText_eq]
  cases items with
  | nil => exact ⟨rfl, rfl⟩
  | cons i items =>
    have read := spaced_reads apart i (gap_space w i.image) ends semi
    simp only [laidOut, List.append_assoc]
    rw [read]
    exact ⟨rfl, rfl⟩

/- How many tokens a text has. -/
def runs : Bool → List UInt8 → Nat
  | _, [] => 0
  | before, c :: cs => (if inToken c && !before then 1 else 0) + runs (inToken c) cs

theorem runs_blank {g : List UInt8} (nonempty : g ≠ []) (space : ∀ c ∈ g, isSpace c = true)
    (before : Bool) (rest : List UInt8) : runs before (g ++ rest) = runs false rest := by
  induction g generalizing before with
  | nil => exact absurd rfl nonempty
  | cons c g ih =>
    have blank : inToken c = false := by simp [inToken, space c List.mem_cons_self]
    rw [List.cons_append, runs, blank]
    by_cases last : g = []
    · subst last
      simp
    · rw [ih last (fun d there => space d (List.mem_cons_of_mem c there)) false]
      simp

theorem runs_inside {p : List UInt8} (token : ∀ c ∈ p, inToken c = true) (rest : List UInt8) :
    runs true (p ++ rest) = runs true rest := by
  induction p with
  | nil => rfl
  | cons c p ih =>
    rw [List.cons_append, runs, token c List.mem_cons_self,
      ih fun d there => token d (List.mem_cons_of_mem c there)]
    simp

theorem runs_token {p : List UInt8} (token : ∀ c ∈ p, inToken c = true) (nonempty : p ≠ [])
    (rest : List UInt8) : runs false (p ++ rest) = 1 + runs true rest := by
  obtain ⟨c, cs, rfl⟩ := List.exists_cons_of_ne_nil nonempty
  rw [List.cons_append, runs, token c List.mem_cons_self,
    runs_inside fun d there => token d (List.mem_cons_of_mem c there)]
  simp

theorem laidOut_runs (w : Writer) (items : List Item) (tail : List UInt8) :
    runs true (laidOut w items ++ tail) ≤ items.length + runs true tail ∧
      (runs true (laidOut w items ++ tail) = items.length + runs true tail →
        spaced w items = true) := by
  induction items generalizing w with
  | nil => exact ⟨by simp [laidOut], fun _ => rfl⟩
  | cons i items ih =>
    have inside : ∀ c ∈ i.image, inToken c = true := fun c there => (image_token i c there).1
    obtain ⟨bound, whole⟩ := ih (putValue w i.image)
    rw [laidOut, List.append_assoc, List.append_assoc, List.length_cons]
    by_cases glued : gap w i.image = []
    · rw [glued, List.nil_append, runs_inside inside]
      exact ⟨by omega, fun same => by omega⟩
    · rw [runs_blank glued (gap_space w i.image),
        runs_token inside (valueText_ne_nil i.ty i.raw)]
      refine ⟨by omega, fun same => ?_⟩
      simp [spaced, glued, whole (by omega)]

theorem runs_blanks {g : List UInt8} (space : ∀ c ∈ g, isSpace c = true) (rest : List UInt8) :
    runs false (g ++ rest) = runs false rest := by
  by_cases nonempty : g = []
  · rw [nonempty, List.nil_append]
  · exact runs_blank nonempty space false rest

theorem getToken_runs {s : Input} (plain : ∀ c ∈ s.rest, c ≠ 44 ∧ c ≠ 59) {cap : Nat}
    (left : (rtGetToken s cap).2.rest ≠ []) :
    runs false s.rest = 1 + runs false (rtGetToken s cap).2.rest ∧
      ∀ c ∈ (rtGetToken s cap).2.rest, c ∈ s.rest := by
  have parts := List.takeWhile_append_dropWhile (p := isSpace) (l := s.rest)
  have space : ∀ c ∈ s.rest.takeWhile isSpace, isSpace c = true :=
    fun c there => List.mem_takeWhile_imp there
  have first := @List.head?_dropWhile_not _ isSpace s.rest
  unfold rtGetToken at left ⊢
  cases text : s.rest.dropWhile isSpace with
  | nil => simp [text] at left
  | cons c cs =>
    rw [text] at parts first
    simp only [text] at left ⊢
    have within : ∀ d ∈ c :: cs, d ∈ s.rest :=
      fun d there => by rw [← parts]; exact List.mem_append_right _ there
    have start : inToken c = true := by
      have commas := plain c (within c List.mem_cons_self)
      simpa [inToken, commas] using first
    have pieces := List.takeWhile_append_dropWhile (p := inToken) (l := c :: cs)
    have inside : ∀ d ∈ (c :: cs).takeWhile inToken, inToken d = true :=
      fun d there => List.mem_takeWhile_imp there
    have nonempty : (c :: cs).takeWhile inToken ≠ [] := by simp [start]
    have stop := @List.head?_dropWhile_not _ inToken (c :: cs)
    cases after : (c :: cs).dropWhile inToken with
    | nil => simp [after] at left
    | cons d ds =>
      rw [after] at pieces stop
      have ended : inToken d = false := by simpa using stop
      constructor
      · rw [← parts, runs_blanks space, ← pieces, runs_token inside nonempty, runs, ended]
        simp
      · intro e there
        refine within e ?_
        rw [← pieces]
        exact List.mem_append_right _ (List.mem_cons_of_mem d there)

theorem getItems_empty (tys : List Ty) (semi : Bool) :
    (emitGetItems tys ⟨[], semi⟩).2.rest = [] := by
  induction tys with
  | nil => rfl
  | cons ty tys ih => exact ih

theorem getItems_runs {tys : List Ty} {s : Input} (plain : ∀ c ∈ s.rest, c ≠ 44 ∧ c ≠ 59)
    (left : (emitGetItems tys s).2.rest ≠ []) :
    runs false s.rest = tys.length + runs false (emitGetItems tys s).2.rest := by
  induction tys generalizing s with
  | nil => simp [emitGetItems]
  | cons ty tys ih =>
    rw [emitGetItems] at left ⊢
    dsimp only at left ⊢
    have more : (rtGetToken s 64).2.rest ≠ [] := by
      intro empty
      refine left ?_
      have shape : (rtGetToken s 64).2 = ⟨[], (rtGetToken s 64).2.semi⟩ := by
        rw [← empty]
      rw [shape]
      exact getItems_empty tys _
    obtain ⟨one, within⟩ := getToken_runs plain more
    rw [one, ih (fun c there => plain c (within c there)) left, List.length_cons]
    omega

theorem list_plain (w : Writer) (items : List Item) :
    ∀ c ∈ laidOut w items, c ≠ 44 ∧ c ≠ 59 := by
  induction items generalizing w with
  | nil =>
    intro c there
    cases there
  | cons i items ih =>
    intro c there
    rcases List.mem_append.mp there with between | rest
    · have space := gap_space w i.image c between
      constructor <;> rintro rfl <;> cases space
    · rcases List.mem_append.mp rest with inside | later
      · have token := (image_token i c inside).1
        constructor <;> rintro rfl <;> cases token
      · exact ih (putValue w i.image) c later

theorem reads_setApart {semi : Bool}
    (read : (emitGetItems (types items) ⟨listText w items ++ [32, 49], semi⟩).2.rest =
      behind items [32, 49]) : setApart w items = true := by
  rw [listText_eq] at read
  cases items with
  | nil => rfl
  | cons i items =>
    have tail : behind (i :: items) [32, 49] = [49] := rfl
    rw [tail] at read
    have number : ∀ c ∈ ([32, 49] : List UInt8), c ≠ 44 ∧ c ≠ 59 := by
      simp only [List.forall_mem_cons, List.not_mem_nil, false_imp_iff, implies_true, and_true]
      exact ⟨⟨by decide, by decide⟩, by decide, by decide⟩
    have plain : ∀ c ∈ laidOut w (i :: items) ++ [32, 49], c ≠ 44 ∧ c ≠ 59 := by
      intro c there
      rcases List.mem_append.mp there with inside | last
      · exact list_plain w (i :: items) c inside
      · exact number c last
    have tokens := getItems_runs (s := ⟨laidOut w (i :: items) ++ [32, 49], semi⟩) plain
      (by rw [read]; decide)
    have inside : ∀ c ∈ i.image, inToken c = true := fun c there => (image_token i c there).1
    have last : runs false [49] = 1 := by decide
    have after : runs true [32, 49] = 1 := by decide
    have length : (types (i :: items)).length = items.length + 1 := by simp [types]
    rw [read, last, length] at tokens
    simp only [laidOut, List.append_assoc] at tokens
    rw [runs_blanks (gap_space w i.image),
      runs_token inside (valueText_ne_nil i.ty i.raw)] at tokens
    exact (laidOut_runs (putValue w i.image) items [32, 49]).2 (by omega)

theorem wellFormed_text {whole fraction : List Nat} (some_digit : whole ≠ [])
    (small : ∀ d ∈ whole, d < 10) (low : ∀ d ∈ fraction, d < 10) :
    wellFormed (digitBytes whole ++ pointed fraction) = true := by
  have parts := digitsAt_text small (pointed_stops fraction)
  unfold wellFormed
  rw [parts.1, parts.2]
  by_cases none : fraction = []
  · simp [some_digit, pointed, none]
  · have digits : ∀ c ∈ digitBytes fraction, isDigit c = true :=
      fun c there => digitBytes_isDigit low there
    simp [some_digit, pointed, none, digitBytes_ne_nil none]
    exact digits

def withSign (v : Int) (mag : ℚ) : ℚ := if v < 0 then -mag else mag

theorem withSign_natAbs (v : Int) (x : ℚ) : withSign v (v.natAbs / x) = v / x := by
  have cast : ((v.natAbs : Nat) : ℚ) = ((v.natAbs : Int) : ℚ) := (Int.cast_natCast _).symm
  unfold withSign
  split
  · have opposite : (v.natAbs : Int) = -v := by omega
    rw [cast, opposite, Int.cast_neg, neg_div, neg_neg]
  · have same : (v.natAbs : Int) = v := by omega
    rw [cast, same]

theorem textValue_text (v : Int) {whole fraction : List Nat} (some_digit : whole ≠ [])
    (small : ∀ d ∈ whole, d < 10) (low : ∀ d ∈ fraction, d < 10) :
    textValue (signText v ++ (digitBytes whole ++ pointed fraction)) =
      some (withSign v ((horner 0 whole : ℚ) + horner 0 fraction / 10 ^ fraction.length)) := by
  have parts := fractionAt_text small low
  unfold textValue withSign
  rw [takeSign_text v some_digit small]
  dsimp only
  rw [wellFormed_text some_digit small low, parts.1, parts.2]
  simp

theorem fmtInt_value (v : Int) : textValue (fmtInt v) = some (v : ℚ) := by
  have shape : fmtInt v = signText v ++ (digitBytes (image v.natAbs) ++ pointed []) := by
    simp [fmtInt, pointed]
  have text := @textValue_text v (image v.natAbs) [] (image_ne_nil v.natAbs)
    (fun d there => image_digits there) (fun d there => by cases there)
  have number := withSign_natAbs v 1
  rw [div_one, div_one] at number
  have none_after : (horner 0 [] : ℚ) / 10 ^ ([] : List Nat).length = 0 := by simp [horner]
  rw [shape, text, image_zero_value, none_after, add_zero, number]

theorem split_value (n k : Nat) :
    ((horner 0 (image (n / 10 ^ k)) : ℚ) +
      horner 0 (padded k (n % 10 ^ k)) / 10 ^ (padded k (n % 10 ^ k)).length) = n / 10 ^ k := by
  have power : (10 ^ k : ℚ) ≠ 0 := by positivity
  have parts : ((n / 10 ^ k : Nat) : ℚ) * 10 ^ k + ((n % 10 ^ k : Nat) : ℚ) = n := by
    exact_mod_cast Nat.div_add_mod' n (10 ^ k)
  rw [image_zero_value, padded_zero_value, padded_length, Nat.mod_mod]
  field_simp
  exact parts

variable {v q : Int}

theorem decfixed128_value (fraction : 0 < q) :
    textValue (rtFormatDecfixed128 v q) = some ((v : ℚ) / 10 ^ (min q 38).toNat) := by
  rw [decfixed128_shape fraction, textValue_text v (image_ne_nil _)
    (fun d there => image_digits there)
    (fun d there => padded_digits there), split_value, withSign_natAbs]

theorem decfixed_value (fraction : 0 < q) (narrow : v.natAbs < 10 ^ 18) :
    textValue (rtFormatDecfixed v q) = some ((v : ℚ) / 10 ^ (min q 20).toNat) := by
  rw [decfixed_shape fraction, textValue_text v (image_ne_nil _) (fun d there => image_digits there)
    (fun d there => padded_digits there)]
  by_cases few : q ≤ 18
  · have same : (min q 18).toNat = q.toNat ∧ (min q 20).toNat = q.toNat := by omega
    rw [same.1, same.2, split_value, withSign_natAbs]
  · have whole : (min q 18).toNat = 18 := by omega
    have inside : v.natAbs < 10 ^ (min q 20).toNat :=
      narrow.trans_le (Nat.pow_le_pow_right (by omega) (by omega))
    have value := split_value v.natAbs (min q 20).toNat
    rw [Nat.div_eq_of_lt inside, Nat.mod_eq_of_lt inside] at value
    rw [whole, Nat.div_eq_of_lt narrow, Nat.mod_eq_of_lt narrow, value, withSign_natAbs]

theorem fixedScaled_value (fraction : 0 < q) (fits : Fits 64 v) (other : v ≠ -2 ^ 63)
    (few : exactDigits (min q 62).toNat v.natAbs ≤ 18) :
    textValue (formatFixedScaled v q) = some ((v : ℚ) / 2 ^ (min q 62).toNat) := by
  rw [formatFixedScaled_text fraction fits other]
  unfold exactDigits at few
  generalize (min q 62).toNat = s at few ⊢
  have small : v.natAbs % 2 ^ s < 2 ^ s := Nat.mod_lt _ (by positivity)
  have exact := @expansion_floor_eq s 60 (v.natAbs % 2 ^ s) small (by omega)
  rw [textValue_text v (image_ne_nil _) (fun d there => image_digits there)
    (fun d there => expansion_digits small there), image_zero_value]
  generalize expansion s 60 (v.natAbs % 2 ^ s) = ds at exact ⊢
  have whole : ((v.natAbs / 2 ^ s : Nat) : ℚ) * 2 ^ s + ((v.natAbs % 2 ^ s : Nat) : ℚ) =
    v.natAbs := by
    exact_mod_cast Nat.div_add_mod' v.natAbs (2 ^ s)
  have digits : (horner 0 ds : ℚ) * 2 ^ s = ((v.natAbs % 2 ^ s : Nat) : ℚ) * 10 ^ ds.length := by
    exact_mod_cast exact
  have value : ((v.natAbs / 2 ^ s : Nat) : ℚ) + horner 0 ds / 10 ^ ds.length =
    v.natAbs / 2 ^ s := by
    have ten : (10 ^ ds.length : ℚ) ≠ 0 := by positivity
    have two : (2 ^ s : ℚ) ≠ 0 := by positivity
    field_simp
    rw [add_mul, digits, ← whole]
    ring
  rw [value, withSign_natAbs]

def places (ty : Ty) : Nat :=
  (min ty.scale (if ty.k = .fixedBin then 62 else if ty.wideDec then 38 else 20)).toNat

theorem narrow_below {ty : Ty} {raw : Int} (declared : Declared ty) (stored : Stored ty raw)
    (decimal : ty.k = .fixedDec) (narrow : ty.wideDec = false) : raw.natAbs < 10 ^ 18 := by
  have few : ty.prec ≤ 18 := by
    have flag := declared.2.2
    simp only [decimal, narrow, decide_true, Bool.true_and] at flag
    simpa using flag.symm
  have smaller : (10 : Int) ^ ty.prec.toNat ≤ 10 ^ 18 := by
    exact_mod_cast Nat.pow_le_pow_right (by omega) (by omega : ty.prec.toNat ≤ 18)
  have inside := stored.1
  rw [InRange, if_neg (by simp [decimal])] at inside
  omega

theorem places_whole {ty : Ty} (whole : ¬ 0 < ty.scale) : places ty = 0 := by
  unfold places
  split
  · omega
  · split <;> omega

theorem image_denotes {i : Item} (declared : Declared i.ty) (stored : Stored i.ty i.raw)
    (back : ReadsBack i.ty i.raw) :
    textValue i.image = some ((i.raw : ℚ) / (base i.ty : ℚ) ^ places i.ty) := by
  have whole : ¬ 0 < i.ty.scale →
      textValue (fmtInt i.raw) = some ((i.raw : ℚ) / (base i.ty : ℚ) ^ places i.ty) := by
    intro none
    rw [fmtInt_value, places_whole none, pow_zero, div_one]
  unfold Item.image valueText
  rcases declared.1 with binary | decimal
  · simp only [binary, reduceCtorEq, false_and, if_false, true_and]
    split
    · rename_i up
      have right : i.raw ≠ -2 ^ 63 ∧ exactDigits (min i.ty.scale 62).toNat i.raw.natAbs ≤ 18 := by
        simpa [ReadsBack, binary, up, not_lt.mpr up.le] using back
      rw [fixedScaled_value up (stored_fits stored (binary_word binary)) right.1 right.2,
        base_binary binary]
      simp [places, binary]
    · rename_i none
      exact whole none
  · simp only [decimal, reduceCtorEq, true_and, false_and, if_false]
    have bits := decimal_wide decimal
    by_cases wide : i.ty.wideDec = true
    · simp only [bits.mpr wide, if_true]
      split
      · rename_i up
        rw [decfixed128_value up, base_decimal decimal]
        simp [places, decimal, wide]
      · rename_i none
        rw [formatDecfixed128_whole]
        exact whole none
    · simp only [mt bits.mp wide, if_false]
      split
      · rename_i up
        rw [decfixed_value up (narrow_below declared stored decimal (by simpa using wide)),
          base_decimal decimal]
        simp [places, decimal, wide]
      · rename_i none
        exact whole none

theorem base_large (ty : Ty) : (1 : ℚ) < base ty := by
  unfold base
  split <;> norm_num

theorem same_value_iff (ty : Ty) (raw : Int) (k : Nat) :
    (raw : ℚ) / (base ty : ℚ) ^ k = value ty raw ↔ raw = 0 ∨ ty.scale = k := by
  have large := base_large ty
  have nonzero : (base ty : ℚ) ≠ 0 := by linarith
  have power : (raw : ℚ) / (base ty : ℚ) ^ k = raw * (base ty : ℚ) ^ (-(k : Int)) := by
    rw [zpow_neg, zpow_natCast, div_eq_mul_inv]
  rw [power, value]
  by_cases zero : raw = 0
  · simp [zero]
  · have factor : (raw : ℚ) ≠ 0 := by exact_mod_cast zero
    rw [mul_right_inj' factor, zpow_right_inj₀ (by linarith) (ne_of_gt large)]
    simp only [zero, false_or]
    omega

/-- A value whose text has its point where the scale puts it: none is written for a negative
    scale, and BINARY scales beyond 62 count as 62. -/
def PointRight (ty : Ty) (raw : Int) : Prop :=
  raw ≠ 0 → 0 ≤ ty.scale ∧ (ty.k = .fixedBin → ty.scale ≤ 62)

theorem kept_iff {i : Item} (declared : Declared i.ty) (stored : Stored i.ty i.raw) :
    Kept i ↔ ReadsBack i.ty i.raw ∧ PointRight i.ty i.raw := by
  unfold Kept
  rw [and_comm, Item.image, value_reads_iff declared stored]
  refine and_congr_right fun back => ?_
  have denotes := image_denotes declared stored back
  rw [Item.image] at denotes
  rw [denotes, Option.some.injEq, same_value_iff]
  unfold PointRight places
  unfold ReadsBack at back
  rcases declared.1 with binary | decimal
  · simp only [binary, if_true, true_implies] at back ⊢
    by_cases negative : i.ty.scale < 0
    · rw [if_pos negative] at back
      simp [back]
    · omega
  · simp only [decimal, reduceCtorEq, if_false] at back ⊢
    split
    · rename_i wide
      rw [if_pos wide] at back
      omega
    · rename_i narrow
      rw [if_neg narrow] at back
      omega

/-- A list that PUT LIST writes: each text denotes its value, and GET LIST reads the values
    back in order and nothing more, whatever the input goes on with. -/
structure ListKept (w : Writer) (items : List Item) : Prop where
  denotes : ∀ i ∈ items, textValue i.image = some (value i.ty i.raw)
  values : ∀ tail semi, Ends tail →
    (emitGetItems (types items) ⟨listText w items ++ tail, semi⟩).1 =
      items.map fun i => some i.raw
  rest : ∀ tail semi, Ends tail →
    (emitGetItems (types items) ⟨listText w items ++ tail, semi⟩).2.rest = behind items tail

def afterBlank (w : Writer) : Line :=
  if w.dataValueNext || w.itemsOnLine == 0 then w.line else w.line.put 1

/-- No value follows one that LINESIZE moved to a new line on that line. The flag says whether
    the last value was moved. -/
def noneFollows : Line → Bool → List Item → Bool
  | _, _, [] => true
  | l, true, i :: items => l.breaks i.image.length && noneFollows (l.put i.image.length) true items
  | l, false, i :: items =>
    noneFollows ((l.put 1).put i.image.length) ((l.put 1).breaks i.image.length) items

def noneFollowsMoved (w : Writer) : List Item → Bool
  | [] => true
  | i :: items =>
    noneFollows ((afterBlank w).put i.image.length) ((afterBlank w).breaks i.image.length) items

theorem putValue_place (w : Writer) (image : List UInt8) :
    (putValue w image).dataValueNext = false ∧
      (putValue w image).line = (afterBlank w).put image.length ∧
      ((putValue w image).itemsOnLine == 0) = (afterBlank w).breaks image.length := by
  unfold putValue rtSeparate afterBlank
  cases next : w.dataValueNext with
  | true => cases moved : w.line.breaks image.length <;> simp [rtPutRaw, moved]
  | false =>
    by_cases first : w.itemsOnLine = 0
    · cases moved : w.line.breaks image.length <;> simp [first, next, rtPutRaw, moved]
    · have some' : 0 < w.itemsOnLine := Nat.pos_of_ne_zero first
      cases moved : (w.line.put 1).breaks image.length <;>
        simp [first, some', next, rtPutRaw, moved]

theorem spaced_eq (w : Writer) (none : w.dataValueNext = false) (items : List Item) :
    spaced w items = noneFollows w.line (w.itemsOnLine == 0) items := by
  induction items generalizing w with
  | nil => simp [spaced, noneFollows]
  | cons i items ih =>
    obtain ⟨next, line, moved⟩ := putValue_place w i.image
    have rest := ih (putValue w i.image) next
    rw [line, moved] at rest
    rw [spaced, rest]
    by_cases first : w.itemsOnLine = 0
    · cases breaks : w.line.breaks i.image.length <;>
        simp [gap, afterBlank, none, first, noneFollows, Line.lead, breaks]
    · have later : (w.itemsOnLine == 0) = false := by simp [first]
      rw [later, noneFollows]
      simp [gap, afterBlank, none, first]

theorem setApart_eq (w : Writer) (items : List Item) :
    setApart w items = noneFollowsMoved w items := by
  cases items with
  | nil => rfl
  | cons i items =>
    obtain ⟨next, line, moved⟩ := putValue_place w i.image
    rw [setApart, spaced_eq _ next, line, moved, noneFollowsMoved]

/-- PUT LIST read back by GET LIST: no value may follow, on the same line, one that was moved
    to a new line, and each must be one that its type's writer and reader keep. -/
theorem list_read_back_iff {items : List Item} (declared : ∀ i ∈ items, Declared i.ty)
    (stored : ∀ i ∈ items, Stored i.ty i.raw) (w : Writer) :
    ListKept w items ↔ noneFollowsMoved w items = true ∧
      ∀ i ∈ items, ReadsBack i.ty i.raw ∧ PointRight i.ty i.raw := by
  rw [← setApart_eq]
  constructor
  · intro kept
    have number : Ends [32, 49] := fun c there => by
      cases there
      rfl
    have apart := reads_setApart (kept.rest [32, 49] false number)
    refine ⟨apart, fun i there => ?_⟩
    rw [← kept_iff (declared i there) (stored i there)]
    refine ⟨kept.denotes i there, ?_⟩
    have ends : Ends [] := fun c none => by cases none
    have values := kept.values [] false ends
    rw [(setApart_reads apart ends false).1] at values
    exact List.map_inj_left.mp values i there
  · rintro ⟨apart, each⟩
    have all : ∀ i ∈ items, Kept i :=
      fun i there => (kept_iff (declared i there) (stored i there)).mpr (each i there)
    refine ⟨fun i there => (all i there).1, fun tail semi ends => ?_,
      fun tail semi ends => (setApart_reads apart ends semi).2⟩
    rw [(setApart_reads apart ends semi).1]
    exact List.map_congr_left fun i there => (all i there).2

def narrowFile : Writer := ⟨⟨8, 0⟩, 0, 0, false, []⟩

def twoLines : List Item := [⟨.fixedDec 5 0, 12345⟩, ⟨.fixedDec 7 2, -314⟩]

/-- 12345 and -3.14, each on its line. -/
theorem list_read_back_two : ListKept narrowFile twoLines := by
  apply (list_read_back_iff (by decide) (by decide) narrowFile).mpr
  constructor
  · decide +kernel
  · simp only [twoLines, List.forall_mem_cons, List.not_mem_nil, false_imp_iff, implies_true,
      and_true]
    unfold ReadsBack PointRight
    decide

def threeValues : List Item := [⟨.fixedDec 5 0, 12345⟩, ⟨.fixedDec 5 0, 67890⟩, ⟨.fixedDec 5 0, 11⟩]

def wideValue : List Item := [⟨.fixedDec 20 0, 10 ^ 19⟩]

def hundreds : List Item := [⟨.fixedDec 3 (-2), 5⟩]

theorem values_lost (lost : (emitGetItems (types items) ⟨listText w items ++ [], false⟩).1 ≠
      items.map fun i => some i.raw) : ¬ ListKept w items := by
  intro kept
  have ends : Ends [] := fun c none => by cases none
  exact lost (kept.values [] false ends)

/-- 67890 is moved to a new line, and 11 is put right behind it; a DECIMAL(20) is read as a
    long long; 500 in a DECIMAL(3,-2) is written as 5. -/
theorem list_not_read_back :
    ((∀ i ∈ threeValues ++ wideValue ++ hundreds, Declared i.ty ∧ Stored i.ty i.raw) ∧
      ¬ ListKept narrowFile threeValues) ∧
    ¬ ListKept narrowFile wideValue ∧ ¬ ListKept narrowFile hundreds := by
  refine ⟨⟨by decide, values_lost (by decide +kernel)⟩, values_lost (by decide +kernel), ?_⟩
  intro kept
  have written := kept.denotes ⟨.fixedDec 3 (-2), 5⟩ (by decide)
  have text : textValue (valueText (.fixedDec 3 (-2)) 5) = some 5 := fmtInt_value 5
  have due : value (.fixedDec 3 (-2)) 5 = 500 := by
    rw [value, base_decimal rfl]
    norm_num [Ty.fixedDec]
  simp only [Item.image] at written
  rw [text, due] at written
  norm_num at written

end PliListDirected
