import PliLlvm.Source.LexerRun

/- Tokens printed in one spelling each with a blank between two of them, and the
   lexer on what is printed. -/
namespace PliLexer
open Scan Scan.Cursor

/-- The spelling of a symbol; the not-symbol is written as the source advises. -/
def symbolSpelling : Tok → List Byte
  | .semi => [ch ';']
  | .colon => [ch ':']
  | .comma => [ch ',']
  | .lParen => [ch '(']
  | .rParen => [ch ')']
  | .dot => [ch '.']
  | .eq => [ch '=']
  | .plus => [ch '+']
  | .minus => [ch '-']
  | .star => [ch '*']
  | .slash => [ch '/']
  | .power => [ch '*', ch '*']
  | .concat => [ch '|', ch '|']
  | .amp => [ch '&']
  | .bar => [ch '|']
  | .not => [ch '^']
  | .lt => [ch '<']
  | .le => [ch '<', ch '=']
  | .gt => [ch '>']
  | .ge => [ch '>', ch '=']
  | .ne => [ch '^', ch '=']
  | .ngt => [ch '^', ch '>']
  | .nlt => [ch '^', ch '<']
  | .arrow => [ch '-', ch '>']
  | .percent => [ch '%']
  | _ => []

def numberSuffix (t : Token) : List Byte :=
  (if t.binaryRadix then [ch 'B'] else []) ++ (if t.imaginary then [ch 'I'] else []) ++
    (if t.sterling then [0xC2, 0xA3] else [])

def spelling (t : Token) : List Byte :=
  match t.kind with
  | .word => t.text
  | .number => t.text ++ numberSuffix t
  | .isub => t.text ++ [ch 'S', ch 'U', ch 'B']
  | .charLit => ch '\'' :: quoted t.sval ++ [ch '\'']
  | .bitLit => ch '\'' :: quoted t.sval ++ [ch '\'', ch 'B']
  | .hexLit => ch '\'' :: quoted t.sval ++ [ch '\'', ch 'X']
  | kind => symbolSpelling kind

def spaced : List Token → List Byte
  | [] => []
  | [t] => spelling t
  | t :: ts => spelling t ++ ch ' ' :: spaced ts

/-- The tokens of a source but its end, one blank between two of them. -/
def printTokens (toks : List Token) : List Byte := spaced (toks.filter (·.kind != .eof))

def Token.bare (t : Token) : Token := { t with loc := ⟨0, 0⟩ }

def Calm (rest : List Byte) : Prop := rest = [] ∨ ∃ more, rest = ch ' ' :: more

def Lexes (t : Token) (bs : List Byte) : Prop :=
  ∀ loc rest, Calm rest →
    lexOne ⟨bs ++ rest, loc⟩ = (some { t with loc := loc }, ⟨rest, loc.advance bs⟩, [])

variable {rest : List Byte}

theorem calm_head (calm : Calm rest) : rest.headD 0 = 0 ∨ rest.headD 0 = ch ' ' := by
  rcases calm with rfl | ⟨more, rfl⟩
  · exact Or.inl rfl
  · exact Or.inr rfl

theorem calm_other (calm : Calm rest) {c : Char}
    (member : c ∈ ['B', 'b', 'I', 'i', 'X', 'x', '*', '/']) : rest.headD 0 ≠ ch c := by
  simp only [List.mem_cons, List.not_mem_nil, or_false] at member
  rcases calm_head calm with h | h <;> rw [h] <;>
    rcases member with rfl | rfl | rfl | rfl | rfl | rfl | rfl | rfl <;> decide

variable {loc : Loc}

theorem word_lexes {c : Byte} {cs : List Byte} (letter : pliIsLetter c = true)
    (rest : ∀ d ∈ cs, pliIsAlphameric d = true) :
    Lexes { Token.fresh .word loc with text := (c :: cs).map toUpper } ((c :: cs).map toUpper) := by
  intro loc rest' calm
  have upperLetter : ∀ c, pliIsLetter c = true → pliIsLetter (toUpper c) = true :=
    forall_byte (by decide +kernel)
  have upperAlphameric : ∀ c, pliIsAlphameric c = true → pliIsAlphameric (toUpper c) = true :=
    forall_byte (by decide +kernel)
  have twice : ∀ c, toUpper (toUpper c) = toUpper c := forall_byte (by decide +kernel)
  have all : ∀ d ∈ (c :: cs).map toUpper, pliIsAlphameric d = true := by
    intro d member
    obtain ⟨e, inside, rfl⟩ := List.mem_map.mp member
    refine upperAlphameric e ?_
    rcases List.mem_cons.mp inside with rfl | later
    · exact letter_alphameric letter
    · exact rest e later
  have stop : pliIsAlphameric (rest'.headD 0) = false := by
    rcases calm_head calm with h | h <;> rw [h] <;> decide
  have word := eatWhile_run all stop loc
  have first : pliIsLetter (cur ⟨(c :: cs).map toUpper ++ rest', loc⟩) = true :=
    upperLetter c letter
  have again : ((c :: cs).map toUpper).map toUpper = (c :: cs).map toUpper := by
    rw [List.map_map]
    exact List.map_congr_left fun d _ => twice d
  unfold lexOne
  rw [if_pos first]
  unfold lexWord
  rw [word]
  dsimp only
  rw [again]
  rfl

theorem symbol_kinds : ∀ entry ∈ symbols, entry.1 ≠ .eof ∧ entry.1 ≠ .word ∧ entry.1 ≠ .number ∧
    entry.1 ≠ .isub ∧ entry.1 ≠ .charLit ∧ entry.1 ≠ .bitLit ∧ entry.1 ≠ .hexLit := by
  decide

variable {bs : List Byte}

theorem symbol_lexes {kind : Tok} (known : (kind, bs) ∈ symbols) :
    Lexes (Token.fresh kind loc) (spelling (Token.fresh kind loc)) := by
  have symbolKind := symbol_kinds _ known
  intro place rest calm
  cases kind <;> simp only [ne_eq, not_true_eq_false, false_and, and_false] at symbolKind <;>
    rcases calm with rfl | ⟨more, rfl⟩ <;> rfl

def EndsScale (c : Byte) : Prop := c = 0 ∨ c = ch ' ' ∨ c = ch 'B' ∨ c = ch 'I'

def scaleSuffix (binary imaginary : Bool) : List Byte :=
  (if binary then [ch 'B'] else []) ++ (if imaginary then [ch 'I'] else [])

theorem scaleSuffix_head (calm : Calm rest) (binary imaginary : Bool) :
    EndsScale ((scaleSuffix binary imaginary ++ rest).headD 0) := by
  cases binary with
  | true => exact Or.inr (Or.inr (Or.inl rfl))
  | false =>
    cases imaginary with
    | true => exact Or.inr (Or.inr (Or.inr rfl))
    | false =>
      rcases calm_head calm with none | blank
      · exact Or.inl none
      · exact Or.inr (Or.inl blank)

theorem sign_run {sign ds : List Byte} (after : List Byte)
    (signed : sign = [] ∨ sign = [ch '+'] ∨ sign = [ch '-']) (digits : Digits ds) (loc : Loc)
    {s : Cursor} (here : s = ⟨sign ++ (ds ++ after), loc⟩) :
    (if s.cur = ch '+' ∨ s.cur = ch '-' then ([s.cur], s.bump) else ([], s)) =
      (sign, (⟨ds ++ after, loc.advance sign⟩ : Cursor)) := by
  subst here
  rcases signed with rfl | rfl | rfl
  · obtain ⟨d, tail, shape⟩ := List.exists_cons_of_ne_nil digits.1
    have digit : isDigit d = true := digits.2 d (by simp [shape])
    have notSign : ¬ (d = ch '+' ∨ d = ch '-') := by
      rintro (rfl | rfl) <;> exact absurd digit (by decide)
    have here : cur ⟨[] ++ (ds ++ after), loc⟩ = d := by simp [cur, shape]
    rw [if_neg (by rw [here]; exact notSign)]
    rfl
  · have here : cur ⟨[ch '+'] ++ (ds ++ after), loc⟩ = ch '+' := rfl
    rw [if_pos (Or.inl here)]
    rfl
  · have here : cur ⟨[ch '-'] ++ (ds ++ after), loc⟩ = ch '-' := rfl
    rw [if_pos (Or.inr here)]
    rfl

variable {ex text after : List Byte}

theorem lexExponent_run (exponent : Exponent ex text)
    (ends : EndsScale (after.headD 0)) (loc : Loc) :
    lexExponent ⟨text ++ after, loc⟩ = (text, ⟨after, loc.advance text⟩) := by
  have noDigit : isDigit (after.headD 0) = false := by
    rcases ends with h | h | h | h <;> rw [h] <;> decide
  rcases exponent with ⟨-, rfl⟩ | ⟨m, sign, ds, -, signed, digits, -, rfl⟩
  · have noMarker : ¬ (cur ⟨[] ++ after, loc⟩ = ch 'E' ∨ cur ⟨[] ++ after, loc⟩ = ch 'e') := by
      simp only [cur, List.nil_append]
      rcases ends with h | h | h | h <;> rw [h] <;> decide
    unfold lexExponent
    rw [if_neg noMarker]
    rfl
  · obtain ⟨d, tail, shape⟩ := List.exists_cons_of_ne_nil digits.1
    have digit : isDigit (cur ⟨ds ++ after, (loc.after (ch 'E')).advance sign⟩) = true := by
      simpa [cur, shape] using digits.2 d (by simp [shape])
    have marker : cur ⟨ch 'E' :: sign ++ ds ++ after, loc⟩ = ch 'E' := rfl
    have next : bump ⟨ch 'E' :: sign ++ ds ++ after, loc⟩ =
        ⟨sign ++ (ds ++ after), loc.after (ch 'E')⟩ := by
      simp [bump]
    have signRun := sign_run after signed digits (loc.after (ch 'E')) rfl
    unfold lexExponent
    rw [if_pos (Or.inl marker), next]
    dsimp only
    rw [signRun]
    dsimp only
    rw [if_pos digit, eatWhile_run digits.2 noDigit]
    simp

variable {suffix : List Byte}

theorem lexScale_run {binary imaginary : Bool} (t : Token)
    (plain : t.binaryRadix = false) (real : t.imaginary = false) (exponent : Exponent ex text)
    (ends : Suffix suffix binary imaginary) (calm : Calm rest) (loc : Loc) :
    lexScale t ⟨text ++ (scaleSuffix binary imaginary ++ rest), loc⟩ =
      ({ t with
          text := t.text ++ text, isFloat := t.isFloat || !text.isEmpty, hasExp := !text.isEmpty
          binaryRadix := binary, imaginary := imaginary },
        ⟨rest, loc.advance (text ++ scaleSuffix binary imaginary)⟩) := by
  have run := lexExponent_run exponent (scaleSuffix_head calm binary imaginary) loc
  unfold lexScale
  dsimp only
  rw [run]
  dsimp only
  rcases ends with ⟨-, rfl, rfl⟩ | ⟨-, rfl, rfl⟩ | ⟨-, rfl, rfl⟩
  · have noSuffix : ∀ c : Char, c ∈ ['B', 'b', 'I', 'i'] →
        cur ⟨scaleSuffix false false ++ rest, loc.advance text⟩ ≠ ch c := by
      intro c member
      refine calm_other calm (List.mem_append_left ['X', 'x', '*', '/'] member)
    rw [if_neg (by simp [noSuffix]), if_neg (by simp [noSuffix])]
    simp [scaleSuffix, plain, real]
  · have here : cur ⟨scaleSuffix true false ++ rest, loc.advance text⟩ = ch 'B' := rfl
    rw [if_pos (Or.inl here)]
    simp [scaleSuffix, real, bump]
  · have here : cur ⟨scaleSuffix false true ++ rest, loc.advance text⟩ = ch 'I' := rfl
    rw [if_neg (by rw [here]; decide), if_pos (Or.inl here)]
    simp [scaleSuffix, plain, bump]

theorem eatPoint_run {point : List Byte} (digits : Point point)
    (stop : isDigit (after.headD 0) = false) (loc : Loc) :
    pointAhead ⟨point ++ after, loc⟩ = true ∧
      eatPoint ⟨point ++ after, loc⟩ = (point, ⟨after, loc.advance point⟩) := by
  obtain ⟨ds, rfl, digits⟩ := digits
  obtain ⟨d, tail, shape⟩ := List.exists_cons_of_ne_nil digits.1
  have digit : isDigit d = true := digits.2 d (by simp [shape])
  constructor
  · have here : cur ⟨ch '.' :: ds ++ after, loc⟩ = ch '.' := rfl
    have next : peek ⟨ch '.' :: ds ++ after, loc⟩ 1 = d := by simp [peek, shape]
    unfold pointAhead
    rw [here, next, digit]
    rfl
  · have next : bump ⟨ch '.' :: ds ++ after, loc⟩ = ⟨ds ++ after, loc.after (ch '.')⟩ := rfl
    unfold eatPoint
    rw [next, eatWhile_run digits.2 stop]
    rfl

theorem no_pointAhead (other : after.headD 0 ≠ ch '.') : pointAhead ⟨after, loc⟩ = false := by
  simp only [pointAhead, cur, Bool.and_eq_false_iff, beq_eq_false_iff_ne]
  exact Or.inl other

theorem no_subAhead (upper : after.headD 0 ≠ ch 'S')
    (lower : after.headD 0 ≠ ch 's') : subAhead ⟨after, loc⟩ = false := by
  simp only [subAhead, cur, Bool.and_eq_false_iff, Bool.or_eq_false_iff, beq_eq_false_iff_ne]
  exact Or.inl (Or.inl ⟨upper, lower⟩)

theorem exponent_head (exponent : Exponent ex text) (ends : EndsScale (after.headD 0)) :
    EndsScale ((text ++ after).headD 0) ∨ (text ++ after).headD 0 = ch 'E' := by
  rcases exponent with ⟨-, rfl⟩ | ⟨m, sign, ds, -, -, -, -, rfl⟩
  · exact Or.inl ends
  · exact Or.inr rfl

theorem lexOne_number (starts : isDigit (bs.headD 0) = true ∨ pointAhead ⟨bs, loc⟩ = true) :
    lexOne ⟨bs, loc⟩ = (some (lexNumber ⟨bs, loc⟩).1, (lexNumber ⟨bs, loc⟩).2) := by
  have noLetter : ∀ c, isDigit c = true → pliIsLetter c = false := forall_byte (by decide +kernel)
  have first : pliIsLetter (cur ⟨bs, loc⟩) = false := by
    rcases starts with digit | point
    · exact noLetter _ digit
    · simp only [pointAhead, Bool.and_eq_true, beq_iff_eq] at point
      rw [point.1]
      decide
  unfold lexOne
  rw [if_neg (by simp [first]), if_pos (by simpa [cur] using starts)]

theorem number_lexes {int frac : List Byte} {binary imaginary : Bool} (loc : Loc)
    (digits : ∀ c ∈ int, isDigit c = true) (point : frac = [] ∨ Point frac)
    (some_digit : int ≠ [] ∨ frac ≠ []) (exponent : Exponent ex text)
    (ends : Suffix suffix binary imaginary) :
    Lexes { Token.fresh .number loc with
        text := int ++ frac ++ text, isFloat := !frac.isEmpty || !text.isEmpty
        hasExp := !text.isEmpty, binaryRadix := binary, imaginary := imaginary }
      (int ++ frac ++ text ++ scaleSuffix binary imaginary) := by
  intro place rest calm
  have head := exponent_head exponent (scaleSuffix_head calm binary imaginary)
  have stops : isDigit ((text ++ (scaleSuffix binary imaginary ++ rest)).headD 0) = false ∧
      (text ++ (scaleSuffix binary imaginary ++ rest)).headD 0 ≠ ch '.' ∧
      (text ++ (scaleSuffix binary imaginary ++ rest)).headD 0 ≠ ch 'S' ∧
      (text ++ (scaleSuffix binary imaginary ++ rest)).headD 0 ≠ ch 's' := by
    rcases head with (h | h | h | h) | h <;> rw [h] <;> decide
  obtain ⟨noDigit, noPoint, noUpper, noLower⟩ := stops
  rcases point with rfl | point
  · have bytes : int ++ [] ++ text ++ scaleSuffix binary imaginary ++ rest =
        int ++ (text ++ (scaleSuffix binary imaginary ++ rest)) := by simp
    have nonempty : int ≠ [] := some_digit.resolve_right (by simp)
    obtain ⟨d, tail, shape⟩ := List.exists_cons_of_ne_nil nonempty
    rw [bytes, lexOne_number (Or.inl (by simpa [shape] using digits d (by simp [shape])))]
    unfold lexNumber
    rw [eatWhile_run digits noDigit]
    dsimp only
    rw [no_subAhead noUpper noLower, no_pointAhead noPoint,
      lexScale_run _ rfl rfl exponent ends calm]
    simp [Token.fresh]
  · have bytes : int ++ frac ++ text ++ scaleSuffix binary imaginary ++ rest =
        int ++ (frac ++ (text ++ (scaleSuffix binary imaginary ++ rest))) := by simp
    obtain ⟨ahead, eaten⟩ := eatPoint_run point noDigit (place.advance int)
    have dot : (frac ++ (text ++ (scaleSuffix binary imaginary ++ rest))).headD 0 = ch '.' := by
      obtain ⟨ds, rfl, -⟩ := point
      rfl
    have full : frac.isEmpty = false := by
      obtain ⟨ds, rfl, -⟩ := point
      rfl
    have starts : isDigit ((int ++ (frac ++ (text ++ (scaleSuffix binary imaginary ++
        rest)))).headD 0) = true ∨ pointAhead ⟨int ++ (frac ++ (text ++
          (scaleSuffix binary imaginary ++ rest))), place⟩ = true := by
      cases int with
      | nil => exact Or.inr ahead
      | cons d tail => exact Or.inl (digits d (by simp))
    rw [bytes, lexOne_number starts]
    unfold lexNumber
    rw [eatWhile_run digits (by rw [dot]; decide)]
    dsimp only
    rw [no_subAhead (by rw [dot]; decide) (by rw [dot]; decide), ahead, eaten]
    dsimp only
    rw [no_pointAhead noPoint, lexScale_run _ rfl rfl exponent ends calm]
    simp [Token.fresh, full]

theorem sterling_lexes {int shillings pence part : List Byte}
    (digits : ∀ c ∈ int, isDigit c = true) (second : Point shillings) (third : Point pence)
    (fourth : part = [] ∨ Point part) :
    Lexes { Token.fresh .number loc with
        text := int ++ shillings ++ pence ++ part, sterling := true }
      (int ++ shillings ++ pence ++ part ++ [0xC2, 0xA3]) := by
  intro place rest calm
  have dot : ∀ {point : List Byte} (after : List Byte), Point point →
      (point ++ after).headD 0 = ch '.' ∧ isDigit ((point ++ after).headD 0) = false := by
    rintro point after ⟨ds, rfl, -⟩
    exact ⟨rfl, by simp; decide⟩
  have pound : isDigit 0xC2 = false ∧ (0xC2 : Byte) ≠ ch '.' := by decide
  obtain ⟨pound, noDot⟩ := pound
  have bytes : int ++ shillings ++ pence ++ part ++ [0xC2, 0xA3] ++ rest =
      int ++ (shillings ++ (pence ++ (part ++ 0xC2 :: 0xA3 :: rest))) := by simp
  have stop : isDigit ((part ++ 0xC2 :: 0xA3 :: rest).headD 0) = false := by
    rcases fourth with rfl | fourth
    · exact pound
    · exact (dot _ fourth).2
  have s2 := eatPoint_run second (dot (part ++ 0xC2 :: 0xA3 :: rest) third).2 (place.advance int)
  have s3 := eatPoint_run third stop ((place.advance int).advance shillings)
  have starts : isDigit ((int ++ (shillings ++ (pence ++ (part ++ 0xC2 :: 0xA3 :: rest)))).headD 0)
      = true ∨ pointAhead ⟨int ++ (shillings ++ (pence ++ (part ++ 0xC2 :: 0xA3 :: rest))), place⟩
        = true := by
    cases int with
    | nil => exact Or.inr s2.1
    | cons d tail => exact Or.inl (digits d (by simp))
  have first := dot (pence ++ (part ++ 0xC2 :: 0xA3 :: rest)) second
  rw [bytes, lexOne_number starts]
  unfold lexNumber
  rw [eatWhile_run digits first.2]
  dsimp only
  rw [no_subAhead (by rw [first.1]; decide) (by rw [first.1]; decide), s2.1, s2.2]
  dsimp only
  rw [s3.1]
  simp only [Bool.false_eq_true, if_false, if_true]
  unfold lexSterling
  rw [s3.2]
  dsimp only
  rcases fourth with rfl | fourth
  · have none : pointAhead ⟨[] ++ 0xC2 :: 0xA3 :: rest,
        ((place.advance int).advance shillings).advance pence⟩ = false := no_pointAhead noDot
    rw [none]
    simp [poundAhead, cur, peek, bump, Token.fresh]
  · have s4 := eatPoint_run fourth
      (show isDigit ((0xC2 :: 0xA3 :: rest : List Byte).headD 0) = false from pound)
      (((place.advance int).advance shillings).advance pence)
    rw [s4.1, s4.2]
    simp [poundAhead, cur, peek, bump, Token.fresh]

theorem isub_lexes {ds : List Byte} (digits : Digits ds) :
    Lexes { Token.fresh .isub loc with text := ds } (ds ++ [ch 'S', ch 'U', ch 'B']) := by
  intro place rest _
  have bytes : ds ++ [ch 'S', ch 'U', ch 'B'] ++ rest =
      ds ++ (ch 'S' :: ch 'U' :: ch 'B' :: rest) := by simp
  have stop : isDigit ((ch 'S' :: ch 'U' :: ch 'B' :: rest).headD 0) = false := by
    show isDigit (ch 'S') = false
    decide
  have ahead : subAhead ⟨ch 'S' :: ch 'U' :: ch 'B' :: rest, place.advance ds⟩ = true := rfl
  obtain ⟨d, tail, shape⟩ := List.exists_cons_of_ne_nil digits.1
  rw [bytes, lexOne_number (Or.inl (by simpa [shape] using digits.2 d (by simp [shape])))]
  unfold lexNumber
  rw [eatWhile_run digits.2 stop]
  dsimp only
  rw [ahead]
  simp [bump, Token.fresh]

theorem eatString_run {value : List Byte} (oneLine : newline ∉ value)
    (noZero : (0 : Byte) ∉ value) (ends : after.headD 0 ≠ ch '\'') (loc : Loc) :
    eatString (quoted value ++ ch '\'' :: after) loc =
      (true, value, ⟨after, loc.advance (quoted value ++ [ch '\''])⟩) := by
  have quote : ¬ (ch '\'' = 0 ∨ ch '\'' = newline) := by decide
  induction value generalizing loc with
  | nil =>
    show eatString (ch '\'' :: after) loc = _
    unfold eatString
    rw [if_neg quote, if_pos rfl]
    cases after with
    | nil => rfl
    | cons c cs =>
      have other : c ≠ ch '\'' := ends
      dsimp only
      rw [if_neg other]
      rfl
  | cons c cs ih =>
    simp only [List.mem_cons, not_or] at oneLine noZero
    by_cases same : c = ch '\''
    · subst same
      have shape : quoted (ch '\'' :: cs) = ch '\'' :: ch '\'' :: quoted cs := by simp [quoted]
      rw [shape, List.cons_append, List.cons_append]
      unfold eatString
      rw [if_neg quote, if_pos rfl]
      dsimp only
      rw [if_pos rfl, ih oneLine.2 noZero.2]
      simp
    · have shape : quoted (c :: cs) = c :: quoted cs := by simp [quoted, same]
      have goes : ¬ (c = 0 ∨ c = newline) := by
        rintro (h | h)
        · exact noZero.1 h.symm
        · exact oneLine.1 h.symm
      rw [shape, List.cons_append]
      unfold eatString
      rw [if_neg goes, if_neg same, ih oneLine.2 noZero.2]
      simp

def stringSuffix : Tok → List Byte
  | .bitLit => [ch 'B']
  | .hexLit => [ch 'X']
  | _ => []

theorem string_lexes {value : List Byte} {kind : Tok} (loc : Loc)
    (oneLine : newline ∉ value) (ends : StringSuffix suffix kind) (noZero : (0 : Byte) ∉ value) :
    Lexes { Token.fresh kind loc with sval := value }
      (ch '\'' :: quoted value ++ ch '\'' :: stringSuffix kind) := by
  intro place rest calm
  have bytes : ch '\'' :: quoted value ++ ch '\'' :: stringSuffix kind ++ rest =
      ch '\'' :: (quoted value ++ ch '\'' :: (stringSuffix kind ++ rest)) := by simp
  have head : (stringSuffix kind ++ rest).headD 0 ≠ ch '\'' := by
    rcases ends with ⟨-, rfl⟩ | ⟨-, rfl⟩ | ⟨-, rfl⟩
    · rcases calm_head calm with h | h <;> simp only [stringSuffix, List.nil_append, h] <;> decide
    · show ch 'B' ≠ ch '\''
      decide
    · show ch 'X' ≠ ch '\''
      decide
  have run := eatString_run oneLine noZero head (place.after (ch '\''))
  have here : cur ⟨ch '\'' :: (quoted value ++ ch '\'' :: (stringSuffix kind ++ rest)), place⟩ =
      ch '\'' := rfl
  have next : bump ⟨ch '\'' :: (quoted value ++ ch '\'' :: (stringSuffix kind ++ rest)), place⟩ =
      ⟨quoted value ++ ch '\'' :: (stringSuffix kind ++ rest), place.after (ch '\'')⟩ := rfl
  have turn : lexOne ⟨ch '\'' :: (quoted value ++ ch '\'' :: (stringSuffix kind ++ rest)), place⟩ =
      (some (lexString ⟨ch '\'' :: (quoted value ++ ch '\'' :: (stringSuffix kind ++ rest)),
        place⟩).1, (lexString ⟨ch '\'' :: (quoted value ++ ch '\'' :: (stringSuffix kind ++ rest)),
        place⟩).2) := by
    unfold lexOne
    rw [here]
    rw [if_neg (by decide), if_neg, if_pos rfl]
    rw [no_pointAhead (by show ch '\'' ≠ ch '.'; decide)]
    decide
  rw [bytes, turn]
  unfold lexString
  rw [next]
  dsimp only
  rw [run]
  dsimp only
  rcases ends with ⟨-, rfl⟩ | ⟨-, rfl⟩ | ⟨-, rfl⟩
  · have other : ∀ c : Char, c ∈ ['B', 'b', 'X', 'x'] → rest.headD 0 ≠ ch c := by
      intro c member
      refine calm_other calm ?_
      simp only [List.mem_cons, List.not_mem_nil, or_false] at member ⊢
      rcases member with rfl | rfl | rfl | rfl <;> simp
    have noBit : ¬ (rest.headD 0 = ch 'B' ∨ rest.headD 0 = ch 'b') :=
      fun either => either.elim (other 'B' (by simp)) (other 'b' (by simp))
    have noHex : ¬ (rest.headD 0 = ch 'X' ∨ rest.headD 0 = ch 'x') :=
      fun either => either.elim (other 'X' (by simp)) (other 'x' (by simp))
    simp only [stringSuffix, List.nil_append, cur]
    rw [if_neg noBit, if_neg noHex]
    simp [Token.fresh]
  · have suffixed : ∀ loc : Loc, cur ⟨stringSuffix .bitLit ++ rest, loc⟩ = ch 'B' := fun _ => rfl
    rw [if_pos (Or.inl (suffixed _))]
    simp [Token.fresh, stringSuffix, bump]
  · have suffixed : ∀ loc : Loc, cur ⟨stringSuffix .hexLit ++ rest, loc⟩ = ch 'X' := fun _ => rfl
    rw [if_neg (by rw [suffixed]; decide), if_pos (Or.inl (suffixed _))]
    simp [Token.fresh, stringSuffix, bump]

variable {t : Token}

theorem spelled_lexes (spelled : Spelled t bs)
    (noZero : (0 : Byte) ∉ t.sval) : Lexes t (spelling t) := by
  cases spelled with
  | word letter rest => exact word_lexes letter rest
  | isub digits word => exact isub_lexes digits
  | @number int frac ex text suffix binary imaginary loc digits point some_digit exponent ends =>
    have lexes := number_lexes loc digits point some_digit exponent ends
    simpa [spelling, numberSuffix, scaleSuffix, Token.fresh, List.append_assoc] using lexes
  | sterling digits second third fourth =>
    exact sterling_lexes digits second third fourth
  | @string value suffix kind loc oneLine ends =>
    have lexes := string_lexes loc oneLine ends noZero
    rcases ends with ⟨-, rfl⟩ | ⟨-, rfl⟩ | ⟨-, rfl⟩ <;> exact lexes
  | symbol known => exact symbol_lexes known

theorem spelling_starts (spelled : Spelled t bs) :
    ∃ c cs, spelling t = c :: cs ∧ c ≠ 0 ∧ isBlank c = false ∧ (c = ch '/' → cs = []) := by
  have letters : ∀ c, pliIsLetter c = true →
      toUpper c ≠ 0 ∧ isBlank (toUpper c) = false ∧ toUpper c ≠ ch '/' :=
    forall_byte (by decide +kernel)
  have digit_starts : ∀ c, isDigit c = true → c ≠ 0 ∧ isBlank c = false ∧ c ≠ ch '/' :=
    forall_byte (by decide +kernel)
  have point_starts : ch '.' ≠ 0 ∧ isBlank (ch '.') = false ∧ ch '.' ≠ ch '/' := by decide
  have quote_starts : ch '\'' ≠ 0 ∧ isBlank (ch '\'') = false ∧ ch '\'' ≠ ch '/' := by decide
  have of_starts : ∀ c cs, c ≠ 0 ∧ isBlank c = false ∧ c ≠ ch '/' → ∃ d ds,
      c :: cs = d :: ds ∧ d ≠ 0 ∧ isBlank d = false ∧ (d = ch '/' → ds = []) := by
    rintro c cs ⟨nonzero, noBlank, noSlash⟩
    exact ⟨c, cs, rfl, nonzero, noBlank, fun slash => absurd slash noSlash⟩
  cases spelled with
  | word letter rest => exact of_starts _ _ (letters _ letter)
  | isub digits word =>
    obtain ⟨d, tail, shape⟩ := List.exists_cons_of_ne_nil digits.1
    subst shape
    exact of_starts _ _ (digit_starts d (digits.2 d (by simp)))
  | @number int frac ex text suffix binary imaginary loc digits point some_digit exponent ends =>
    cases int with
    | cons d tail => exact of_starts _ _ (digit_starts d (digits d (by simp)))
    | nil =>
      rcases point with rfl | ⟨ds, rfl, -⟩
      · simp at some_digit
      · exact of_starts _ _ point_starts
  | @sterling int shillings pence part loc digits second third fourth =>
    cases int with
    | cons d tail => exact of_starts _ _ (digit_starts d (digits d (by simp)))
    | nil =>
      obtain ⟨ds, rfl, -⟩ := second
      exact of_starts _ _ point_starts
  | string oneLine ends =>
    rcases ends with ⟨-, rfl⟩ | ⟨-, rfl⟩ | ⟨-, rfl⟩ <;> exact of_starts _ _ quote_starts
  | @symbol kind bs loc known =>
    have symbolKind := symbol_kinds _ known
    cases kind <;> simp only [ne_eq, not_true_eq_false, false_and, and_false] at symbolKind <;>
      exact ⟨_, _, rfl, by decide, by decide, by decide⟩

theorem skip_unblank (stop : isBlank (bs.headD 0) = false)
    (block : ¬ (cur ⟨bs, loc⟩ = ch '/' ∧ peek ⟨bs, loc⟩ 1 = ch '*'))
    (line : ¬ (cur ⟨bs, loc⟩ = ch '/' ∧ peek ⟨bs, loc⟩ 1 = ch '/')) :
    skipSpaceAndComments ⟨bs, loc⟩ = (⟨bs, loc⟩, []) := by
  have run : eatWhile isBlank ⟨bs, loc⟩ = ([], ⟨bs, loc⟩) :=
    eatWhile_run (fun c none => absurd none List.not_mem_nil) stop loc
  unfold skipSpaceAndComments
  rw [run]
  dsimp only
  rw [dif_neg block, dif_neg line]

theorem skip_blank (bs : List Byte) (loc : Loc) :
    skipSpaceAndComments ⟨ch ' ' :: bs, loc⟩ = skipSpaceAndComments ⟨bs, loc.after (ch ' ')⟩ := by
  have run : (eatWhile isBlank ⟨ch ' ' :: bs, loc⟩).2 =
      (eatWhile isBlank ⟨bs, loc.after (ch ' ')⟩).2 := rfl
  rw [skipSpaceAndComments.eq_def ⟨ch ' ' :: bs, loc⟩,
    skipSpaceAndComments.eq_def ⟨bs, loc.after (ch ' ')⟩, run]

theorem lexLoop_blank (bs : List Byte) (loc : Loc) :
    lexLoop ⟨ch ' ' :: bs, loc⟩ = lexLoop ⟨bs, loc.after (ch ' ')⟩ := by
  rw [lexLoop.eq_def ⟨ch ' ' :: bs, loc⟩, lexLoop.eq_def ⟨bs, loc.after (ch ' ')⟩, skip_blank]

theorem lexLoop_end (loc : Loc) : lexLoop ⟨[], loc⟩ = ([Token.fresh .eof loc], []) := by
  have noSlash : (0 : Byte) ≠ ch '/' := by decide
  have gap : skipSpaceAndComments ⟨[], loc⟩ = (⟨[], loc⟩, []) :=
    skip_unblank (by decide) (fun opens => noSlash opens.1) (fun opens => noSlash opens.1)
  rw [lexLoop, gap]
  rfl

theorem lexLoop_token (spelled : Spelled t bs)
    (noZero : (0 : Byte) ∉ t.sval) (calm : Calm rest) (loc : Loc) :
    lexLoop ⟨spelling t ++ rest, loc⟩ =
      ({ t with loc := loc } :: (lexLoop ⟨rest, loc.advance (spelling t)⟩).1,
        (lexLoop ⟨rest, loc.advance (spelling t)⟩).2) := by
  have lexes := spelled_lexes spelled noZero loc rest calm
  obtain ⟨c, cs, shape, nonzero, noBlank, alone⟩ := spelling_starts spelled
  have second : ∀ d : Char, d ∈ ['*', '/'] → cs = [] → (cs ++ rest).headD 0 ≠ ch d := by
    intro d member single
    subst single
    exact calm_other calm (List.mem_append_right ['B', 'b', 'I', 'i', 'X', 'x'] member)
  have gap : skipSpaceAndComments ⟨spelling t ++ rest, loc⟩ = (⟨spelling t ++ rest, loc⟩, []) := by
    rw [shape]
    refine skip_unblank noBlank ?_ ?_
    · rintro ⟨slash, star⟩
      exact second '*' (by simp) (alone slash) star
    · rintro ⟨slash, again⟩
      exact second '/' (by simp) (alone slash) again
  have more : ¬ cur ⟨spelling t ++ rest, loc⟩ = 0 := by
    rw [shape]
    exact nonzero
  rw [lexLoop, gap]
  dsimp only
  rw [dif_neg more, lexes]
  rfl

theorem lexLoop_spaced (toks : List Token)
    (all : ∀ t ∈ toks, (∃ bs, Spelled t bs) ∧ (0 : Byte) ∉ t.sval) (loc : Loc) :
    ((lexLoop ⟨spaced toks, loc⟩).1.map Token.bare =
      toks.map Token.bare ++ [Token.fresh .eof ⟨0, 0⟩]) ∧
      (lexLoop ⟨spaced toks, loc⟩).2 = [] := by
  induction toks generalizing loc with
  | nil =>
    show (lexLoop ⟨[], loc⟩).1.map Token.bare = _ ∧ (lexLoop ⟨[], loc⟩).2 = []
    rw [lexLoop_end]
    exact ⟨rfl, rfl⟩
  | cons t ts ih =>
    obtain ⟨⟨bs, spelled⟩, noZero⟩ := all t (by simp)
    cases ts with
    | nil =>
      have turn := lexLoop_token spelled noZero (Or.inl rfl) loc
      rw [List.append_nil, lexLoop_end] at turn
      show (lexLoop ⟨spelling t, loc⟩).1.map Token.bare = _ ∧ (lexLoop ⟨spelling t, loc⟩).2 = []
      rw [turn]
      exact ⟨rfl, rfl⟩
    | cons u us =>
      have turn := lexLoop_token spelled noZero
        (Or.inr ⟨_, rfl⟩ : Calm (ch ' ' :: spaced (u :: us))) loc
      rw [lexLoop_blank] at turn
      obtain ⟨same, quiet⟩ := ih (fun v member => all v (by simp [member]))
        ((loc.advance (spelling t)).after (ch ' '))
      show (lexLoop ⟨spelling t ++ ch ' ' :: spaced (u :: us), loc⟩).1.map Token.bare = _ ∧
        (lexLoop ⟨spelling t ++ ch ' ' :: spaced (u :: us), loc⟩).2 = []
      rw [turn]
      dsimp only
      rw [List.map_cons, same]
      exact ⟨rfl, quiet⟩

theorem spelled_kind (spelled : Spelled t bs) : t.kind ≠ .eof := by
  cases spelled with
  | string oneLine ends => rcases ends with ⟨-, rfl⟩ | ⟨-, rfl⟩ | ⟨-, rfl⟩ <;> simp [Token.fresh]
  | symbol known => exact (symbol_kinds _ known).1
  | _ => simp [Token.fresh]

theorem value_noZero (spelled : Spelled t bs) (none : (0 : Byte) ∉ bs) : (0 : Byte) ∉ t.sval := by
  cases spelled with
  | @string value suffix kind loc oneLine ends =>
    intro member
    have inside : (0 : Byte) ∈ quoted value := by
      refine List.mem_flatMap.mpr ⟨0, member, ?_⟩
      split <;> simp
    exact none (by simp [inside])
  | _ => simp [Token.fresh]

theorem cover_tokens {src : List Byte} {toks : List Token}
    (cover : Cover loc src toks) (none : (0 : Byte) ∉ src) :
    ∃ body place, toks = body ++ [Token.fresh .eof place] ∧
      ∀ t ∈ body, (∃ bs, Spelled t bs) ∧ (0 : Byte) ∉ t.sval := by
  induction cover with
  | done loc => exact ⟨[], loc, rfl, by simp⟩
  | blank all tail ih | comment first tail ih | line oneLine ends tail ih =>
    exact ih fun member => none (List.mem_append_right _ member)
  | @token loc t bs rest toks spelled here tail ih =>
    obtain ⟨body, place, shape, good⟩ := ih fun member => none (List.mem_append_right _ member)
    refine ⟨t :: body, place, by rw [shape, List.cons_append], fun u member => ?_⟩
    rcases List.mem_cons.mp member with rfl | later
    · exact ⟨⟨bs, spelled⟩, value_noZero spelled fun inside =>
        none (List.mem_append_left _ inside)⟩
    · exact good u later

theorem print_round_trip {src : List Byte} {toks : List Token}
    (cover : Cover loc src toks) (none : (0 : Byte) ∉ src) :
    (lexAll (printTokens toks)).2 = [] ∧
      (lexAll (printTokens toks)).1.map Token.bare = toks.map Token.bare := by
  obtain ⟨body, place, rfl, good⟩ := cover_tokens cover none
  have kept : ∀ t ∈ body, (t.kind != .eof) = true := by
    intro t member
    obtain ⟨⟨bs, spelled⟩, -⟩ := good t member
    simpa using spelled_kind spelled
  have printed : printTokens (body ++ [Token.fresh .eof place]) = spaced body := by
    have last : ([Token.fresh .eof place].filter fun t => t.kind != .eof) = [] := rfl
    rw [printTokens, List.filter_append, last, List.append_nil, List.filter_eq_self.mpr kept]
  obtain ⟨same, quiet⟩ := lexLoop_spaced body good ⟨1, 1⟩
  rw [printed]
  refine ⟨quiet, same.trans ?_⟩
  rw [List.map_append]
  rfl

/-- A source the lexer reports no error for is covered by its tokens, comments and
    blanks, and its tokens print to a source with the same tokens, exactly when it
    has no zero byte. -/
theorem reads_whole_source_iff (src : List Byte) (quiet : (lexAll src).2 = []) :
    (Cover ⟨1, 1⟩ src (lexAll src).1 ∧ (lexAll (printTokens (lexAll src).1)).2 = [] ∧
      (lexAll (printTokens (lexAll src).1)).1.map Token.bare = (lexAll src).1.map Token.bare) ↔
      (0 : Byte) ∉ src := by
  constructor
  · exact fun whole => (cover_iff src quiet).mp whole.1
  · intro none
    have cover := (cover_iff src quiet).mpr none
    exact ⟨cover, print_round_trip cover none⟩

def bytesOf (text : String) : List Byte := text.toList.map ch

def statement : List Byte := bytesOf "X=1.5E3B/*c*/||'it''s'X;"

theorem reads_whole_statement :
    (Cover ⟨1, 1⟩ statement (lexAll statement).1 ∧
      (lexAll (printTokens (lexAll statement).1)).2 = [] ∧
      (lexAll (printTokens (lexAll statement).1)).1.map Token.bare =
        (lexAll statement).1.map Token.bare) ↔ (0 : Byte) ∉ statement :=
  reads_whole_source_iff statement (by decide +kernel)

/-- STOP and END with a zero byte between them: the second is not read, and no error
    is reported. -/
def cutSource : List Byte := bytesOf "STOP;" ++ 0 :: bytesOf "END;"

theorem zero_byte_ends_source :
    (lexAll cutSource).2 = [] ∧ (lexAll cutSource).1 = (lexAll (bytesOf "STOP;")).1 ∧
      ¬ Cover ⟨1, 1⟩ cutSource (lexAll cutSource).1 := by
  have quiet : (lexAll cutSource).2 = [] := by decide +kernel
  refine ⟨quiet, by decide +kernel, fun cover => ?_⟩
  exact (cover_iff _ quiet).mp cover (by decide)

end PliLexer
