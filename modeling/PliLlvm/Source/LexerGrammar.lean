import PliLlvm.Source.Lexer

/- What bytes spell a token, stated without the lexer's loops, and that the bytes
   one turn of the lexer consumes spell the token it returns. -/
namespace PliLexer
open Scan Scan.Cursor

def Digits (ds : List Byte) : Prop := ds ≠ [] ∧ ∀ c ∈ ds, isDigit c = true

def Point (bs : List Byte) : Prop := ∃ ds, bs = ch '.' :: ds ∧ Digits ds

def Exponent (bs text : List Byte) : Prop :=
  (bs = [] ∧ text = []) ∨ ∃ m sign ds, (m = ch 'E' ∨ m = ch 'e') ∧
    (sign = [] ∨ sign = [ch '+'] ∨ sign = [ch '-']) ∧ Digits ds ∧
    bs = m :: sign ++ ds ∧ text = ch 'E' :: sign ++ ds

def Suffix (bs : List Byte) (binary imaginary : Bool) : Prop :=
  (bs = [] ∧ binary = false ∧ imaginary = false) ∨
  ((bs = [ch 'B'] ∨ bs = [ch 'b']) ∧ binary = true ∧ imaginary = false) ∨
  ((bs = [ch 'I'] ∨ bs = [ch 'i']) ∧ binary = false ∧ imaginary = true)

def quoted (value : List Byte) : List Byte :=
  value.flatMap fun c => if c = ch '\'' then [c, c] else [c]

def StringSuffix (bs : List Byte) (kind : Tok) : Prop :=
  (bs = [] ∧ kind = .charLit) ∨ ((bs = [ch 'B'] ∨ bs = [ch 'b']) ∧ kind = .bitLit) ∨
  ((bs = [ch 'X'] ∨ bs = [ch 'x']) ∧ kind = .hexLit)

def notSigns : List (List Byte) := [[ch '^'], [ch '~'], [0xC2, 0xAC]]

def symbols : List (Tok × List Byte) :=
  [(.semi, [ch ';']), (.semi, [ch ',', ch '.']), (.colon, [ch ':']), (.colon, [ch '.', ch '.']),
    (.comma, [ch ',']), (.lParen, [ch '(']), (.rParen, [ch ')']), (.dot, [ch '.']),
    (.eq, [ch '=']), (.plus, [ch '+']), (.minus, [ch '-']), (.star, [ch '*']),
    (.slash, [ch '/']), (.power, [ch '*', ch '*']), (.concat, [ch '|', ch '|']),
    (.concat, [ch '!', ch '!']), (.amp, [ch '&']), (.bar, [ch '|']), (.lt, [ch '<']),
    (.le, [ch '<', ch '=']), (.gt, [ch '>']), (.ge, [ch '>', ch '=']),
    (.arrow, [ch '-', ch '>']), (.percent, [ch '%'])] ++
  notSigns.flatMap fun sign =>
    [(.not, sign), (.ne, sign ++ [ch '=']), (.ngt, sign ++ [ch '>']), (.nlt, sign ++ [ch '<'])]

inductive Spelled : Token → List Byte → Prop where
  | word {c : Byte} {cs : List Byte} {loc : Loc} (letter : pliIsLetter c = true)
      (rest : ∀ d ∈ cs, pliIsAlphameric d = true) :
      Spelled { Token.fresh .word loc with text := (c :: cs).map toUpper } (c :: cs)
  | isub {ds sub : List Byte} {loc : Loc} (digits : Digits ds)
      (word : sub.map toUpper = [ch 'S', ch 'U', ch 'B']) :
      Spelled { Token.fresh .isub loc with text := ds } (ds ++ sub)
  | number {int frac ex text suffix : List Byte} {binary imaginary : Bool} {loc : Loc}
      (digits : ∀ c ∈ int, isDigit c = true) (point : frac = [] ∨ Point frac)
      (some_digit : int ≠ [] ∨ frac ≠ []) (exponent : Exponent ex text)
      (ends : Suffix suffix binary imaginary) :
      Spelled { Token.fresh .number loc with
        text := int ++ frac ++ text, isFloat := !frac.isEmpty || !text.isEmpty
        hasExp := !text.isEmpty, binaryRadix := binary, imaginary := imaginary }
        (int ++ frac ++ ex ++ suffix)
  | sterling {int shillings pence part : List Byte} {loc : Loc}
      (digits : ∀ c ∈ int, isDigit c = true) (second : Point shillings) (third : Point pence)
      (fourth : part = [] ∨ Point part) :
      Spelled { Token.fresh .number loc with
        text := int ++ shillings ++ pence ++ part, sterling := true }
        (int ++ shillings ++ pence ++ part ++ [0xC2, 0xA3])
  | string {value suffix : List Byte} {kind : Tok} {loc : Loc} (oneLine : newline ∉ value)
      (ends : StringSuffix suffix kind) :
      Spelled { Token.fresh kind loc with sval := value }
        (ch '\'' :: quoted value ++ ch '\'' :: suffix)
  | symbol {kind : Tok} {bs : List Byte} {loc : Loc} (known : (kind, bs) ∈ symbols) :
      Spelled (Token.fresh kind loc) bs

variable {c : Byte}

theorem letter_alphameric (letter : pliIsLetter c = true) : pliIsAlphameric c = true := by
  simp [pliIsAlphameric, letter]

theorem digit_nonzero (digit : isDigit c = true) : c ≠ 0 := by
  rintro rfl
  exact absurd digit (by decide)

theorem alphameric_nonzero (alphameric : pliIsAlphameric c = true) : c ≠ 0 := by
  rintro rfl
  exact absurd alphameric (by decide)

theorem digits_noZero {ds : List Byte} (digits : ∀ c ∈ ds, isDigit c = true) :
    (0 : Byte) ∉ ds := by
  intro member
  exact digit_nonzero (digits 0 member) rfl

variable {bs : List Byte}

theorem point_noZero (point : bs = [] ∨ Point bs) : (0 : Byte) ∉ bs := by
  rcases point with rfl | ⟨ds, rfl, digits⟩
  · simp
  · have none := digits_noZero digits.2
    have other : (0 : Byte) ≠ ch '.' := by decide
    simp [none, other]

theorem exponent_noZero {text : List Byte} (exponent : Exponent bs text) : (0 : Byte) ∉ bs := by
  rcases exponent with ⟨rfl, -⟩ | ⟨m, sign, ds, marker, signed, digits, rfl, -⟩
  · simp
  · have none := digits_noZero digits.2
    have notMarker : (0 : Byte) ≠ m := by rcases marker with rfl | rfl <;> decide
    have notSign : (0 : Byte) ∉ sign := by rcases signed with rfl | rfl | rfl <;> decide
    simp [none, notMarker, notSign]

theorem quoted_noZero {value : List Byte} (none : (0 : Byte) ∉ value) :
    (0 : Byte) ∉ quoted value := by
  intro member
  obtain ⟨c, inside, here⟩ := List.mem_flatMap.mp member
  have same : (0 : Byte) = c := by
    split at here <;> simpa using here
  exact none (same ▸ inside)

variable {t : Token}

theorem spelled_noZero (spelled : Spelled t bs) (none : (0 : Byte) ∉ t.sval) : (0 : Byte) ∉ bs := by
  cases spelled with
  | word letter rest =>
    intro member
    rcases List.mem_cons.mp member with same | later
    · exact alphameric_nonzero (letter_alphameric letter) same.symm
    · exact alphameric_nonzero (rest _ later) rfl
  | @isub ds sub loc digits word =>
    intro member
    rcases List.mem_append.mp member with inside | inside
    · exact digits_noZero digits.2 inside
    · have upper : toUpper 0 ∈ sub.map toUpper := List.mem_map_of_mem inside
      rw [word] at upper
      exact absurd upper (by decide)
  | @number int frac ex text suffix binary imaginary loc digits point _ exponent ends =>
    have noSuffix : (0 : Byte) ∉ suffix := by
      rcases ends with ⟨rfl, -⟩ | ⟨rfl | rfl, -⟩ | ⟨rfl | rfl, -⟩ <;> decide
    simp [digits_noZero digits, point_noZero point, exponent_noZero exponent, noSuffix]
  | sterling digits second third fourth =>
    have pound : (0 : Byte) ∉ ([0xC2, 0xA3] : List Byte) := by decide
    simp only [List.mem_append, digits_noZero digits, point_noZero (Or.inr second),
      point_noZero (Or.inr third), point_noZero fourth, pound, or_self, not_false_eq_true]
  | @string value suffix kind loc _ ends =>
    have noSuffix : (0 : Byte) ∉ suffix := by
      rcases ends with ⟨rfl, -⟩ | ⟨rfl | rfl, -⟩ | ⟨rfl | rfl, -⟩ <;> decide
    have quote : (0 : Byte) ≠ ch '\'' := by decide
    simp [quoted_noZero none, noSuffix, quote]
  | symbol known =>
    have all : ∀ entry ∈ symbols, (0 : Byte) ∉ entry.2 := by decide
    exact all _ known

theorem spelled_nonempty (spelled : Spelled t bs) : bs ≠ [] := by
  cases spelled with
  | word letter rest => simp
  | isub digits word => simp [digits.1]
  | number digits point some_digit exponent ends =>
    rcases some_digit with here | here <;> simp [here]
  | sterling digits second third fourth | string oneLine ends => simp
  | symbol known =>
    have all : ∀ entry ∈ symbols, entry.2 ≠ [] := by decide
    exact all _ known

def Lexed (s : Cursor) (r : Token × Cursor × List Diag) : Prop :=
  ∃ bs, bs ≠ [] ∧ s.Reads bs r.2.1 ∧
    (r.2.2 = [] → Spelled r.1 bs ∧ r.1.loc = s.loc ∧ (0 : Byte) ∉ r.1.sval)

variable {s s' : Cursor}

theorem lexed_of_spelled (reads : s.Reads bs s')
    (spelled : Spelled t bs) (loc : t.loc = s.loc) (none : (0 : Byte) ∉ t.sval) :
    Lexed s (t, s', []) :=
  ⟨bs, spelled_nonempty spelled, reads, fun _ => ⟨spelled, loc, none⟩⟩

theorem lexWord_spec (letter : pliIsLetter s.cur = true) :
    Lexed s ((lexWord s).1, (lexWord s).2, []) := by
  have reads := reads_eatWhile pliIsAlphameric s
  have all := eatWhile_all pliIsAlphameric s
  have starts : ∃ cs, (s.eatWhile pliIsAlphameric).1 = s.cur :: cs := by
    have some_byte := eatWhile_some (p := pliIsAlphameric) (letter_alphameric letter) (by decide)
    cases word : (s.eatWhile pliIsAlphameric).1 with
    | nil => exact absurd word some_byte
    | cons c cs =>
      have first := reads.1
      rw [word] at first
      exact ⟨cs, by simp [cur, first]⟩
  obtain ⟨cs, word⟩ := starts
  rw [word] at reads all
  refine lexed_of_spelled reads ?_ rfl (by simp [lexWord, Token.fresh])
  unfold lexWord
  dsimp only
  rw [word]
  exact Spelled.word letter fun d member => all d (by simp [member])

theorem eatPoint_spec (ahead : pointAhead s = true) :
    s.Reads (eatPoint s).1 (eatPoint s).2 ∧ Point (eatPoint s).1 := by
  simp only [pointAhead, Bool.and_eq_true, beq_iff_eq] at ahead
  obtain ⟨point, digit⟩ := ahead
  refine ⟨reads_trans (reads_bump point (by decide)) (reads_eatWhile isDigit s.bump), _, rfl, ?_,
    eatWhile_all isDigit s.bump⟩
  exact eatWhile_some (by rw [cur_bump]; exact digit) (by decide)

theorem lexExponent_spec (s : Cursor) :
    ∃ bs, s.Reads bs (lexExponent s).2 ∧ Exponent bs (lexExponent s).1 := by
  unfold lexExponent
  split
  · rename_i marker
    have nonzero : s.cur ≠ 0 := by
      intro zero
      rcases marker with h | h <;> rw [zero] at h <;> exact absurd h (by decide)
    have first := reads_bump (s := s) rfl nonzero
    have signed : ∃ sign after, (if s.bump.cur = ch '+' ∨ s.bump.cur = ch '-'
        then ([s.bump.cur], s.bump.bump) else ([], s.bump)) = (sign, after) ∧
        s.bump.Reads sign after ∧ (sign = [] ∨ sign = [ch '+'] ∨ sign = [ch '-']) := by
      split
      · rename_i sign
        rcases sign with plus | minus
        · exact ⟨_, _, rfl, reads_bump rfl (by rw [plus]; decide), by simp [plus]⟩
        · exact ⟨_, _, rfl, reads_bump rfl (by rw [minus]; decide), by simp [minus]⟩
      · exact ⟨_, _, rfl, reads_refl _, Or.inl rfl⟩
    obtain ⟨sign, after, shape, signReads, signs⟩ := signed
    dsimp only
    rw [shape]
    split
    · rename_i digit
      have digits := reads_eatWhile isDigit after
      refine ⟨[s.cur] ++ (sign ++ (after.eatWhile isDigit).1),
        reads_trans first (reads_trans signReads digits), Or.inr
        ⟨s.cur, sign, (after.eatWhile isDigit).1, marker, signs,
          ⟨eatWhile_some digit (by decide), eatWhile_all isDigit after⟩, by simp, rfl⟩⟩
    · exact ⟨[], reads_refl _, Or.inl ⟨rfl, rfl⟩⟩
  · exact ⟨[], reads_refl _, Or.inl ⟨rfl, rfl⟩⟩

theorem lexScale_spec (t : Token) (s : Cursor) (plain : t.binaryRadix = false)
    (real : t.imaginary = false) :
    ∃ ex text suffix binary imaginary, s.Reads (ex ++ suffix) (lexScale t s).2 ∧
      Exponent ex text ∧ Suffix suffix binary imaginary ∧
      (lexScale t s).1 = { t with
        text := t.text ++ text, isFloat := t.isFloat || !text.isEmpty, hasExp := !text.isEmpty
        binaryRadix := binary, imaginary := imaginary } := by
  obtain ⟨ex, reads, exponent⟩ := lexExponent_spec s
  unfold lexScale
  dsimp only
  split
  · rename_i radix
    refine ⟨ex, _, [(lexExponent s).2.cur], true, false, reads_trans reads (reads_bump rfl ?_),
      exponent, Or.inr (Or.inl ⟨?_, rfl, rfl⟩), by simp [real]⟩
    · rcases radix with h | h <;> rw [h] <;> decide
    · rcases radix with h | h <;> simp [h]
  · split
    · rename_i unit
      refine ⟨ex, _, [(lexExponent s).2.cur], false, true, reads_trans reads (reads_bump rfl ?_),
        exponent, Or.inr (Or.inr ⟨?_, rfl, rfl⟩), by simp [plain]⟩
      · rcases unit with h | h <;> rw [h] <;> decide
      · rcases unit with h | h <;> simp [h]
    · exact ⟨ex, _, [], false, false, by simpa using reads, exponent, Or.inl ⟨rfl, rfl, rfl⟩,
        by simp [plain, real]⟩

theorem lexSterling_spec {int shillings : List Byte} {s0 : Cursor}
    (digits : ∀ c ∈ int, isDigit c = true) (second : Point shillings)
    (before : s0.Reads (int ++ shillings) s) (ahead : pointAhead s = true)
    (shape : t = { Token.fresh .number s0.loc with text := int ++ shillings, isFloat := true }) :
    Lexed s0 (lexSterling t s) := by
  obtain ⟨pence, third⟩ := eatPoint_spec ahead
  have parts : ∃ part after, (if pointAhead (eatPoint s).2 then eatPoint (eatPoint s).2
      else ([], (eatPoint s).2)) = (part, after) ∧ (eatPoint s).2.Reads part after ∧
      (part = [] ∨ Point part) := by
    split
    · rename_i more
      obtain ⟨reads, fourth⟩ := eatPoint_spec more
      exact ⟨_, _, rfl, reads, Or.inr fourth⟩
    · exact ⟨_, _, rfl, reads_refl _, Or.inl rfl⟩
  obtain ⟨part, after, cut, partReads, fourth⟩ := parts
  have all := reads_trans before (reads_trans pence partReads)
  unfold lexSterling
  dsimp only
  rw [cut]
  dsimp only
  split
  · rename_i pound
    simp only [poundAhead, Bool.and_eq_true, beq_iff_eq] at pound
    have sign := reads_two pound.1 pound.2 (by decide) (by decide)
    have spelled := @Spelled.sterling _ _ _ _ s0.loc digits second third fourth
    refine lexed_of_spelled (reads_trans all sign) ?_ (by rw [shape]; rfl)
      (by simp [shape, Token.fresh])
    rw [shape]
    simpa [List.append_assoc, Token.fresh] using spelled
  · refine ⟨_, ?_, all, fun none => by cases none⟩
    obtain ⟨ds, rfl, -⟩ := second
    simp

theorem reads_nothing (reads : s.Reads [] s') : s' = s := by
  obtain ⟨rest, loc⟩ := s
  obtain ⟨rest', loc'⟩ := s'
  obtain ⟨here, place⟩ := reads
  simp only [List.nil_append] at here
  simp only [advance_nil] at place
  rw [here, place]

theorem lexNumber_spec (starts : isDigit s.cur = true ∨ pointAhead s = true) :
    Lexed s (lexNumber s) := by
  have reads := reads_eatWhile isDigit s
  have digits := eatWhile_all isDigit s
  have empty : (s.eatWhile isDigit).1 = [] →
      (s.eatWhile isDigit).2 = s ∧ pointAhead s = true := by
    intro none
    rw [none] at reads
    refine ⟨reads_nothing reads, starts.resolve_left fun digit => ?_⟩
    exact eatWhile_some digit (by decide) none
  unfold lexNumber
  dsimp only
  split
  · rename_i sub
    have some_digit : (s.eatWhile isDigit).1 ≠ [] := by
      intro none
      obtain ⟨same, point⟩ := empty none
      rw [same] at sub
      simp only [pointAhead, subAhead, Bool.and_eq_true, Bool.or_eq_true, beq_iff_eq] at point sub
      rw [point.1] at sub
      exact absurd sub.1.1 (by decide)
    simp only [subAhead, Bool.and_eq_true, Bool.or_eq_true, beq_iff_eq] at sub
    obtain ⟨⟨first, second⟩, third⟩ := sub
    have nonzero : ∀ (c : Byte) (upper lower : Char), c = ch upper ∨ c = ch lower →
        ch upper ≠ 0 → ch lower ≠ 0 → c ≠ 0 := by
      intro c upper lower either notUpper notLower zero
      rcases either with rfl | rfl
      · exact notUpper zero
      · exact notLower zero
    have two := reads_two (s := (s.eatWhile isDigit).2) rfl rfl
      (nonzero _ 'S' 's' first (by decide) (by decide))
      (nonzero _ 'U' 'u' second (by decide) (by decide))
    have three := reads_bump (s := (s.eatWhile isDigit).2.bump.bump)
      (c := (s.eatWhile isDigit).2.peek 2) (by rw [cur_bump, peek_bump])
      (nonzero _ 'B' 'b' third (by decide) (by decide))
    refine lexed_of_spelled (reads_trans reads (reads_trans two three)) ?_ rfl
      (by simp [Token.fresh])
    refine @Spelled.isub _ _ s.loc ⟨some_digit, digits⟩ ?_
    rcases first with h1 | h1 <;> rcases second with h2 | h2 <;> rcases third with h3 | h3 <;>
      rw [h1, h2, h3] <;> decide
  · split
    · rename_i point
      obtain ⟨fracReads, frac⟩ := eatPoint_spec point
      split
      · rename_i more
        exact lexSterling_spec digits frac (reads_trans reads fracReads) more rfl
      · obtain ⟨ex, text, suffix, binary, imaginary, scaled, exponent, ends, shape⟩ :=
          lexScale_spec { Token.fresh .number s.loc with
            text := (s.eatWhile isDigit).1 ++ (eatPoint (s.eatWhile isDigit).2).1, isFloat := true }
            (eatPoint (s.eatWhile isDigit).2).2 rfl rfl
        have some_frac : (eatPoint (s.eatWhile isDigit).2).1 ≠ [] := by simp [eatPoint]
        have spelled := @Spelled.number _ _ _ _ _ _ _ s.loc digits (Or.inr frac) (Or.inr some_frac)
          exponent ends
        have full : (eatPoint (s.eatWhile isDigit).2).1.isEmpty = false := rfl
        refine lexed_of_spelled (reads_trans (reads_trans reads fracReads) scaled) ?_
          (by rw [shape]; rfl) (by rw [shape]; simp [Token.fresh])
        rw [shape]
        simpa [List.append_assoc, full] using spelled
    · rename_i noPoint
      have some_digit : (s.eatWhile isDigit).1 ≠ [] := by
        intro none
        obtain ⟨same, point⟩ := empty none
        rw [same] at noPoint
        exact noPoint point
      obtain ⟨ex, text, suffix, binary, imaginary, scaled, exponent, ends, shape⟩ :=
        lexScale_spec { Token.fresh .number s.loc with text := (s.eatWhile isDigit).1 }
          (s.eatWhile isDigit).2 rfl rfl
      have spelled := @Spelled.number _ _ _ _ _ _ _ s.loc digits (Or.inl rfl) (Or.inl some_digit)
        exponent ends
      refine lexed_of_spelled (reads_trans reads scaled) ?_ (by rw [shape]; rfl)
        (by rw [shape]; simp [Token.fresh])
      rw [shape]
      simpa [List.append_assoc, Token.fresh] using spelled

theorem eatString_spec (bs : List Byte) (loc : Loc) :
    ∃ eaten, Reads ⟨bs, loc⟩ eaten (eatString bs loc).2.2 ∧
      ((eatString bs loc).1 = true → eaten = quoted (eatString bs loc).2.1 ++ [ch '\''] ∧
        newline ∉ (eatString bs loc).2.1 ∧ (0 : Byte) ∉ (eatString bs loc).2.1) := by
  induction bs, loc using eatString.induct with
  | case1 loc => exact ⟨[], reads_refl _, fun closed => by cases closed⟩
  | case2 c cs loc ends =>
    unfold eatString
    rw [if_pos ends]
    exact ⟨[], reads_refl _, fun closed => by cases closed⟩
  | case3 loc goes =>
    unfold eatString
    rw [if_neg goes, if_pos rfl]
    exact ⟨[ch '\''], ⟨rfl, rfl⟩, fun _ => ⟨rfl, by simp, by simp⟩⟩
  | case4 loc qs goes ih =>
    unfold eatString
    rw [if_neg goes, if_pos rfl]
    dsimp only
    rw [if_pos rfl]
    obtain ⟨eaten, reads, closed⟩ := ih
    refine ⟨[ch '\'', ch '\''] ++ eaten, reads_trans ⟨rfl, rfl⟩ reads, fun ends => ?_⟩
    obtain ⟨shape, oneLine, noZero⟩ := closed ends
    refine ⟨by simp [quoted, shape], ?_, ?_⟩
    · have other : newline ≠ ch '\'' := by decide
      simp [oneLine, other]
    · have other : (0 : Byte) ≠ ch '\'' := by decide
      simp [noZero, other]
  | case5 loc q qs other goes =>
    unfold eatString
    rw [if_neg goes, if_pos rfl]
    dsimp only
    rw [if_neg other]
    exact ⟨[ch '\''], ⟨rfl, rfl⟩, fun _ => ⟨rfl, by simp, by simp⟩⟩
  | case6 c cs loc goes other ih =>
    unfold eatString
    rw [if_neg goes, if_neg other]
    obtain ⟨eaten, reads, closed⟩ := ih
    refine ⟨[c] ++ eaten, reads_trans ⟨rfl, rfl⟩ reads, fun ends => ?_⟩
    obtain ⟨shape, oneLine, noZero⟩ := closed ends
    refine ⟨by simp [quoted, shape, other], ?_, ?_⟩
    · have notLine : newline ≠ c := fun same => goes (Or.inr same.symm)
      simp [oneLine, notLine]
    · have nonzero : (0 : Byte) ≠ c := fun same => goes (Or.inl same.symm)
      simp [noZero, nonzero]

theorem lexString_spec (quote : s.cur = ch '\'') : Lexed s (lexString s) := by
  have opening := reads_bump quote (by decide)
  obtain ⟨eaten, body, closed⟩ := eatString_spec s.bump.rest s.bump.loc
  have whole := reads_trans opening body
  have ends : ∃ kind suffix, StringSuffix suffix kind ∧
      lexString s = ({ Token.fresh kind s.loc with sval := (eatString s.bump.rest s.bump.loc).2.1 },
        (lexString s).2.1, if (eatString s.bump.rest s.bump.loc).1 then []
          else [⟨s.loc, "unterminated string constant", "(143)"⟩]) ∧
      (eatString s.bump.rest s.bump.loc).2.2.Reads suffix (lexString s).2.1 := by
    unfold lexString
    dsimp only
    split
    · rename_i bit
      refine ⟨.bitLit, [(eatString s.bump.rest s.bump.loc).2.2.cur], ?_, rfl, reads_bump rfl ?_⟩
      · rcases bit with h | h <;> simp [StringSuffix, h]
      · rcases bit with h | h <;> rw [h] <;> decide
    · split
      · rename_i hex
        refine ⟨.hexLit, [(eatString s.bump.rest s.bump.loc).2.2.cur], ?_, rfl, reads_bump rfl ?_⟩
        · rcases hex with h | h <;> simp [StringSuffix, h]
        · rcases hex with h | h <;> rw [h] <;> decide
      · exact ⟨.charLit, [], Or.inl ⟨rfl, rfl⟩, rfl, reads_refl _⟩
  obtain ⟨kind, suffix, suffixed, shape, after⟩ := ends
  have all := reads_trans whole after
  rw [shape]
  refine ⟨[ch '\''] ++ eaten ++ suffix, by simp, all, fun quiet => ?_⟩
  have done : (eatString s.bump.rest s.bump.loc).1 = true := by
    cases ok : (eatString s.bump.rest s.bump.loc).1 with
    | true => rfl
    | false => simp [ok] at quiet
  obtain ⟨bytes, oneLine, noZero⟩ := closed done
  refine ⟨?_, rfl, noZero⟩
  have spelled := @Spelled.string _ _ _ s.loc oneLine suffixed
  simpa [bytes] using spelled

def Symbol (s : Cursor) (r : Option Tok × Cursor × List Diag) : Prop :=
  ∃ bs, bs ≠ [] ∧ s.Reads bs r.2.1 ∧
    (r.2.2 = [] → ∃ kind, r.1 = some kind ∧ (kind, bs) ∈ symbols)

theorem symbol_of_known {kind : Tok} (reads : s.Reads bs s')
    (known : (kind, bs) ∈ symbols) : Symbol s (some kind, s', []) := by
  have all : ∀ entry ∈ symbols, entry.2 ≠ [] := by decide
  exact ⟨bs, all _ known, reads, fun _ => ⟨kind, rfl, known⟩⟩

theorem symbol_of_error {d : Diag} (reads : s.Reads bs s')
    (some_byte : bs ≠ []) : Symbol s (none, s', [d]) :=
  ⟨bs, some_byte, reads, fun quiet => by cases quiet⟩

theorem single_known {kind : Tok} (known : single c = some kind) :
    (kind, [c]) ∈ symbols ∧ c ≠ 0 := by
  unfold single at known
  repeat' split at known
  all_goals first
    | (cases known; done)
    | (cases known; rename_i same; subst same; decide)

theorem double_known {second : Byte} {alone both : Tok}
    (known : double c = some (second, alone, both)) :
    (alone, [c]) ∈ symbols ∧ (both, [c, second]) ∈ symbols ∧ c ≠ 0 ∧ second ≠ 0 := by
  unfold double at known
  repeat' split at known
  all_goals first
    | (cases known; done)
    | (cases known; rename_i same; subst same; decide)

theorem eatNot_spec (eaten : eatNot s = some s') : ∃ sign ∈ notSigns, s.Reads sign s' := by
  unfold eatNot at eaten
  split at eaten
  · rename_i ascii
    cases eaten
    rcases ascii with h | h
    · exact ⟨[ch '^'], by decide, reads_bump h (by decide)⟩
    · exact ⟨[ch '~'], by decide, reads_bump h (by decide)⟩
  · split at eaten
    · rename_i glyph
      cases eaten
      exact ⟨[0xC2, 0xAC], by decide, reads_two glyph.1 glyph.2 (by decide) (by decide)⟩
    · cases eaten

theorem lexNot_spec (s : Cursor) : ∃ more, s.Reads more (lexNot s).2 ∧
    ∀ sign ∈ notSigns, ((lexNot s).1, sign ++ more) ∈ symbols := by
  unfold lexNot
  split
  · rename_i here
    have known : ∀ sign ∈ notSigns, (Tok.ne, sign ++ [ch '=']) ∈ symbols := by decide
    exact ⟨[ch '='], reads_bump here (by decide), known⟩
  · split
    · rename_i here
      have known : ∀ sign ∈ notSigns, (Tok.ngt, sign ++ [ch '>']) ∈ symbols := by decide
      exact ⟨[ch '>'], reads_bump here (by decide), known⟩
    · split
      · rename_i here
        have known : ∀ sign ∈ notSigns, (Tok.nlt, sign ++ [ch '<']) ∈ symbols := by decide
        exact ⟨[ch '<'], reads_bump here (by decide), known⟩
      · have known : ∀ sign ∈ notSigns, (Tok.not, sign ++ []) ∈ symbols := by decide
        exact ⟨[], reads_refl s, known⟩

theorem lexOther_spec (byte : s.cur ≠ 0) : Symbol s (lexOther s) := by
  have one := reads_bump (s := s) rfl byte
  unfold lexOther
  split
  · rename_i s' eaten
    obtain ⟨sign, member, reads⟩ := eatNot_spec eaten
    obtain ⟨more, after, known⟩ := lexNot_spec s'
    exact symbol_of_known (reads_trans reads after) (known sign member)
  · split
    · rename_i damaged
      simp only [doublyEncoded, Bool.and_eq_true, beq_iff_eq] at damaged
      obtain ⟨⟨⟨first, second⟩, third⟩, fourth⟩ := damaged
      have two := reads_two first second (by decide) (by decide)
      have more := reads_two (s := s.bump.bump) (c := 0xC2) (d := 0xAC)
        (by rw [cur_bump, peek_bump]; exact third)
        (by rw [peek_bump, peek_bump]; exact fourth) (by decide) (by decide)
      exact symbol_of_error (reads_trans two more) (by simp)
    · split <;> exact symbol_of_error one (by simp)

theorem lexSymbol_spec (byte : s.cur ≠ 0) : Symbol s (lexSymbol s) := by
  unfold lexSymbol
  split
  · rename_i kind alone
    obtain ⟨known, nonzero⟩ := single_known alone
    exact symbol_of_known (reads_bump rfl nonzero) known
  · split
    · rename_i second alone both pair
      obtain ⟨knownOne, knownTwo, nonzero, another⟩ := double_known pair
      unfold oneOrTwo
      split
      · rename_i follows
        exact symbol_of_known (reads_two rfl ((cur_bump s).symm.trans follows) nonzero another)
          knownTwo
      · exact symbol_of_known (reads_bump rfl nonzero) knownOne
    · split
      · rename_i mark
        split
        · rename_i again
          exact symbol_of_known
            (reads_two mark ((cur_bump s).symm.trans again) (by decide) (by decide)) (by decide)
        · exact symbol_of_error (reads_bump mark (by decide)) (by simp)
      · exact lexOther_spec byte

theorem lexOne_spec (byte : s.cur ≠ 0) :
    ∃ bs, bs ≠ [] ∧ s.Reads bs (lexOne s).2.1 ∧ ((lexOne s).2.2 = [] →
      ∃ t, (lexOne s).1 = some t ∧ Spelled t bs ∧ t.loc = s.loc ∧ (0 : Byte) ∉ t.sval) := by
  have of_lexed : ∀ r, Lexed s r → ∃ bs, bs ≠ [] ∧ s.Reads bs r.2.1 ∧ (r.2.2 = [] →
      ∃ t, some r.1 = some t ∧ Spelled t bs ∧ t.loc = s.loc ∧ (0 : Byte) ∉ t.sval) := by
    rintro r ⟨bs, some_byte, reads, good⟩
    exact ⟨bs, some_byte, reads, fun quiet => ⟨r.1, rfl, good quiet⟩⟩
  unfold lexOne
  split
  · rename_i letter
    exact of_lexed _ (lexWord_spec letter)
  · split
    · rename_i digit
      exact of_lexed _ (lexNumber_spec (by simpa using digit))
    · split
      · rename_i quote
        exact of_lexed _ (lexString_spec quote)
      · obtain ⟨bs, some_byte, reads, good⟩ := lexSymbol_spec byte
        refine ⟨bs, some_byte, reads, fun quiet => ?_⟩
        obtain ⟨kind, here, known⟩ := good quiet
        exact ⟨Token.fresh kind s.loc, by simp [here], Spelled.symbol known, rfl,
          by simp [Token.fresh]⟩

end PliLexer
