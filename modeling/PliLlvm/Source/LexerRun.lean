import PliLlvm.Source.LexerGrammar
import Mathlib.Data.List.Infix

/- The loop of lexAll over a whole source, and that its tokens, the comments and
   the blank runs cover the source. -/
namespace PliLexer
open Scan Scan.Cursor

theorem skip_reads (s : Cursor) : ∃ bs, s.Reads bs (skipSpaceAndComments s).1 := by
  have blanks := reads_eatWhile isBlank
  fun_induction skipSpaceAndComments s with
  | case1 s s1 opens r closed ih =>
    obtain ⟨body, inside⟩ := eatComment_reads s1.bump.bump.rest s1.bump.bump.loc
    obtain ⟨more, after⟩ := ih
    have opening := reads_two opens.1 opens.2 (by decide) (by decide)
    exact ⟨_, reads_trans (blanks s) (reads_trans opening (reads_trans inside after))⟩
  | case2 s s1 opens r closed =>
    obtain ⟨body, inside⟩ := eatComment_reads s1.bump.bump.rest s1.bump.bump.loc
    have opening := reads_two opens.1 opens.2 (by decide) (by decide)
    exact ⟨_, reads_trans (blanks s) (reads_trans opening inside)⟩
  | case3 s s1 noBlock opens ih =>
    obtain ⟨more, after⟩ := ih
    exact ⟨_, reads_trans (blanks s) (reads_trans (reads_eatWhile inLine s1) after)⟩
  | case4 s s1 noBlock noLine => exact ⟨_, blanks s⟩

def lexLoop (s : Cursor) : List Token × List Diag :=
  let gap := skipSpaceAndComments s
  if _ends : gap.1.cur = 0 then ([Token.fresh .eof gap.1.loc], gap.2)
  else
    let one := lexOne gap.1
    let rest := lexLoop one.2.1
    (one.1.toList ++ rest.1, gap.2 ++ one.2.2 ++ rest.2)
termination_by s.rest.length
decreasing_by
  obtain ⟨_, before⟩ := skip_reads s
  obtain ⟨bs, some_byte, reads, -⟩ := lexOne_spec _ends
  exact Nat.lt_of_lt_of_le (reads_strict reads some_byte) (reads_shorter before)

/-- The tokens of a source and the errors reported. -/
def lexAll (src : List Byte) : List Token × List Diag := lexLoop ⟨src, ⟨1, 1⟩⟩

def opening : List Byte := [ch '/', ch '*']
def closing : List Byte := [ch '*', ch '/']

/-- The tokens lie in the source in order; between them are blank runs and
    comments, and nothing else is left. A line comment goes to the end of its line. -/
inductive Cover : Loc → List Byte → List Token → Prop where
  | done (loc : Loc) : Cover loc [] [Token.fresh .eof loc]
  | blank {loc : Loc} {bs rest : List Byte} {toks : List Token}
      (all : ∀ c ∈ bs, isBlank c = true) (tail : Cover (loc.advance bs) rest toks) :
      Cover loc (bs ++ rest) toks
  | comment {loc : Loc} {body rest : List Byte} {toks : List Token}
      (first : ¬ closing <:+: body ++ [ch '*'])
      (tail : Cover (loc.advance (opening ++ body ++ closing)) rest toks) :
      Cover loc (opening ++ body ++ closing ++ rest) toks
  | line {loc : Loc} {body rest : List Byte} {toks : List Token} (oneLine : newline ∉ body)
      (ends : rest = [] ∨ rest.head? = some newline)
      (tail : Cover (loc.advance (ch '/' :: ch '/' :: body)) rest toks) :
      Cover loc (ch '/' :: ch '/' :: body ++ rest) toks
  | token {loc : Loc} {t : Token} {bs rest : List Byte} {toks : List Token}
      (spelled : Spelled t bs) (here : t.loc = loc) (tail : Cover (loc.advance bs) rest toks) :
      Cover loc (bs ++ rest) (t :: toks)

theorem eatComment_closed (bs : List Byte) (loc : Loc) (closed : (eatComment bs loc).1 = true) :
    ∃ body, Reads ⟨bs, loc⟩ (body ++ closing) (eatComment bs loc).2 ∧
      ¬ closing <:+: body ++ [ch '*'] ∧ (0 : Byte) ∉ body := by
  induction bs generalizing loc with
  | nil => cases closed
  | cons c cs ih =>
    unfold eatComment at closed ⊢
    split at closed
    · cases closed
    · rename_i nonzero
      rw [if_neg nonzero]
      split at closed
      · rename_i closes
        rw [if_pos closes]
        have slash : (⟨cs, loc.after c⟩ : Cursor).cur = ch '/' := closes.2
        refine ⟨[], ?_, by decide, by simp⟩
        have star : c = ch '*' := closes.1
        subst star
        exact reads_cons (reads_bump slash (by decide))
      · rename_i goes
        rw [if_neg goes]
        obtain ⟨body, reads, first, noZero⟩ := ih (loc.after c) closed
        refine ⟨c :: body, reads_cons reads, ?_, ?_⟩
        · intro inside
          rw [List.cons_append, List.infix_cons_iff] at inside
          rcases inside with starts | later
          · obtain ⟨star, slash⟩ := List.cons_prefix_cons.mp starts
            refine goes ⟨star.symm, ?_⟩
            have shape := reads.1
            dsimp only at shape
            rw [shape]
            cases body with
            | nil => exact absurd slash (by decide)
            | cons d body =>
              obtain ⟨same, -⟩ := List.cons_prefix_cons.mp slash
              simp [← same]
          · exact first later
        · intro member
          rcases List.mem_cons.mp member with same | inside
          · exact nonzero same.symm
          · exact noZero inside

theorem blank_noZero {bs : List Byte} (all : ∀ c ∈ bs, isBlank c = true) : (0 : Byte) ∉ bs := by
  intro member
  exact absurd (all 0 member) (by decide)

theorem inLine_noZero {bs : List Byte} (all : ∀ c ∈ bs, inLine c = true) :
    (0 : Byte) ∉ bs ∧ newline ∉ bs := by
  constructor <;> intro member <;> exact absurd (all _ member) (by decide)

theorem skip_covers (s : Cursor) (quiet : (skipSpaceAndComments s).2 = []) :
    ∃ bs, s.Reads bs (skipSpaceAndComments s).1 ∧ (0 : Byte) ∉ bs ∧
      ∀ toks, (0 : Byte) ∉ s.rest →
        Cover (skipSpaceAndComments s).1.loc (skipSpaceAndComments s).1.rest toks →
        Cover s.loc s.rest toks := by
  have blanks := reads_eatWhile isBlank
  have allBlank := eatWhile_all isBlank
  fun_induction skipSpaceAndComments s with
  | case1 s s1 opens r closed ih =>
    obtain ⟨body, inside, first, noZero⟩ :=
      eatComment_closed s1.bump.bump.rest s1.bump.bump.loc closed
    obtain ⟨more, after, noZeroMore, covers⟩ := ih quiet
    have start := reads_two opens.1 opens.2 (by decide) (by decide)
    have whole : s1.Reads (opening ++ body ++ closing) r.2 := by
      simpa [opening, List.append_assoc] using reads_trans start inside
    have noZeroComment : (0 : Byte) ∉ opening ++ body ++ closing := by
      have ends : (0 : Byte) ∉ opening ∧ (0 : Byte) ∉ closing := by decide
      simp [ends, noZero]
    refine ⟨_, reads_trans (blanks s) (reads_trans whole after), ?_, fun toks none tail => ?_⟩
    · simp only [List.mem_append, not_or] at noZeroComment ⊢
      exact ⟨blank_noZero (allBlank s), noZeroComment, noZeroMore⟩
    · rw [(blanks s).1]
      refine Cover.blank (allBlank s) ?_
      rw [← (blanks s).2, whole.1]
      refine Cover.comment first ?_
      rw [← whole.2]
      refine covers toks (fun member => none ?_) tail
      rw [(blanks s).1, whole.1]
      simp [member]
  | case2 s s1 opens r closed => cases quiet
  | case3 s s1 noBlock opens ih =>
    obtain ⟨more, after, noZeroMore, covers⟩ := ih quiet
    have line := reads_eatWhile inLine s1
    have clean := inLine_noZero (eatWhile_all inLine s1)
    have starts : ∃ body, (s1.eatWhile inLine).1 = ch '/' :: ch '/' :: body := by
      have slashes := (reads_two opens.1 opens.2 (by decide) (by decide)).1
      have inside : inLine (ch '/') = true := by decide
      unfold eatWhile
      rw [slashes]
      simp [eatWhile.go, inside]
    obtain ⟨body, shape⟩ := starts
    refine ⟨_, reads_trans (blanks s) (reads_trans line after), ?_, fun toks none tail => ?_⟩
    · simp only [List.mem_append, not_or]
      exact ⟨blank_noZero (allBlank s), clean.1, noZeroMore⟩
    · have rest_clean : (0 : Byte) ∉ (s1.eatWhile inLine).2.rest := by
        intro member
        refine none ?_
        rw [(blanks s).1, line.1]
        simp [member]
      rw [(blanks s).1]
      refine Cover.blank (allBlank s) ?_
      rw [← (blanks s).2, line.1, shape]
      refine Cover.line ?_ ?_ ?_
      · have oneLine := clean.2
        rw [shape] at oneLine
        simp only [List.mem_cons, not_or] at oneLine
        exact oneLine.2.2
      · have stop := eatWhile_stop (p := inLine) (by decide) s1
        cases here : (s1.eatWhile inLine).2.rest with
        | nil => exact Or.inl rfl
        | cons c cs =>
          rw [here] at rest_clean
          simp only [List.mem_cons, not_or] at rest_clean
          simp only [cur, here, List.headD_cons, inLine, Bool.and_eq_false_iff, bne_eq_false_iff_eq]
            at stop
          rcases stop with zero | ends
          · exact absurd zero.symm rest_clean.1
          · exact Or.inr (by simp [ends])
      · rw [← shape, ← line.2]
        exact covers toks rest_clean tail
  | case4 s s1 noBlock noLine =>
    refine ⟨_, blanks s, blank_noZero (allBlank s), fun toks none tail => ?_⟩
    rw [(blanks s).1]
    refine Cover.blank (allBlank s) ?_
    rw [← (blanks s).2]
    exact tail

theorem lexLoop_ends (s : Cursor) (quiet : (lexLoop s).2 = []) :
    ∃ bs s', s.Reads bs s' ∧ s'.cur = 0 ∧ (0 : Byte) ∉ bs ∧
      (lexLoop s).1.getLast? = some (Token.fresh .eof s'.loc) := by
  fun_induction lexLoop s with
  | case1 s gap ends =>
    obtain ⟨bs, reads, noZero, -⟩ := skip_covers s quiet
    exact ⟨bs, gap.1, reads, ends, noZero, rfl⟩
  | case2 s gap more one rest ih =>
    simp only [List.append_eq_nil_iff] at quiet
    obtain ⟨bs, reads, noZero, -⟩ := skip_covers s quiet.1.1
    obtain ⟨spell, -, turn, good⟩ := lexOne_spec more
    obtain ⟨t, -, spelled, -, value⟩ := good quiet.1.2
    obtain ⟨tail, s', after, zero, noZeroTail, last⟩ := ih quiet.2
    refine ⟨_, s', reads_trans reads (reads_trans turn after), zero, ?_, ?_⟩
    · simp [noZero, noZeroTail, spelled_noZero spelled value]
    · rw [List.getLast?_append, last]
      rfl

theorem lexLoop_covers (s : Cursor) (quiet : (lexLoop s).2 = []) (none : (0 : Byte) ∉ s.rest) :
    Cover s.loc s.rest (lexLoop s).1 := by
  fun_induction lexLoop s with
  | case1 s gap ends =>
    obtain ⟨bs, reads, -, covers⟩ := skip_covers s quiet
    refine covers _ none ?_
    have finished : gap.1.rest = [] := by
      cases rest : gap.1.rest with
      | nil => rfl
      | cons c cs =>
        have zero : c = 0 := by simpa [cur, rest] using ends
        refine absurd ?_ none
        rw [reads.1]
        show (0 : Byte) ∈ bs ++ gap.1.rest
        simp [rest, zero]
    show Cover gap.1.loc gap.1.rest _
    rw [finished]
    exact Cover.done _
  | case2 s gap more one rest ih =>
    simp only [List.append_eq_nil_iff] at quiet
    obtain ⟨bs, reads, -, covers⟩ := skip_covers s quiet.1.1
    obtain ⟨spell, -, turn, good⟩ := lexOne_spec more
    obtain ⟨t, here, spelled, place, -⟩ := good quiet.1.2
    refine covers _ none ?_
    have toks : one.1.toList ++ rest.1 = t :: rest.1 := by
      show (lexOne gap.1).1.toList ++ rest.1 = _
      rw [here]
      rfl
    rw [toks, turn.1]
    refine Cover.token spelled place ?_
    rw [← turn.2]
    refine ih quiet.2 fun member => none ?_
    have inside : (0 : Byte) ∈ bs ++ (spell ++ one.2.1.rest) := by simp [member]
    rw [reads.1]
    show (0 : Byte) ∈ bs ++ gap.1.rest
    rw [turn.1]
    exact inside

theorem cover_last {loc : Loc} {src : List Byte} {toks : List Token} (cover : Cover loc src toks) :
    toks.getLast? = some (Token.fresh .eof (loc.advance src)) := by
  induction cover with
  | done loc => rfl
  | blank all tail ih | comment first tail ih | line oneLine ends tail ih => rw [advance_append, ih]
  | token spelled here tail ih =>
    rw [advance_append, List.getLast?_cons, ih]
    rfl

theorem cover_iff (src : List Byte) (quiet : (lexAll src).2 = []) :
    Cover ⟨1, 1⟩ src (lexAll src).1 ↔ (0 : Byte) ∉ src := by
  constructor
  · intro cover
    obtain ⟨bs, s', reads, -, noZero, last⟩ := lexLoop_ends ⟨src, ⟨1, 1⟩⟩ quiet
    have ends := (cover_last cover).symm.trans last
    have place := congrArg Token.loc (Option.some.inj ends)
    have shape : src = bs ++ s'.rest := reads.1
    have whole : s'.rest = [] := by
      have same : (⟨1, 1⟩ : Loc).advance (bs ++ s'.rest) = (⟨1, 1⟩ : Loc).advance bs := by
        rw [← shape]
        exact place.trans reads.2
      exact advance_stops same
    rw [shape, whole, List.append_nil]
    exact noZero
  · exact lexLoop_covers ⟨src, ⟨1, 1⟩⟩ quiet

end PliLexer
