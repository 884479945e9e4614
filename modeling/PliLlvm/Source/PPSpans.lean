import PliLlvm.Source.Preprocessor

/- Where directives end (src/preprocessor.cpp): the positions that findDirectiveEnd,
   findMatchingEnd, collectLabels, the %THEN search and the statement arms of processIf give,
   beside those that the turns of scan lead to. -/
namespace PliPreprocessor
open Scan (Byte newline)
open PliLexer (ch word)

def endOf (source : Bytes) (mode : Mode) (i : Nat) : Option Nat :=
  if _inside : i < source.length then
    if mode = .text ∧ byteAt source i = ch ';' then some i
    else
      let next := turn source source.length mode i
      endOf source next.1 next.2
  else none
termination_by source.length - i
decreasing_by
  have after := turn_gt source source.length mode i
  omega

inductive Mark where
  | opens | closes
  deriving DecidableEq

def definesMacro (source : Bytes) (wordEnd : Nat) : Bool :=
  let target := skip isWhite source (wordEnd + 1) source.length
  let kind := upper (slice source target (skip isWordChar source target source.length))
  kind == word "PROCEDURE" || kind == word "PROC"

/-- The mark of the directive at `i`, as processDirective reads it. -/
def mark (source : Bytes) (i : Nat) : Option Mark :=
  let w := directiveWord source i source.length
  let name := upper (slice source w.1 w.2)
  if name = word "IF" ∨ name = word "THEN" ∨ name = word "ELSE" then none
  else if sees source source.length w.2 (ch ':') then
    if definesMacro source w.2 then some .opens else none
  else if name = word "DO" then some .opens
  else if name = word "END" then some .closes
  else none

/-- The %END that balances a group under every mark outside strings and comments: its position
    and that of its ';'. -/
def groupFrom (source : Bytes) (mode : Mode) (i depth : Nat) : Option (Nat × Nat) :=
  if _inside : i < source.length then
    if mode = .text ∧ byteAt source i = ch '%' then
      let w := directiveWord source i source.length
      match mark source i with
      | some .opens => groupFrom source .text w.2 (depth + 1)
      | some .closes =>
        if depth = 1 then (endOf source .text w.2).map fun semi => (i, semi)
        else groupFrom source .text w.2 (depth - 1)
      | none => groupFrom source .text w.2 depth
    else
      let next := turn source source.length mode i
      groupFrom source next.1 next.2 depth
  else none
termination_by source.length - i
decreasing_by
  · have after := directiveWord_gt source i source.length
    omega
  · have after := directiveWord_gt source i source.length
    omega
  · have after := directiveWord_gt source i source.length
    omega
  · have after := turn_gt source source.length mode i
    omega

def groupEnd (source : Bytes) (start : Nat) : Option (Nat × Nat) := groupFrom source .text start 1

def labelsBy (source : Bytes) (mode : Mode) (i : Nat) (labels : Name → Option Nat) :
    Name → Option Nat :=
  if inside : i < source.length then
    if mode = .text ∧ byteAt source i = ch '%' then
      let w := directiveWord source i source.length
      let colon := skip isBlank source w.2 source.length
      if sees source source.length colon (ch ':') then
        let target := skip isWhite source (colon + 1) source.length
        labelsBy source .text target
          (Function.update labels (upper (slice source w.1 w.2)) (some target))
      else labelsBy source .text w.2 labels
    else
      let next := turn source source.length mode i
      labelsBy source next.1 next.2 labels
  else labels
termination_by source.length - i
decreasing_by
  · have colon := skip_ge isBlank source (directiveWord source i source.length).2 source.length
    have target := skip_ge isWhite source
      (skip isBlank source (directiveWord source i source.length).2 source.length + 1) source.length
    have after := directiveWord_gt source i source.length
    omega
  · have after := directiveWord_gt source i source.length
    omega
  · have after := turn_gt source source.length mode i
    omega

variable {i : Nat}

theorem argsEnd_ge {source : Bytes} {mode : Mode} {depth last : Nat}
    (closed : argsEnd source mode i depth = some last) : i ≤ last := by
  fun_induction argsEnd source mode i depth with
  | case1 => exact Nat.le_of_eq (Option.some.inj closed)
  | case2 _ _ _ _ _ _ ih | case3 _ _ _ _ _ _ _ ih =>
    exact Nat.le_trans (Nat.le_add_right _ 1) (ih closed)
  | case4 mode i _ _ _ _ _ next ih =>
    exact Nat.le_trans (Nat.le_of_lt (turn_gt source source.length mode i)) (ih closed)
  | case5 => cases closed

def thenBy (source : Bytes) (mode : Mode) (i : Nat) : Option Nat :=
  if _inside : i < source.length then
    if mode = .text ∧ byteAt source i = ch '%' then
      let w := directiveWord source i source.length
      if upper (slice source w.1 w.2) = word "THEN" then some i
      else
        let paren := skip isBlank source w.2 source.length
        if sees source source.length paren (ch '(') then
          match _closed : argsEnd source .text (paren + 1) 1 with
          | some last => thenBy source .text last
          | none => none
        else none
    else if mode = .text ∧ byteAt source i = ch ';' then none
    else
      let next := turn source source.length mode i
      thenBy source next.1 next.2
  else none
termination_by source.length - i
decreasing_by
  · have word := directiveWord_gt source i source.length
    have blanks := skip_ge isBlank source (directiveWord source i source.length).2 source.length
    have args : skip isBlank source (directiveWord source i source.length).2 source.length + 1 ≤
        last := argsEnd_ge _closed
    omega
  · have after := turn_gt source source.length mode i
    omega

def armEnd (source : Bytes) (i : Nat) : Nat := ((endOf source .text i).map (· + 1)).getD
  (max i source.length)

def quotes (source : Bytes) (i j : Nat) : Nat := (slice source i j).count (ch '\'')

/-- Of the ';'s up to the end of a directive, it is the only one with an even number of quotes
    before it, those in comments counted too. -/
def QuotesMatch (source : Bytes) (start : Nat) : Prop :=
  ∀ p < source.length, start ≤ p → byteAt source p = ch ';' →
    ((endOf source .text start).all fun e => decide (p ≤ e)) = true →
    (quotes source start p % 2 = 0 ↔ endOf source .text start = some p)

instance (source : Bytes) (start : Nat) : Decidable (QuotesMatch source start) :=
  inferInstanceAs (Decidable (∀ p < source.length, _))

def unmarked (source : Bytes) (mode : Mode) (i : Nat) : Bool :=
  if _inside : i < source.length then
    if mode = .text ∧ byteAt source i = ch ';' then true
    else if mode = .text ∧ byteAt source i = ch '%' then
      mark source i == none &&
        unmarked source .text (directiveWord source i source.length).2
    else
      let next := turn source source.length mode i
      unmarked source next.1 next.2
  else true
termination_by source.length - i
decreasing_by
  · have after := directiveWord_gt source i source.length
    omega
  · have after := turn_gt source source.length mode i
    omega

def nameMark (name : Name) : Option Mark :=
  if name = word "DO" then some .opens else if name = word "END" then some .closes else none

/-- A directive that is no macro's definition and no label of the name DO or END, that ends
    where findDirectiveEnd says, and that has no %DO, %END or definition in its own text. -/
def directivePlain (source : Bytes) (i : Nat) : Bool :=
  let w := directiveWord source i source.length
  mark source i == nameMark (upper (slice source w.1 w.2)) &&
    decide (QuotesMatch source w.2) && unmarked source .text w.2

theorem endOf_ge {source : Bytes} {mode : Mode} {semi : Nat}
    (found : endOf source mode i = some semi) : i ≤ semi := by
  fun_induction endOf source mode i with
  | case1 => exact Nat.le_of_eq (Option.some.inj found)
  | case2 mode i _ _ next ih =>
    exact Nat.le_trans (Nat.le_of_lt (turn_gt source source.length mode i)) (ih found)
  | case3 => cases found

/-- The directives up to the %END that balances, of which only the end matters. -/
def groupPlain (source : Bytes) (mode : Mode) (i depth : Nat) : Bool :=
  if _inside : i < source.length then
    if mode = .text ∧ byteAt source i = ch '%' then
      let w := directiveWord source i source.length
      if mark source i = some .closes ∧ depth = 1 then
        nameMark (upper (slice source w.1 w.2)) == some .closes && decide (QuotesMatch source w.2)
      else directivePlain source i &&
        match _found : endOf source .text (directiveWord source i source.length).2 with
        | none => true
        | some semi =>
          match mark source i with
          | some .opens => groupPlain source .text (semi + 1) (depth + 1)
          | some .closes => groupPlain source .text (semi + 1) (depth - 1)
          | none => groupPlain source .text (semi + 1) depth
    else
      let next := turn source source.length mode i
      groupPlain source next.1 next.2 depth
  else true
termination_by source.length - i
decreasing_by
  · have beyond := endOf_ge _found
    have after := directiveWord_gt source i source.length
    omega
  · have beyond := endOf_ge _found
    have after := directiveWord_gt source i source.length
    omega
  · have beyond := endOf_ge _found
    have after := directiveWord_gt source i source.length
    omega
  · have after := turn_gt source source.length mode i
    omega

/-- In an argument list: no string that is not empty, and no quote and no parenthesis in a
    comment. -/
def argsPlain (source : Bytes) (mode : Mode) (i depth : Nat) : Bool :=
  if inside : i < source.length ∧ 0 < depth then
    let c := byteAt source i
    if c = ch '\'' then
      mode == .text && sees source source.length (i + 1) (ch '\'') &&
        argsPlain source .text (i + 2) depth
    else if c = ch '(' then mode == .text && argsPlain source .text (i + 1) (depth + 1)
    else if c = ch ')' then mode == .text && argsPlain source .text (i + 1) (depth - 1)
    else
      let next := turn source source.length mode i
      argsPlain source next.1 next.2 depth
  else true
termination_by source.length - i
decreasing_by
  · omega
  · omega
  · omega
  · have after := turn_gt source source.length mode i
    omega

def thenPlain (source : Bytes) (mode : Mode) (i : Nat) : Bool :=
  if _inside : i < source.length then
    if mode = .text ∧ byteAt source i = ch '%' then
      let w := directiveWord source i source.length
      if upper (slice source w.1 w.2) = word "THEN" then true
      else
        let paren := skip isBlank source w.2 source.length
        if sees source source.length paren (ch '(') then
          argsPlain source .text (paren + 1) 1 &&
            match _closed : argsEnd source .text (paren + 1) 1 with
            | some last => thenPlain source .text last
            | none => true
        else true
    else if mode = .text ∧ byteAt source i = ch ';' then true
    else
      let next := turn source source.length mode i
      thenPlain source next.1 next.2
  else true
termination_by source.length - i
decreasing_by
  · have word := directiveWord_gt source i source.length
    have blanks := skip_ge isBlank source (directiveWord source i source.length).2 source.length
    have args : skip isBlank source (directiveWord source i source.length).2 source.length + 1 ≤
        last := argsEnd_ge _closed
    omega
  · have after := turn_gt source source.length mode i
    omega

/-- Where the scanners say a directive, a group, the labels, the %THEN and a statement arm end
    from a position outside strings and comments is where scan's turns say they do. -/
structure Consistent (source : Bytes) (start : Nat) : Prop where
  directive : findDirectiveEnd source start = endOf source .text start
  group : (findMatchingEnd source start).toOption = groupEnd source start
  labels : ∀ labels, collectLabels source labels = labelsBy source .text 0 labels
  thenAt : findThen source .text start = thenBy source .text start
  arm : statementEnd source .text start = armEnd source start

def toggle : Bytes → Nat → Bool → Option Nat
  | [], _, _ => none
  | c :: cs, i, quoted =>
    if c = ch ';' ∧ quoted = false then some i
    else toggle cs (i + 1) (if c = ch '\'' then !quoted else quoted)

theorem go_toggle (cs : Bytes) (i : Nat) (quoted : Bool) :
    findDirectiveEnd.go cs i quoted = toggle cs i quoted := by
  have apart : ch '\'' ≠ ch ';' := by decide
  fun_induction findDirectiveEnd.go cs i quoted with
  | case1 => rfl
  | case2 i quoted => simp [toggle, apart]
  | case3 i quoted d ds doubled ih =>
    obtain ⟨rfl, rfl⟩ := doubled
    simp [toggle, apart, ih]
  | case4 i quoted d ds single ih =>
    have quote : toggle (ch '\'' :: d :: ds) i quoted = toggle (d :: ds) (i + 1) (!quoted) := by
      rw [toggle, if_neg fun semi => apart semi.1, if_pos rfl]
    rw [ih, quote]
  | case5 c cs i quoted other semi =>
    rw [toggle, if_pos semi]
  | case6 c cs i quoted other more ih =>
    rw [ih, toggle, if_neg more, if_neg other]

def turned (quoted : Bool) (before : Bytes) : Bool :=
  if before.count (ch '\'') % 2 = 0 then quoted else !quoted

theorem turned_cons (quoted : Bool) (c : Byte) (before : Bytes) :
    turned quoted (c :: before) = turned (if c = ch '\'' then !quoted else quoted) before := by
  unfold turned
  by_cases quote : c = ch '\''
  · rw [quote, List.count_cons_self, if_pos rfl]
    by_cases even : before.count (ch '\'') % 2 = 0
    · rw [if_pos even, if_neg (by omega)]
    · rw [if_neg even, if_pos (by omega), Bool.not_not]
  · rw [List.count_cons_of_ne quote, if_neg quote]

theorem toggle_found {cs : Bytes} {p : Nat} {quoted : Bool} (found : toggle cs i quoted = some p) :
    ∃ before after, cs = before ++ ch ';' :: after ∧ p = i + before.length ∧
      turned quoted before = false ∧
      ∀ first rest, before = first ++ ch ';' :: rest → turned quoted first = true := by
  fun_induction toggle cs i quoted with
  | case1 => cases found
  | case2 c cs i quoted semi =>
    obtain ⟨rfl, rfl⟩ := semi
    cases found
    refine ⟨[], cs, rfl, rfl, rfl, fun first rest split => ?_⟩
    cases first <;> cases split
  | case3 c cs i quoted other ih =>
    obtain ⟨before, after, rfl, rfl, closed, earlier⟩ := ih found
    refine ⟨c :: before, after, rfl, by simp; omega, by rw [turned_cons]; exact closed, ?_⟩
    intro first rest split
    cases first with
    | nil =>
      obtain ⟨rfl, -⟩ := List.cons.inj split
      by_contra open_
      exact other ⟨rfl, by simpa [turned] using open_⟩
    | cons d first =>
      obtain ⟨rfl, same⟩ := List.cons.inj split
      rw [turned_cons]
      exact earlier first rest same

theorem toggle_finds {before : Bytes} (after : Bytes) {i : Nat} {quoted : Bool}
    (closed : turned quoted before = false) :
    ∃ p, toggle (before ++ ch ';' :: after) i quoted = some p ∧ p ≤ i + before.length := by
  induction before generalizing i quoted with
  | nil =>
    refine ⟨i, ?_, Nat.le_refl _⟩
    rw [List.nil_append, toggle, if_pos ⟨rfl, closed⟩]
  | cons c before ih =>
    rw [turned_cons] at closed
    rw [List.cons_append, toggle]
    split
    · exact ⟨i, rfl, Nat.le_add_right _ _⟩
    · obtain ⟨p, found, bound⟩ := ih (i := i + 1) closed
      exact ⟨p, found, by rw [List.length_cons]; omega⟩

section Spans
variable {source : Bytes} {start : Nat}

theorem slice_split {p : Nat} (from_ : start ≤ p) (inside : p < source.length) :
    source.drop start = slice source start p ++ byteAt source p :: source.drop (p + 1) := by
  have rest : source.drop p = byteAt source p :: source.drop (p + 1) := by
    rw [List.drop_eq_getElem_cons inside, byteAt, List.getD_eq_getElem?_getD,
      List.getElem?_eq_getElem inside, Option.getD_some]
  have whole := List.take_append_drop (p - start) (source.drop start)
  rw [List.drop_drop, Nat.add_sub_cancel' from_, rest] at whole
  exact whole.symm

theorem sliceFrom_length {p : Nat} (from_ : start ≤ p) (inside : p ≤ source.length) :
    (slice source start p).length = p - start := by
  rw [slice, List.length_take, List.length_drop]
  omega

theorem turned_even {before : Bytes} : turned false before = false ↔
    before.count (ch '\'') % 2 = 0 := by
  unfold turned
  split <;> simp_all

theorem directiveEnd_even {p : Nat} (found : findDirectiveEnd source start = some p) :
    start ≤ p ∧ p < source.length ∧ byteAt source p = ch ';' ∧ quotes source start p % 2 = 0 := by
  rw [findDirectiveEnd, go_toggle] at found
  obtain ⟨before, after, split, rfl, closed, -⟩ := toggle_found found
  have size := congrArg List.length split
  rw [List.length_drop, List.length_append, List.length_cons] at size
  have inside : start + before.length < source.length := by omega
  have here := slice_split (Nat.le_add_right start before.length) inside
  rw [split] at here
  have same := List.append_inj here (by
    rw [sliceFrom_length (Nat.le_add_right _ _) (Nat.le_of_lt inside)]
    omega)
  refine ⟨Nat.le_add_right _ _, inside, (List.cons.inj same.2).1.symm, ?_⟩
  rw [quotes, ← same.1]
  exact turned_even.mp closed

theorem directiveEnd_first {p : Nat} (from_ : start ≤ p) (inside : p < source.length)
    (semi : byteAt source p = ch ';') (even : quotes source start p % 2 = 0) :
    ∃ q, findDirectiveEnd source start = some q ∧ q ≤ p := by
  have here := slice_split from_ inside
  obtain ⟨q, found, bound⟩ := toggle_finds (source.drop (p + 1)) (i := start)
    (turned_even.mpr even)
  refine ⟨q, ?_, ?_⟩
  · rw [findDirectiveEnd, go_toggle, here, semi]
    exact found
  · rw [sliceFrom_length from_ (Nat.le_of_lt inside)] at bound
    omega

variable {mode : Mode} {i : Nat}

theorem endOf_semi {semi : Nat} (found : endOf source mode i = some semi) :
    semi < source.length ∧ byteAt source semi = ch ';' := by
  fun_induction endOf source mode i with
  | case1 _ i inside here =>
    cases found
    exact ⟨inside, here.2⟩
  | case2 _ _ _ _ _ ih => exact ih found
  | case3 => cases found

theorem directiveEnd_iff : findDirectiveEnd source start = endOf source .text start ↔
    QuotesMatch source start := by
  constructor
  · intro same p inside from_ semi bound
    constructor
    · intro even
      obtain ⟨q, found, before⟩ := directiveEnd_first from_ inside semi even
      rw [← same, found] at bound ⊢
      have after : p ≤ q := by simpa using bound
      rw [Nat.le_antisymm before after]
    · intro last
      rw [← same] at last
      exact (directiveEnd_even last).2.2.2
  · intro matches_
    cases last : endOf source .text start with
    | none =>
      cases found : findDirectiveEnd source start with
      | none => rfl
      | some p =>
        obtain ⟨from_, inside, semi, even⟩ := directiveEnd_even found
        have := (matches_ p inside from_ semi (by rw [last]; rfl)).mp even
        rw [last] at this
        cases this
    | some e =>
      obtain ⟨inside, semi⟩ := endOf_semi last
      have even := (matches_ e inside (endOf_ge last) semi (by simp [last])).mpr last
      obtain ⟨q, found, before⟩ := directiveEnd_first (endOf_ge last) inside semi even
      obtain ⟨from_, inside', semi', even'⟩ := directiveEnd_even found
      have first := (matches_ q inside' from_ semi' (by simp [last, before])).mp even'
      rw [found, ← first, last]

variable {p : Byte → Bool} {stop : Nat}

theorem skip_all {k : Nat} (bound : stop ≤ source.length) (after : i ≤ k)
    (before : k < skip p source i stop) : p (byteAt source k) = true := by
  have place : k - i < (((source.take stop).drop i).takeWhile p).length := by
    unfold skip at before
    omega
  have holds := List.all_takeWhile (p := p) (l := (source.take stop).drop i)
  have member := List.all_eq_true.mp holds _ (List.getElem_mem place)
  have size := (List.takeWhile_sublist p (l := (source.take stop).drop i)).length_le
  rw [List.length_drop, List.length_take] at size
  rw [(List.takeWhile_prefix p).getElem place, List.getElem_drop, List.getElem_take] at member
  rw [byteAt, List.getD_eq_getElem?_getD, List.getElem?_eq_getElem (by omega), Option.getD_some]
  simpa only [Nat.add_sub_cancel' after] using member

theorem skip_le (start_ : i ≤ stop) (bound : stop ≤ source.length) :
    skip p source i stop ≤ stop := by
  have size := (List.takeWhile_sublist p (l := (source.take stop).drop i)).length_le
  rw [List.length_drop, List.length_take] at size
  unfold skip
  omega

theorem turn_calm (slash : byteAt source i ≠ ch '/')
    (quote : byteAt source i ≠ ch '\'') : turn source stop .text i = (.text, i + 1) := by
  simp [turn, slash, quote]

theorem endOf_turn (inside : i < source.length)
    (more : ¬(mode = .text ∧ byteAt source i = ch ';')) : endOf source mode i =
      endOf source (turn source source.length mode i).1 (turn source source.length mode i).2 := by
  rw [endOf, dif_pos inside, if_neg more]

theorem endOf_calm {j : Nat} (order : i ≤ j) (bound : j ≤ source.length)
    (calm : ∀ k, i ≤ k → k < j → byteAt source k ≠ ch '/' ∧ byteAt source k ≠ ch '\'' ∧
      byteAt source k ≠ ch ';') : endOf source .text i = endOf source .text j := by
  induction order with
  | refl => rfl
  | @step j order ih =>
    obtain ⟨slash, quote, semi⟩ := calm j order (Nat.lt_succ_self j)
    rw [ih (by omega) fun k after before => calm k after (by omega),
      endOf_turn (by omega) (fun here => semi here.2), turn_calm slash quote]

theorem blank_calm {c : Byte} (blank : isBlank c = true) :
    c ≠ ch '/' ∧ c ≠ ch '\'' ∧ c ≠ ch ';' := by
  refine ⟨?_, ?_, ?_⟩ <;> rintro rfl <;> revert blank <;> decide

theorem wordChar_calm {c : Byte} (inWord : isWordChar c = true) :
    c ≠ ch '/' ∧ c ≠ ch '\'' ∧ c ≠ ch ';' := by
  refine ⟨?_, ?_, ?_⟩ <;> rintro rfl <;> revert inWord <;> decide

theorem directiveWord_le (inside : i < source.length) :
    (directiveWord source i source.length).2 ≤ source.length :=
  skip_le (skip_le (by omega) (Nat.le_refl _)) (Nat.le_refl _)

theorem endOf_word (inside : i < source.length) (percent : byteAt source i = ch '%') :
    endOf source .text i = endOf source .text (directiveWord source i source.length).2 := by
  refine endOf_calm (Nat.le_of_lt (directiveWord_gt source i source.length))
    (directiveWord_le inside) fun k after before => ?_
  rcases Nat.eq_or_lt_of_le after with rfl | after
  · rw [percent]
    decide
  · by_cases blanks : k < skip isBlank source (i + 1) source.length
    · exact blank_calm (skip_all (Nat.le_refl _) after blanks)
    · exact wordChar_calm (skip_all (Nat.le_refl _) (Nat.le_of_not_lt blanks) before)

variable {depth : Nat}

theorem group_turn (inside : i < source.length)
    (more : ¬(mode = .text ∧ byteAt source i = ch '%')) : groupFrom source mode i depth =
      groupFrom source (turn source source.length mode i).1
        (turn source source.length mode i).2 depth := by
  rw [groupFrom, dif_pos inside, if_neg more]

theorem group_skip (plain : unmarked source mode i = true) (depth : Nat) :
    groupFrom source mode i depth = match endOf source mode i with
      | some semi => groupFrom source .text (semi + 1) depth
      | none => none := by
  fun_induction unmarked source mode i with
  | case1 mode i inside semi =>
    obtain ⟨rfl, semi⟩ := semi
    have calm : byteAt source i ≠ ch '/' ∧ byteAt source i ≠ ch '\'' ∧
      byteAt source i ≠ ch '%' := by
      rw [semi]
      decide
    rw [group_turn inside fun here => calm.2.2 here.2, turn_calm calm.1 calm.2.1, endOf,
      dif_pos inside, if_pos ⟨rfl, semi⟩]
  | case2 mode i inside semi percent ih =>
    obtain ⟨rfl, percent⟩ := percent
    obtain ⟨none_, rest⟩ := Bool.and_eq_true_iff.mp plain
    rw [groupFrom, dif_pos inside, if_pos ⟨rfl, percent⟩, endOf_word inside percent, ← ih rest]
    simp only [show mark source i = none by simpa using none_]
  | case3 mode i inside semi percent next ih =>
    rw [group_turn inside percent, endOf_turn inside semi]
    exact ih plain
  | case4 mode i outside =>
    rw [groupFrom, dif_neg outside, endOf, dif_neg outside]

structure Turns {β : Type} (source : Bytes) (search : Mode → Nat → β) : Prop where
  step : ∀ {mode i}, i < source.length → ¬(mode = .text ∧ byteAt source i = ch '%') →
    search mode i = search (skim source source.length mode i).1
      (skim source source.length mode i).2
  ends : ∀ {mode i}, ¬i < source.length → search mode i = search .text source.length

theorem skip_here (inside : i < source.length) (holds : p (byteAt source i) = true) :
    skip p source i source.length = skip p source (i + 1) source.length := by
  have here : (source.take source.length).drop i =
      byteAt source i :: (source.take source.length).drop (i + 1) := by
    rw [List.take_length, List.drop_eq_getElem_cons inside, byteAt, List.getD_eq_getElem?_getD,
      List.getElem?_eq_getElem inside, Option.getD_some]
  unfold skip
  rw [here, List.takeWhile_cons, if_pos holds, List.length_cons]
  omega

theorem skip_stops (inside : i < source.length)
    (stops : p (byteAt source i) = false) : skip p source i source.length = i := by
  have here : (source.take source.length).drop i =
      byteAt source i :: (source.take source.length).drop (i + 1) := by
    rw [List.take_length, List.drop_eq_getElem_cons inside, byteAt, List.getD_eq_getElem?_getD,
      List.getElem?_eq_getElem inside, Option.getD_some]
  unfold skip
  rw [here, List.takeWhile_cons, if_neg (by simp [stops])]
  rfl

theorem skip_end (outside : ¬i < source.length) : skip p source i source.length = i := by
  unfold skip
  rw [List.take_length, List.drop_eq_nil_of_le (Nat.le_of_not_lt outside)]
  rfl

theorem Turns.line {β : Type} {search : Mode → Nat → β} (turns : Turns source search) :
    ∀ {i}, search .text (skip (· != newline) source i source.length) = search .lineComment i := by
  intro i
  induction left : source.length - i using Nat.strongRecOn generalizing i with
  | ind n ih =>
    by_cases inside : i < source.length
    · have out : ¬((Mode.lineComment) = .text ∧ byteAt source i = ch '%') := fun here => by
        cases here.1
      rw [turns.step inside out]
      by_cases line : byteAt source i = newline
      · have stay : skip (· != newline) source i source.length = i :=
          skip_stops inside (by simp [line])
        have calm : byteAt source i ≠ ch '/' ∧ byteAt source i ≠ ch '\'' ∧
            byteAt source i ≠ ch '%' := by
          rw [line]
          decide
        have text : skim source source.length .text i = (.text, i + 1) := by
          rw [skim, if_neg fun here => calm.1 here.2.1, turn_calm calm.1 calm.2.1]
        have comment : skim source source.length .lineComment i = (.text, i + 1) := by
          rw [skim, if_neg fun here => by cases here.1]
          simp [PliPreprocessor.turn, line]
        rw [stay, turns.step inside fun here => calm.2.2 here.2, text, comment]
      · rw [skip_here inside (by simp [line]), ih _ (by omega) rfl]
        simp [skim, turn, line]
    · rw [skip_end inside, turns.ends inside, @Turns.ends _ _ _ turns .lineComment i inside]

theorem Turns.turn {β : Type} {search : Mode → Nat → β} (turns : Turns source search) {mode : Mode}
    {i : Nat} (inside : i < source.length) (more : ¬(mode = .text ∧ byteAt source i = ch '%')) :
    search mode i = search (turn source source.length mode i).1
      (turn source source.length mode i).2 := by
  rw [turns.step inside more, skim]
  split
  · rename_i line
    obtain ⟨rfl, slash, again⟩ := line
    have next : i + 1 < source.length := by
      simp only [sees, Bool.and_eq_true, decide_eq_true_eq] at again
      exact again.1
    have same : byteAt source (i + 1) = ch '/' := by
      simpa [sees, next] using again
    have star : sees source source.length (i + 1) (ch '*') = false := by
      have differ : (ch '/' == ch '*') = false := by decide
      simp [sees, same, differ]
    rw [skip_here inside (by rw [slash]; decide), skip_here next (by rw [same]; decide), turns.line]
    simp [PliPreprocessor.turn, slash, again, star]
  · rfl

theorem matchingEnd_turns (depth : Nat) :
    Turns source fun mode i => matchingEnd source mode i depth where
  step := by
    intro mode i inside more
    rw [matchingEnd, dif_pos inside, if_neg more]
  ends := by
    intro mode i outside
    rw [matchingEnd, dif_neg outside, matchingEnd, dif_neg (Nat.lt_irrefl _)]

theorem labelsFrom_turns (labels : Name → Option Nat) :
    Turns source fun mode i => labelsFrom source source.length mode i labels where
  step := by
    intro mode i inside more
    rw [labelsFrom, dif_pos ⟨inside, inside⟩, if_neg more]
  ends := by
    intro mode i outside
    rw [labelsFrom, dif_neg fun within => outside within.1, labelsFrom,
      dif_neg fun within => Nat.lt_irrefl _ within.1]

theorem labelsFrom_eq (mode : Mode) (i : Nat) (labels : Name → Option Nat) :
    labelsFrom source source.length mode i labels = labelsBy source mode i labels := by
  fun_induction labelsBy source mode i labels with
  | case1 mode i labels inside percent w colon label target ih =>
    obtain ⟨rfl, percent⟩ := percent
    rw [labelsFrom, dif_pos ⟨inside, inside⟩, if_pos ⟨rfl, percent⟩, if_pos label]
    exact ih
  | case2 mode i labels inside percent w colon other ih =>
    obtain ⟨rfl, percent⟩ := percent
    rw [labelsFrom, dif_pos ⟨inside, inside⟩, if_pos ⟨rfl, percent⟩, if_neg other,
      Nat.min_eq_left (directiveWord_le inside)]
    exact ih
  | case3 mode i labels inside more next ih =>
    rw [(labelsFrom_turns labels).turn inside more]
    exact ih
  | case4 mode i labels outside =>
    rw [labelsFrom, dif_neg fun within => outside within.1]

theorem turn_within (inside : i < source.length) :
    (turn source source.length mode i).2 ≤ source.length := by
  have next : ∀ c, sees source source.length (i + 1) c = true → i + 2 ≤ source.length := by
    intro c there
    simp only [sees, Bool.and_eq_true, decide_eq_true_eq] at there
    omega
  unfold turn
  cases mode with
  | lineComment => exact inside
  | comment =>
    dsimp only
    split
    · rename_i closes
      exact next _ closes.2
    · exact inside
  | string =>
    dsimp only
    split
    · split
      · rename_i again
        exact next _ again
      · exact inside
    · exact inside
  | text =>
    dsimp only
    split
    · rename_i opens
      exact next _ opens.2
    split
    · rename_i opens
      exact next _ opens.2
    split
    · exact inside
    · exact inside

theorem statementEnd_eq (mode : Mode) (i : Nat) : statementEnd source mode i =
    ((endOf source mode i).map (· + 1)).getD (max i source.length) := by
  fun_induction statementEnd source mode i with
  | case1 mode i inside semi =>
    rw [endOf, dif_pos inside, if_pos semi]
    rfl
  | case2 mode i inside more next ih =>
    have bound : next.2 ≤ source.length := turn_within inside
    rw [endOf_turn inside more, ih, Nat.max_eq_right bound, Nat.max_eq_right (Nat.le_of_lt inside)]
  | case3 mode i outside =>
    rw [endOf, dif_neg outside, Nat.max_eq_left (Nat.le_of_not_lt outside)]
    rfl

theorem args_turn (inside : i < source.length) (within : depth ≠ 0)
    (opens : ¬(mode = .text ∧ byteAt source i = ch '('))
    (closes : ¬(mode = .text ∧ byteAt source i = ch ')')) : argsEnd source mode i depth =
      argsEnd source (turn source source.length mode i).1 (turn source source.length mode i).2
        depth := by
  rw [argsEnd, if_neg within, dif_pos inside, if_neg opens, if_neg closes]

theorem args_quote (inside : i < source.length) (within : depth ≠ 0)
    (quote : byteAt source i = ch '\'') :
    argsEnd source .text i depth = argsEnd source .string (i + 1) depth := by
  have calm : byteAt source i ≠ ch '(' ∧ byteAt source i ≠ ch ')' ∧ byteAt source i ≠ ch '/' := by
    rw [quote]
    decide
  rw [args_turn inside within (fun here => calm.1 here.2) fun here => calm.2.1 here.2]
  simp [turn, quote, show ch '\'' ≠ ch '/' by decide]

theorem turn_marks {mode : Mode} {i : Nat} (quote : byteAt source i ≠ ch '\'') :
    (turn source source.length mode i).2 = i + 1 ∨
      ((turn source source.length mode i).2 = i + 2 ∧ i + 1 < source.length ∧
        (byteAt source (i + 1) = ch '*' ∨ byteAt source (i + 1) = ch '/')) := by
  have there : ∀ c, sees source source.length (i + 1) c = true →
      i + 1 < source.length ∧ byteAt source (i + 1) = c := by
    intro c here
    simpa [sees] using here
  cases mode with
  | lineComment => exact .inl rfl
  | comment =>
    simp only [turn]
    split
    · rename_i closes
      obtain ⟨inside, same⟩ := there _ closes.2
      exact .inr ⟨rfl, inside, .inr same⟩
    · exact .inl rfl
  | string =>
    left
    simp [turn, quote]
  | text =>
    simp only [turn]
    split
    · rename_i opens
      obtain ⟨inside, same⟩ := there _ opens.2
      exact .inr ⟨rfl, inside, .inl same⟩
    split
    · rename_i opens
      obtain ⟨inside, same⟩ := there _ opens.2
      exact .inr ⟨rfl, inside, .inr same⟩
    exact .inl rfl

theorem pastArgs_calm (inside : i < source.length ∧ 0 < depth)
    (quote : byteAt source i ≠ ch '\'') (opens : byteAt source i ≠ ch '(')
    (closes : byteAt source i ≠ ch ')') : pastArgs source i depth =
      pastArgs source (i + 1) depth := by
  rw [pastArgs, dif_pos inside]
  dsimp only
  rw [if_neg quote, if_neg opens, if_neg closes]

theorem pastArgs_plain (plain : argsPlain source mode i depth = true) :
    argsEnd source mode i depth = some (pastArgs source i depth) ∨
      argsEnd source mode i depth = none ∧ source.length ≤ pastArgs source i depth := by
  fun_induction argsPlain source mode i depth with
  | case1 mode i depth inside c quote ih =>
    simp only [Bool.and_eq_true, beq_iff_eq] at plain
    obtain ⟨⟨rfl, again⟩, rest⟩ := plain
    have next : i + 1 < source.length ∧ byteAt source (i + 1) = ch '\'' := by
      simpa [sees] using again
    have past : pastArgs source i depth = pastArgs source (i + 2) depth := by
      rw [pastArgs, dif_pos inside]
      dsimp only
      rw [if_pos quote, if_pos again]
    have within : depth ≠ 0 := Nat.ne_of_gt inside.2
    have pair : argsEnd source .text i depth = argsEnd source .text (i + 2) depth := by
      rw [args_quote inside.1 within quote, args_turn next.1 within (fun here => by cases here.1)
        fun here => by cases here.1]
      by_cases third : sees source source.length (i + 2) (ch '\'') = true
      · have inner : i + 2 < source.length ∧ byteAt source (i + 2) = ch '\'' := by
          simpa [sees] using third
        rw [args_quote inner.1 within inner.2]
        simp [turn, next.2, third]
      · simp [turn, next.2, third]
    rw [past, pair]
    exact ih rest
  | case2 mode i depth inside c quote opens ih =>
    simp only [Bool.and_eq_true, beq_iff_eq] at plain
    obtain ⟨rfl, rest⟩ := plain
    have past : pastArgs source i depth = pastArgs source (i + 1) (depth + 1) := by
      rw [pastArgs, dif_pos inside]
      dsimp only
      rw [if_neg quote, if_pos opens]
    have args : argsEnd source .text i depth = argsEnd source .text (i + 1) (depth + 1) := by
      rw [argsEnd, if_neg (Nat.ne_of_gt inside.2), dif_pos inside.1, if_pos ⟨rfl, opens⟩]
    rw [past, args]
    exact ih rest
  | case3 mode i depth inside c quote opens closes ih =>
    simp only [Bool.and_eq_true, beq_iff_eq] at plain
    obtain ⟨rfl, rest⟩ := plain
    have past : pastArgs source i depth = pastArgs source (i + 1) (depth - 1) := by
      rw [pastArgs, dif_pos inside]
      dsimp only
      rw [if_neg quote, if_neg opens, if_pos closes]
    have args : argsEnd source .text i depth = argsEnd source .text (i + 1) (depth - 1) := by
      rw [argsEnd, if_neg (Nat.ne_of_gt inside.2), dif_pos inside.1,
        if_neg fun here => opens here.2, if_pos ⟨rfl, closes⟩]
    rw [past, args]
    exact ih rest
  | case4 mode i depth inside c quote opens closes next ih =>
    have past : pastArgs source i depth = pastArgs source next.2 depth := by
      rw [pastArgs_calm inside quote opens closes]
      rcases @turn_marks _ mode i quote with one | ⟨two, within, star | slash⟩
      · exact congrArg (pastArgs source · depth) one.symm
      · have calm : byteAt source (i + 1) ≠ ch '\'' ∧ byteAt source (i + 1) ≠ ch '(' ∧
            byteAt source (i + 1) ≠ ch ')' := by
          rw [star]
          decide
        rw [pastArgs_calm ⟨within, inside.2⟩ calm.1 calm.2.1 calm.2.2]
        exact congrArg (pastArgs source · depth) two.symm
      · have calm : byteAt source (i + 1) ≠ ch '\'' ∧ byteAt source (i + 1) ≠ ch '(' ∧
            byteAt source (i + 1) ≠ ch ')' := by
          rw [slash]
          decide
        rw [pastArgs_calm ⟨within, inside.2⟩ calm.1 calm.2.1 calm.2.2]
        exact congrArg (pastArgs source · depth) two.symm
    rw [past, args_turn inside.1 (Nat.ne_of_gt inside.2) (fun here => opens here.2)
      fun here => closes here.2]
    exact ih plain
  | case5 mode i depth outside =>
    have past : pastArgs source i depth = i := by
      rw [pastArgs, dif_neg outside]
    rw [past]
    by_cases done : depth = 0
    · left
      rw [argsEnd, if_pos done]
    · right
      have past : ¬i < source.length := fun inside => outside ⟨inside, Nat.pos_of_ne_zero done⟩
      rw [argsEnd, if_neg done, dif_neg past]
      exact ⟨rfl, Nat.le_of_not_lt past⟩

theorem findThen_eq (plain : thenPlain source mode i = true) :
    findThen source mode i = thenBy source mode i := by
  fun_induction thenPlain source mode i with
  | case1 mode i inside percent w found =>
    rw [findThen, dif_pos inside, if_pos percent, thenBy, dif_pos inside, if_pos percent]
    dsimp only
    rw [if_pos found, if_pos found]
  | case2 mode i inside percent w other paren opens ih =>
    obtain ⟨args, rest⟩ := Bool.and_eq_true_iff.mp plain
    rw [findThen, dif_pos inside, if_pos percent, thenBy, dif_pos inside, if_pos percent]
    dsimp only
    rw [if_neg other, if_neg other, if_pos opens, if_pos opens]
    rcases pastArgs_plain args with ends | ⟨open_, beyond⟩
    · split at rest
      · rename_i last closed
        rw [closed] at ends
        obtain rfl := Option.some.inj ends
        rw [ih _ closed rest]
        split
        · rename_i last' closed'
          rw [closed] at closed'
          obtain rfl := Option.some.inj closed'
          rfl
        · rename_i closed'
          rw [closed] at closed'
          cases closed'
      · rename_i closed
        rw [closed] at ends
        cases ends
    · rw [findThen, dif_neg (Nat.not_lt_of_le beyond)]
      split
      · rename_i last' closed'
        rw [open_] at closed'
        cases closed'
      · rfl
  | case3 mode i inside percent w other paren opens =>
    rw [findThen, dif_pos inside, if_pos percent, thenBy, dif_pos inside, if_pos percent]
    dsimp only
    rw [if_neg other, if_neg other, if_neg opens, if_neg opens]
  | case4 mode i inside percent semi =>
    rw [findThen, dif_pos inside, if_neg percent, if_pos semi, thenBy, dif_pos inside,
      if_neg percent, if_pos semi]
  | case5 mode i inside percent semi next ih =>
    rw [findThen, dif_pos inside, if_neg percent, if_neg semi, thenBy, dif_pos inside,
      if_neg percent, if_neg semi]
    exact ih plain
  | case6 mode i outside =>
    rw [findThen, dif_neg outside, thenBy, dif_neg outside]

theorem group_directive {semi : Nat} (plain : directivePlain source i = true)
    (found : endOf source .text (directiveWord source i source.length).2 = some semi)
    (depth : Nat) : groupFrom source .text (directiveWord source i source.length).2 depth =
      groupFrom source .text (semi + 1) depth := by
  simp only [directivePlain, Bool.and_eq_true] at plain
  rw [group_skip plain.2, found]

theorem group_unended (plain : directivePlain source i = true)
    (found : endOf source .text (directiveWord source i source.length).2 = none)
    (depth : Nat) :
    groupFrom source .text (directiveWord source i source.length).2 depth = none := by
  simp only [directivePlain, Bool.and_eq_true] at plain
  rw [group_skip plain.2, found]

theorem matchingEnd_eq (plain : groupPlain source mode i depth = true) :
    (matchingEnd source mode i depth).toOption = groupFrom source mode i depth := by
  fun_induction groupPlain source mode i depth with
  | case1 mode i depth inside percent w last =>
    simp only [Bool.and_eq_true, beq_iff_eq, decide_eq_true_eq] at plain
    obtain ⟨kind, quotes⟩ := plain
    obtain ⟨closes, rfl⟩ := last
    have own := directiveEnd_iff.mpr quotes
    have noDo : upper (slice source w.1 w.2) ≠ word "DO" := by
      intro do_
      rw [do_] at kind
      exact absurd kind (by decide)
    have end_ : upper (slice source w.1 w.2) = word "END" := by
      by_contra other
      rw [nameMark, if_neg noDo, if_neg other] at kind
      cases kind
    rw [matchingEnd, dif_pos inside, if_pos percent, groupFrom, dif_pos inside, if_pos percent]
    dsimp only
    rw [closes]
    dsimp only
    rw [if_pos rfl]
    split
    · rename_i found
      rw [← own, found]
      rfl
    · rename_i semi found
      rw [if_neg noDo, if_pos end_, if_pos rfl, ← own, found]
      rfl
  | case2 mode i depth inside percent deeper opened closed other =>
    obtain ⟨directive, rest⟩ := Bool.and_eq_true_iff.mp plain
    have parts := directive
    simp only [directivePlain, Bool.and_eq_true, beq_iff_eq, decide_eq_true_eq] at parts
    obtain ⟨⟨kind, quotes⟩, -⟩ := parts
    have own := directiveEnd_iff.mpr quotes
    rw [matchingEnd, dif_pos inside, if_pos percent, groupFrom, dif_pos inside, if_pos percent]
    dsimp only
    split at rest
    · rename_i unended
      have nothing := group_unended directive unended
      split
      · cases place : mark source i with
        | none => simp [nothing, Except.toOption]
        | some m =>
          cases m with
          | opens => simp [nothing, Except.toOption]
          | closes => simp [nothing, unended, Except.toOption]
      · rename_i semi found
        rw [own, unended] at found
        cases found
    · rename_i semi ended
      have past := group_directive directive ended
      split
      · rename_i found
        rw [own, ended] at found
        cases found
      · rename_i semi' found
        rw [own, ended] at found
        cases found
        rw [kind] at rest deeper ⊢
        unfold nameMark at rest kind deeper ⊢
        split
        · rename_i do_
          rw [if_pos do_] at rest kind
          simp only [past]
          exact opened semi ended rest
        · rename_i noDo
          rw [if_neg noDo] at rest kind deeper
          split
          · rename_i end_
            rw [if_pos end_] at rest kind deeper
            have inner : depth ≠ 1 := fun one => deeper ⟨rfl, one⟩
            simp only [if_neg inner]
            rw [past]
            exact closed semi ended rest
          · rename_i noEnd
            rw [if_neg noEnd] at rest kind
            simp only [past]
            exact other semi ended rest
  | case3 mode i depth inside percent next ih =>
    rw [(matchingEnd_turns depth).turn inside percent, group_turn inside percent]
    exact ih plain
  | case4 mode i depth outside =>
    rw [matchingEnd, dif_neg outside, groupFrom, dif_neg outside]
    rfl

end Spans

/-- The scanners agree with scan where the text is plain for them, each on its own: findDirectiveEnd
    in no other text, collectLabels and the statement arms in every text. -/
theorem spans_consistent (source : Bytes) (start : Nat) :
    (findDirectiveEnd source start = endOf source .text start ↔ QuotesMatch source start) ∧
      (groupPlain source .text start 1 = true →
        (findMatchingEnd source start).toOption = groupEnd source start) ∧
      (∀ labels, collectLabels source labels = labelsBy source .text 0 labels) ∧
      (thenPlain source .text start = true →
        findThen source .text start = thenBy source .text start) ∧
      statementEnd source .text start = armEnd source start :=
  ⟨directiveEnd_iff, matchingEnd_eq, labelsFrom_eq .text 0, findThen_eq,
    statementEnd_eq .text start⟩

/-- A group behind an apostrophe in a comment, and a %DO behind its %END. -/
theorem plain_group_consistent :
    Consistent (word "%IF 1 %THEN x = 1; %DO I = 1 TO 2; %I = 3; %END; y %END; z") 0 ∧
      (findMatchingEnd (word "/* it's */ %DO; y %END; %END %DO; z") 0).toOption =
        groupEnd (word "/* it's */ %DO; y %END; %END %DO; z") 0 := by
  obtain ⟨directive, group, labels, thenAt, arm⟩ := spans_consistent
    (word "%IF 1 %THEN x = 1; %DO I = 1 TO 2; %I = 3; %END; y %END; z") 0
  exact ⟨⟨directive.mpr (by decide +kernel), group (by decide +kernel), labels,
      thenAt (by decide +kernel), arm⟩,
    (spans_consistent _ 0).2.1 (by decide +kernel)⟩

/-- A %DO that is the arm of a %IF is not counted: the %END that closes it ends the group. -/
theorem arm_do_unbalanced :
    (findMatchingEnd (word "%IF 1 %THEN %DO; x %END; y %END; z") 0).toOption = some (19, 23) ∧
      groupEnd (word "%IF 1 %THEN %DO; x %END; y %END; z") 0 = some (27, 31) ∧
      ¬Consistent (word "%IF 1 %THEN %DO; x %END; y %END; z") 0 := by
  have found : (findMatchingEnd (word "%IF 1 %THEN %DO; x %END; y %END; z") 0).toOption =
      some (19, 23) := by decide +kernel
  have balanced : groupEnd (word "%IF 1 %THEN %DO; x %END; y %END; z") 0 = some (27, 31) := by
    decide +kernel
  refine ⟨found, balanced, fun consistent => ?_⟩
  have same := consistent.group
  rw [found, balanced] at same
  cases same

end PliPreprocessor
