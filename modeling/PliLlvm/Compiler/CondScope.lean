import PliLlvm.Compiler.CondPrefix

/- What a condition prefix means, element by element, and that its words are read so.
   `positive` says what a condition's own name in a prefix stands for. -/
namespace PliCondPrefix

def lastSaid {β : Type} (sense : β → Option Bool) (l : List β) : Option Bool :=
  l.foldl (fun said x => (sense x).or said) none

theorem said_before {β : Type} (tells : β → Option Bool) (l : List β) (said : Option Bool) :
    l.foldl (fun said x => (tells x).or said) said = (lastSaid tells l).or said := by
  induction l generalizing said with
  | nil => rfl
  | cons x l ih =>
    simp only [lastSaid, List.foldl_cons, Option.or_none]
    rw [ih, ih (tells x), Option.or_assoc]

theorem lastSaid_cons {β : Type} (tells : β → Option Bool) (x : β) (l : List β) :
    lastSaid tells (x :: l) = (lastSaid tells l).or (tells x) := by
  rw [← said_before]
  simp [lastSaid]

theorem lastSaid_append {β : Type} (tells : β → Option Bool) (l l' : List β) :
    lastSaid tells (l ++ l') = (lastSaid tells l').or (lastSaid tells l) := by
  rw [← said_before]
  simp [lastSaid]

def CheckItem.sense (on : Bool) (c : Cond) : CheckItem → Option Bool
  | .cond named => if named = c then some on else none
  | .no named => if named = c then some false else none
  | .all => some on
  | .other _ => none

def Element.sense (positive : Cond → Option Bool) (c : Cond) : Element → Option Bool
  | .cond named => if named = c then positive c else none
  | .no named => if named = c then some false else none
  | .check items => lastSaid (CheckItem.sense true c) items
  | .nocheck [] => some false
  | .nocheck items => lastSaid (CheckItem.sense false c) items
  | .other _ => none

def Prefix.sense (positive : Cond → Option Bool) (c : Cond) (pre : Prefix) : Option Bool :=
  lastSaid (Element.sense positive c) pre.flatten

def enables : Cond → Option Bool := fun _ => some true

def enablesOptIn : Cond → Option Bool
  | .check _ => none
  | .stringRange => some true

def CheckItem.names : CheckItem → Bool
  | .other _ => false
  | _ => true

def Element.isOther : Element → Bool
  | .other _ => true
  | _ => false

/-- A list whose words are read as its elements are meant. The parser does not see where the list
    of a CHECK or a NOCHECK ends, so no condition's own name comes after one and
    nothing after a NOCHECK without a list, and it takes a NOCHECK list that names
    nothing it checks for one that is not there. -/
def ReadAsWritten (afterCheck : Bool) : List Element → Prop
  | [] => True
  | .cond _ :: l => afterCheck = false ∧ ReadAsWritten afterCheck l
  | .no _ :: l | .other _ :: l => ReadAsWritten afterCheck l
  | .check _ :: l => ReadAsWritten true l
  | .nocheck [] :: l => ∀ e ∈ l, e.isOther = true
  | .nocheck items :: l => (∃ i ∈ items, i.names = true) ∧ ReadAsWritten true l

def Flags.mark (st : Flags) (said : Cond → Option Bool) : Flags :=
  { no := fun c => match said (.check c) with
      | none => st.no c
      | some on => !on
    chk := fun c => match said (.check c) with
      | none => st.chk c
      | some on => on
    strRange := match said .stringRange with
      | none => st.strRange
      | some on => if on then 1 else -1 }

theorem mark_nothing (st : Flags) : st.mark (fun _ => none) = st := rfl

theorem mark_mark (st : Flags) (first second : Cond → Option Bool) :
    (st.mark first).mark second = st.mark fun c => (second c).or (first c) := by
  simp only [Flags.mark, Flags.mk.injEq]
  refine ⟨funext fun c => ?_, funext fun c => ?_, ?_⟩
  · cases second (.check c) <;> rfl
  · cases second (.check c) <;> rfl
  · cases second .stringRange <;> rfl

theorem set_mark (st : Flags) (c : Cond) (on : Bool) :
    st.set (if on then 1 else -1) c = st.mark fun d => if c = d then some on else none := by
  cases c with
  | check c =>
    simp only [Flags.set, Flags.mark, Flags.mk.injEq]
    refine ⟨funext fun d => ?_, funext fun d => ?_, by simp⟩
    · by_cases same : d = c
      · subst same
        cases on <;> simp
      · have other : Cond.check c ≠ Cond.check d := fun h => same (Cond.check.inj h).symm
        simp [Function.update_of_ne same, other]
    · by_cases same : d = c
      · subst same
        cases on <;> simp
      · have other : Cond.check c ≠ Cond.check d := fun h => same (Cond.check.inj h).symm
        simp [Function.update_of_ne same, other]
  | stringRange => simp [Flags.set, Flags.mark]

theorem setCond_one (st : Flags) (c : Cond) (on : Bool) :
    st.setCond (some c) (if on then 1 else -1) =
      st.mark fun d => if c = d then some on else none :=
  set_mark st c on

theorem setCond_all (st : Flags) (on : Bool) :
    st.setCond none (if on then 1 else -1) = st.mark fun _ => some on := by
  simp only [Flags.setCond, allConds, List.foldl_cons, List.foldl_nil, set_mark, mark_mark]
  congr 1
  funext d
  cases d with
  | check c => cases c <;> rfl
  | stringRange => rfl

theorem which_text (c : Cond) :
    c.text ≠ "CHECK" ∧ c.text ≠ "NOCHECK" ∧ withoutNo c.text = none ∧
      whichCond c.text = some (some c) := by
  cases c with
  | check c => cases c <;> decide
  | stringRange => decide

theorem which_noText (c : Cond) :
    c.noText ≠ "CHECK" ∧ c.noText ≠ "NOCHECK" ∧ withoutNo c.noText = some c.text := by
  cases c with
  | check c => cases c <;> decide
  | stringRange => decide

theorem step_check (w : Words) :
    w.step "CHECK" =
      { w with anyWord := true, checkMode := true, noCheckMode := false, named := false } :=
  rfl

theorem step_nocheck (w : Words) :
    w.step "NOCHECK" =
      { w with anyWord := true, noCheckMode := true, checkMode := false, named := false } :=
  rfl

theorem step_other (w : Words) (word : OtherWord) :
    w.step word.text = { w with anyWord := true, allHandled := false } := by
  obtain ⟨check, nocheck, plain, unknown⟩ := word.unknown
  simp [Words.step, check, nocheck, plain, unknown]

theorem step_no (w : Words) (c : Cond) :
    w.step c.noText = { w with anyWord := true }.apply (some c) (-1) := by
  obtain ⟨check, nocheck, no⟩ := which_noText c
  simp only [Words.step, if_neg check, if_neg nocheck, no, Option.getD_some, Option.isSome_some,
    if_true, (which_text c).2.2.2]

theorem step_cond (w : Words) (c : Cond) :
    w.step c.text = match plainState w (some c) with
      | none => { w with anyWord := true, allHandled := false }
      | some state => { w with anyWord := true }.apply (some c) state := by
  obtain ⟨check, nocheck, plain, which⟩ := which_text c
  simp only [Words.step, if_neg check, if_neg nocheck, plain, Option.getD_none,
    Option.isSome_none, Bool.false_eq_true, if_false, which]
  rfl

theorem step_all (w : Words) :
    w.step "ALL" = match plainState w none with
      | none => { w with anyWord := true, allHandled := false }
      | some state => { w with anyWord := true }.apply none state := by
  rfl

theorem step_item (w : Words) (on : Bool) (mode : w.checkMode = on ∧ w.noCheckMode = !on)
    (i : CheckItem) :
    (w.step i.text).st = w.st.mark (fun c => i.sense on c) ∧
      (w.step i.text).checkMode = on ∧ (w.step i.text).noCheckMode = !on ∧
      (w.step i.text).named = (w.named || i.names) := by
  obtain ⟨check, nocheck⟩ := mode
  have plain : ∀ which, plainState w which = some (if on then 1 else -1) := by
    intro which
    cases on <;> simp [plainState, check, nocheck]
  have inMode : (on || !on) = true := by cases on <;> rfl
  have nonzero : (if on then (1 : Int) else -1) ≠ 0 := by cases on <;> decide
  cases i with
  | cond c =>
    simp [CheckItem.text, step_cond, plain, Words.apply, check, nocheck, inMode, nonzero,
      CheckItem.names, setCond_one, CheckItem.sense]
  | no c =>
    have off := setCond_one w.st c false
    simp only [Bool.false_eq_true, if_false] at off
    simp [CheckItem.text, step_no, Words.apply, check, nocheck, inMode, CheckItem.names, off,
      CheckItem.sense]
  | all =>
    simp [CheckItem.text, step_all, plain, Words.apply, check, nocheck, inMode, nonzero,
      CheckItem.names, setCond_all, CheckItem.sense]
  | other word =>
    simp [CheckItem.text, step_other, check, nocheck, CheckItem.names, CheckItem.sense,
      mark_nothing]

theorem items_read (w : Words) (on : Bool) (mode : w.checkMode = on ∧ w.noCheckMode = !on)
    (items : List CheckItem) :
    let w' := (items.map CheckItem.text).foldl Words.step w
    w'.st = w.st.mark (fun c => lastSaid (CheckItem.sense on c) items) ∧
      w'.checkMode = on ∧ w'.noCheckMode = !on ∧
      w'.named = (w.named || items.any CheckItem.names) := by
  induction items generalizing w with
  | nil => exact ⟨rfl, mode.1, mode.2, by simp⟩
  | cons i items ih =>
    obtain ⟨st, check, nocheck, named⟩ := step_item w on mode i
    obtain ⟨st', check', nocheck', named'⟩ := ih (w.step i.text) ⟨check, nocheck⟩
    simp only [List.map_cons, List.foldl_cons]
    refine ⟨?_, check', nocheck', ?_⟩
    · rw [st', st, mark_mark]
      simp only [lastSaid_cons]
    · rw [named', named, List.any_cons, Bool.or_assoc]

def Element.words : Element → List String
  | .cond c => [c.text]
  | .no c => [c.noText]
  | .check items => "CHECK" :: items.map CheckItem.text
  | .nocheck items => "NOCHECK" :: items.map CheckItem.text
  | .other word => [word.text]

theorem others_read (w : Words) (l : List Element) (others : ∀ e ∈ l, e.isOther = true) :
    ((l.flatMap Element.words).foldl Words.step w).flags = w.flags := by
  induction l generalizing w with
  | nil => rfl
  | cons e l ih =>
    have first := others e List.mem_cons_self
    cases e with
    | other word =>
      simp only [List.flatMap_cons, Element.words, List.foldl_append, List.foldl_cons,
        List.foldl_nil]
      rw [ih _ fun e h => others e (List.mem_cons_of_mem _ h), step_other]
      rfl
    | cond c | no c | check items | nocheck items => simp [Element.isOther] at first

theorem others_silent (positive : Cond → Option Bool) (c : Cond) (l : List Element)
    (others : ∀ e ∈ l, e.isOther = true) : lastSaid (Element.sense positive c) l = none := by
  induction l with
  | nil => rfl
  | cons e l ih =>
    have first := others e List.mem_cons_self
    rw [lastSaid_cons, ih fun e h => others e (List.mem_cons_of_mem _ h)]
    cases e with
    | other word => rfl
    | cond c | no c | check items | nocheck items => simp [Element.isOther] at first

def Words.settled (w : Words) : Prop := w.noCheckMode = true → w.named = true

theorem flags_settled (w : Words) (settled : w.settled) : w.flags = w.st := by
  unfold Words.flags
  cases no : w.noCheckMode with
  | false => rfl
  | true => simp [settled no]

theorem read_cond (w : Words) (c : Cond) (outside : w.checkMode = false ∧ w.noCheckMode = false) :
    (w.step c.text).st = w.st.mark (fun d => Element.sense enablesOptIn d (.cond c)) ∧
      (w.step c.text).checkMode = false ∧ (w.step c.text).noCheckMode = false := by
  obtain ⟨check, nocheck⟩ := outside
  have optIn := setCond_one w.st .stringRange true
  cases c with
  | check c =>
    have silent : (fun d => Element.sense enablesOptIn d (.cond (.check c))) = fun _ => none := by
      funext d
      by_cases same : Cond.check c = d
      · subst same
        simp [Element.sense, enablesOptIn]
      · simp [Element.sense, same]
    simp [step_cond, plainState, Words.apply, check, nocheck, silent, mark_nothing]
  | stringRange =>
    have heard : (fun d => Element.sense enablesOptIn d (.cond .stringRange)) =
        fun d => if Cond.stringRange = d then some true else none := by
      funext d
      by_cases same : Cond.stringRange = d
      · subst same
        simp [Element.sense, enablesOptIn]
      · simp [Element.sense, same]
    rw [heard, ← optIn]
    simp [step_cond, plainState, Words.apply, check, nocheck]

theorem read_no (w : Words) (c : Cond) :
    (w.step c.noText).st = w.st.mark (fun d => Element.sense enablesOptIn d (.no c)) ∧
      (w.step c.noText).checkMode = w.checkMode ∧
      (w.step c.noText).noCheckMode = w.noCheckMode ∧ (w.step c.noText).settled := by
  have off := setCond_one w.st c false
  simp only [Bool.false_eq_true, if_false] at off
  rw [step_no]
  cases check : w.checkMode <;> cases nocheck : w.noCheckMode <;>
    simp_all [Words.apply, Words.settled, Element.sense]

theorem elements_read (w : Words) (afterCheck : Bool) (l : List Element)
    (asWritten : ReadAsWritten afterCheck l) (settled : w.settled)
    (before : afterCheck = false → w.checkMode = false ∧ w.noCheckMode = false) :
    ((l.flatMap Element.words).foldl Words.step w).flags =
      w.st.mark fun c => lastSaid (Element.sense enablesOptIn c) l := by
  induction l generalizing w afterCheck with
  | nil => exact flags_settled w settled
  | cons e l ih =>
    simp only [List.flatMap_cons, List.foldl_append, lastSaid_cons]
    rw [← mark_mark w.st (fun c => Element.sense enablesOptIn c e)]
    cases e with
    | cond c =>
      obtain ⟨outside, rest⟩ := asWritten
      obtain ⟨st, check, nocheck⟩ := read_cond w c (before outside)
      rw [← st]
      refine ih _ _ rest ?_ fun _ => ⟨check, nocheck⟩
      intro pending
      exact absurd (nocheck.symm.trans pending) (by decide)
    | no c =>
      obtain ⟨st, check, nocheck, settled'⟩ := read_no w c
      rw [← st]
      refine ih _ _ asWritten settled' fun outside => ?_
      obtain ⟨check', nocheck'⟩ := before outside
      exact ⟨check.trans check', nocheck.trans nocheck'⟩
    | check items =>
      obtain ⟨st, check, nocheck, named⟩ :=
        items_read (w.step "CHECK") true ⟨rfl, rfl⟩ items
      simp only [step_check] at st
      simp only [Element.words, List.foldl_cons, Element.sense]
      rw [← st]
      refine ih _ _ asWritten ?_ fun outside => absurd outside (by decide)
      intro pending
      exact absurd (nocheck.symm.trans pending) (by decide)
    | nocheck items =>
      cases items with
      | nil =>
        have off := setCond_all w.st false
        simp only [Bool.false_eq_true, if_false] at off
        have quiet : (fun c => lastSaid (Element.sense enablesOptIn c) l) = fun _ => none :=
          funext fun c => others_silent enablesOptIn c l asWritten
        rw [quiet, mark_nothing]
        simp only [Element.words, List.map_nil, List.foldl_cons, List.foldl_nil, Element.sense]
        rw [others_read _ l asWritten, step_nocheck, ← off]
        rfl
      | cons i items =>
        obtain ⟨speaks, rest⟩ := asWritten
        obtain ⟨st, check, nocheck, named⟩ :=
          items_read (w.step "NOCHECK") false ⟨rfl, rfl⟩ (i :: items)
        simp only [step_nocheck] at st
        simp only [Element.words, List.foldl_cons, Element.sense]
        rw [← st]
        refine ih _ _ rest ?_ fun outside => absurd outside (by decide)
        intro _
        rw [named, List.any_eq_true.mpr speaks, Bool.or_true]
    | other word =>
      simp only [Element.words, List.foldl_cons, List.foldl_nil, Element.sense, step_other]
      exact ih _ _ asWritten settled before

def Balanced (toks : List Tok) : Prop :=
  ∀ depth rest, closing (depth + 1) (toks ++ rest) =
    (toks ++ (closing (depth + 1) rest).1, (closing (depth + 1) rest).2)

theorem balanced_word (text : String) : Balanced [.word text] := fun _ _ => rfl

theorem balanced_append {first second : List Tok} (left : Balanced first)
    (right : Balanced second) : Balanced (first ++ second) := by
  intro depth rest
  rw [List.append_assoc, left, right, List.append_assoc]

theorem balanced_commaList (parts : List (List Tok)) (each : ∀ p ∈ parts, Balanced p) :
    Balanced (commaList parts) := by
  induction parts with
  | nil => exact fun _ _ => rfl
  | cons part parts ih =>
    have first := each part List.mem_cons_self
    have rest := ih fun p h => each p (List.mem_cons_of_mem _ h)
    cases parts with
    | nil => exact first
    | cons next parts =>
      have comma : Balanced [.comma] := fun _ _ => rfl
      exact balanced_append first (balanced_append comma rest)

theorem balanced_parens {toks : List Tok} (inside : Balanced toks) :
    Balanced (.lparen :: (toks ++ [.rparen])) := by
  intro depth rest
  simp only [List.cons_append, List.append_assoc, List.nil_append, closing]
  rw [inside (depth + 1)]
  simp [closing]

theorem balanced_items (items : List CheckItem) : Balanced (itemToks items) := by
  refine balanced_parens (balanced_commaList _ ?_)
  intro p member
  obtain ⟨i, _, rfl⟩ := List.mem_map.mp member
  exact balanced_word i.text

theorem balanced_element (e : Element) : Balanced e.toks := by
  cases e with
  | cond c => exact balanced_word c.text
  | no c => exact balanced_word c.noText
  | check items => exact balanced_append (balanced_word "CHECK") (balanced_items items)
  | nocheck items =>
    cases items with
    | nil => exact balanced_word "NOCHECK"
    | cons i items =>
      exact balanced_append (balanced_word "NOCHECK") (balanced_items (i :: items))
  | other word => exact balanced_word word.text

theorem closing_list (l : List Element) (rest : List Tok) :
    closing 1 (commaList (l.map Element.toks) ++ .rparen :: rest) =
      (commaList (l.map Element.toks) ++ [.rparen], rest) := by
  have inside : Balanced (commaList (l.map Element.toks)) := by
    refine balanced_commaList _ ?_
    intro p member
    obtain ⟨e, _, rfl⟩ := List.mem_map.mp member
    exact balanced_element e
  rw [inside 0]
  simp [closing]

theorem words_commaList (parts : List (List Tok)) :
    (commaList parts).filterMap wordText = parts.flatMap fun p => p.filterMap wordText := by
  induction parts with
  | nil => rfl
  | cons part parts ih =>
    cases parts with
    | nil => simp [commaList]
    | cons next parts =>
      simp only [commaList, List.filterMap_append, List.flatMap_cons] at ih ⊢
      rw [List.filterMap_cons_none rfl, ih]

theorem words_items (items : List CheckItem) :
    (itemToks items).filterMap wordText = items.map CheckItem.text := by
  simp only [itemToks, List.filterMap_cons_none (show wordText .lparen = none from rfl),
    List.filterMap_append, words_commaList, List.flatMap_map]
  induction items with
  | nil => rfl
  | cons i items ih => simpa [wordText] using ih

theorem words_element (e : Element) : e.toks.filterMap wordText = e.words := by
  cases e with
  | cond c | no c => rfl
  | check items =>
    rw [Element.toks, List.filterMap_cons_some (show wordText _ = some _ from rfl), words_items]
    rfl
  | nocheck items =>
    cases items with
    | nil => rfl
    | cons i items =>
      rw [Element.toks, List.filterMap_cons_some (show wordText _ = some _ from rfl),
        words_items]
      · rfl
      · simp
  | other word => rfl

theorem words_list (l : List Element) :
    (commaList (l.map Element.toks) ++ [Tok.rparen]).filterMap wordText =
      l.flatMap Element.words := by
  rw [List.filterMap_append, words_commaList, List.flatMap_map]
  simp only [words_element]
  simp [wordText]

def readList (st : Flags) (l : List Element) : Flags :=
  ((l.flatMap Element.words).foldl Words.step { st := st }).flags

def readPrefix (st : Flags) (pre : Prefix) : Flags := pre.foldl readList st

theorem parse_list (st : Flags) (l : List Element) (rest : List Tok) :
    (parseCondPrefixes st (listToks l ++ rest)).1 =
      (parseCondPrefixes (readList st l) rest).1 := by
  have close := closing_list l (.colon :: rest)
  have shape : listToks l ++ rest =
      .lparen :: (commaList (l.map Element.toks) ++ .rparen :: .colon :: rest) := by
    simp [listToks]
  have read : (readWords st (commaList (l.map Element.toks) ++ [.rparen])).flags =
      readList st l := by
    rw [readWords, words_list]
    rfl
  rw [shape, parseCondPrefixes]
  split
  · rename_i behind colon
    rw [close] at colon
    obtain rfl := (List.cons.inj colon).2
    rw [close]
    show (parseCondPrefixes (readWords st _).flags rest).1 = _
    rw [read]
  · rename_i noColon
    exact absurd (by rw [close]) (noColon rest)

theorem parse_lead (st : Flags) (pre : Prefix) :
    (parseCondPrefixes st (prefixToks pre)).1 = some (readPrefix st pre, [.other]) := by
  unfold prefixToks
  induction pre generalizing st with
  | nil =>
    rw [List.flatMap_nil, List.nil_append, parseCondPrefixes]
    · rfl
    · simp
  | cons l pre ih =>
    rw [List.flatMap_cons, List.append_assoc, parse_list, ih]
    rfl

theorem list_read (st : Flags) (l : List Element) (asWritten : ReadAsWritten false l) :
    readList st l = st.mark fun c => lastSaid (Element.sense enablesOptIn c) l := by
  refine elements_read { st := st } false l asWritten ?_ fun _ => ⟨rfl, rfl⟩
  intro pending
  cases pending

theorem prefix_read (st : Flags) (pre : Prefix) (asWritten : ∀ l ∈ pre, ReadAsWritten false l) :
    readPrefix st pre = st.mark fun c => pre.sense enablesOptIn c := by
  induction pre generalizing st with
  | nil => rfl
  | cons l pre ih =>
    have rest := ih (readList st l) fun l h => asWritten l (List.mem_cons_of_mem _ h)
    rw [readPrefix, List.foldl_cons]
    rw [readPrefix] at rest
    rw [rest, list_read st l (asWritten l List.mem_cons_self), mark_mark]
    simp only [Prefix.sense, List.flatten_cons, lastSaid_append]

end PliCondPrefix
