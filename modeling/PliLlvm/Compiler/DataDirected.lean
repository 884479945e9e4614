import PliLlvm.Compiler.FixedText
import PliLlvm.Runtime.StreamOutput
import Mathlib.Data.List.TakeWhile

/- Data-directed output and input (runtime/rt_stream.c, rt_get.c, src/irgen.cpp): the text
   that PUT DATA writes for FIXED variables, the token scanner and the pair reader that GET DATA
   shares with GET LIST, and the loop the compiler emits round them. A stream is what is
   left of it; the column of the input, EDIT formats and the locks are left out. -/
namespace PliDataDirected
open PliConstFold PliFixedConvert PliFixedText

/-- The selected file's LINESIZE, 0 without one, and rt_col. -/
structure Line where
  linesize : Int32
  col : Int32
  deriving DecidableEq

/-- The wrap test of rt_put_raw. -/
def Line.breaks (l : Line) (n : Nat) : Bool :=
  0 < l.linesize && 0 < l.col && l.linesize < l.col + Int32.ofNat n

def Line.put (l : Line) (n : Nat) : Line :=
  { l with col := (if l.breaks n then 0 else l.col) + Int32.ofNat n }

def Line.lead (l : Line) (n : Nat) : List UInt8 := if l.breaks n then [10] else []

structure Writer where
  line : Line
  itemsOnLine : Nat
  dataItems : Nat
  dataValueNext : Bool
  text : List UInt8

def rtPutRaw (w : Writer) (p : List UInt8) : Writer :=
  { w with
    line := w.line.put p.length
    itemsOnLine := if w.line.breaks p.length then 0 else w.itemsOnLine
    text := w.text ++ (w.line.lead p.length ++ p) }

section
open PliStreamOutput (Rt Carries isOpenFile wraps putFile_carries)

def lineOf (s : Rt) : Line := ⟨if 0 ≤ s.curSlot then s.linesize s.curSlot else 0, s.col⟩

/-- The writer is what the runtime's state is for the selected file: its line, and the text put
    since `before`. -/
structure Writes (before : List UInt8) (f : Nat) (s : Rt) (w : Writer) : Prop where
  selected : s.outF = some f
  opened : isOpenFile s.out f = true
  line : w.line = lineOf s
  text : ∃ sent, Carries s.out sent ∧ sent f = before ++ w.text

theorem lineOf_breaks (s : Rt) (n : Nat) : (lineOf s).breaks n = wraps s n := by
  unfold Line.breaks lineOf wraps
  by_cases slot : 0 ≤ s.curSlot <;> simp [slot]

theorem rtPutRaw_writes {before : List UInt8} {f : Nat} {s : Rt} {w : Writer}
    (writes : Writes before f s w) (p : List UInt8) :
    ∃ s', PliStreamOutput.rtPutRaw s p = some s' ∧ Writes before f s' (rtPutRaw w p) := by
  obtain ⟨sent, carries, sofar⟩ := writes.text
  obtain ⟨o, placed, carries', same⟩ := putFile_carries carries writes.opened (wraps s p.length) p
  refine ⟨{ s with out := o,
                    col := (if wraps s p.length then 0 else s.col) + Int32.ofNat p.length },
    ?_, writes.selected, (same f).1.trans writes.opened, ?_, _, carries', ?_⟩
  · simp only [PliStreamOutput.rtPutRaw, writes.selected, writes.opened, if_true, placed,
      Option.map_some]
  · simp only [rtPutRaw, Line.put, writes.line, lineOf_breaks]
    rfl
  · simp only [rtPutRaw, Line.lead, writes.line, lineOf_breaks, Function.update_self, sofar,
      List.append_assoc]

end

def rtSeparate (w : Writer) : Writer :=
  if w.dataValueNext then { w with dataValueNext := false, itemsOnLine := w.itemsOnLine + 1 }
  else
    let w := if 0 < w.itemsOnLine then rtPutRaw w [32] else w
    { w with itemsOnLine := w.itemsOnLine + 1 }

def pliPutDataName (w : Writer) (name : List UInt8) : Writer :=
  let w := if 0 < w.dataItems then rtPutRaw w [44, 32] else w
  let w := if 0 < name.length then rtPutRaw w name else w
  let w := rtPutRaw w [61]
  { w with dataItems := w.dataItems + 1, dataValueNext := true }

def putValue (w : Writer) (image : List UInt8) : Writer := rtPutRaw (rtSeparate w) image

def pliPutDataEnd (w : Writer) : Writer :=
  { rtPutRaw w [59] with
    itemsOnLine := (rtPutRaw w [59]).itemsOnLine + 1
    dataItems := 0
    dataValueNext := false }

structure Item where
  name : List UInt8
  ty : Ty
  raw : Int
  deriving DecidableEq

def emitPutDataScalar (w : Writer) (i : Item) : Writer :=
  putValue (pliPutDataName w i.name) (valueText i.ty i.raw)

def emitPutDataItems (w : Writer) (items : List Item) : Writer :=
  pliPutDataEnd (items.foldl emitPutDataScalar w)

/-- What a stream has left, and rt_tok_semi. -/
structure Input where
  rest : List UInt8
  semi : Bool
  deriving DecidableEq

def inToken (c : UInt8) : Bool := !isSpace c && c ≠ 44 && c ≠ 59

def rtGetToken (s : Input) (cap : Nat) : Option (List UInt8) × Input :=
  match s.rest.dropWhile isSpace with
  | [] => (none, { s with rest := [] })
  | c :: cs =>
    let after := (c :: cs).dropWhile inToken
    (some (((c :: cs).takeWhile inToken).take (cap - 1)),
      ⟨after.tail, s.semi || after.head? == some 59⟩)

def pliIsalpha (c : UInt8) : Bool := 65 ≤ c && c ≤ 90 || 97 ≤ c && c ≤ 122

def pliToupper (c : UInt8) : UInt8 := if 97 ≤ c ∧ c ≤ 122 then c - 32 else c

def rtDataNamechar (c : UInt8) : Bool := isDigit c || pliIsalpha c || c = 95 || c = 36 || c = 35

def betweenPairs (c : UInt8) : Bool := isSpace c || c = 44

def insidePair (c : UInt8) : Bool := c ≠ 44 && c ≠ 59 && c ≠ 10

/-- One turn of the loop of pli_get_data_next. -/
inductive Turn where
  | ended (s : Input)
  | named (name : List UInt8) (s : Input)
  | again (s : Input)

def dataTurn (s : Input) (cap : Nat) : Turn :=
  if s.semi then .ended { s with semi := false }
  else match s.rest.dropWhile betweenPairs with
    | [] => .ended { s with rest := [] }
    | c :: cs =>
      if c = 59 then .ended { s with rest := cs }
      else
        let name := (c :: cs).takeWhile rtDataNamechar
        let after := ((c :: cs).dropWhile rtDataNamechar).dropWhile fun c => c = 32 || c = 9
        if after.head? = some 61 then
          if name = [] then .again (rtGetToken { s with rest := after.tail } 256).2
          else .named ((name.map pliToupper).take (cap - 1)) { s with rest := after.tail }
        else
          -- a pair without '=' is skipped, its delimiter with it
          let left := after.dropWhile insidePair
          if left.head? = some 59 then .ended { s with rest := left.tail }
          else .again { s with rest := left.tail }

theorem rtGetToken_shorter (s : Input) (cap : Nat) :
    (rtGetToken s cap).2.rest.length ≤ s.rest.length := by
  have dropped := (List.dropWhile_sublist isSpace (l := s.rest)).length_le
  unfold rtGetToken
  split
  · simp
  · rename_i c cs text
    rw [text] at dropped
    have token := (List.dropWhile_sublist inToken (l := c :: cs)).length_le
    dsimp only
    rw [List.length_tail]
    omega

theorem tail_shorter {rest part text : List UInt8} (within : part.length ≤ text.length)
    (some_text : text.length ≤ rest.length) (nonempty : 0 < text.length) :
    part.tail.length < rest.length := by
  rw [List.length_tail]
  omega

variable {s s' : Input}

theorem dataTurn_shorter {cap : Nat}
    (turned : dataTurn s cap = .again s' ∨ ∃ name, dataTurn s cap = .named name s') :
    s'.rest.length < s.rest.length := by
  have dropped := (List.dropWhile_sublist betweenPairs (l := s.rest)).length_le
  unfold dataTurn at turned
  by_cases semi : s.semi = true
  · simp [semi] at turned
  · rw [if_neg semi] at turned
    cases text : s.rest.dropWhile betweenPairs with
    | nil => simp [text] at turned
    | cons c cs =>
      rw [text] at dropped
      simp only [text] at turned
      by_cases stop : c = 59
      · simp [stop] at turned
      · rw [if_neg stop] at turned
        have named := (List.dropWhile_sublist rtDataNamechar (l := c :: cs)).length_le
        have blanks := (List.dropWhile_sublist (fun c => c = 32 || c = 9)
          (l := (c :: cs).dropWhile rtDataNamechar)).length_le
        generalize ((c :: cs).dropWhile rtDataNamechar).dropWhile (fun c => c = 32 || c = 9) = after
          at turned blanks
        have behind := tail_shorter (blanks.trans named) dropped (by simp)
        split at turned
        · split at turned
          · rcases turned with same | ⟨name, impossible⟩
            · cases same
              exact Nat.lt_of_le_of_lt (rtGetToken_shorter _ _) behind
            · cases impossible
          · rcases turned with impossible | ⟨name, same⟩
            · cases impossible
            · cases same
              exact behind
        · have skipped := (List.dropWhile_sublist insidePair (l := after)).length_le
          split at turned
          · rcases turned with impossible | ⟨name, impossible⟩
            · cases impossible
            · cases impossible
          · rcases turned with same | ⟨name, impossible⟩
            · cases same
              exact tail_shorter (skipped.trans (blanks.trans named)) dropped (by simp)
            · cases impossible

def pliGetDataNext (s : Input) (cap : Nat) : Option (List UInt8) × Input :=
  match _turned : dataTurn s cap with
  | .ended s' => (none, s')
  | .named name s' => (some name, s')
  | .again s' => pliGetDataNext s' cap
termination_by s.rest.length
decreasing_by exact dataTurn_shorter (Or.inl _turned)

theorem getDataNext_turn (s : Input) (cap : Nat) :
    pliGetDataNext s cap =
      match dataTurn s cap with
      | .ended s' => (none, s')
      | .named name s' => (some name, s')
      | .again s' => pliGetDataNext s' cap := by
  rw [pliGetDataNext]
  split <;> simp_all

variable {name : List UInt8}

theorem getDataNext_shorter {cap : Nat}
    (found : pliGetDataNext s cap = (some name, s')) : s'.rest.length < s.rest.length := by
  induction size : s.rest.length using Nat.strong_induction_on generalizing s with
  | _ n ih =>
    rw [getDataNext_turn] at found
    cases turned : dataTurn s cap with
    | ended t => simp [turned] at found
    | named other t =>
      rw [turned] at found
      cases found
      rw [← size]
      exact dataTurn_shorter (Or.inr ⟨name, turned⟩)
    | again t =>
      rw [turned] at found
      have less := dataTurn_shorter (Or.inl turned)
      exact (ih _ (size ▸ less) found rfl).trans (size ▸ less)

structure Var where
  name : List UInt8
  ty : Ty

/-- The loop of emitGetDataItems: what is stored where, in order. A reader at the end of the
    input stores 0, which is what it makes of an empty token. -/
def emitGetDataItems (vars : List Var) (s : Input) : List (List UInt8 × Option Int) × Input :=
  match _found : pliGetDataNext s 64 with
  | (none, s') => ([], s')
  | (some name, s') =>
    match vars.find? (·.name = name) with
    | some v =>
      let token := rtGetToken s' 64
      let later := emitGetDataItems vars token.2
      ((v.name, readValue v.ty (token.1.getD [])) :: later.1, later.2)
    | none => emitGetDataItems vars (rtGetToken s' 256).2
termination_by s.rest.length
decreasing_by
  · exact Nat.lt_of_le_of_lt (rtGetToken_shorter _ _) (getDataNext_shorter _found)
  · exact Nat.lt_of_le_of_lt (rtGetToken_shorter _ _) (getDataNext_shorter _found)

theorem getDataItems_next (vars : List Var) (s : Input) :
    emitGetDataItems vars s =
      match pliGetDataNext s 64 with
      | (none, s') => ([], s')
      | (some name, s') =>
        match vars.find? (·.name = name) with
        | some v =>
          ((v.name, readValue v.ty ((rtGetToken s' 64).1.getD [])) ::
              (emitGetDataItems vars (rtGetToken s' 64).2).1,
            (emitGetDataItems vars (rtGetToken s' 64).2).2)
        | none => emitGetDataItems vars (rtGetToken s' 256).2 := by
  rw [emitGetDataItems]
  split <;> simp_all

/- The text of a data list by its layout: a line may break before any piece. -/
def Line.afterName (l : Line) (i : Item) : Line := l.put i.name.length

def Line.afterItem (l : Line) (i : Item) : Line :=
  ((l.afterName i).put 1).put (valueText i.ty i.raw).length

def itemText (l : Line) (i : Item) : List UInt8 :=
  l.lead i.name.length ++ i.name ++ ((l.afterName i).lead 1 ++ [61]) ++
    (((l.afterName i).put 1).lead (valueText i.ty i.raw).length ++ valueText i.ty i.raw)

def textAfter : Line → List Item → List UInt8
  | l, [] => l.lead 1 ++ [59]
  | l, i :: items =>
    l.lead 2 ++ [44, 32] ++ itemText (l.put 2) i ++ textAfter ((l.put 2).afterItem i) items

def listText (l : Line) : List Item → List UInt8
  | [] => l.lead 1 ++ [59]
  | i :: items => itemText l i ++ textAfter (l.afterItem i) items

theorem emitPutDataScalar_text {w : Writer} {i : Item} (named : i.name ≠ []) :
    (emitPutDataScalar w i).text = w.text ++
        (if 0 < w.dataItems then w.line.lead 2 ++ [44, 32] ++ itemText (w.line.put 2) i
          else itemText w.line i) ∧
      (emitPutDataScalar w i).line =
        (if 0 < w.dataItems then w.line.put 2 else w.line).afterItem i ∧
      0 < (emitPutDataScalar w i).dataItems := by
  have some_name : 0 < i.name.length := List.length_pos_iff.mpr named
  unfold emitPutDataScalar putValue pliPutDataName rtSeparate itemText Line.afterItem Line.afterName
  by_cases later : 0 < w.dataItems
  · simp [later, some_name, rtPutRaw]
  · simp [later, some_name, rtPutRaw]

variable {items : List Item}

theorem items_text (named : ∀ i ∈ items, i.name ≠ []) {w : Writer} (later : 0 < w.dataItems) :
    (emitPutDataItems w items).text = w.text ++ textAfter w.line items := by
  unfold emitPutDataItems
  induction items generalizing w with
  | nil => simp [pliPutDataEnd, rtPutRaw, textAfter]
  | cons i items ih =>
    obtain ⟨text, line, more⟩ := @emitPutDataScalar_text w i (named i List.mem_cons_self)
    rw [if_pos later] at text line
    rw [List.foldl_cons, ih (fun j there => named j (List.mem_cons_of_mem i there)) more, text,
      line,
      textAfter, List.append_assoc, List.append_assoc, List.append_assoc]

theorem emitPutDataItems_text (named : ∀ i ∈ items, i.name ≠ []) {w : Writer}
    (fresh : w.dataItems = 0) :
    (emitPutDataItems w items).text = w.text ++ listText w.line items := by
  cases items with
  | nil => simp [emitPutDataItems, pliPutDataEnd, rtPutRaw, listText]
  | cons i items =>
    obtain ⟨text, line, more⟩ := @emitPutDataScalar_text w i (named i List.mem_cons_self)
    rw [if_neg (by omega)] at text line
    have rest := items_text (fun j there => named j (List.mem_cons_of_mem i there)) more
    unfold emitPutDataItems at rest ⊢
    rw [List.foldl_cons, rest, text, line, listText, List.append_assoc]

def identChar (c : UInt8) : Bool := rtDataNamechar c && pliToupper c = c || c = 64

def Identifier (name : List UInt8) : Prop := name ≠ [] ∧ ∀ c ∈ name, identChar c = true

theorem class_apart {member : UInt8 → Bool} {c : UInt8} (here : member c = true)
    (outside : ([9, 10, 13, 32, 44, 59, 61].all fun x => !member x) = true) :
    c ≠ 9 ∧ c ≠ 10 ∧ c ≠ 13 ∧ c ≠ 32 ∧ c ≠ 44 ∧ c ≠ 59 ∧ c ≠ 61 := by
  simp only [List.all_cons, List.all_nil, Bool.and_true, Bool.and_eq_true,
    Bool.not_eq_true'] at outside
  refine ⟨?_, ?_, ?_, ?_, ?_, ?_, ?_⟩ <;> rintro rfl <;> simp_all

theorem namechar_apart {c : UInt8} (named : rtDataNamechar c = true) :
    betweenPairs c = false ∧ c ≠ 59 := by
  have apart := class_apart named (by decide)
  simp [betweenPairs, isSpace, apart]

theorem identChar_facts (c : UInt8) (ident : identChar c = true) :
    betweenPairs c = false ∧ c ≠ 59 ∧ c ≠ 61 ∧ c ≠ 32 ∧ c ≠ 9 ∧ insidePair c = true ∧
      (c ≠ 64 → rtDataNamechar c = true ∧ pliToupper c = c) ∧
        (c = 64 → rtDataNamechar c = false) := by
  have apart := class_apart ident (by decide)
  refine ⟨by simp [betweenPairs, isSpace, apart], apart.2.2.2.2.2.1, apart.2.2.2.2.2.2,
    apart.2.2.2.1, apart.1, by simp [insidePair, apart], fun other => ?_, ?_⟩
  · simpa [identChar, other] using ident
  · rintro rfl
    decide

def imageChar (c : UInt8) : Bool := isDigit c || c = 45 || c = 46

theorem imageChar_facts (c : UInt8) (image : imageChar c = true) :
    isSpace c = false ∧ betweenPairs c = false ∧ c ≠ 59 ∧ c ≠ 61 ∧ c ≠ 32 ∧ c ≠ 9 ∧
      inToken c = true ∧ insidePair c = true := by
  have apart := class_apart image (by decide)
  simp [isSpace, betweenPairs, inToken, insidePair, apart]

variable {ds : List Nat}

theorem digitBytes_image (small : ∀ d ∈ ds, d < 10) : ∀ c ∈ digitBytes ds, imageChar c = true := by
  intro c there
  simp [imageChar, digitBytes_isDigit small there]

theorem signText_image (v : Int) : ∀ c ∈ signText v, imageChar c = true := by
  intro c there
  unfold signText at there
  split at there
  · simp only [List.mem_singleton] at there
    rw [there]
    rfl
  · cases there

theorem image_bytes (n : Nat) : ∀ c ∈ digitBytes (Decimal.image n), imageChar c = true :=
  digitBytes_image fun _ there => Decimal.image_digits there

theorem image_append {p q : List UInt8} (first : ∀ c ∈ p, imageChar c = true)
    (second : ∀ c ∈ q, imageChar c = true) : ∀ c ∈ p ++ q, imageChar c = true := by
  intro c there
  rcases List.mem_append.mp there with front | back
  · exact first c front
  · exact second c back

theorem image_point (small : ∀ d ∈ ds, d < 10) :
    ∀ c ∈ (46 : UInt8) :: digitBytes ds, imageChar c = true := by
  intro c there
  rcases List.mem_cons.mp there with rfl | back
  · rfl
  · exact digitBytes_image small c back

theorem fmtInt_image (v : Int) : ∀ c ∈ fmtInt v, imageChar c = true :=
  image_append (signText_image v) (image_bytes _)

theorem image_optional {p : Prop} [Decidable p] {t : List UInt8}
    (image : ∀ c ∈ t, imageChar c = true) :
    ∀ c ∈ if p then t else [], imageChar c = true := by
  split
  · exact image
  · intro c there
    cases there

theorem valueText_image (ty : Ty) (raw : Int) : ∀ c ∈ valueText ty raw, imageChar c = true := by
  have decfixed : ∀ q, ∀ c ∈ rtFormatDecfixed raw q, imageChar c = true := by
    intro q
    unfold rtFormatDecfixed
    dsimp only
    split
    · exact image_append (signText_image raw) (image_bytes _)
    · exact image_append (image_append (signText_image raw) (image_bytes _))
        (image_optional (image_point fun _ there => Decimal.padded_digits there))
  have decfixed128 : ∀ q, ∀ c ∈ rtFormatDecfixed128 raw q, imageChar c = true := by
    intro q
    unfold rtFormatDecfixed128
    exact image_append (image_append (signText_image raw) (image_bytes _))
      (image_optional (image_point fun _ there => Decimal.padded_digits there))
  have scaled : ∀ q, ∀ c ∈ formatFixedScaled raw q, imageChar c = true := by
    intro q
    unfold formatFixedScaled
    split
    · exact fmtInt_image raw
    · split
      · exact image_append (signText_image raw) (image_bytes _)
      · refine image_append (image_append (signText_image raw) (fmtInt_image _))
          (image_optional (image_point fun _ there => ?_))
        refine Decimal.expansion_digits ?_ there
        have power : (0 : Int) < 2 ^ (min q 62).toNat := by positivity
        have low :=
          Int.emod_lt_of_pos ((if raw < 0 then FixedPoint.word 64 (-raw) else raw) % 2 ^ 64) power
        have cast : ((2 ^ (min q 62).toNat : Nat) : Int) = 2 ^ (min q 62).toNat := by push_cast; rfl
        omega
  unfold valueText
  split
  · split
    · exact decfixed128 _
    · exact decfixed _
  · split
    · exact decfixed128 _
    · split
      · exact scaled _
      · exact fmtInt_image raw

theorem digitBytes_ne_nil (some_digit : ds ≠ []) : digitBytes ds ≠ [] := by
  intro empty
  exact some_digit (List.map_eq_nil_iff.mp empty)

theorem fmtInt_ne_nil (v : Int) : fmtInt v ≠ [] := by
  unfold fmtInt
  exact List.append_ne_nil_of_right_ne_nil _ (digitBytes_ne_nil (Decimal.image_ne_nil _))

theorem valueText_ne_nil (ty : Ty) (raw : Int) : valueText ty raw ≠ [] := by
  have digits : ∀ n, digitBytes (Decimal.image n) ≠ [] :=
    fun n => digitBytes_ne_nil (Decimal.image_ne_nil n)
  unfold valueText rtFormatDecfixed rtFormatDecfixed128 formatFixedScaled
  split
  · split
    · simp [digits]
    · split <;> simp [digits]
  · split
    · simp [digits]
    · split
      · split
        · exact fmtInt_ne_nil raw
        · split
          · simp [digits]
          · simp [fmtInt_ne_nil]
      · exact fmtInt_ne_nil raw

def Stop (c : UInt8) : Prop := c = 10 ∨ c = 44 ∨ c = 59

theorem stop_facts {c : UInt8} (stop : Stop c) :
    inToken c = false ∧ insidePair c = false ∧ rtDataNamechar c = false ∧ c ≠ 61 ∧
      c ≠ 32 ∧ c ≠ 9 := by
  rcases stop with rfl | rfl | rfl <;> decide

theorem lead_cases (l : Line) (n : Nat) : l.lead n = [] ∨ l.lead n = [10] := by
  unfold Line.lead
  split
  · exact Or.inr rfl
  · exact Or.inl rfl

theorem textAfter_stops (l : Line) (items : List Item) :
    ∃ c rest, textAfter l items = c :: rest ∧ Stop c := by
  cases items with
  | nil =>
    rcases lead_cases l 1 with empty | newline
    · exact ⟨59, [], by rw [textAfter, empty]; rfl, Or.inr (Or.inr rfl)⟩
    · exact ⟨10, [59], by rw [textAfter, newline]; rfl, Or.inl rfl⟩
  | cons i items =>
    rcases lead_cases l 2 with empty | newline
    · exact ⟨44, _, by rw [textAfter, empty]; rfl, Or.inr (Or.inl rfl)⟩
    · exact ⟨10, _, by rw [textAfter, newline]; rfl, Or.inl rfl⟩

theorem dropWhile_stops {p : UInt8 → Bool} {front : List UInt8}
    (all : ∀ c ∈ front, p c = true) {c : UInt8}
    (stop : p c = false) (rest : List UInt8) :
    (front ++ c :: rest).dropWhile p = c :: rest ∧ (front ++ c :: rest).takeWhile p = front := by
  constructor
  · rw [List.dropWhile_append_of_pos all, List.dropWhile_cons, stop]
    rfl
  · rw [List.takeWhile_append_of_pos all, List.takeWhile_cons, stop]
    simp

theorem token_read {v : List UInt8} (some_byte : v ≠ []) (image : ∀ c ∈ v, imageChar c = true)
    {lead : List UInt8} (newline : lead = [] ∨ lead = [10]) {c : UInt8} (stop : Stop c)
    (rest : List UInt8) (semi : Bool) (cap : Nat) :
    rtGetToken ⟨lead ++ (v ++ c :: rest), semi⟩ cap =
      (some (v.take (cap - 1)), ⟨rest, semi || c == 59⟩) := by
  obtain ⟨b, bs, rfl⟩ := List.exists_cons_of_ne_nil some_byte
  have first := imageChar_facts b (image b List.mem_cons_self)
  have spaces : ∀ c ∈ lead, isSpace c = true := by
    intro c there
    rcases newline with rfl | rfl
    · cases there
    · simp only [List.mem_singleton] at there
      rw [there]
      rfl
  have inside : ∀ c ∈ b :: bs, inToken c = true :=
    fun c there => (imageChar_facts c (image c there)).2.2.2.2.2.2.1
  have skipped := (dropWhile_stops spaces first.1 (bs ++ c :: rest)).1
  have token := dropWhile_stops inside (stop_facts stop).1 rest
  unfold rtGetToken
  simp only [List.cons_append] at skipped token ⊢
  rw [skipped]
  dsimp only
  rw [token.1, token.2]
  rfl

theorem getDataItems_again {vars : List Var} {s s' : Input} (turned : dataTurn s 64 = .again s') :
    emitGetDataItems vars s = emitGetDataItems vars s' := by
  rw [getDataItems_next, getDataItems_next vars s', getDataNext_turn, turned]

variable {vars : List Var}

theorem getDataItems_ended (turned : dataTurn s 64 = .ended s') :
    emitGetDataItems vars s = ([], s') := by
  rw [getDataItems_next, getDataNext_turn, turned]

theorem getDataItems_semi (vars : List Var) (rest : List UInt8) :
    emitGetDataItems vars ⟨rest, true⟩ = ([], ⟨rest, false⟩) :=
  getDataItems_ended (by simp [dataTurn])

theorem dataTurn_at {junk name : List UInt8} (between : ∀ c ∈ junk, betweenPairs c = true)
    (named : ∀ c ∈ name, rtDataNamechar c = true) {b : UInt8} (ends : rtDataNamechar b = false)
    (blank : b ≠ 32 ∧ b ≠ 9) (starts : name = [] → betweenPairs b = false ∧ b ≠ 59)
    (rest : List UInt8) (cap : Nat) :
    dataTurn ⟨junk ++ (name ++ b :: rest), false⟩ cap =
      if b = 61 then
        if name = [] then .again (rtGetToken ⟨rest, false⟩ 256).2
        else .named ((name.map pliToupper).take (cap - 1)) ⟨rest, false⟩
      else
        if ((b :: rest).dropWhile insidePair).head? = some 59 then
          .ended ⟨((b :: rest).dropWhile insidePair).tail, false⟩
        else .again ⟨((b :: rest).dropWhile insidePair).tail, false⟩ := by
  have parsed := dropWhile_stops named ends rest
  obtain ⟨c, cs, text⟩ : ∃ c cs, name ++ b :: rest = c :: cs := by
    cases name with
    | nil => exact ⟨b, rest, rfl⟩
    | cons c cs => exact ⟨c, cs ++ b :: rest, rfl⟩
  have first : betweenPairs c = false ∧ c ≠ 59 := by
    cases name with
    | nil =>
      cases text
      exact starts rfl
    | cons d ds =>
      have same := (List.cons.inj text).1
      have good := named d List.mem_cons_self
      rw [same] at good
      exact namechar_apart good
  have skipped := (dropWhile_stops between first.1 cs).1
  rw [text] at parsed ⊢
  unfold dataTurn
  dsimp only
  rw [if_neg (by simp), skipped]
  dsimp only
  rw [if_neg first.2, parsed.1, parsed.2]
  have no_blank : (b :: rest).dropWhile (fun c => decide (c = 32) || decide (c = 9)) =
    b :: rest := by
    rw [List.dropWhile_cons]
    simp [blank.1, blank.2]
  rw [no_blank]
  simp only [List.head?_cons, Option.some.injEq, List.tail_cons]

def resumed (after tail : List UInt8) : Input := ⟨(after ++ tail).tail, after.head? == some 59⟩

def readable (l : Line) (i : Item) : Bool := !(l.afterName i).breaks 1 && i.name.all rtDataNamechar

theorem skipped_resumes {vars : List Var} {s : Input} {c : UInt8} {after tail : List UInt8}
    (turned : dataTurn s 64 =
      if (c :: (after ++ tail)).head? = some 59 then .ended ⟨after ++ tail, false⟩
      else .again ⟨after ++ tail, false⟩) :
    emitGetDataItems vars s = emitGetDataItems vars (resumed (c :: after) tail) := by
  by_cases semi : c = 59
  · rw [semi] at turned ⊢
    rw [getDataItems_ended turned]
    exact (getDataItems_semi vars _).symm
  · rw [List.head?_cons, if_neg (by simpa using semi)] at turned
    have flag : (some c == some (59 : UInt8)) = false := by simpa using semi
    rw [getDataItems_again turned, resumed, List.cons_append, List.tail_cons, List.head?_cons, flag]

theorem bare_resumes {v : List UInt8} (some_byte : v ≠ [])
    (image : ∀ c ∈ v, imageChar c = true) {lead : List UInt8} (newline : lead = [] ∨ lead = [10])
    {c : UInt8} (stop : Stop c) (after tail : List UInt8) :
    emitGetDataItems vars ⟨61 :: (lead ++ (v ++ c :: (after ++ tail))), false⟩ =
      emitGetDataItems vars (resumed (c :: after) tail) := by
  have turned := @dataTurn_at [] [] (by simp) (by simp) 61 rfl (by decide) (fun _ => by decide)
    (lead ++ (v ++ c :: (after ++ tail))) 64
  simp only [List.nil_append, if_true] at turned
  rw [token_read some_byte image newline stop] at turned
  rw [getDataItems_again turned, resumed, Bool.false_or]
  rfl

theorem stray_resumes {v : List UInt8} (some_byte : v ≠ [])
    (image : ∀ c ∈ v, imageChar c = true) {c : UInt8} (stop : Stop c) (after tail : List UInt8) :
    emitGetDataItems vars ⟨v ++ c :: (after ++ tail), false⟩ =
      emitGetDataItems vars (resumed (c :: after) tail) := by
  obtain ⟨name, rest, parts⟩ : ∃ name rest, v = name ++ rest ∧
    (∀ c ∈ name, rtDataNamechar c = true) ∧
      (∀ b ∈ rest.head?, rtDataNamechar b = false) := by
    refine ⟨v.takeWhile rtDataNamechar, v.dropWhile rtDataNamechar,
      List.takeWhile_append_dropWhile.symm,
      fun c there => List.mem_takeWhile_imp there, ?_⟩
    intro b there
    have none_left := List.head?_dropWhile_not rtDataNamechar v
    rw [Option.mem_def.mp there] at none_left
    simpa using none_left
  obtain ⟨whole, named, ends⟩ := parts
  have rest_image : ∀ c ∈ rest, imageChar c = true := fun c there =>
    image c (whole ▸ List.mem_append_right name there)
  have skipped := (@dropWhile_stops insidePair rest
    (fun c there => (imageChar_facts c (rest_image c there)).2.2.2.2.2.2.2) c (stop_facts stop).2.1
    (after ++ tail)).1
  apply skipped_resumes
  rw [whole, List.append_assoc]
  cases rest with
  | nil =>
    have name_there : name ≠ [] := by
      intro empty
      rw [empty] at whole
      exact some_byte whole
    have facts := stop_facts stop
    have turned := @dataTurn_at [] name (by simp) named c facts.2.2.1 ⟨facts.2.2.2.2.1,
      facts.2.2.2.2.2⟩
      (fun empty => absurd empty name_there) (after ++ tail) 64
    rw [List.nil_append] at skipped turned ⊢
    rw [skipped, if_neg facts.2.2.2.1] at turned
    exact turned
  | cons b bs =>
    have facts := imageChar_facts b (rest_image b List.mem_cons_self)
    have turned := @dataTurn_at [] name (by simp) named b (ends b rfl) ⟨facts.2.2.2.2.1,
      facts.2.2.2.2.2.1⟩
      (fun _ => ⟨facts.2.1, facts.2.2.1⟩) (bs ++ c :: (after ++ tail)) 64
    rw [List.nil_append] at turned
    rw [List.cons_append] at skipped ⊢
    rw [skipped, if_neg facts.2.2.2.1] at turned
    exact turned

theorem identifier_parts (identifier : Identifier name) (other : name.all rtDataNamechar = false) :
    ∃ front back, name = front ++ 64 :: back ∧ (∀ c ∈ front, rtDataNamechar c = true) ∧
      ∀ c ∈ (64 : UInt8) :: back, insidePair c = true := by
  have ended : ∃ c ∈ name, rtDataNamechar c = false := by
    rw [List.all_eq_false] at other
    obtain ⟨c, there, not_named⟩ := other
    exact ⟨c, there, by simpa using not_named⟩
  cases rest : name.dropWhile rtDataNamechar with
  | nil =>
    obtain ⟨c, there, not_named⟩ := ended
    have all := List.dropWhile_eq_nil_iff.mp rest c there
    rw [not_named] at all
    cases all
  | cons b back =>
    have parts := List.takeWhile_append_dropWhile (p := rtDataNamechar) (l := name)
    rw [rest] at parts
    have not_named := List.head?_dropWhile_not rtDataNamechar name
    rw [rest] at not_named
    have inside : ∀ c ∈ b :: back, c ∈ name := fun c there =>
      parts ▸ List.mem_append_right _ there
    have at_sign : b = 64 := by
      by_contra apart
      have facts := identChar_facts b (identifier.2 b (inside b List.mem_cons_self))
      have good := (facts.2.2.2.2.2.2.1 apart).1
      simp [good] at not_named
    subst at_sign
    exact ⟨_, back, parts.symm, fun c there => List.mem_takeWhile_imp there, fun c there =>
      (identChar_facts c (identifier.2 c (inside c there))).2.2.2.2.2.1⟩

theorem name_kept (identifier : Identifier name) (named : name.all rtDataNamechar = true) :
    name.map pliToupper = name := by
  conv_rhs => rw [← List.map_id name]
  apply List.map_congr_left
  intro c there
  have facts := identChar_facts c (identifier.2 c there)
  have good := List.all_eq_true.mp named c there
  have apart : c ≠ 64 := by
    intro same
    have bad := facts.2.2.2.2.2.2.2 same
    rw [good] at bad
    cases bad
  exact (facts.2.2.2.2.2.2.1 apart).2

variable {l : Line}

theorem unreadable_resumes {i : Item} (identifier : Identifier i.name)
    (bad : readable l i = false) {junk : List UInt8} (between : ∀ c ∈ junk, betweenPairs c = true)
    {c : UInt8} (stop : Stop c) (after tail : List UInt8) :
    emitGetDataItems vars ⟨junk ++ (itemText l i ++ c :: (after ++ tail)), false⟩ =
      emitGetDataItems vars (resumed (c :: after) tail) := by
  have value := valueText_ne_nil i.ty i.raw
  have image := valueText_image i.ty i.raw
  obtain ⟨v, is_value⟩ : ∃ v, v = valueText i.ty i.raw := ⟨_, rfl⟩
  have lead_value := lead_cases ((l.afterName i).put 1) v.length
  have between' : ∀ c ∈ junk ++ l.lead i.name.length, betweenPairs c = true := by
    intro c there
    rcases List.mem_append.mp there with front | newline
    · exact between c front
    · rcases lead_cases l i.name.length with empty | one
      · rw [empty] at newline
        cases newline
      · rw [one, List.mem_singleton] at newline
        rw [newline]
        rfl
  rw [← is_value] at value image
  unfold itemText
  rw [← is_value]
  cases named : i.name.all rtDataNamechar with
  | true =>
    have broken : (l.afterName i).breaks 1 = true := by simpa [readable, named] using bad
    have turned := dataTurn_at between' (List.all_eq_true.mp named) (b := 10) rfl (by decide)
      (fun empty => absurd empty identifier.1)
      (61 :: (((l.afterName i).put 1).lead v.length ++ (v ++ c :: (after ++ tail)))) 64
    rw [if_neg (by decide)] at turned
    have resumes := @getDataItems_again vars _ _ turned
    have lead : (l.afterName i).lead 1 = [10] := by rw [Line.lead, if_pos broken]
    simp only [lead, List.append_assoc, List.cons_append, List.nil_append] at resumes ⊢
    rw [resumes]
    exact bare_resumes value image lead_value stop after tail
  | false =>
    obtain ⟨front, back, whole, named, inside⟩ := identifier_parts identifier named
    rcases lead_cases (l.afterName i) 1 with unbroken | broken
    · rcases lead_value with straight | newline
      · -- everything up to the stop is skipped
        have all : ∀ c ∈ (64 : UInt8) :: back ++ 61 :: v, insidePair c = true := by
          intro c there
          rcases List.mem_append.mp there with first | second
          · exact inside c first
          · rcases List.mem_cons.mp second with rfl | third
            · rfl
            · exact (imageChar_facts c (image c third)).2.2.2.2.2.2.2
        have skipped := (dropWhile_stops all (stop_facts stop).2.1 (after ++ tail)).1
        have turned := dataTurn_at between' named (b := 64) rfl (by decide) (fun _ => by decide)
          (back ++ (61 :: (v ++ c :: (after ++ tail)))) 64
        simp only [List.cons_append, List.append_assoc] at skipped turned
        rw [if_neg (by decide), skipped] at turned
        have resumes := @skipped_resumes vars _ c after tail turned
        simp only [unbroken, straight, whole, List.append_assoc, List.cons_append,
          List.nil_append] at resumes ⊢
        exact resumes
      · have all : ∀ c ∈ (64 : UInt8) :: back ++ [61], insidePair c = true := by
          intro c there
          rcases List.mem_append.mp there with first | second
          · exact inside c first
          · rw [List.mem_singleton.mp second]
            rfl
        have skipped := (dropWhile_stops all (c := 10) rfl (v ++ c :: (after ++ tail))).1
        have turned := dataTurn_at between' named (b := 64) rfl (by decide) (fun _ => by decide)
          (back ++ (61 :: (10 :: (v ++ c :: (after ++ tail))))) 64
        simp only [List.cons_append, List.append_assoc, List.nil_append] at skipped turned
        rw [if_neg (by decide), skipped] at turned
        have resumes := @getDataItems_again vars _ _ turned
        simp only [unbroken, newline, whole, List.append_assoc, List.cons_append, List.nil_append,
          List.tail_cons] at resumes ⊢
        rw [resumes]
        exact stray_resumes value image stop after tail
    · have skipped := (dropWhile_stops inside (c := 10) rfl
        (61 :: (((l.afterName i).put 1).lead v.length ++ (v ++ c :: (after ++ tail))))).1
      have turned := dataTurn_at between' named (b := 64) rfl (by decide) (fun _ => by decide)
        (back ++ (10 :: 61 :: (((l.afterName i).put 1).lead v.length ++
          (v ++ c :: (after ++ tail))))) 64
      simp only [List.cons_append] at skipped turned
      rw [if_neg (by decide), skipped] at turned
      have resumes := @getDataItems_again vars _ _ turned
      simp only [broken, whole, List.append_assoc, List.cons_append, List.nil_append,
        List.tail_cons] at resumes ⊢
      rw [resumes]
      exact bare_resumes value image lead_value stop after tail

def obtained (vars : List Var) (l : Line) (i : Item) : List (List UInt8 × Option Int) :=
  if readable l i then
    match vars.find? (·.name = i.name.take 63) with
    | some v => [(v.name, readValue v.ty ((valueText i.ty i.raw).take 63))]
    | none => []
  else []

def laidOut : Line → List Item → List (Line × Item)
  | _, [] => []
  | l, i :: items => (l, i) :: laidOut ((l.afterItem i).put 2) items

theorem between_lead {junk : List UInt8} (between : ∀ c ∈ junk, betweenPairs c = true)
    (l : Line) (n : Nat) :
    ∀ c ∈ junk ++ l.lead n, betweenPairs c = true := by
  intro c there
  rcases List.mem_append.mp there with front | newline
  · exact between c front
  · rcases lead_cases l n with empty | one
    · rw [empty] at newline
      cases newline
    · rw [one, List.mem_singleton] at newline
      rw [newline]
      rfl

theorem readable_resumes {i : Item} (identifier : Identifier i.name)
    (good : readable l i = true) {junk : List UInt8} (between : ∀ c ∈ junk, betweenPairs c = true)
    {c : UInt8} (stop : Stop c) (after tail : List UInt8) :
    emitGetDataItems vars ⟨junk ++ (itemText l i ++ c :: (after ++ tail)), false⟩ =
      (obtained vars l i ++ (emitGetDataItems vars (resumed (c :: after) tail)).1,
        (emitGetDataItems vars (resumed (c :: after) tail)).2) := by
  obtain ⟨straight, named⟩ : (l.afterName i).breaks 1 = false ∧
    i.name.all rtDataNamechar = true := by
    simpa [readable] using good
  obtain ⟨v, is_value⟩ : ∃ v, v = valueText i.ty i.raw := ⟨_, rfl⟩
  have value := valueText_ne_nil i.ty i.raw
  have image := valueText_image i.ty i.raw
  rw [← is_value] at value image
  have unbroken : (l.afterName i).lead 1 = [] := by simp [Line.lead, straight]
  have turned := dataTurn_at (between_lead between l i.name.length)
    (List.all_eq_true.mp named) (b := 61) rfl
    (by decide) (fun empty => absurd empty identifier.1)
    (((l.afterName i).put 1).lead v.length ++ (v ++ c :: (after ++ tail))) 64
  rw [if_pos rfl, if_neg identifier.1, name_kept identifier named] at turned
  have token := @token_read v value image _ (lead_cases ((l.afterName i).put 1) v.length) c stop
    (after ++ tail) false
  have behind : (⟨after ++ tail, false || c == 59⟩ : Input) = resumed (c :: after) tail := rfl
  rw [behind] at token
  unfold itemText obtained
  rw [← is_value, unbroken, if_pos good, getDataItems_next, getDataNext_turn]
  simp only [List.append_assoc, List.nil_append, List.cons_append] at turned ⊢
  rw [turned]
  dsimp only
  cases found : vars.find? (·.name = i.name.take (64 - 1)) with
  | none | some v => simp [token]

theorem pair_resumes {vars : List Var} {l : Line} {i : Item} (identifier : Identifier i.name)
    {junk : List UInt8} (between : ∀ c ∈ junk, betweenPairs c = true)
    {c : UInt8} (stop : Stop c) (after tail : List UInt8) :
    emitGetDataItems vars ⟨junk ++ (itemText l i ++ c :: (after ++ tail)), false⟩ =
      (obtained vars l i ++ (emitGetDataItems vars (resumed (c :: after) tail)).1,
        (emitGetDataItems vars (resumed (c :: after) tail)).2) := by
  cases good : readable l i with
  | true => exact readable_resumes identifier good between stop after tail
  | false =>
    rw [unreadable_resumes identifier good between stop after tail]
    simp [obtained, good]

theorem resumed_reads {vars : List Var} {items : List Item}
    (identifiers : ∀ i ∈ items, Identifier i.name)
    (l : Line) (tail : List UInt8) :
    emitGetDataItems vars (resumed (textAfter l items) tail) =
      ((laidOut (l.put 2) items).flatMap (fun p => obtained vars p.1 p.2), ⟨tail, false⟩) := by
  induction items generalizing l with
  | nil =>
    rcases lead_cases l 1 with empty | newline
    · rw [textAfter, empty]
      exact getDataItems_semi vars tail
    · rw [textAfter, newline]
      exact getDataItems_ended (by simp [resumed, dataTurn, betweenPairs, isSpace])
  | cons i items ih =>
    obtain ⟨c, after, text, stop⟩ := textAfter_stops ((l.put 2).afterItem i) items
    have later := ih (fun j there => identifiers j (List.mem_cons_of_mem i there))
      ((l.put 2).afterItem i)
    have front : ∃ junk, (∀ c ∈ junk, betweenPairs c = true) ∧
        resumed (textAfter l (i :: items)) tail =
          ⟨junk ++ (itemText (l.put 2) i ++ c :: (after ++ tail)), false⟩ := by
      rcases lead_cases l 2 with empty | newline
      · refine ⟨[32], by simp [betweenPairs, isSpace], ?_⟩
        simp [resumed, textAfter, empty, text]
      · refine ⟨[44, 32], by simp [betweenPairs, isSpace], ?_⟩
        simp [resumed, textAfter, newline, text]
    obtain ⟨junk, between, start⟩ := front
    rw [start, pair_resumes (identifiers i List.mem_cons_self) between stop after tail, ← text,
      later]
    simp [laidOut]

/-- The line on which the first pair starts: a list that was left open still has a comma to put. -/
def Writer.firstLine (w : Writer) : Line := if 0 < w.dataItems then w.line.put 2 else w.line

def dataText (w : Writer) (items : List Item) : List UInt8 :=
  (emitPutDataItems w items).text.drop w.text.length

theorem dataText_eq (identifiers : ∀ i ∈ items, Identifier i.name) (w : Writer) :
    dataText w items = if 0 < w.dataItems then textAfter w.line items else listText
      w.line items := by
  have named : ∀ i ∈ items, i.name ≠ [] := fun i there => (identifiers i there).1
  unfold dataText
  by_cases later : 0 < w.dataItems
  · rw [items_text named later, List.drop_left, if_pos later]
  · rw [emitPutDataItems_text named (by omega), List.drop_left, if_neg later]

theorem dataText_ne_nil (identifiers : ∀ i ∈ items, Identifier i.name) (w : Writer) :
    dataText w items ≠ [] := by
  have after : ∀ l items, textAfter l items ≠ [] := by
    intro l items empty
    obtain ⟨c, rest, text, stop⟩ := textAfter_stops l items
    rw [empty] at text
    cases text
  rw [dataText_eq identifiers]
  split
  · exact after w.line items
  · cases items with
    | nil => simp [listText]
    | cons i items => exact List.append_ne_nil_of_right_ne_nil _ (after _ items)

theorem dataText_reads (identifiers : ∀ i ∈ items, Identifier i.name)
    (w : Writer) (tail : List UInt8) :
    emitGetDataItems vars ⟨dataText w items ++ tail, false⟩ =
      ((laidOut w.firstLine items).flatMap (fun p => obtained vars p.1 p.2), ⟨tail, false⟩) := by
  unfold Writer.firstLine
  rw [dataText_eq identifiers]
  by_cases later : 0 < w.dataItems
  · rw [if_pos later, if_pos later]
    cases items with
    | nil =>
      rcases lead_cases w.line 1 with empty | newline
      · exact getDataItems_ended (by simp [textAfter, empty, dataTurn, betweenPairs, isSpace])
      · exact getDataItems_ended (by simp [textAfter, newline, dataTurn, betweenPairs, isSpace])
    | cons i items =>
      obtain ⟨c, after, text, stop⟩ := textAfter_stops ((w.line.put 2).afterItem i) items
      have rest := @resumed_reads vars items (fun j there =>
        identifiers j (List.mem_cons_of_mem i there))
        ((w.line.put 2).afterItem i) tail
      have between : ∀ c ∈ w.line.lead 2 ++ [44, 32], betweenPairs c = true := by
        rcases lead_cases w.line 2 with blank | blank <;> simp [blank, betweenPairs, isSpace]
      have pair :=
        @pair_resumes vars (w.line.put 2) i (identifiers i List.mem_cons_self) _
        between c stop after tail
      rw [← text, rest] at pair
      rw [textAfter, text]
      simpa [laidOut] using pair
  · rw [if_neg later, if_neg later]
    cases items with
    | nil =>
      rcases lead_cases w.line 1 with empty | newline
      · exact getDataItems_ended (by simp [listText, empty, dataTurn, betweenPairs, isSpace])
      · exact getDataItems_ended (by simp [listText, newline, dataTurn, betweenPairs, isSpace])
    | cons i items =>
      obtain ⟨c, after, text, stop⟩ := textAfter_stops (w.line.afterItem i) items
      have rest := @resumed_reads vars items (fun j there =>
        identifiers j (List.mem_cons_of_mem i there))
        (w.line.afterItem i) tail
      have pair := @pair_resumes vars w.line i (identifiers i List.mem_cons_self) []
        (by simp) c stop after tail
      rw [← text, rest] at pair
      rw [listText, text]
      simpa [laidOut] using pair

theorem obtained_short (vars : List Var) (l : Line) (i : Item) :
    (obtained vars l i).length ≤ 1 := by
  unfold obtained
  split
  · split
    · exact Nat.le_refl 1
    · exact Nat.zero_le 1
  · exact Nat.zero_le 1

theorem obtained_length (vars : List Var) (l : Line) (items : List Item) :
    ((laidOut l items).flatMap (fun p => obtained vars p.1 p.2)).length ≤ items.length := by
  induction items generalizing l with
  | nil => exact Nat.le_refl 0
  | cons i items ih =>
    have first := obtained_short vars l i
    have rest := ih ((l.afterItem i).put 2)
    rw [laidOut, List.flatMap_cons, List.length_append, List.length_cons]
    dsimp only
    omega

theorem obtained_all_iff (vars : List Var) (l : Line) (items : List Item) :
    (laidOut l items).flatMap (fun p => obtained vars p.1 p.2) =
      items.map (fun i => (i.name, some i.raw)) ↔
      ∀ p ∈ laidOut l items, obtained vars p.1 p.2 = [(p.2.name, some p.2.raw)] := by
  induction items generalizing l with
  | nil => simp [laidOut]
  | cons i items ih =>
    have rest := ih ((l.afterItem i).put 2)
    have bound := obtained_length vars ((l.afterItem i).put 2) items
    have first := obtained_short vars l i
    rw [laidOut, List.flatMap_cons, List.map_cons, List.forall_mem_cons, ← rest]
    cases one : obtained vars l i with
    | nil =>
      constructor
      · intro whole
        have lengths := congrArg List.length whole
        simp only [List.nil_append, List.length_cons, List.length_map] at lengths
        omega
      · intro impossible
        cases impossible.1
    | cons p ps =>
      have none_left : ps = [] := by
        rw [one] at first
        exact List.length_eq_zero_iff.mp (by simpa using first)
      subst none_left
      simp

theorem laidOut_mem {p : Line × Item} (there : p ∈ laidOut l items) : p.2 ∈ items := by
  induction items generalizing l with
  | nil => cases there
  | cons i items ih =>
    rcases List.mem_cons.mp there with rfl | later
    · exact List.mem_cons_self
    · exact List.mem_cons_of_mem i (ih later)

def Item.var (i : Item) : Var := ⟨i.name, i.ty⟩

theorem find_own (distinct : (items.map (·.name)).Nodup) {i : Item} (there : i ∈ items) :
    (items.map Item.var).find? (·.name = i.name) = some i.var := by
  induction items with
  | nil => cases there
  | cons j items ih =>
    rw [List.map_cons, List.nodup_cons] at distinct
    rw [List.map_cons, List.find?_cons]
    rcases List.mem_cons.mp there with rfl | later
    · simp [Item.var]
    · have apart : j.name ≠ i.name := fun same =>
        distinct.1 (List.mem_map.mpr ⟨i, later, same.symm⟩)
      simpa [Item.var, apart] using ih distinct.2 later

theorem obtained_iff (distinct : (items.map (·.name)).Nodup) {l : Line} {i : Item}
    (there : i ∈ items) (declared : Declared i.ty) (stored : Stored i.ty i.raw) :
    obtained (items.map Item.var) l i = [(i.name, some i.raw)] ↔
      readable l i = true ∧ i.name.length ≤ 63 ∧ ReadsBack i.ty i.raw := by
  rw [← value_reads_iff declared stored]
  unfold obtained
  by_cases good : readable l i = true
  · rw [if_pos good]
    by_cases short : i.name.length ≤ 63
    · have own := find_own distinct there
      rw [List.take_of_length_le short, own]
      simp [good, short, Item.var]
    · have foreign : ∀ v, (items.map Item.var).find? (·.name = i.name.take 63) = some v →
        v.name ≠ i.name := by
        intro v found same
        have taken : v.name = i.name.take 63 := by simpa using List.find?_some found
        have lengths := congrArg List.length (same.symm.trans taken)
        rw [List.length_take] at lengths
        omega
      cases found : (items.map Item.var).find? (·.name = i.name.take 63) with
      | none => simp [short]
      | some v => simp [short, foreign v found]
  · simp [good]

/-- PUT DATA read back by GET DATA on a stream whose reader was left in any state: the flag of an
    earlier token must be clear, every name must be of letters, digits, '_', '$' and '#', at
    most 63 of them, and with its '=' on one line, and every value one that its text keeps. -/
theorem data_read_back_iff {items : List Item} (identifiers : ∀ i ∈ items, Identifier i.name)
    (distinct : (items.map (·.name)).Nodup) (declared : ∀ i ∈ items, Declared i.ty)
    (stored : ∀ i ∈ items, Stored i.ty i.raw) (w : Writer) (semi : Bool) (tail : List UInt8) :
    emitGetDataItems (items.map Item.var) ⟨dataText w items ++ tail, semi⟩ =
        (items.map (fun i => (i.name, some i.raw)), ⟨tail, false⟩) ↔
      semi = false ∧ ∀ p ∈ laidOut w.firstLine items,
        readable p.1 p.2 = true ∧ p.2.name.length ≤ 63 ∧ ReadsBack p.2.ty p.2.raw := by
  cases semi with
  | true =>
    rw [getDataItems_semi]
    have some_text : dataText w items ++ tail ≠ tail := by
      intro same
      exact dataText_ne_nil identifiers w (List.append_left_eq_self.mp same)
    simp [some_text]
  | false =>
    rw [dataText_reads identifiers, Prod.mk.injEq, obtained_all_iff]
    simp only [and_true, true_and]
    apply forall₂_congr
    intro p placed
    have there := laidOut_mem placed
    exact obtained_iff distinct there (declared _ there) (stored _ there)

instance (name : List UInt8) : Decidable (Identifier name) := inferInstanceAs (Decidable (_ ∧ _))

def sampleItems : List Item := [⟨[65], .fixedDec 5 2, -314⟩, ⟨[66, 95, 49], .fixedDec 3 0, 7⟩]

/-- A=-3.14, B_1=7; on a fresh line, with text behind. -/
theorem data_read_back_two :
    emitGetDataItems (sampleItems.map Item.var)
        ⟨dataText ⟨⟨0, 0⟩, 0, 0, false, []⟩ sampleItems ++ [88], false⟩ =
      ([([65], some (-314)), ([66, 95, 49], some 7)], ⟨[88], false⟩) := by
  apply (data_read_back_iff (by decide +kernel) (by decide) (by decide) (by decide) _ _ _).mpr
  constructor
  · rfl
  · have laid : laidOut (Writer.firstLine ⟨⟨0, 0⟩, 0, 0, false, []⟩) sampleItems =
        [(⟨0, 0⟩, ⟨[65], .fixedDec 5 2, -314⟩), (⟨0, 9⟩, ⟨[66, 95, 49], .fixedDec 3 0, 7⟩)] := by
      decide +kernel
    rw [laid]
    simp only [List.forall_mem_cons, List.not_mem_nil, false_imp_iff, implies_true, and_true]
    constructor
    · refine ⟨by decide, by decide, ?_⟩
      unfold ReadsBack
      decide
    · refine ⟨by decide, by decide, ?_⟩
      unfold ReadsBack
      decide

/-- A GET LIST that reads 5 takes the semicolon behind it, and the flag that it leaves ends the
    data list "A=1;" before its first pair. -/
theorem list_item_ends_data :
    dataText ⟨⟨0, 0⟩, 0, 0, false, []⟩ [⟨[65], .fixedDec 5 0, 1⟩] = [65, 61, 49, 59] ∧
      rtGetToken ⟨[53, 59, 65, 61, 49, 59], false⟩ 64 = (some [53], ⟨[65, 61, 49, 59], true⟩) ∧
      emitGetDataItems [⟨[65], .fixedDec 5 0⟩] ⟨[65, 61, 49, 59], true⟩ =
        ([], ⟨[65, 61, 49, 59], false⟩) := by
  constructor
  · decide +kernel
  · constructor
    · decide +kernel
    · exact getDataItems_semi _ _

end PliDataDirected
