import PliLlvm.Runtime.EditColumn
import Mathlib.Data.List.TakeWhile

/- rt_col at stdout across list, data and edit items, SKIP, PAGE, LINE, COLUMN and DISPLAY
   (runtime/rt_stream.c, runtime/rt_edit.c). An item comes as the text that it formats; a
   FIXED, FLOAT or picture item as what is in its buffer. Nothing selects a file or a STRING
   here, so the reset of rt_items_on_line by a file's wrap is left out. -/
namespace PliColumnTrack
open Runs PliStreamOutput PliEditColumn

structure Out where
  rt : Rt
  itemsOnLine : Int
  dataItems : Int
  dataValueNext : Bool

def Out.start : Out := ⟨Rt.start, 0, 0, false⟩

def putRaw (o : Out) (p : List UInt8) : Option Out := (rtPutRaw o.rt p).map ({ o with rt := · })

def putAll (o : Out) (ps : List (List UInt8)) : Option Out := ps.foldlM putRaw o

/-- `if (rt_col > 0)`, a new line and `rt_col = 0`. -/
def endLine (o : Out) : Option Out :=
  if 0 < o.rt.col then (putRaw o [10]).map fun o => { o with rt := { o.rt with col := 0 } }
  else some o

def rtSeparate (o : Out) : Option Out :=
  if o.dataValueNext then
    some { o with dataValueNext := false, itemsOnLine := o.itemsOnLine + 1 }
  else
    (if 0 < o.itemsOnLine then putRaw o [32] else some o).map fun o =>
      { o with itemsOnLine := o.itemsOnLine + 1 }

/- An item of no characters is not handed to the writer. -/
def putSome (o : Out) (p : List UInt8) : Option Out := if 0 < p.length then putRaw o p else some o

def putListChar (o : Out) (p : List UInt8) : Option Out := (rtSeparate o).bind (putSome · p)

def putListText (o : Out) (buf : List UInt8) : Option Out := (rtSeparate o).bind (putRaw · buf)

def putDataName (o : Out) (p : List UInt8) : Option Out :=
  (if 0 < o.dataItems then putRaw o [44, 32] else some o).bind fun o =>
    (putSome o p).bind fun o => (putRaw o [61]).map fun o =>
      { o with dataItems := o.dataItems + 1, dataValueNext := true }

def putDataEnd (o : Out) : Option Out :=
  (putRaw o [59]).map fun o =>
    { o with itemsOnLine := o.itemsOnLine + 1, dataItems := 0, dataValueNext := false }

def pad (o : Out) (taken w : Int) : Option Out :=
  putAll o (List.replicate (w - taken).toNat [32])

def putField (o : Out) (p : List UInt8) (w : Int) : Option Out :=
  (pad o p.length w).bind (putRaw · p)

def putEditChar (o : Out) (p : List UInt8) (w : Int) : Option Out :=
  let take := if (p.length : Int) < w then (p.length : Int) else w
  (pad o take w).bind (putSome · (p.take take.toNat))

def putEditX (o : Out) (w : Int) : Option Out := pad o 0 w

def putEditBit (o : Out) (bits : List Bool) (w : Int) : Option Out :=
  let w := if w < bits.length then (bits.length : Int) else w
  (pad o bits.length w).bind (putAll · (bits.map fun bit => if bit then [49] else [48]))

def columnFuel : Nat := 2 ^ 32

def putEditColumn (o : Out) (n : Int) : Option Out :=
  (pliPutEditColumn columnFuel o.rt n).map fun (rt, _) => { o with rt := rt }

def putEditSkip (o : Out) (n : Int) : Option Out :=
  let n := if n < 1 then 1 else n
  putAll o (List.replicate n.toNat [10])

def putEditPage (o : Out) : Option Out := putRaw o [12]

def putEditLine (o : Out) (n : Int) : Option Out :=
  let n := if n < 1 then 1 else n
  putAll o (List.replicate (n - 1).toNat [10])

/-- pli_put_skip where no file is selected. -/
def putSkip (o : Out) (n : Int) : Option Out :=
  let n := if n < 1 then 1 else n
  (endLine o).bind fun o => (putAll o (List.replicate (n - 1).toNat [10])).map fun o =>
    { o with itemsOnLine := 0 }

def putPage (o : Out) : Option Out :=
  (if 0 < o.rt.col then putRaw o [10] else some o).bind fun o => (putRaw o [12]).map fun o =>
    { o with rt := { o.rt with col := 0 }, itemsOnLine := 0 }

def displayBegin (o : Out) : Option Out := (endLine o).map fun o => { o with itemsOnLine := 0 }

def displayEnd (o : Out) : Option Out :=
  (putRaw o [10]).map fun o => { o with rt := { o.rt with col := 0 }, itemsOnLine := 0 }

def displayChar (o : Out) (p : List UInt8) : Option Out :=
  (displayBegin o).bind fun o => (putSome o p).bind displayEnd

def displayText (o : Out) (buf : List UInt8) : Option Out :=
  (displayBegin o).bind fun o => (putRaw o buf).bind displayEnd

inductive Call where
  | listChar (p : List UInt8)
  | listText (buf : List UInt8)
  | dataName (p : List UInt8)
  | dataEnd
  | editField (p : List UInt8) (w : Int)
  | editChar (p : List UInt8) (w : Int)
  | editX (w : Int)
  | editBit (bits : List Bool) (w : Int)
  | editPic (outbuf : List UInt8)
  | editColumn (n : Int)
  | editSkip (n : Int)
  | editPage
  | editLine (n : Int)
  | skip (n : Int)
  | page
  | displayChar (p : List UInt8)
  | displayText (buf : List UInt8)

def step (o : Out) : Call → Option Out
  | .listChar p => putListChar o p
  | .listText buf => putListText o buf
  | .dataName p => putDataName o p
  | .dataEnd => putDataEnd o
  | .editField p w => putField o p w
  | .editChar p w => putEditChar o p w
  | .editX w => putEditX o w
  | .editBit bits w => putEditBit o bits w
  | .editPic outbuf => putRaw o outbuf
  | .editColumn n => putEditColumn o n
  | .editSkip n => putEditSkip o n
  | .editPage => putEditPage o
  | .editLine n => putEditLine o n
  | .skip n => putSkip o n
  | .page => putPage o
  | .displayChar p => displayChar o p
  | .displayText buf => displayText o buf

/- What stdout shows, and where its last line has got to. -/

def written (s : Rt) : List UInt8 := s.stdout ++ s.stdoutBuf

def inLine (c : UInt8) : Bool := c != 10 && c != 12

def lineLength (text : List UInt8) : Nat := (text.reverse.takeWhile inLine).length

theorem lineLength_append_inLine (text : List UInt8) {more : List UInt8}
    (plain : more.all inLine = true) : lineLength
    (text ++ more) = lineLength text + more.length := by
  have whole : ∀ c ∈ more.reverse, inLine c = true := by
    intro c member
    exact List.all_eq_true.mp plain c (List.mem_reverse.mp member)
  rw [lineLength, List.reverse_append, List.takeWhile_append_of_pos whole, List.length_append,
    List.length_reverse, lineLength, Nat.add_comm]

theorem lineLength_break (text : List UInt8) {more : List UInt8}
    (broken : more.all inLine = false) :
    lineLength (text ++ more) = lineLength more ∧ lineLength more < more.length := by
  have short : (more.reverse.takeWhile inLine).length ≠ more.reverse.length := by
    intro same
    have whole := List.takeWhile_eq_self_iff.mp
      ((List.takeWhile_prefix inLine).eq_of_length same)
    have all : more.all inLine = true :=
      List.all_eq_true.mpr fun c member => whole c (List.mem_reverse.mpr member)
    rw [all] at broken
    cases broken
  have le := (List.takeWhile_prefix inLine (l := more.reverse)).length_le
  constructor
  · rw [lineLength, List.reverse_append, List.takeWhile_append, if_neg short, lineLength]
  · rw [lineLength]
    rw [List.length_reverse] at short le
    omega

structure Console (s : Rt) : Prop where
  file : s.outF = none
  spoken : s.outDiscard = false
  string : s.outBuf = none

/-- One call's text on stdout, counted in rt_col. -/
structure Wrote (o o' : Out) (text : List UInt8) : Prop where
  console : Console o'.rt
  shown : written o'.rt = written o.rt ++ text
  col : o'.rt.col = o.rt.col + Int32.ofNat text.length

variable {o : Out}

theorem wrote_nothing (console : Console o.rt) : Wrote o o [] :=
  ⟨console, (List.append_nil _).symm, by simp⟩

theorem Wrote.trans {a b c : Out} {first second : List UInt8} (one : Wrote a b first)
    (two : Wrote b c second) : Wrote a c (first ++ second) :=
  ⟨two.console, by rw [two.shown, one.shown, List.append_assoc],
    by rw [two.col, one.col, List.length_append, Int32.ofNat_add, Int32.add_assoc]⟩

theorem console_put {s : Rt} (console : Console s) (p : List UInt8) :
    ∃ s', rtPutRaw s p = some s' ∧ Console s' ∧ written s' = written s ++ p ∧
      s'.col = s.col + Int32.ofNat p.length := by
  obtain ⟨file, spoken, string⟩ := console
  by_cases fits : s.stdoutBuf.length + p.length ≤ rtStdoutBuf
  · refine ⟨{ s with stdoutBuf := s.stdoutBuf ++ p, col := s.col + Int32.ofNat p.length },
      by simp [rtPutRaw, file, spoken, string, fits], ⟨file, spoken, string⟩, ?_, rfl⟩
    simp [written]
  · refine ⟨{ s with
      stdout := s.stdout ++ s.stdoutBuf ++ p
      stdoutBuf := []
      col := s.col + Int32.ofNat p.length },
      by simp [rtPutRaw, file, spoken, string, fits, flushStdout_eq],
        ⟨file, spoken, string⟩, ?_, rfl⟩
    simp [written]

theorem putRaw_wrote (console : Console o.rt) (p : List UInt8) :
    ∃ o', putRaw o p = some o' ∧ Wrote o o' p ∧
      o'.itemsOnLine = o.itemsOnLine ∧ o'.dataItems = o.dataItems := by
  obtain ⟨s', put, console', text, col⟩ := console_put console p
  exact ⟨{ o with rt := s' }, by simp [putRaw, put], ⟨console', text, col⟩, rfl, rfl⟩

theorem putSome_wrote (console : Console o.rt) (p : List UInt8) :
    ∃ o', putSome o p = some o' ∧ Wrote o o' p := by
  by_cases any : 0 < p.length
  · obtain ⟨o', put, wrote, -⟩ := putRaw_wrote console p
    exact ⟨o', by rw [putSome, if_pos any, put], wrote⟩
  · have empty : p = [] := by simpa using any
    exact ⟨o, by rw [putSome, if_neg any], by rw [empty]; exact wrote_nothing console⟩

theorem putAll_wrote (console : Console o.rt) (ps : List (List UInt8)) :
    ∃ o', putAll o ps = some o' ∧ Wrote o o' ps.flatten := by
  induction ps generalizing o with
  | nil => exact ⟨o, rfl, wrote_nothing console⟩
  | cons p ps ih =>
    obtain ⟨mid, put, first, -⟩ := putRaw_wrote console p
    obtain ⟨o', rest, later⟩ := ih first.console
    refine ⟨o', ?_, first.trans later⟩
    rw [putAll, List.foldlM_cons, put]
    exact rest

theorem flatten_single (k : Nat) (c : UInt8) :
    (List.replicate k [c]).flatten = List.replicate k c := by
  induction k with
  | zero => rfl
  | succ k ih => rw [List.replicate_succ, List.flatten_cons, ih]; rfl

theorem flatten_digits (bits : List Bool) :
    (bits.map fun bit => if bit then ([49] : List UInt8) else [48]).flatten =
      bits.map fun bit => if bit then 49 else 48 := by
  induction bits with
  | nil => rfl
  | cons bit bits ih => cases bit <;> simp [ih]

theorem pad_wrote (console : Console o.rt) (taken w : Int) :
    ∃ o', pad o taken w = some o' ∧ Wrote o o' (List.replicate (w - taken).toNat 32) := by
  obtain ⟨o', put, wrote⟩ := putAll_wrote console (List.replicate (w - taken).toNat [32])
  exact ⟨o', put, by rwa [flatten_single] at wrote⟩

def itemText (o : Out) : Call → List UInt8
  | .listChar p | .listText p =>
    (if o.dataValueNext = false ∧ 0 < o.itemsOnLine then [32] else []) ++ p
  | .dataName p => (if 0 < o.dataItems then [44, 32] else []) ++ (p ++ [61])
  | .dataEnd => [59]
  | .editField p w => List.replicate (w - p.length).toNat 32 ++ p
  | .editChar p w =>
    List.replicate (w - min (p.length : Int) w).toNat 32 ++ p.take (min (p.length : Int) w).toNat
  | .editX w => List.replicate w.toNat 32
  | .editBit bits w =>
    List.replicate (max w bits.length - bits.length).toNat 32 ++
      bits.map fun bit => if bit then 49 else 48
  | .editPic outbuf => outbuf
  | .editSkip n => List.replicate (max n 1).toNat 10
  | .editPage => [12]
  | .editLine n => List.replicate (max n 1 - 1).toNat 10
  | _ => []

/-- The calls that leave rt_col to the byte writer. -/
def leavesColumn : Call → Bool
  | .editColumn _ | .skip _ | .page | .displayChar _ | .displayText _ => false
  | _ => true

section
variable (console : Console o.rt)
include console

theorem rtSeparate_wrote : ∃ o', rtSeparate o = some o' ∧
      Wrote o o' (if o.dataValueNext = false ∧ 0 < o.itemsOnLine then [32] else []) := by
  cases next : o.dataValueNext with
  | true =>
    refine ⟨{ o with dataValueNext := false, itemsOnLine := o.itemsOnLine + 1 },
      by simp [rtSeparate, next], ?_⟩
    simpa using ⟨console, by simp, by simp⟩
  | false =>
    by_cases items : 0 < o.itemsOnLine
    · obtain ⟨o', put, wrote, -⟩ := putRaw_wrote console [32]
      refine ⟨{ o' with itemsOnLine := o'.itemsOnLine + 1 },
        by simp [rtSeparate, next, items, put], ?_⟩
      simpa [items] using ⟨wrote.console, wrote.shown, wrote.col⟩
    · refine ⟨{ o with itemsOnLine := o.itemsOnLine + 1 }, by simp [rtSeparate, next, items], ?_⟩
      simpa [items] using ⟨console, by simp, by simp⟩

theorem putDataName_wrote (p : List UInt8) :
    ∃ o', putDataName o p = some o' ∧ Wrote o o' (itemText o (.dataName p)) := by
  have began : ∃ o1, (if 0 < o.dataItems then putRaw o [44, 32] else some o) = some o1 ∧
      Wrote o o1 (if 0 < o.dataItems then [44, 32] else []) := by
    by_cases some_item : 0 < o.dataItems
    · obtain ⟨o1, put, wrote, -⟩ := putRaw_wrote console [44, 32]
      exact ⟨o1, by rw [if_pos some_item, put], by rw [if_pos some_item]; exact wrote⟩
    · exact ⟨o, by rw [if_neg some_item], by rw [if_neg some_item]; exact wrote_nothing console⟩
  obtain ⟨o1, begun, first⟩ := began
  obtain ⟨o2, named, second⟩ := putSome_wrote first.console p
  obtain ⟨o3, closed, third, -⟩ := putRaw_wrote second.console [61]
  have all := first.trans (second.trans third)
  refine ⟨{ o3 with dataItems := o3.dataItems + 1, dataValueNext := true }, ?_,
    ⟨all.console, all.shown, all.col⟩⟩
  rw [putDataName, begun, Option.bind_some, named, Option.bind_some, closed, Option.map_some]

theorem putEditChar_wrote (p : List UInt8) (w : Int) :
    ∃ o', putEditChar o p w = some o' ∧ Wrote o o' (itemText o (.editChar p w)) := by
  have take : (if (p.length : Int) < w then (p.length : Int) else w) = min (p.length : Int) w := by
    split <;> omega
  obtain ⟨o1, padded, first⟩ := pad_wrote console (min (p.length : Int) w) w
  obtain ⟨o2, put, second⟩ :=
    putSome_wrote first.console (p.take (min (p.length : Int) w).toNat)
  refine ⟨o2, ?_, first.trans second⟩
  rw [putEditChar, take, padded, Option.bind_some, put]

theorem putEditBit_wrote (bits : List Bool) (w : Int) :
    ∃ o', putEditBit o bits w = some o' ∧ Wrote o o' (itemText o (.editBit bits w)) := by
  have width : (if w < bits.length then (bits.length : Int) else w) = max w bits.length := by
    split <;> omega
  obtain ⟨o1, padded, first⟩ := pad_wrote console bits.length (max w bits.length)
  obtain ⟨o2, put, second⟩ :=
    putAll_wrote first.console (bits.map fun bit => if bit then [49] else [48])
  rw [flatten_digits] at second
  refine ⟨o2, ?_, first.trans second⟩
  rw [putEditBit, width, padded, Option.bind_some, put]

theorem lines_wrote (k : Nat) :
    ∃ o', putAll o (List.replicate k [10]) = some o' ∧ Wrote o o' (List.replicate k 10) := by
  obtain ⟨o', put, wrote⟩ := putAll_wrote console (List.replicate k [10])
  exact ⟨o', put, by rwa [flatten_single] at wrote⟩

theorem item_wrote {c : Call} (leaves : leavesColumn c = true) :
    ∃ o', step o c = some o' ∧ Wrote o o' (itemText o c) := by
  have clamp : ∀ n : Int, (if n < 1 then 1 else n) = max n 1 := by
    intro n
    split <;> omega
  cases c with
  | listChar p =>
    obtain ⟨o1, apart, first⟩ := rtSeparate_wrote console
    obtain ⟨o2, put, second⟩ := putSome_wrote first.console p
    exact ⟨o2, by rw [step, putListChar, apart, Option.bind_some, put], first.trans second⟩
  | listText buf =>
    obtain ⟨o1, apart, first⟩ := rtSeparate_wrote console
    obtain ⟨o2, put, second, -⟩ := putRaw_wrote first.console buf
    exact ⟨o2, by rw [step, putListText, apart, Option.bind_some, put], first.trans second⟩
  | dataName p => exact putDataName_wrote console p
  | dataEnd =>
    obtain ⟨o1, put, wrote, -⟩ := putRaw_wrote console [59]
    exact ⟨{ o1 with itemsOnLine := o1.itemsOnLine + 1, dataItems := 0, dataValueNext := false },
      by rw [step, putDataEnd, put, Option.map_some], ⟨wrote.console, wrote.shown, wrote.col⟩⟩
  | editField p w =>
    obtain ⟨o1, padded, first⟩ := pad_wrote console p.length w
    obtain ⟨o2, put, second, -⟩ := putRaw_wrote first.console p
    exact ⟨o2, by rw [step, putField, padded, Option.bind_some, put], first.trans second⟩
  | editChar p w => exact putEditChar_wrote console p w
  | editX w =>
    obtain ⟨o', padded, wrote⟩ := pad_wrote console 0 w
    exact ⟨o', padded, by rwa [Int.sub_zero] at wrote⟩
  | editBit bits w => exact putEditBit_wrote console bits w
  | editPic outbuf =>
    obtain ⟨o', put, wrote, -⟩ := putRaw_wrote console outbuf
    exact ⟨o', put, wrote⟩
  | editSkip n =>
    obtain ⟨o', put, wrote⟩ := lines_wrote console (max n 1).toNat
    exact ⟨o', by rw [step, putEditSkip, clamp, put], wrote⟩
  | editPage =>
    obtain ⟨o', put, wrote, -⟩ := putRaw_wrote console [12]
    exact ⟨o', put, wrote⟩
  | editLine n =>
    obtain ⟨o', put, wrote⟩ := lines_wrote console (max n 1 - 1).toNat
    exact ⟨o', by rw [step, putEditLine, clamp, put], wrote⟩
  | _ => cases leaves

end

/-- rt_col is the length of the last line of stdout. -/
structure Tracked (o : Out) : Prop where
  console : Console o.rt
  col : o.rt.col.toInt = lineLength (written o.rt)

theorem start_tracked : Tracked Out.start := ⟨⟨rfl, rfl, rfl⟩, rfl⟩

theorem counted_col {a : Int32} {k : Nat} (low : 0 ≤ a.toInt) (counted : a.toInt + k < 2 ^ 31) :
    (a + Int32.ofNat k).toInt = a.toInt + k := by
  rw [Int32.toInt_add, Int32.toInt_ofNat_of_lt (by omega), Int.bmod_eq_of_le (by omega) (by omega)]

theorem item_tracked_iff {o' : Out} (tracked : Tracked o) {text : List UInt8}
    (wrote : Wrote o o' text) (counted : o.rt.col.toInt + text.length < 2 ^ 31) :
    Tracked o' ↔ text.all inLine = true := by
  have col := tracked.col
  have moved : o'.rt.col.toInt = o.rt.col.toInt + text.length := by
    rw [wrote.col, counted_col (by omega) counted]
  constructor
  · intro tracked'
    by_contra broken
    obtain ⟨last, short⟩ := lineLength_break (written o.rt) (Bool.eq_false_of_not_eq_true broken)
    have col' := tracked'.col
    rw [wrote.shown, last] at col'
    omega
  · intro plain
    refine ⟨wrote.console, ?_⟩
    rw [wrote.shown, lineLength_append_inLine _ plain]
    omega

theorem reset_tracked (console : Console o.rt) (zero : o.rt.col = 0) {before : List UInt8}
    {c : UInt8} (last : inLine c = false) (shown : written o.rt = before ++ [c]) : Tracked o := by
  have broken : [c].all inLine = false := by simp [last]
  obtain ⟨same, short⟩ := lineLength_break before broken
  refine ⟨console, ?_⟩
  rw [List.length_singleton] at short
  rw [zero, shown, same, Int32.toInt_zero]
  omega

theorem line_started (tracked : Tracked o) : 0 < o.rt.col ↔ lineLength (written o.rt) ≠ 0 := by
  have col := tracked.col
  rw [Int32.lt_iff_toInt_lt, Int32.toInt_zero]
  omega

theorem endLine_tracked (tracked : Tracked o) :
    ∃ o', endLine o = some o' ∧ Tracked o' ∧ o'.rt.col = 0 ∧
      written o'.rt = written o.rt ++ if lineLength (written o.rt) = 0 then [] else [10] := by
  by_cases started : 0 < o.rt.col
  · obtain ⟨o1, put, wrote, -⟩ := putRaw_wrote tracked.console [10]
    have shown : written { o1.rt with col := 0 } = written o.rt ++ [10] := wrote.shown
    refine ⟨{ o1 with rt := { o1.rt with col := 0 } }, by rw [endLine, if_pos started, put]; rfl,
      reset_tracked ?_ rfl rfl shown, rfl, ?_⟩
    · exact ⟨wrote.console.file, wrote.console.spoken, wrote.console.string⟩
    · rw [shown, if_neg ((line_started tracked).mp started)]
  · have col := tracked.col
    have empty : lineLength (written o.rt) = 0 := by
      by_contra any
      exact started ((line_started tracked).mpr any)
    refine ⟨o, by rw [endLine, if_neg started], tracked, ?_, by simp [empty]⟩
    rw [← Int32.toInt_inj, Int32.toInt_zero, col, empty]
    rfl

theorem putSkip_tracked (tracked : Tracked o) (n : Int) : ∃ o', putSkip o n = some o' ∧
      written o'.rt = written o.rt ++ (if lineLength (written o.rt) = 0 then [] else [10]) ++
        List.replicate (max n 1 - 1).toNat 10 ∧
      (n ≤ 2 ^ 31 → (Tracked o' ↔ n ≤ 1)) := by
  have clamp : (if n < 1 then 1 else n) = max n 1 := by
    split <;> omega
  obtain ⟨o1, ended, tracked1, zero, shown⟩ := endLine_tracked tracked
  obtain ⟨o2, put, wrote⟩ := lines_wrote tracked1.console (max n 1 - 1).toNat
  refine ⟨{ o2 with itemsOnLine := 0 },
    by rw [putSkip, clamp, ended, Option.bind_some, put, Option.map_some], ?_, ?_⟩
  · rw [← shown]
    exact wrote.shown
  · intro counted
    have after : Wrote o1 { o2 with itemsOnLine := 0 } (List.replicate (max n 1 - 1).toNat 10) :=
      ⟨wrote.console, wrote.shown, wrote.col⟩
    rw [item_tracked_iff tracked1 after (by
      rw [zero, Int32.toInt_zero, List.length_replicate]
      omega)]
    have break10 : inLine 10 = false := rfl
    rw [List.all_replicate, break10]
    simp
    omega

theorem putPage_tracked (tracked : Tracked o) : ∃ o', putPage o = some o' ∧ Tracked o' := by
  have began : ∃ o1, (if 0 < o.rt.col then putRaw o [10] else some o) = some o1 ∧
      Console o1.rt := by
    by_cases started : 0 < o.rt.col
    · obtain ⟨o1, put, wrote, -⟩ := putRaw_wrote tracked.console [10]
      exact ⟨o1, by rw [if_pos started, put], wrote.console⟩
    · exact ⟨o, by rw [if_neg started], tracked.console⟩
  obtain ⟨o1, begun, console⟩ := began
  obtain ⟨o2, put, wrote, -⟩ := putRaw_wrote console [12]
  refine ⟨{ o2 with rt := { o2.rt with col := 0 }, itemsOnLine := 0 },
    by rw [putPage, begun, Option.bind_some, put, Option.map_some], ?_⟩
  have shown : written { o2.rt with col := 0 } = written o1.rt ++ [12] := wrote.shown
  exact reset_tracked ⟨wrote.console.file, wrote.console.spoken, wrote.console.string⟩ rfl rfl shown

theorem displayEnd_tracked (console : Console o.rt) :
    ∃ o', displayEnd o = some o' ∧ Tracked o' := by
  obtain ⟨o1, put, wrote, -⟩ := putRaw_wrote console [10]
  refine ⟨{ o1 with rt := { o1.rt with col := 0 }, itemsOnLine := 0 },
    by rw [displayEnd, put, Option.map_some], ?_⟩
  have shown : written { o1.rt with col := 0 } = written o.rt ++ [10] := wrote.shown
  exact reset_tracked ⟨wrote.console.file, wrote.console.spoken, wrote.console.string⟩ rfl rfl shown

theorem displayBegin_console (tracked : Tracked o) :
    ∃ o', displayBegin o = some o' ∧ Console o'.rt := by
  obtain ⟨o1, ended, tracked1, -⟩ := endLine_tracked tracked
  exact ⟨{ o1 with itemsOnLine := 0 }, by rw [displayBegin, ended, Option.map_some],
    tracked1.console⟩

theorem displayChar_tracked (tracked : Tracked o) (p : List UInt8) :
    ∃ o', displayChar o p = some o' ∧ Tracked o' := by
  obtain ⟨o1, begun, console⟩ := displayBegin_console tracked
  obtain ⟨o2, put, wrote⟩ := putSome_wrote console p
  obtain ⟨o3, ended, tracked3⟩ := displayEnd_tracked wrote.console
  exact ⟨o3, by rw [displayChar, begun, Option.bind_some, put, Option.bind_some, ended], tracked3⟩

theorem displayText_tracked (tracked : Tracked o) (buf : List UInt8) :
    ∃ o', displayText o buf = some o' ∧ Tracked o' := by
  obtain ⟨o1, begun, console⟩ := displayBegin_console tracked
  obtain ⟨o2, put, wrote, -⟩ := putRaw_wrote console buf
  obtain ⟨o3, ended, tracked3⟩ := displayEnd_tracked wrote.console
  exact ⟨o3, by rw [displayText, begun, Option.bind_some, put, Option.bind_some, ended], tracked3⟩

theorem columnLoop_console {m : Int32} (k : Nat) {s : Rt} (console : Console s) {fuel : Nat}
    (enough : k < fuel) (left : (m.toInt - (s.col + 1).toInt).toNat = k) (sent : List UInt8) :
    ∃ s' more, columnLoop m fuel s sent = some (s', more) ∧ Console s' ∧
      written s' = written s ++ List.replicate k 32 ∧ s'.col = s.col + Int32.ofNat k := by
  obtain ⟨fuel, rfl⟩ : ∃ less, fuel = less + 1 := ⟨fuel - 1, by omega⟩
  induction k generalizing s sent fuel with
  | zero =>
    have done : ¬ s.col + 1 < m := by
      rw [Int32.lt_iff_toInt_lt]
      omega
    exact ⟨s, sent, by rw [columnLoop, if_neg done], console, by simp, by simp⟩
  | succ k ih =>
    have short : (s.col + 1).toInt < m.toInt := by omega
    obtain ⟨s1, put, console1, shown, col⟩ := console_put console [32]
    have unit : Int32.ofNat [(32 : UInt8)].length = 1 := rfl
    rw [unit] at col
    have next := next_toInt short
    obtain ⟨less, rfl⟩ : ∃ less, fuel = less + 1 := ⟨fuel - 1, by omega⟩
    obtain ⟨s2, more, ran, console2, shown2, col2⟩ := ih console1
      (by rw [col, next]; omega) (sent ++ handed s [32]) less (by omega)
    refine ⟨s2, more, ?_, console2, ?_, ?_⟩
    · rw [columnLoop, if_pos (Int32.lt_iff_toInt_lt.mpr short), put, Option.bind_some, ran]
    · rw [shown2, shown, List.append_assoc, List.replicate_succ]
      rfl
    · rw [col2, col, Int32.add_assoc, Nat.add_comm, Int32.ofNat_add]
      rfl

theorem freshLine_console {m : Int32} {o : Out} (tracked : Tracked o) :
    ∃ s' sent, freshLine m o.rt = some (s', sent) ∧ Tracked { o with rt := s' } ∧
      (0 < o.rt.col ∧ m < o.rt.col + 1 → s'.col = 0) ∧
      (¬ (0 < o.rt.col ∧ m < o.rt.col + 1) → s' = o.rt) := by
  by_cases fresh : 0 < o.rt.col ∧ m < o.rt.col + 1
  · obtain ⟨s1, put, console, shown, -⟩ := console_put tracked.console [10]
    have after : written { s1 with col := 0 } = written o.rt ++ [10] := shown
    refine ⟨{ s1 with col := 0 }, _, by rw [freshLine, if_pos fresh, put, Option.map_some],
      reset_tracked ⟨console.file, console.spoken, console.string⟩ rfl rfl after, fun _ => rfl,
      fun stays => absurd fresh stays⟩
  · exact ⟨o.rt, [], by rw [freshLine, if_neg fresh], tracked, fun here => absurd here fresh,
      fun _ => rfl⟩

theorem blanks_inLine (k : Nat) : (List.replicate k (32 : UInt8)).all inLine = true := by
  simp [inLine]

theorem putEditColumn_tracked (tracked : Tracked o)
    (counted : o.rt.col.toInt + 1 < 2 ^ 31) (n : Int) :
    ∃ o', putEditColumn o n = some o' ∧ Tracked o' ∧
      (n < 2 ^ 31 → (lineLength (written o'.rt) + 1 : Int) = max n 1) := by
  have clamp : (if n < 1 then 1 else n) = max n 1 := by
    split <;> omega
  obtain ⟨s1, sent, began, tracked1, reset, same⟩ :=
    @freshLine_console (Int32.ofInt (max n 1)) o tracked
  have low : 0 ≤ o.rt.col.toInt := by
    have col := tracked.col
    omega
  have next : (o.rt.col + 1).toInt = o.rt.col.toInt + 1 := counted_col low counted
  have range := (Int32.ofInt (max n 1)).toInt_lt
  have bottom := (Int32.ofInt (max n 1)).le_toInt
  have place : s1.col.toInt = 0 ∨ s1.col = o.rt.col ∧
      (o.rt.col.toInt = 0 ∨ o.rt.col.toInt + 1 ≤ (Int32.ofInt (max n 1)).toInt) := by
    by_cases fresh : 0 < o.rt.col ∧ Int32.ofInt (max n 1) < o.rt.col + 1
    · left
      rw [reset fresh, Int32.toInt_zero]
    · right
      rw [same fresh]
      refine ⟨rfl, ?_⟩
      rw [Int32.lt_iff_toInt_lt, Int32.lt_iff_toInt_lt, Int32.toInt_zero, next] at fresh
      omega
  have start : 0 ≤ s1.col.toInt ∧ s1.col.toInt + 1 < 2 ^ 31 := by
    rcases place with zero | ⟨kept, -⟩
    · omega
    · rw [kept]
      omega
  have next1 : (s1.col + 1).toInt = s1.col.toInt + 1 := counted_col start.1 start.2
  obtain ⟨s2, more, ran, console2, shown2, col2⟩ :=
    @columnLoop_console (Int32.ofInt (max n 1)) _ s1 tracked1.console columnFuel
      (by unfold columnFuel; omega) rfl sent
  have wrote : Wrote { o with rt := s1 } { o with rt := s2 } _ :=
    ⟨console2, shown2, by rw [List.length_replicate]; exact col2⟩
  have tracked2 : Tracked { o with rt := s2 } := by
    refine (item_tracked_iff tracked1 wrote ?_).mpr (blanks_inLine _)
    rw [List.length_replicate]
    dsimp only
    omega
  refine ⟨{ o with rt := s2 }, ?_, tracked2, ?_⟩
  · rw [putEditColumn, pliPutEditColumn, clamp, began, Option.bind_some]
    dsimp only
    rw [ran]
    rfl
  · intro small
    have target : (Int32.ofInt (max n 1)).toInt = max n 1 := by
      rw [Int32.toInt_ofInt_of_le (by omega) (by omega)]
    have col : s2.col.toInt = _ := tracked2.col
    dsimp only at col ⊢
    rw [← col, col2, counted_col start.1 (by omega), next1, target]
    rw [target] at place
    rcases place with zero | ⟨kept, there⟩
    · omega
    · rw [kept]
      omega

def Counted (o : Out) : Call → Prop
  | .editColumn _ => o.rt.col.toInt + 1 < 2 ^ 31
  | .skip n => n ≤ 2 ^ 31
  | .page | .displayChar _ | .displayText _ => True
  | c => o.rt.col.toInt + (itemText o c).length < 2 ^ 31

/-- No break in an item and none left to the byte writer: no SKIP or PAGE of an edit list,
    LINE(1) only, and SKIP(1) only. -/
def Keeps (o : Out) : Call → Prop
  | .skip n => n ≤ 1
  | .editColumn _ | .page | .displayChar _ | .displayText _ => True
  | c => (itemText o c).all inLine = true

instance (o : Out) (c : Call) : Decidable (Counted o c) := by
  cases c <;> unfold Counted <;> infer_instance

instance (o : Out) (c : Call) : Decidable (Keeps o c) := by
  cases c <;> unfold Keeps <;> infer_instance

theorem call_tracked_iff (tracked : Tracked o) {c : Call} (counted : Counted o c) :
    ∃ o', step o c = some o' ∧ (Tracked o' ↔ Keeps o c) := by
  by_cases leaves : leavesColumn c = true
  · obtain ⟨o', put, wrote⟩ := item_wrote tracked.console leaves
    have fits : o.rt.col.toInt + (itemText o c).length < 2 ^ 31 := by
      cases c <;> first | exact counted | cases leaves
    refine ⟨o', put, ?_⟩
    rw [item_tracked_iff tracked wrote fits]
    cases c <;> first | exact Iff.rfl | cases leaves
  · cases c with
    | editColumn n =>
      obtain ⟨o', put, tracked', -⟩ := putEditColumn_tracked tracked counted n
      exact ⟨o', put, iff_of_true tracked' trivial⟩
    | skip n =>
      obtain ⟨o', put, -, exactly⟩ := putSkip_tracked tracked n
      exact ⟨o', put, exactly counted⟩
    | page =>
      obtain ⟨o', put, tracked'⟩ := putPage_tracked tracked
      exact ⟨o', put, iff_of_true tracked' trivial⟩
    | displayChar p =>
      obtain ⟨o', put, tracked'⟩ := displayChar_tracked tracked p
      exact ⟨o', put, iff_of_true tracked' trivial⟩
    | displayText buf =>
      obtain ⟨o', put, tracked'⟩ := displayText_tracked tracked buf
      exact ⟨o', put, iff_of_true tracked' trivial⟩
    | _ => exact absurd rfl leaves

/-- In every run of calls that each meet the condition, rt_col is after each call the length of
    the last line; COLUMN(n) puts the next character at n, and SKIP starts a new line exactly
    where there is something on the current one. -/
theorem column_tracked {cs : List Call}
    (meets : AllSteps step (fun o c => Counted o c ∧ Keeps o c) Out.start cs) :
    ∀ done rest, cs = done ++ rest → ∃ o, run step Out.start done = some o ∧
      o.rt.col.toInt = lineLength (written o.rt) ∧
      (∀ n, n < 2 ^ 31 → o.rt.col.toInt + 1 < 2 ^ 31 → ∃ o', step o (.editColumn n) = some o' ∧
        (lineLength (written o'.rt) + 1 : Int) = max n 1) ∧
      ∀ n, ∃ o', step o (.skip n) = some o' ∧
        written o'.rt = written o.rt ++ (if lineLength (written o.rt) = 0 then [] else [10]) ++
          List.replicate (max n 1 - 1).toNat 10 := by
  intro done rest split
  rw [split, allSteps_append_iff] at meets
  have keep : ∀ o c, Tracked o → Counted o c ∧ Keeps o c →
    ∃ o', step o c = some o' ∧ Tracked o' := by
    intro o c tracked ⟨counted, keeps⟩
    obtain ⟨o', put, exactly⟩ := call_tracked_iff tracked counted
    exact ⟨o', put, exactly.mpr keeps⟩
  obtain ⟨o, ran, tracked⟩ := run_keeps keep start_tracked meets.1
  refine ⟨o, ran, tracked.col, ?_, ?_⟩
  · intro n small counted
    obtain ⟨o', put, -, placed⟩ := putEditColumn_tracked tracked counted n
    exact ⟨o', put, placed small⟩
  · intro n
    obtain ⟨o', put, shown, -⟩ := putSkip_tracked tracked n
    exact ⟨o', put, shown⟩

/-- Items of all three kinds with COLUMN, SKIP, DISPLAY and PAGE between them. -/
theorem mixed_calls_tracked :
    ∃ o, run step Out.start [.listChar [65, 66], .editColumn 6, .editChar [67] 3, .skip 1,
        .dataName [88], .listText [49], .dataEnd, .displayChar [65, 10, 66], .page,
        .editField [49, 46, 53] 6] = some o ∧
      o.rt.col.toInt = lineLength (written o.rt) := by
  obtain ⟨o, ran, col, -⟩ := @column_tracked [.listChar [65, 66], .editColumn 6, .editChar [67] 3,
    .skip 1, .dataName [88], .listText [49], .dataEnd, .displayChar [65, 10, 66], .page,
    .editField [49, 46, 53] 6] (by decide +kernel) _ [] (List.append_nil _).symm
  exact ⟨o, ran, col⟩

/-- Off its line after SKIP, PAGE and LINE of an edit list, SKIP(2), and an item with a break. -/
def offLine (cs : List Call) : Bool :=
  (run step Out.start cs).any fun o => o.rt.col.toInt != (lineLength (written o.rt) : Int)

theorem column_off_line :
    offLine [.editSkip 1] ∧ offLine [.editPage] ∧ offLine [.editLine 2] ∧ offLine [.skip 2] ∧
      offLine [.listChar [65, 10, 66]] := by
  decide +kernel

end PliColumnTrack
