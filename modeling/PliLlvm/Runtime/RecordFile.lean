import PliLlvm.Lib.Run
import PliLlvm.Runtime.KeyedTyped

/- Sequential record files (runtime/rt_file.c): READ, WRITE, REWRITE and DELETE of one open
   file. The stream is bytes with one position and every transfer succeeds; a value that is
   read comes as its bytes. Locks and the ON-unit of ENDFILE are left out: pli_signal_error
   and ENDFILE are outcomes beside the state. -/
namespace PliRecordFile
open Runs ByteFiles PliKeyedTyped

/-- The stream and rt_rec of the slot: offset and size of the current record. -/
structure RecFile where
  file : CFile
  current : Option (Nat × Nat)

inductive Result where
  | done
  | data (p : List UInt8)
  | endfile
  | error (msg : String)

def recordWrite (f : RecFile) (p : List UInt8) : RecFile × Result :=
  (⟨f.file.write p, some (f.file.tell, p.length)⟩, .done)

def pliRecordWriteFixed (f : RecFile) (v : Int64) : RecFile × Result :=
  recordWrite f (Value.fixed v).image

def pliRecordWriteFloat (f : RecFile) (v : UInt64) : RecFile × Result :=
  recordWrite f (Value.float v).image

def pliRecordWriteChar (f : RecFile) (p : List UInt8) : RecFile × Result :=
  if p.length ≤ 0 then (f, .done) else recordWrite f p

def pliRecordWriteBit (f : RecFile) (v : UInt8) : RecFile × Result :=
  recordWrite f (Value.bit v).image

def recordRead (f : RecFile) (size : Nat) : RecFile × Result :=
  let off := f.file.tell
  let (got, file) := f.file.read size
  if got.length ≠ size then (⟨file, none⟩, .endfile) else (⟨file, some (off, size)⟩, .data got)

def pliRecordReadFixed (f : RecFile) : RecFile × Result := recordRead f RecType.fixed.size

def pliRecordReadFloat (f : RecFile) : RecFile × Result := recordRead f RecType.float.size

def pliRecordReadChar (f : RecFile) (len : Nat) : RecFile × Result :=
  if len ≤ 0 then (f, .done) else recordRead f len

def pliRecordReadBit (f : RecFile) : RecFile × Result := recordRead f RecType.bit.size

/-- rt_rec_current; no `want` accepts any size. -/
def rtRecCurrent (f : RecFile) (want : Option Nat) (what : String) : Except String (Nat × Nat) :=
  match f.current with
  | none => .error what
  | some (off, size) =>
    if want.any (size ≠ ·) then .error "REWRITE changes the record size" else .ok (off, size)

def recordRewrite (f : RecFile) (p : List UInt8) : RecFile × Result :=
  match rtRecCurrent f (some p.length) "REWRITE without a current record" with
  | .error msg => (f, .error msg)
  | .ok (off, _) =>
    ({ f with file := ((f.file.seekSet off).write p).seekSet (off + p.length) }, .done)

def pliRecordRewriteFixed (f : RecFile) (v : Int64) : RecFile × Result :=
  recordRewrite f (Value.fixed v).image

def pliRecordRewriteFloat (f : RecFile) (v : UInt64) : RecFile × Result :=
  recordRewrite f (Value.float v).image

def pliRecordRewriteChar (f : RecFile) (p : List UInt8) : RecFile × Result :=
  if p.length ≤ 0 then (f, .done) else recordRewrite f p

def pliRecordRewriteBit (f : RecFile) (v : UInt8) : RecFile × Result :=
  recordRewrite f (Value.bit v).image

def pliRecordDelete (f : RecFile) : RecFile × Result :=
  match rtRecCurrent f none "DELETE without a current record" with
  | .error msg => (f, .error msg)
  | .ok (off, size) =>
    let file := f.file.seekEnd
    let stop := file.tell
    if stop < off + size then
      (⟨(file.truncate off).seekSet off, none⟩, .error "DELETE from record file failed")
    else
      match moveDown PliKeyedFile.copyChunk stop (stop - (off + size)) file (off + size) off with
      | (file, none) => (⟨file, none⟩, .error "DELETE from record file failed")
      | (file, some dst) => (⟨(file.truncate dst).seekSet off, none⟩, .done)

inductive Op where
  | writeFixed (v : Int64)
  | writeFloat (v : UInt64)
  | writeChar (p : List UInt8)
  | writeBit (v : UInt8)
  | readFixed
  | readFloat
  | readChar (len : Nat)
  | readBit
  | rewriteFixed (v : Int64)
  | rewriteFloat (v : UInt64)
  | rewriteChar (p : List UInt8)
  | rewriteBit (v : UInt8)
  | delete

def recordStep (f : RecFile) : Op → RecFile × Result
  | .writeFixed v => pliRecordWriteFixed f v
  | .writeFloat v => pliRecordWriteFloat f v
  | .writeChar p => pliRecordWriteChar f p
  | .writeBit v => pliRecordWriteBit f v
  | .readFixed => pliRecordReadFixed f
  | .readFloat => pliRecordReadFloat f
  | .readChar len => pliRecordReadChar f len
  | .readBit => pliRecordReadBit f
  | .rewriteFixed v => pliRecordRewriteFixed f v
  | .rewriteFloat v => pliRecordRewriteFloat f v
  | .rewriteChar p => pliRecordRewriteChar f p
  | .rewriteBit v => pliRecordRewriteBit f v
  | .delete => pliRecordDelete f

/- What the operations mean for a list of records: those passed, the current one, and what no
   READ has come to. Nothing in the file marks where a record ends: the type of a READ says how
   long the next one is. -/
structure Records where
  passed : List (List UInt8)
  current : Option (List UInt8)
  rest : List UInt8

inductive Meaning where
  | write (p : List UInt8)
  | read (size : Nat)
  | rewrite (p : List UInt8)
  | delete

def Op.meaning : Op → Meaning
  | .writeFixed v => .write (Value.fixed v).image
  | .writeFloat v => .write (Value.float v).image
  | .writeChar p => .write p
  | .writeBit v => .write (Value.bit v).image
  | .readFixed => .read 8
  | .readFloat => .read 8
  | .readChar len => .read len
  | .readBit => .read 1
  | .rewriteFixed v => .rewrite (Value.fixed v).image
  | .rewriteFloat v => .rewrite (Value.float v).image
  | .rewriteChar p => .rewrite p
  | .rewriteBit v => .rewrite (Value.bit v).image
  | .delete => .delete

def Records.behind (t : Records) : List (List UInt8) := t.passed ++ t.current.toList

def Records.bytes (t : Records) : List UInt8 := t.behind.flatten ++ t.rest

def Records.all (t : Records) : List (List UInt8) :=
  t.behind ++ if t.rest = [] then [] else [t.rest]

def listStep (t : Records) : Meaning → Records × Result
  | .write p => (⟨t.all, some p, []⟩, .done)
  | .read size =>
    if size ≤ t.rest.length then
      (⟨t.behind, some (t.rest.take size), t.rest.drop size⟩, .data (t.rest.take size))
    else (⟨t.all, none, []⟩, .endfile)
  | .rewrite p =>
    match t.current with
    | none => (t, .error "REWRITE without a current record")
    | some r =>
      if r.length ≠ p.length then (t, .error "REWRITE changes the record size")
      else ({ t with current := some p }, .done)
  | .delete =>
    match t.current with
    | none => (t, .error "DELETE without a current record")
    | some _ => ({ t with current := none }, .done)

structure Stands (f : RecFile) (t : Records) : Prop where
  bytes : f.file.bytes = t.bytes
  place : f.file.pos = t.behind.flatten.length
  current : f.current = t.current.map fun r => (t.passed.flatten.length, r.length)
  whole : ∀ r, t.current = some r → r ≠ []

structure Both where
  file : RecFile
  list : Records
  got : Result
  due : Result

def both (b : Both) (op : Op) : Option Both :=
  let (file, got) := recordStep b.file op
  let (list, due) := listStep b.list op.meaning
  some ⟨file, list, got, due⟩

structure Agrees (b : Both) : Prop where
  stands : Stands b.file b.list
  same : b.got = b.due

def Sized : Meaning → Prop
  | .write p | .rewrite p => p ≠ []
  | .read size => 0 < size
  | .delete => True

instance (m : Meaning) : Decidable (Sized m) := by
  unfold Sized
  split <;> infer_instance

def AtEnd (t : Records) : Meaning → Prop
  | .write _ => t.rest = []
  | _ => True

instance (t : Records) (m : Meaning) : Decidable (AtEnd t m) := by
  unfold AtEnd
  split <;> infer_instance

def Proper (b : Both) (op : Op) : Prop := Sized op.meaning ∧ AtEnd b.list op.meaning

instance (b : Both) (op : Op) : Decidable (Proper b op) :=
  inferInstanceAs (Decidable (_ ∧ _))

def transfer (f : RecFile) : Meaning → RecFile × Result
  | .write p => recordWrite f p
  | .read size => recordRead f size
  | .rewrite p => recordRewrite f p
  | .delete => pliRecordDelete f

theorem step_sized (f : RecFile) {op : Op} (sized : Sized op.meaning) :
    recordStep f op = transfer f op.meaning := by
  cases op with
  | writeChar p =>
    have some_byte : ¬ p.length ≤ 0 := by
      have ne : p ≠ [] := sized
      simpa using ne
    rw [recordStep, pliRecordWriteChar, if_neg some_byte]
    rfl
  | readChar len =>
    have some_byte : ¬ len ≤ 0 := Nat.not_le.mpr sized
    rw [recordStep, pliRecordReadChar, if_neg some_byte]
    rfl
  | rewriteChar p =>
    have some_byte : ¬ p.length ≤ 0 := by
      have ne : p ≠ [] := sized
      simpa using ne
    rw [recordStep, pliRecordRewriteChar, if_neg some_byte]
    rfl
  | _ => rfl

theorem value_sized (v : Value) : v.image ≠ [] := by
  have positive := size_positive v
  intro empty
  rw [empty] at positive
  exact absurd positive (Nat.lt_irrefl 0)

theorem step_empty (f : RecFile) {op : Op} (empty : ¬ Sized op.meaning) :
    recordStep f op = (f, .done) := by
  cases op with
  | writeChar p =>
    have none : p = [] := by simpa [Op.meaning, Sized] using empty
    rw [recordStep, pliRecordWriteChar, if_pos (by rw [none]; exact Nat.le_refl 0)]
  | readChar len => rw [recordStep, pliRecordReadChar, if_pos (Nat.not_lt.mp empty)]
  | rewriteChar p =>
    have none : p = [] := by simpa [Op.meaning, Sized] using empty
    rw [recordStep, pliRecordRewriteChar, if_pos (by rw [none]; exact Nat.le_refl 0)]
  | writeFixed v | writeFloat v | writeBit v | rewriteFixed v | rewriteFloat v | rewriteBit v =>
    exact absurd (value_sized _) empty
  | delete => exact absurd trivial empty
  | _ => exact absurd (by decide) empty

theorem all_flatten (t : Records) : t.all.flatten = t.bytes := by
  unfold Records.all Records.bytes
  split
  · rename_i none
    rw [none, List.append_nil, List.append_nil]
  · simp

theorem behind_some (passed : List (List UInt8)) (r rest : List UInt8) :
    (Records.behind ⟨passed, some r, rest⟩).flatten = passed.flatten ++ r := by
  simp [Records.behind]

theorem behind_none (passed : List (List UInt8)) (rest : List UInt8) :
    (Records.behind ⟨passed, none, rest⟩).flatten = passed.flatten := by
  simp [Records.behind]

variable {f : RecFile} {t : Records}

theorem write_stands (stands : Stands f t) (finished : t.rest = [])
    {p : List UInt8} (some_byte : p ≠ []) :
    Stands (recordWrite f p).1 (listStep t (.write p)).1 := by
  have whole : t.bytes = t.behind.flatten := by rw [Records.bytes, finished, List.append_nil]
  have atEnd : f.file.pos = f.file.bytes.length := by rw [stands.place, stands.bytes, whole]
  have written : f.file.write p = ⟨f.file.bytes ++ p, f.file.bytes.length + p.length⟩ := by
    rw [CFile.write, atEnd, splice_end]
  refine ⟨?_, ?_, ?_, ?_⟩
  · simp only [recordWrite, listStep, written, Records.bytes, behind_some, all_flatten,
      stands.bytes, List.append_nil]
  · simp only [recordWrite, listStep, written, behind_some, all_flatten, stands.bytes,
      List.length_append]
  · simp only [recordWrite, listStep, CFile.tell, atEnd, all_flatten, stands.bytes, Option.map_some]
  · intro r here
    cases here
    exact some_byte

theorem write_breaks (stands : Stands f t) (unread : t.rest ≠ [])
    {p : List UInt8} (some_byte : p ≠ []) :
    (recordWrite f p).1.file.bytes ≠ (listStep t (.write p)).1.bytes := by
  have length : f.file.bytes.length = f.file.pos + t.rest.length := by
    rw [stands.bytes, stands.place, Records.bytes, List.length_append]
  have left : 0 < t.rest.length := List.length_pos_iff.mpr unread
  have given : 0 < p.length := List.length_pos_iff.mpr some_byte
  have inside : f.file.pos ≤ f.file.bytes.length := by omega
  intro same
  have lengths := congrArg List.length same
  have due : (listStep t (.write p)).1.bytes.length = f.file.bytes.length + p.length := by
    simp only [listStep, Records.bytes, behind_some, all_flatten, List.append_nil]
    rw [List.length_append, ← Records.bytes, ← stands.bytes]
  rw [due] at lengths
  simp only [recordWrite, CFile.write, splice_inside inside, List.length_append,
    List.length_take, List.length_drop] at lengths
  omega

theorem read_stands (stands : Stands f t) {size : Nat} (some_byte : 0 < size) :
    Stands (recordRead f size).1 (listStep t (.read size)).1 ∧
      (recordRead f size).2 = (listStep t (.read size)).2 := by
  have unread : f.file.bytes.drop f.file.pos = t.rest := by
    rw [stands.bytes, stands.place, Records.bytes, List.drop_left]
  by_cases enough : size ≤ t.rest.length
  · have full : (t.rest.take size).length = size := by simp [enough]
    have run : recordRead f size = (⟨⟨f.file.bytes, f.file.pos + size⟩, some (f.file.pos, size)⟩,
        .data (t.rest.take size)) := by
      simp only [recordRead, CFile.read, CFile.tell, unread, full, ne_eq,
        not_true_eq_false, if_false]
    have due : listStep t (.read size) =
        (⟨t.behind, some (t.rest.take size), t.rest.drop size⟩, .data (t.rest.take size)) := by
      rw [listStep, if_pos enough]
    rw [run, due]
    refine ⟨⟨?_, ?_, ?_, ?_⟩, rfl⟩
    · dsimp only
      rw [stands.bytes, Records.bytes, Records.bytes, behind_some, List.append_assoc,
        List.take_append_drop]
    · dsimp only
      rw [behind_some, List.length_append, full, stands.place]
    · simp only [Option.map_some, full, stands.place]
    · intro r here
      cases here
      exact List.ne_nil_of_length_pos (by omega)
  · have short : (t.rest.take size).length ≠ size := by
      rw [List.length_take]
      omega
    have rest : t.rest.take size = t.rest := List.take_of_length_le (by omega)
    have run : recordRead f size =
        (⟨⟨f.file.bytes, f.file.pos + t.rest.length⟩, none⟩, .endfile) := by
      simp only [recordRead, CFile.read, CFile.tell, unread, ne_eq, short,
        not_false_eq_true, if_true]
      rw [rest]
    have due : listStep t (.read size) = (⟨t.all, none, []⟩, .endfile) := by
      rw [listStep, if_neg enough]
    rw [run, due]
    refine ⟨⟨?_, ?_, rfl, by simp⟩, rfl⟩
    · dsimp only
      rw [Records.bytes, behind_none, all_flatten, List.append_nil, stands.bytes]
    · dsimp only
      rw [behind_none, all_flatten, stands.place, Records.bytes, List.length_append]

theorem rewrite_stands (stands : Stands f t) {p : List UInt8} (some_byte : p ≠ []) :
    Stands (recordRewrite f p).1 (listStep t (.rewrite p)).1 ∧
      (recordRewrite f p).2 = (listStep t (.rewrite p)).2 := by
  have here := stands.current
  obtain ⟨passed, current, rest⟩ := t
  cases current with
  | none =>
    simp only [recordRewrite, rtRecCurrent, here, Option.map_none, listStep]
    exact ⟨stands, trivial⟩
  | some r =>
    by_cases same : r.length = p.length
    · have whole : f.file.bytes = passed.flatten ++ r ++ rest := by
        rw [stands.bytes, Records.bytes, behind_some]
      have run : recordRewrite f p =
          (⟨⟨passed.flatten ++ p ++ rest, passed.flatten.length + p.length⟩,
            f.current⟩, .done) := by
        simp only [recordRewrite, rtRecCurrent, here, Option.map_some, Option.any_some, same, ne_eq,
          not_true_eq_false, decide_false, Bool.false_eq_true, if_false, CFile.write, CFile.seekSet,
          whole, splice_middle _ _ _ _ same.symm]
      have due : listStep ⟨passed, some r, rest⟩ (.rewrite p) =
        (⟨passed, some p, rest⟩, .done) := by
        simp [listStep, same]
      rw [run, due]
      refine ⟨⟨?_, ?_, ?_, ?_⟩, rfl⟩
      · dsimp only
        rw [Records.bytes, behind_some]
      · dsimp only
        rw [behind_some, List.length_append]
      · dsimp only
        rw [here, Option.map_some, Option.map_some, same]
      · intro q there
        cases there
        exact some_byte
    · have run : recordRewrite f p = (f, .error "REWRITE changes the record size") := by
        simp [recordRewrite, rtRecCurrent, here, same]
      have due : listStep ⟨passed, some r, rest⟩ (.rewrite p) =
          (⟨passed, some r, rest⟩, .error "REWRITE changes the record size") := by
        simp [listStep, same]
      rw [run, due]
      exact ⟨stands, rfl⟩

theorem delete_cuts {off size : Nat} (here : f.current = some (off, size))
    (inside : off + size ≤ f.file.bytes.length) :
    pliRecordDelete f = (⟨⟨f.file.bytes.take off ++ f.file.bytes.drop (off + size), off⟩, none⟩,
      .done) := by
  obtain ⟨g, moved, length, moved_bytes⟩ := @moveDown_moves PliKeyedFile.copyChunk
    (f.file.bytes.length - (off + size)) ⟨f.file.bytes, f.file.bytes.length⟩ (off + size) off
    (by decide) (by omega) (by dsimp only; omega) (Nat.le_refl _)
  dsimp only at moved length moved_bytes
  have fits : ¬ f.file.bytes.length < off + size := by omega
  have cut : (g.truncate (off + (f.file.bytes.length - (off + size)))).bytes =
      f.file.bytes.take off ++ f.file.bytes.drop (off + size) := by
    have short : off + (f.file.bytes.length - (off + size)) - g.bytes.length = 0 := by omega
    rw [CFile.truncate, moved_bytes, short, List.replicate_zero, List.append_nil]
  simp only [pliRecordDelete, rtRecCurrent, here, Option.any_none, Bool.false_eq_true, if_false,
    CFile.seekEnd, CFile.tell, fits, moved, CFile.seekSet, cut]

theorem delete_stands (stands : Stands f t) : Stands (pliRecordDelete f).1 (listStep t .delete).1 ∧
      (pliRecordDelete f).2 = (listStep t .delete).2 := by
  have here := stands.current
  obtain ⟨passed, current, rest⟩ := t
  cases current with
  | none =>
    simp only [pliRecordDelete, rtRecCurrent, here, Option.map_none, listStep]
    exact ⟨stands, trivial⟩
  | some r =>
    have whole : f.file.bytes = passed.flatten ++ r ++ rest := by
      rw [stands.bytes, Records.bytes, behind_some]
    rw [Option.map_some] at here
    have run := delete_cuts here (by rw [whole]; simp)
    have head : f.file.bytes.take passed.flatten.length = passed.flatten := by
      rw [whole, List.append_assoc, List.take_left]
    have tail : f.file.bytes.drop (passed.flatten.length + r.length) = rest := by
      rw [whole, ← List.length_append, List.drop_left]
    have due : listStep ⟨passed, some r, rest⟩ .delete = (⟨passed, none, rest⟩, .done) := rfl
    rw [run, due, head, tail]
    refine ⟨⟨?_, ?_, rfl, by simp⟩, rfl⟩
    · dsimp only
      rw [Records.bytes, behind_none]
    · dsimp only
      rw [behind_none]

theorem both_agrees_iff {b : Both} (agrees : Agrees b) (op : Op) :
    ∃ b', both b op = some b' ∧ (Agrees b' ↔ Proper b op) := by
  refine ⟨⟨(recordStep b.file op).1, (listStep b.list op.meaning).1, (recordStep b.file op).2,
    (listStep b.list op.meaning).2⟩, rfl, ?_⟩
  have stands := agrees.stands
  by_cases sized : Sized op.meaning
  · rw [step_sized _ sized]
    constructor
    · intro agrees'
      refine ⟨sized, ?_⟩
      cases kind : op.meaning with
      | write p =>
        by_contra unread
        have bytes := agrees'.stands.bytes
        simp only [kind, transfer] at bytes
        rw [kind] at sized
        exact write_breaks stands unread sized bytes
      | _ => trivial
    · rintro ⟨-, finished⟩
      cases kind : op.meaning with
      | write p =>
        rw [kind] at finished sized
        exact ⟨write_stands stands finished sized, rfl⟩
      | read size =>
        rw [kind] at sized
        obtain ⟨stands', same⟩ := read_stands stands sized
        exact ⟨stands', same⟩
      | rewrite p =>
        rw [kind] at sized
        obtain ⟨stands', same⟩ := rewrite_stands stands sized
        exact ⟨stands', same⟩
      | delete =>
        obtain ⟨stands', same⟩ := delete_stands stands
        exact ⟨stands', same⟩
  · rw [step_empty _ sized]
    refine iff_of_false ?_ fun proper => sized proper.1
    intro agrees'
    cases kind : op.meaning with
    | write p =>
      have whole := agrees'.stands.whole p (by rw [kind]; rfl)
      exact sized (by rw [kind]; exact whole)
    | read size =>
      have zero : size = 0 := by
        rw [kind] at sized
        exact Nat.eq_zero_of_not_pos sized
      have same := agrees'.same
      rw [kind, zero] at same
      cases same
    | rewrite p =>
      have none : p = [] := by
        rw [kind] at sized
        exact not_not.mp sized
      have same := agrees'.same
      rw [kind, none] at same
      cases held : b.list.current with
      | none =>
        simp only [listStep, held] at same
        cases same
      | some r =>
        have long : r.length ≠ ([] : List UInt8).length := by
          have whole := stands.whole r held
          simpa using whole
        simp only [listStep, held, if_pos long] at same
        cases same
    | delete =>
      rw [kind] at sized
      exact sized trivial

def opened (bytes : List UInt8) : Both :=
  ⟨⟨⟨bytes, 0⟩, none⟩, ⟨[], none, bytes⟩, .done, .done⟩

theorem opened_agrees (bytes : List UInt8) : Agrees (opened bytes) :=
  ⟨⟨rfl, rfl, rfl, by simp [opened]⟩, rfl⟩

/-- Over any sequence of operations of any types, the file holds the list's bytes and answers
    as the list does after each one, exactly where they are all proper. -/
theorem record_file_is_list_iff (bytes : List UInt8) (ops : List Op) :
    (∀ done rest b, ops = done ++ rest → run both (opened bytes) done = some b → Agrees b) ↔
      AllSteps both Proper (opened bytes) ops :=
  run_invariant_iff (fun _ op agrees => both_agrees_iff agrees op) (opened_agrees bytes)

/-- The first of three records read and one written: it replaces the second. -/
theorem write_replaces_next :
    ((run both (opened [1, 2, 3]) [.readBit, .writeBit 9]).map fun b =>
        (b.file.file.bytes, b.list.bytes)) = some ([1, 9, 3], [1, 2, 3, 9]) := by
  decide +kernel

end PliRecordFile
