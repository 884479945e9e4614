import PliLlvm.Lib.Block
import PliLlvm.Lib.ByteFile
import Mathlib.Data.List.Nodup

/- Keyed record files (runtime/rt_file.c): the data file of one slot and its index
   of (key, offset, length). Offsets and lengths are Nat, the index's capacity is
   left out, and transfers and allocations succeed. pli_signal_error is an outcome
   beside the state, so what a refused operation leaves behind is visible. -/
namespace PliKeyedFile
open Blocks ByteFiles
open Function (update update_eq_self update_idem update_of_ne update_self)

abbrev Key := List UInt8

structure KixEntry where
  key : Key
  off : Nat
  len : Nat
  deriving DecidableEq

structure Slot where
  file : Option CFile
  ent : List KixEntry
  dirty : Bool
  deriving DecidableEq

inductive Outcome where
  | done
  | data (p : List UInt8)
  | error (msg : String)

def kixFind (s : Slot) (key : Key) : Option Nat := s.ent.findIdx? fun e => e.key == key

def kixInsert (s : Slot) (key : Key) (off len : Nat) : Slot :=
  if (kixFind s key).isSome then s
  else { s with ent := s.ent ++ [⟨key, off, len⟩], dirty := true }

def kixRemove (s : Slot) (idx : Nat) : Slot :=
  if s.ent.length ≤ idx then s
  else
    { s with
      ent := (shiftDown s.ent idx (s.ent.length - 1 - idx)).take (s.ent.length - 1)
      dirty := true }

def recFile (s : Slot) : Except String CFile :=
  match s.file with
  | none => .error "record file is not open"
  | some f => .ok f

/-- pli_record_write_keyed_char: append the record and index it. -/
def pliRecordWriteKeyedChar (s : Slot) (key : Key) (p : List UInt8) : Slot × Outcome :=
  match recFile s with
  | .error msg => (s, .error msg)
  | .ok f =>
    if p.length ≤ 0 ∨ (kixFind s key).isSome then (s, .error "WRITE duplicates an existing key")
    else
      let f := f.seekEnd
      let off := f.tell
      let s := { s with file := some (f.write p) }
      (kixInsert s key off p.length, .done)

/-- pli_record_read_keyed_char: `p` is the buffer before the transfer. -/
def pliRecordReadKeyedChar (s : Slot) (key : Key) (p : List UInt8) : Slot × Outcome :=
  match recFile s with
  | .error msg => (s, .error msg)
  | .ok f =>
    if p.length ≤ 0 then (s, .error "READ key not found")
    else match (kixFind s key).bind (s.ent[·]?) with
      | none => (s, .error "READ key not found")
      | some e =>
        let n := if e.len < p.length then e.len else p.length
        let (got, f) := (f.seekSet e.off).read n
        let s := { s with file := some f }
        if got.length = n then (s, .data (got ++ p.drop n))
        else (s, .error "READ from keyed file failed")

/-- pli_record_rewrite_keyed_char: replace the record in place. -/
def pliRecordRewriteKeyedChar (s : Slot) (key : Key) (p : List UInt8) : Slot × Outcome :=
  match recFile s with
  | .error msg => (s, .error msg)
  | .ok f =>
    if p.length ≤ 0 then (s, .error "REWRITE key not found")
    else match (kixFind s key).bind (s.ent[·]?) with
      | none => (s, .error "REWRITE key not found")
      | some e =>
        if e.len ≠ p.length then (s, .error "REWRITE changes the record size")
        else ({ s with file := some ((f.seekSet e.off).write p) }, .done)

def copyChunk : Nat := 8192

/-- pli_record_delete_keyed: cut the record out and re-key what follows it. -/
def pliRecordDeleteKeyed (s : Slot) (key : Key) : Slot × Outcome :=
  match recFile s with
  | .error msg => (s, .error msg)
  | .ok f =>
    match (kixFind s key).bind fun idx => (s.ent[idx]?).map (idx, ·) with
    | none => (s, .error "DELETE key not found")
    | some (idx, e) =>
      let f := f.seekEnd
      let stop := f.tell
      if stop < e.off + e.len then
        ({ s with file := some f }, .error "DELETE from keyed file failed")
      else match moveDown copyChunk stop (stop - (e.off + e.len)) f (e.off + e.len) e.off with
        | (f, none) => ({ s with file := some f }, .error "DELETE from keyed file failed")
        | (f, some dst) =>
          let s := kixRemove { s with file := some (f.truncate dst) } idx
          ({ s with
              ent := s.ent.map fun x =>
                if e.off + e.len ≤ x.off then { x with off := x.off - e.len } else x
              dirty := true }, .done)

structure Rec where
  key : Key
  bytes : List UInt8

/-- Where records laid end to end from `off` stand in the index. -/
def layout : Nat → List Rec → List KixEntry
  | _, [] => []
  | off, r :: rest => ⟨r.key, off, r.bytes.length⟩ :: layout (off + r.bytes.length) rest

@[simp]
theorem layout_nil (off : Nat) : layout off [] = [] := rfl

@[simp]
theorem layout_cons (off : Nat) (r : Rec) (rest : List Rec) :
    layout off (r :: rest) =
      ⟨r.key, off, r.bytes.length⟩ :: layout (off + r.bytes.length) rest := rfl

def image (recs : List Rec) : List UInt8 := recs.flatMap (·.bytes)

/-- The slot holds exactly `recs`: they tile the data file in index order. -/
structure Holds (s : Slot) (recs : List Rec) : Prop where
  opened : ∃ pos, s.file = some ⟨image recs, pos⟩
  index : s.ent = layout 0 recs
  distinct : (recs.map (·.key)).Nodup
  positive : ∀ r ∈ recs, 0 < r.bytes.length

theorem layout_append (off : Nat) (xs ys : List Rec) :
    layout off (xs ++ ys) = layout off xs ++ layout (off + (image xs).length) ys := by
  induction xs generalizing off with
  | nil => simp [image]
  | cons r xs ih =>
    simp only [List.cons_append, layout_cons, ih, image, List.flatMap_cons, List.length_append]
    rw [Nat.add_assoc]

theorem layout_length (off : Nat) (xs : List Rec) : (layout off xs).length = xs.length := by
  induction xs generalizing off with
  | nil => rfl
  | cons r xs ih => simp [ih]

theorem layout_keys (off : Nat) (xs : List Rec) : (layout off xs).map (·.key) = xs.map (·.key) := by
  induction xs generalizing off with
  | nil => rfl
  | cons r xs ih => simp [ih]

theorem layout_lower (off : Nat) (xs : List Rec) : ∀ e ∈ layout off xs, off ≤ e.off := by
  induction xs generalizing off with
  | nil => simp
  | cons r xs ih =>
    intro e mem
    rcases List.mem_cons.mp mem with rfl | mem
    · exact Nat.le_refl _
    · have := ih _ e mem
      omega

theorem layout_upper (off : Nat) (xs : List Rec) :
    ∀ e ∈ layout off xs, e.off + e.len ≤ off + (image xs).length := by
  induction xs generalizing off with
  | nil => simp
  | cons r xs ih =>
    intro e mem
    simp only [image, List.flatMap_cons, List.length_append]
    rcases List.mem_cons.mp mem with rfl | mem
    · dsimp only
      omega
    · have := ih _ e mem
      simp only [image] at this
      omega

theorem layout_positive {off : Nat} {xs : List Rec} (positive : ∀ r ∈ xs, 0 < r.bytes.length) :
    ∀ e ∈ layout off xs, 0 < e.len := by
  induction xs generalizing off with
  | nil => simp
  | cons r xs ih =>
    intro e mem
    rcases List.mem_cons.mp mem with rfl | mem
    · exact positive r (by simp)
    · exact ih (fun x hx => positive x (by simp [hx])) e mem

theorem layout_shift (off n : Nat) (xs : List Rec) :
    (layout (off + n) xs).map (fun x => { x with off := x.off - n }) = layout off xs := by
  induction xs generalizing off with
  | nil => rfl
  | cons r xs ih =>
    have step := ih (off + r.bytes.length)
    rw [show off + r.bytes.length + n = off + n + r.bytes.length by omega] at step
    simp [step]

def valueOf (recs : List Rec) (key : Key) : Option (List UInt8) :=
  (recs.find? fun r => r.key == key).map (·.bytes)

theorem valueOf_none_iff (recs : List Rec) (key : Key) :
    valueOf recs key = none ↔ key ∉ recs.map (·.key) := by
  simp only [valueOf, Option.map_eq_none_iff, List.find?_eq_none, beq_iff_eq, List.mem_map,
    not_exists, not_and]

variable {s : Slot} {recs : List Rec} {key : Key}

theorem find_absent (holds : Holds s recs)
    (missing : valueOf recs key = none) : kixFind s key = none := by
  rw [kixFind, List.findIdx?_eq_none_iff]
  intro e mem
  have absent := (valueOf_none_iff recs key).mp missing
  rw [← layout_keys 0 recs, ← holds.index] at absent
  have ne : e.key ≠ key := fun same => absent (same ▸ List.mem_map_of_mem mem)
  simpa using ne

variable {bytes : List UInt8}

theorem find_present (holds : Holds s recs) (present : valueOf recs key = some bytes) :
    ∃ pre post, recs = pre ++ ⟨key, bytes⟩ :: post ∧ kixFind s key = some pre.length ∧
      s.ent[pre.length]? = some ⟨key, (image pre).length, bytes.length⟩ := by
  obtain ⟨r, found, rbytes⟩ := Option.map_eq_some_iff.mp present
  obtain ⟨hit, pre, post, split, miss⟩ := List.find?_eq_some_iff_append.mp found
  have same : r = ⟨key, bytes⟩ := by
    obtain ⟨k, b⟩ := r
    simp only [beq_iff_eq] at hit rbytes
    rw [hit, rbytes]
  subst same
  have entries : s.ent = layout 0 pre ++
      ⟨key, (image pre).length, bytes.length⟩ ::
        layout ((image pre).length + bytes.length) post := by
    rw [holds.index, split, layout_append, Nat.zero_add]
    rfl
  have missed : ∀ e ∈ layout 0 pre, (e.key == key) = false := by
    intro e mem
    have mem' : e.key ∈ pre.map (·.key) := by
      rw [← layout_keys 0 pre]
      exact List.mem_map_of_mem mem
    obtain ⟨x, hx, same⟩ := List.mem_map.mp mem'
    have := miss x hx
    simpa [← same] using this
  refine ⟨pre, post, split, ?_, ?_⟩
  · rw [kixFind, entries, List.findIdx?_append, List.findIdx?_eq_none_iff.mpr missed]
    simp [layout_length, List.findIdx?_cons]
  · rw [entries, List.getElem?_append_right (Nat.le_of_eq (layout_length 0 pre)), layout_length,
      Nat.sub_self]
    rfl

theorem image_append (xs ys : List Rec) : image (xs ++ ys) = image xs ++ image ys := by
  simp [image]

theorem image_cut (pre post : List Rec) (r : Rec) :
    image (pre ++ r :: post) = image pre ++ r.bytes ++ image post := by
  simp [image]

section
variable (holds : Holds s recs)
include holds

theorem write_absent {p : List UInt8} (missing : valueOf recs key = none)
    (some_byte : 0 < p.length) :
    ∃ s', pliRecordWriteKeyedChar s key p = (s', .done) ∧ Holds s' (recs ++ [⟨key, p⟩]) := by
  obtain ⟨pos, opened⟩ := holds.opened
  have absent := find_absent holds missing
  have guard : ¬ (p.length ≤ 0 ∨ False) := by
    rw [or_false]
    omega
  have inserted : kixFind
      { s with file := some (CFile.write (CFile.seekEnd ⟨image recs, pos⟩) p) } key = none := absent
  refine ⟨⟨some (CFile.write ⟨image recs, (image recs).length⟩ p),
    s.ent ++ [⟨key, (image recs).length, p.length⟩], true⟩, ?_, ?_, ?_, ?_, ?_⟩
  · simp only [pliRecordWriteKeyedChar, recFile, opened, absent, Option.isSome_none,
      Bool.false_eq_true, guard, ↓reduceIte, kixInsert, inserted]
    rfl
  · refine ⟨(image recs).length + p.length, ?_⟩
    rw [CFile.write, splice_end, image_append]
    simp [image]
  · rw [layout_append, ← holds.index]
    simp
  · rw [List.map_append, List.nodup_append]
    refine ⟨holds.distinct, by simp, ?_⟩
    intro k mem other here same
    simp only [List.map_cons, List.map_nil, List.mem_singleton] at here
    exact (valueOf_none_iff recs key).mp missing (by rw [← here, ← same]; exact mem)
  · intro r mem
    rcases List.mem_append.mp mem with old | new
    · exact holds.positive r old
    · simp only [List.mem_singleton] at new
      subst new
      exact some_byte

theorem write_present (present : valueOf recs key = some bytes) (p : List UInt8) :
    pliRecordWriteKeyedChar s key p = (s, .error "WRITE duplicates an existing key") := by
  obtain ⟨pos, opened⟩ := holds.opened
  obtain ⟨pre, post, _, found, _⟩ := find_present holds present
  simp [pliRecordWriteKeyedChar, recFile, opened, found]

theorem read_absent (missing : valueOf recs key = none) (p : List UInt8) :
    pliRecordReadKeyedChar s key p = (s, .error "READ key not found") := by
  obtain ⟨pos, opened⟩ := holds.opened
  simp [pliRecordReadKeyedChar, recFile, opened, find_absent holds missing]

theorem read_present (present : valueOf recs key = some bytes) {p : List UInt8}
    (fits : p.length = bytes.length) (some_byte : 0 < p.length) :
    ∃ s', pliRecordReadKeyedChar s key p = (s', .data bytes) ∧ Holds s' recs := by
  obtain ⟨pos, opened⟩ := holds.opened
  obtain ⟨pre, post, split, found, entry⟩ := find_present holds present
  have transfer : ((image recs).drop (image pre).length).take bytes.length = bytes := by
    rw [split, image_cut]
    exact read_middle _ _ _
  refine ⟨{ s with file := some ⟨image recs, (image pre).length + bytes.length⟩ }, ?_, ?_⟩
  · simp only [pliRecordReadKeyedChar, recFile, opened, found, Option.bind_some, entry, fits,
      Nat.lt_irrefl, ↓reduceIte, CFile.read, CFile.seekSet, transfer]
    rw [if_neg (by omega)]
    simp [List.drop_of_length_le (Nat.le_of_eq fits)]
  · exact ⟨⟨_, rfl⟩, holds.index, holds.distinct, holds.positive⟩

theorem rewrite_absent (missing : valueOf recs key = none) (p : List UInt8) :
    pliRecordRewriteKeyedChar s key p = (s, .error "REWRITE key not found") := by
  obtain ⟨pos, opened⟩ := holds.opened
  simp [pliRecordRewriteKeyedChar, recFile, opened, find_absent holds missing]

theorem rewrite_resized (present : valueOf recs key = some bytes) {p : List UInt8}
    (resized : p.length ≠ bytes.length) (some_byte : 0 < p.length) :
    pliRecordRewriteKeyedChar s key p = (s, .error "REWRITE changes the record size") := by
  obtain ⟨pos, opened⟩ := holds.opened
  obtain ⟨pre, post, split, found, entry⟩ := find_present holds present
  simp only [pliRecordRewriteKeyedChar, recFile, opened, found, Option.bind_some, entry]
  rw [if_neg (by omega), if_pos (Ne.symm resized)]

theorem rewrite_present (present : valueOf recs key = some bytes) {p : List UInt8}
    (fits : p.length = bytes.length) (some_byte : 0 < p.length) :
    ∃ s' pre post, recs = pre ++ ⟨key, bytes⟩ :: post ∧
      pliRecordRewriteKeyedChar s key p = (s', .done) ∧ Holds s' (pre ++ ⟨key, p⟩ :: post) := by
  obtain ⟨pos, opened⟩ := holds.opened
  obtain ⟨pre, post, split, found, entry⟩ := find_present holds present
  refine ⟨{ s with file := some (CFile.write ⟨image recs, (image pre).length⟩ p) },
    pre, post, split, ?_, ?_⟩
  · simp only [pliRecordRewriteKeyedChar, recFile, opened, found, Option.bind_some, entry]
    rw [if_neg (by omega), if_neg (by simp [fits])]
    rfl
  · refine ⟨⟨(image pre).length + p.length, ?_⟩, ?_, ?_, ?_⟩
    · rw [CFile.write, split, image_cut, image_cut, splice_middle _ _ _ _ fits]
    · rw [holds.index, split, layout_append, layout_append]
      simp [fits]
    · have := holds.distinct
      rw [split] at this
      simpa using this
    · intro r mem
      rcases List.mem_append.mp mem with early | late
      · exact holds.positive r (by rw [split]; simp [early])
      · rcases List.mem_cons.mp late with rfl | late
        · exact some_byte
        · exact holds.positive r (by rw [split]; simp [late])

theorem delete_absent (missing : valueOf recs key = none) :
    pliRecordDeleteKeyed s key = (s, .error "DELETE key not found") := by
  obtain ⟨pos, opened⟩ := holds.opened
  simp [pliRecordDeleteKeyed, recFile, opened, find_absent holds missing]

end

theorem rekey_layout (pre post : List Rec) (n : Nat) (positive : ∀ r ∈ pre, 0 < r.bytes.length) :
    (layout 0 pre ++ layout ((image pre).length + n) post).map (fun x =>
      if (image pre).length + n ≤ x.off then { x with off := x.off - n } else x) =
      layout 0 (pre ++ post) := by
  rw [List.map_append, layout_append, Nat.zero_add]
  congr 1
  · refine (List.map_congr_left ?_).trans (List.map_id _)
    intro e mem
    have upper := layout_upper 0 pre e mem
    have long := layout_positive positive e mem
    rw [if_neg (by omega)]
    rfl
  · rw [← layout_shift (image pre).length n post]
    refine List.map_congr_left ?_
    intro e mem
    rw [if_pos (layout_lower _ post e mem)]

theorem delete_present (holds : Holds s recs) (present : valueOf recs key = some bytes) :
    ∃ s' pre post, recs = pre ++ ⟨key, bytes⟩ :: post ∧
      pliRecordDeleteKeyed s key = (s', .done) ∧ Holds s' (pre ++ post) := by
  obtain ⟨pos, opened⟩ := holds.opened
  obtain ⟨pre, post, split, found, entry⟩ := find_present holds present
  have whole : image recs = image pre ++ bytes ++ image post := by rw [split, image_cut]
  have size : (image recs).length = (image pre).length + bytes.length + (image post).length := by
    simp [whole]
    omega
  obtain ⟨g, moved, glen, gtake⟩ := @moveDown_moves copyChunk
    ((image recs).length - ((image pre).length + bytes.length)) ⟨image recs, (image recs).length⟩
    ((image pre).length + bytes.length) (image pre).length (by decide) (by omega)
    (by dsimp only; omega) (Nat.le_refl _)
  dsimp only at moved glen gtake
  have rest : (image recs).length - ((image pre).length + bytes.length) = (image post).length := by
    omega
  have cut : (g.truncate ((image pre).length + (image post).length)).bytes =
    image (pre ++ post) := by
    rw [rest] at gtake
    rw [CFile.truncate, gtake, glen, image_append]
    have short : (image pre).length + (image post).length - (image recs).length = 0 := by omega
    have before : (image recs).take (image pre).length = image pre := by
      rw [whole, List.append_assoc, List.take_left]
    have after : (image recs).drop ((image pre).length + bytes.length) = image post := by
      rw [whole, ← List.length_append, List.drop_left]
    simp [short, before, after]
  have removed : (shiftDown s.ent pre.length (s.ent.length - 1 - pre.length)).take
      (s.ent.length - 1) = layout 0 pre ++ layout ((image pre).length + bytes.length) post := by
    have count : s.ent.length = pre.length + (post.length + 1) := by
      rw [holds.index, layout_length, split]
      simp
    have entries : s.ent = layout 0 pre ++
        ⟨key, (image pre).length, bytes.length⟩ ::
          layout ((image pre).length + bytes.length) post := by
      rw [holds.index, split, layout_append, Nat.zero_add]
      rfl
    rw [shiftDown_take s.ent (by omega) (Nat.le_refl _), List.take_length, entries,
      List.eraseIdx_append_of_length_le (Nat.le_of_eq (layout_length 0 pre)), layout_length,
      Nat.sub_self, List.eraseIdx_cons_zero]
  have inRange : ¬ s.ent.length ≤ pre.length := by
    rw [holds.index, layout_length, split]
    simp
  have early : ∀ r ∈ pre, 0 < r.bytes.length := by
    intro r mem
    exact holds.positive r (by rw [split]; simp [mem])
  refine ⟨⟨some (g.truncate ((image pre).length + (image post).length)), layout 0 (pre ++ post),
    true⟩, pre, post, split, ?_, ?_⟩
  · simp only [pliRecordDeleteKeyed, recFile, opened, found, Option.bind_some, entry,
      Option.map_some, CFile.seekEnd, CFile.tell]
    rw [if_neg (by omega), moved, rest]
    simp only [kixRemove, inRange, ↓reduceIte, removed, rekey_layout pre post bytes.length early]
  · refine ⟨⟨g.pos, ?_⟩, rfl, ?_, ?_⟩
    · rw [← cut]
      rfl
    · have := holds.distinct
      rw [split, List.map_append, List.map_cons] at this
      rw [List.map_append]
      exact this.sublist (List.Sublist.append_left (List.sublist_cons_self _ _) _)
    · intro r mem
      refine holds.positive r ?_
      rw [split]
      rcases List.mem_append.mp mem with early | late
      · simp [early]
      · simp [late]

theorem read_holds (holds : Holds s recs) (key : Key)
    (p : List UInt8) : Holds (pliRecordReadKeyedChar s key p).1 recs := by
  obtain ⟨pos, opened⟩ := holds.opened
  simp only [pliRecordReadKeyedChar, recFile, opened]
  split
  · exact holds
  · split
    · exact holds
    · simp only [apply_ite Prod.fst, ite_self]
      exact ⟨⟨_, rfl⟩, holds.index, holds.distinct, holds.positive⟩

/- What the operations mean for a map from keys to records. -/
inductive Op where
  | write (key : Key) (p : List UInt8)
  | read (key : Key) (p : List UInt8)
  | rewrite (key : Key) (p : List UInt8)
  | delete (key : Key)

def Op.Positive : Op → Prop
  | .write _ p | .read _ p | .rewrite _ p => 0 < p.length
  | .delete _ => True

def step (s : Slot) : Op → Slot × Outcome
  | .write key p => pliRecordWriteKeyedChar s key p
  | .read key p => pliRecordReadKeyedChar s key p
  | .rewrite key p => pliRecordRewriteKeyedChar s key p
  | .delete key => pliRecordDeleteKeyed s key

def execute (s : Slot) (ops : List Op) : Slot := ops.foldl (fun s op => (step s op).1) s

abbrev Store := Key → Option (List UInt8)

def mapStep (m : Store) : Op → Store
  | .write key p => if m key = none then update m key (some p) else m
  | .read _ _ => m
  | .rewrite key p =>
    if (m key).any (fun r => r.length == p.length) then update m key (some p) else m
  | .delete key => update m key none

def mapExecute (m : Store) (ops : List Op) : Store := ops.foldl mapStep m

/-- The slot answers as the map does, refuses as the map does, and its index
    partitions the data file among the map's keys. -/
structure Answers (s : Slot) (m : Store) : Prop where
  read_record : ∀ key r p, m key = some r → p.length = r.length →
    (pliRecordReadKeyedChar s key p).2 = .data r
  read_missing : ∀ key p, m key = none →
    pliRecordReadKeyedChar s key p = (s, .error "READ key not found")
  write_new : ∀ key p, m key = none → 0 < p.length → (pliRecordWriteKeyedChar s key p).2 = .done
  write_duplicate : ∀ key p, m key ≠ none →
    pliRecordWriteKeyedChar s key p = (s, .error "WRITE duplicates an existing key")
  rewrite_same : ∀ key r p, m key = some r → p.length = r.length →
    (pliRecordRewriteKeyedChar s key p).2 = .done
  rewrite_missing : ∀ key p, m key = none →
    pliRecordRewriteKeyedChar s key p = (s, .error "REWRITE key not found")
  rewrite_other_length : ∀ key r p, m key = some r → 0 < p.length → p.length ≠ r.length →
    pliRecordRewriteKeyedChar s key p = (s, .error "REWRITE changes the record size")
  delete_found : ∀ key, m key ≠ none → (pliRecordDeleteKeyed s key).2 = .done
  delete_missing : ∀ key, m key = none →
    pliRecordDeleteKeyed s key = (s, .error "DELETE key not found")
  live : ∀ key, m key ≠ none ↔ key ∈ s.ent.map (·.key)
  single : (s.ent.map (·.key)).Nodup
  apart : s.ent.Pairwise fun a b => a.off + a.len ≤ b.off ∨ b.off + b.len ≤ a.off
  cover : ∃ f, s.file = some f ∧
    ∀ i, i < f.bytes.length ↔ ∃ e ∈ s.ent, e.off ≤ i ∧ i < e.off + e.len

theorem layout_apart (off : Nat) (xs : List Rec) :
    (layout off xs).Pairwise fun a b => a.off + a.len ≤ b.off ∨ b.off + b.len ≤ a.off := by
  induction xs generalizing off with
  | nil => simp
  | cons r xs ih =>
    refine List.Pairwise.cons ?_ (ih _)
    intro e mem
    exact Or.inl (layout_lower _ xs e mem)

theorem layout_cover (off : Nat) (xs : List Rec) (i : Nat) :
    (off ≤ i ∧ i < off + (image xs).length) ↔
      ∃ e ∈ layout off xs, e.off ≤ i ∧ i < e.off + e.len := by
  induction xs generalizing off with
  | nil => simp [image]
  | cons r xs ih =>
    have step := ih (off + r.bytes.length)
    simp only [layout_cons, List.mem_cons, exists_eq_or_imp, ← step, image, List.flatMap_cons,
      List.length_append]
    omega

theorem holds_answers (holds : Holds s recs) : Answers s (valueOf recs) := by
  have nonempty : ∀ key r, valueOf recs key = some r → 0 < r.length := by
    intro key r present
    obtain ⟨pre, post, split, _⟩ := find_present holds present
    exact holds.positive ⟨key, r⟩ (by rw [split]; simp)
  have bound : ∀ key, valueOf recs key ≠ none → ∃ r, valueOf recs key = some r :=
    fun key => Option.ne_none_iff_exists'.mp
  refine {
    read_record := ?_
    read_missing := fun key p missing => read_absent holds missing p
    write_new := ?_
    write_duplicate := ?_
    rewrite_same := ?_
    rewrite_missing := fun key p missing => rewrite_absent holds missing p
    rewrite_other_length := fun key r p present long other =>
      rewrite_resized holds present other long
    delete_found := ?_
    delete_missing := fun key missing => delete_absent holds missing
    live := ?_
    single := ?_
    apart := ?_
    cover := ?_ }
  · intro key r p present fits
    obtain ⟨s', done, _⟩ :=
      read_present holds present fits (by rw [fits]; exact nonempty key r present)
    rw [done]
  · intro key p missing long
    obtain ⟨s', done, _⟩ := write_absent holds missing long
    rw [done]
  · intro key p present
    obtain ⟨r, present⟩ := bound key present
    exact write_present holds present p
  · intro key r p present fits
    obtain ⟨s', pre, post, _, done, _⟩ :=
      rewrite_present holds present fits (by rw [fits]; exact nonempty key r present)
    rw [done]
  · intro key present
    obtain ⟨r, present⟩ := bound key present
    obtain ⟨s', pre, post, _, done, _⟩ := delete_present holds present
    rw [done]
  · intro key
    rw [holds.index, layout_keys, Ne, valueOf_none_iff, not_not]
  · rw [holds.index, layout_keys]
    exact holds.distinct
  · rw [holds.index]
    exact layout_apart 0 recs
  · obtain ⟨pos, opened⟩ := holds.opened
    refine ⟨_, opened, ?_⟩
    intro i
    rw [holds.index, ← layout_cover]
    simp

theorem valueOf_append (xs ys : List Rec) (key : Key) :
    valueOf (xs ++ ys) key = (valueOf xs key).or (valueOf ys key) := by
  simp only [valueOf, List.find?_append]
  cases xs.find? fun r => r.key == key <;> simp

theorem valueOf_cons (r : Rec) (xs : List Rec) (key : Key) :
    valueOf (r :: xs) key = if r.key = key then some r.bytes else valueOf xs key := by
  by_cases same : r.key = key
  · simp [valueOf, same]
  · simp [valueOf, same]

variable {pre post : List Rec}

theorem valueOf_place {p : List UInt8} (outside : key ∉ pre.map (·.key)) :
    valueOf (pre ++ ⟨key, p⟩ :: post) = update (valueOf (pre ++ post)) key (some p) := by
  funext other
  by_cases same : other = key
  · subst same
    rw [valueOf_append, (valueOf_none_iff pre other).mpr outside, valueOf_cons, if_pos rfl,
      update_self]
    rfl
  · rw [valueOf_append, valueOf_cons, if_neg (Ne.symm same), update_of_ne same,
      valueOf_append]

theorem valueOf_removed (before : key ∉ pre.map (·.key))
    (after : key ∉ post.map (·.key)) : valueOf (pre ++ post) key = none := by
  rw [valueOf_append, (valueOf_none_iff pre key).mpr before, (valueOf_none_iff post key).mpr after]
  rfl

theorem distinct_cut {r : Rec} (distinct : ((pre ++ r :: post).map (·.key)).Nodup) :
    r.key ∉ pre.map (·.key) ∧ r.key ∉ post.map (·.key) := by
  rw [List.map_append, List.map_cons, List.nodup_append, List.nodup_cons] at distinct
  obtain ⟨_, ⟨after, _⟩, apart⟩ := distinct
  exact ⟨fun mem => apart _ mem _ (by simp) rfl, after⟩

theorem step_holds {s : Slot} {recs : List Rec} (holds : Holds s recs) {op : Op}
    (positive : op.Positive) :
    ∃ recs', Holds (step s op).1 recs' ∧ valueOf recs' = mapStep (valueOf recs) op := by
  cases op with
  | write key p =>
    cases found : valueOf recs key with
    | none =>
      obtain ⟨s', done, holds'⟩ := write_absent holds found positive
      refine ⟨_, by rw [step, done]; exact holds', ?_⟩
      have outside := (valueOf_none_iff recs key).mp found
      rw [valueOf_place outside, List.append_nil, mapStep, if_pos found]
    | some r =>
      refine ⟨recs, by rw [step, write_present holds found p]; exact holds, ?_⟩
      simp [mapStep, found]
  | read key p => exact ⟨recs, read_holds holds key p, rfl⟩
  | rewrite key p =>
    cases found : valueOf recs key with
    | none =>
      refine ⟨recs, by rw [step, rewrite_absent holds found p]; exact holds, ?_⟩
      simp [mapStep, found]
    | some r =>
      by_cases fits : p.length = r.length
      · obtain ⟨s', pre, post, split, done, holds'⟩ := rewrite_present holds found fits positive
        refine ⟨_, by rw [step, done]; exact holds', ?_⟩
        have distinct := holds.distinct
        rw [split] at distinct
        have outside : key ∉ pre.map (·.key) := (distinct_cut distinct).1
        have applies : (valueOf recs key).any (fun r => r.length == p.length) = true := by
          simp [found, fits]
        rw [mapStep, if_pos applies, split, valueOf_place outside, valueOf_place outside,
          update_idem]
      · refine ⟨recs, by rw [step, rewrite_resized holds found fits positive]; exact holds, ?_⟩
        have refused : ¬ (valueOf recs key).any (fun r => r.length == p.length) = true := by
          simp [found, Ne.symm fits]
        rw [mapStep, if_neg refused]
  | delete key =>
    cases found : valueOf recs key with
    | none =>
      refine ⟨recs, by rw [step, delete_absent holds found]; exact holds, ?_⟩
      rw [mapStep, ← found, update_eq_self]
    | some r =>
      obtain ⟨s', pre, post, split, done, holds'⟩ := delete_present holds found
      refine ⟨_, by rw [step, done]; exact holds', ?_⟩
      have distinct := holds.distinct
      rw [split] at distinct
      obtain ⟨before, after⟩ := distinct_cut distinct
      rw [mapStep, split, valueOf_place before, update_idem,
        ← valueOf_removed before after, update_eq_self]

theorem execute_holds (holds : Holds s recs) {ops : List Op} (positive : ∀ op ∈ ops, op.Positive) :
    ∃ recs', Holds (execute s ops) recs' ∧ valueOf recs' = mapExecute (valueOf recs) ops := by
  induction ops generalizing s recs with
  | nil => exact ⟨recs, holds, rfl⟩
  | cons op ops ih =>
    obtain ⟨mid, holdsMid, value⟩ := step_holds holds (positive op (by simp))
    obtain ⟨final, holdsFinal, valueFinal⟩ :=
      ih holdsMid (fun other mem => positive other (by simp [mem]))
    exact ⟨final, holdsFinal, by rw [valueFinal, value]; rfl⟩

theorem opened_output_holds (pos : Nat) (dirty : Bool) : Holds ⟨some ⟨[], pos⟩, [], dirty⟩ [] :=
  ⟨⟨pos, rfl⟩, rfl, List.nodup_nil, by simp⟩

/-- Any sequence of keyed operations on a file opened for output makes the slot the
    map the operations build; so it does from every file whose records the index
    tiles, which is how the operations leave one. -/
theorem keyed_file_is_map (ops : List Op) (positive : ∀ op ∈ ops, op.Positive) :
    (∀ pos dirty, Answers (execute ⟨some ⟨[], pos⟩, [], dirty⟩ ops)
      (mapExecute (fun _ => none) ops)) ∧
    ∀ s recs, Holds s recs → Answers (execute s ops) (mapExecute (valueOf recs) ops) := by
  have reached : ∀ s recs, Holds s recs →
      Answers (execute s ops) (mapExecute (valueOf recs) ops) := by
    intro s recs opened
    obtain ⟨final, holds, value⟩ := execute_holds opened positive
    rw [← value]
    exact holds_answers holds
  exact ⟨fun pos dirty => reached _ [] (opened_output_holds pos dirty), reached⟩

/-- Two keys written, the first deleted, the second found where it moved to. -/
theorem keyed_file_shifted_record :
    (pliRecordReadKeyedChar
      (execute ⟨some ⟨[], 0⟩, [], true⟩
        [.write [1] [10, 11, 12], .write [2] [20, 21], .rewrite [2] [22, 23], .delete [1]])
      [2] [0, 0]).2 = .data [22, 23] := by
  have spec := keyed_file_is_map
    [.write [1] [10, 11, 12], .write [2] [20, 21], .rewrite [2] [22, 23], .delete [1]]
    (by simp [Op.Positive])
  exact (spec.1 0 true).read_record [2] [22, 23] [0, 0] (by decide) rfl

end PliKeyedFile
