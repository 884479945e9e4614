import PliLlvm.Lib.Run
import PliLlvm.Runtime.KeyedFile
import Mathlib.Data.List.Flatten
import Mathlib.Data.List.Sort
import Mathlib.Data.List.TakeWhile

/- The sidecar index of a keyed file and the OPEN and CLOSE of its slot (runtime/rt_file.c).
   One slot opens one file: its bytes and the sidecar's are on disk, where a missing file
   is none. Words are 8 bytes, the lowest first. The sidecar can be written, allocations
   succeed, and a sidecar is one that kix_save wrote or none. Transfers on a stream opened
   for INPUT that write, and those that would take a file past 2^63 bytes, signal ERROR
   and end the program. -/
namespace PliKeyedFile
open Blocks ByteFiles Runs

/-- KIX_MAGIC, "PLIKIX". -/
def kixMagic : List UInt8 := [80, 76, 73, 75, 73, 88]

/-- The longest key kix_load accepts. -/
def kixKeyMax : Nat := 1024

def kixEntryBytes (e : KixEntry) : List UInt8 :=
  leBytes 8 e.key.length ++ e.key ++ leBytes 8 e.off ++ leBytes 8 e.len

/-- What kix_save writes: the entries in the order of their offsets. -/
def kixBytes (ent : List KixEntry) : List UInt8 :=
  kixMagic ++ leBytes 8 ent.length ++
    (ent.insertionSort fun a b => a.off ≤ b.off).flatMap kixEntryBytes

/-- The loop of kix_load: it stops at the first entry it cannot take. -/
def kixLoadEntries : Nat → List UInt8 → List KixEntry
  | 0, _ => []
  | n + 1, bytes =>
    match readI64 bytes with
    | none => []
    | some (keylen, bytes) =>
      if keylen < 0 ∨ keylen > kixKeyMax then []
      else if bytes.length < keylen.toNat then []
      else
        let key := bytes.take keylen.toNat
        match readI64 (bytes.drop keylen.toNat) with
        | none => []
        | some (off, bytes) =>
          match readI64 bytes with
          | none => []
          | some (len, bytes) => ⟨key, off.toNat, len.toNat⟩ :: kixLoadEntries n bytes

def kixEntries (bytes : List UInt8) : List KixEntry :=
  if bytes.take 6 ≠ kixMagic then []
  else match readI64 (bytes.drop 6) with
    | none => []
    | some (count, bytes) => kixLoadEntries count.toNat bytes

/-- The disk's two files, the slot, its is_keyed flag, and whether its stream is INPUT. -/
structure World where
  data : Option (List UInt8)
  sidecar : Option (List UInt8)
  slot : Slot
  isKeyed : Bool
  readOnly : Bool
  deriving DecidableEq

def World.start : World := ⟨none, none, ⟨none, [], false⟩, false, false⟩

def kixReset (w : World) : World :=
  { w with slot := { w.slot with ent := [], dirty := false }, isKeyed := false }

def kixLoad (w : World) : World :=
  match w.sidecar with
  | none => w
  | some bytes => { w with slot := { w.slot with ent := w.slot.ent ++ kixEntries bytes } }

def kixSave (w : World) : World :=
  if w.slot.dirty = false then w
  else
    { w with
      sidecar := some (kixBytes w.slot.ent)
      slot := { w.slot with dirty := false } }

def fcloseFile (w : World) : World :=
  match w.slot.file with
  | none => w
  | some f => { w with data := some f.bytes, slot := { w.slot with file := none } }

inductive Mode where
  | input
  | output
  | update
  deriving DecidableEq

def fopenFile (w : World) (mode : Mode) (granted : Bool) : Option CFile :=
  if granted then if mode = .output then some ⟨[], 0⟩ else w.data.map fun bytes => ⟨bytes, 0⟩
  else none

/-- pli_file_open_keyed; a stream that cannot be opened raises UNDEFINEDFILE. -/
def pliFileOpenKeyed (w : World) (mode : Mode) (nonprint granted : Bool) : World :=
  let w := { kixReset w with isKeyed := true }
  let w := fcloseFile w
  if nonprint then w
  else match fopenFile w mode granted with
    | none => w
    | some f =>
      let w := { w with slot := { w.slot with file := some f }, readOnly := mode = .input }
      if mode = .output then
        let w := { kixReset w with isKeyed := true, data := some [] }
        { w with slot := { w.slot with dirty := true } }
      else kixLoad w

def pliFileClose (w : World) : World :=
  let w := if w.isKeyed then kixSave w else w
  kixReset (fcloseFile w)

inductive Event where
  | op (op : Op)
  | openKeyed (mode : Mode) (nonprint granted : Bool)
  | close

def canTransfer (w : World) : Op → Bool
  | .read _ _ => true
  | .write _ p =>
    !w.readOnly && (w.slot.file.all fun f => f.bytes.length + p.length < 2 ^ 63)
  | .rewrite _ _ | .delete _ => !w.readOnly

def worldStep (w : World) : Event → Option World
  | .op op => if canTransfer w op then some { w with slot := (step w.slot op).1 } else none
  | .openKeyed mode nonprint granted => some (pliFileOpenKeyed w mode nonprint granted)
  | .close => some (pliFileClose w)

def KixEntry.Sized (e : KixEntry) : Prop := e.key.length < 2 ^ 63 ∧ e.off < 2 ^ 63 ∧ e.len < 2 ^ 63

theorem loadEntries_written {ent : List KixEntry} (sized : ∀ e ∈ ent, e.Sized) :
    kixLoadEntries ent.length (ent.flatMap kixEntryBytes) =
      ent.takeWhile fun e => e.key.length ≤ kixKeyMax := by
  induction ent with
  | nil => rfl
  | cons e ent ih =>
    obtain ⟨keyFits, offFits, lenFits⟩ := sized e List.mem_cons_self
    have later := ih fun x mem => sized x (List.mem_cons_of_mem _ mem)
    simp only [List.length_cons, kixLoadEntries, List.flatMap_cons, kixEntryBytes,
      List.append_assoc,
      readI64_written keyFits, List.takeWhile_cons]
    by_cases short : e.key.length ≤ kixKeyMax
    · have accepted : ¬ ((e.key.length : Int) < 0 ∨ (e.key.length : Int) > kixKeyMax) := by omega
      simp only [if_neg accepted, Int.toNat_natCast, List.take_left, List.drop_left,
        List.length_append,
        readI64_written offFits, readI64_written lenFits, later, decide_eq_true short, if_true]
      rw [if_neg (by omega)]
    · have refused : (e.key.length : Int) < 0 ∨ (e.key.length : Int) > kixKeyMax := by omega
      simp only [if_pos refused, decide_eq_false short]
      rfl

theorem entries_written {ent : List KixEntry} (sized : ∀ e ∈ ent, e.Sized)
    (count : ent.length < 2 ^ 63) :
    kixEntries (kixBytes ent) =
      (ent.insertionSort fun a b => a.off ≤ b.off).takeWhile fun e => e.key.length ≤ kixKeyMax := by
  have magic : kixMagic.length = 6 := rfl
  have sorted := @loadEntries_written (ent.insertionSort fun a b => a.off ≤ b.off)
    fun e mem => sized e ((List.mem_insertionSort _).mp mem)
  rw [List.length_insertionSort] at sorted
  simp only [kixEntries, kixBytes, List.append_assoc, List.take_left' magic, List.drop_left' magic,
    ne_eq, not_true_eq_false, if_false, readI64_written count, Int.toNat_natCast, sorted]

theorem layout_sorted (off : Nat) (recs : List Rec) :
    (layout off recs).Pairwise fun a b => a.off ≤ b.off := by
  induction recs generalizing off with
  | nil => exact List.Pairwise.nil
  | cons r recs ih =>
    refine List.Pairwise.cons ?_ (ih _)
    intro e mem
    have := layout_lower _ recs e mem
    dsimp only
    omega

variable {recs : List Rec}

theorem length_le_image (positive : ∀ r ∈ recs, 0 < r.bytes.length) :
    recs.length ≤ (image recs).length := by
  induction recs with
  | nil => simp
  | cons r recs ih =>
    have here := positive r List.mem_cons_self
    have later := ih fun x mem => positive x (List.mem_cons_of_mem _ mem)
    simp only [image, List.flatMap_cons, List.length_append, List.length_cons] at later ⊢
    omega

theorem layout_sized (small : (image recs).length < 2 ^ 63)
    (keys : ∀ r ∈ recs, r.key.length < 2 ^ 63) : ∀ e ∈ layout 0 recs, e.Sized := by
  intro e mem
  have upper := layout_upper 0 recs e mem
  have key : e.key ∈ recs.map (·.key) := by
    rw [← layout_keys 0 recs]
    exact List.mem_map_of_mem mem
  obtain ⟨r, inside, same⟩ := List.mem_map.mp key
  refine ⟨by rw [← same]; exact keys r inside, ?_, ?_⟩ <;> omega

local instance : LawfulBEq Key := inferInstance

def recStep (recs : List Rec) : Op → List Rec
  | .write key p =>
    if 0 < p.length ∧ key ∉ recs.map (·.key) then recs ++ [⟨key, p⟩] else recs
  | .read _ _ => recs
  | .rewrite key p =>
    recs.map fun r => if r.key = key ∧ r.bytes.length = p.length then ⟨key, p⟩ else r
  | .delete key => recs.filter fun r => r.key ≠ key

theorem rewrite_other {recs : List Rec} {key : Key} {p : List UInt8}
    (other : ∀ r ∈ recs, ¬ (r.key = key ∧ r.bytes.length = p.length)) :
    recStep recs (.rewrite key p) = recs := by
  rw [recStep]
  conv_rhs => rw [← List.map_id recs]
  apply List.map_congr_left
  intro r mem
  rw [if_neg (other r mem)]
  rfl

theorem key_outside {key : Key} (absent : key ∉ recs.map (·.key)) : ∀ r ∈ recs, r.key ≠ key :=
  fun _ mem same => absent (same ▸ List.mem_map_of_mem mem)

theorem delete_other {key : Key} (absent : key ∉ recs.map (·.key)) :
    recStep recs (.delete key) = recs := by
  rw [recStep]
  apply List.filter_eq_self.mpr
  intro r mem
  exact decide_eq_true (key_outside absent r mem)

theorem step_records {s : Slot} (holds : Holds s recs) (op : Op) :
    Holds (step s op).1 (recStep recs op) := by
  obtain ⟨pos, opened⟩ := holds.opened
  cases op with
  | write key p =>
    by_cases empty : p.length = 0
    · have refused : step s (.write key p) = (s, .error "WRITE duplicates an existing key") := by
        simp [step, pliRecordWriteKeyedChar, recFile, opened, empty]
      rw [refused, recStep, if_neg (by omega)]
      exact holds
    · cases found : valueOf recs key with
      | none =>
        obtain ⟨s', done, after⟩ := write_absent holds found (by omega : 0 < p.length)
        have outside := (valueOf_none_iff recs key).mp found
        rw [step, done, recStep, if_pos ⟨by omega, outside⟩]
        exact after
      | some bytes =>
        have inside : ¬ key ∉ recs.map (·.key) := by
          rw [← valueOf_none_iff, found]
          simp
        rw [step, write_present holds found p, recStep, if_neg fun both => inside both.2]
        exact holds
  | read key p => exact read_holds holds key p
  | rewrite key p =>
    by_cases empty : p.length = 0
    · have refused : step s (.rewrite key p) = (s, .error "REWRITE key not found") := by
        simp [step, pliRecordRewriteKeyedChar, recFile, opened, empty]
      rw [refused, rewrite_other]
      · exact holds
      · rintro r mem ⟨-, same⟩
        have := holds.positive r mem
        omega
    · cases found : valueOf recs key with
      | none =>
        have outside := key_outside ((valueOf_none_iff recs key).mp found)
        rw [step, rewrite_absent holds found p, rewrite_other fun r mem both =>
          outside r mem both.1]
        exact holds
      | some bytes =>
        by_cases fits : p.length = bytes.length
        · obtain ⟨s', pre, post, split, done, after⟩ :=
            rewrite_present holds found fits (by omega)
          have distinct := holds.distinct
          rw [split] at distinct
          obtain ⟨before, behind⟩ := distinct_cut distinct
          have keepPre := @rewrite_other pre key p fun r mem both => key_outside before r mem both.1
          have keepPost := @rewrite_other post key p fun r mem both =>
            key_outside behind r mem both.1
          rw [recStep] at keepPre keepPost
          rw [step, done, recStep, split, List.map_append, List.map_cons, keepPre, keepPost,
            if_pos ⟨rfl, fits.symm⟩]
          exact after
        · have refused := rewrite_resized holds found fits (by omega)
          obtain ⟨pre, post, split, -⟩ := find_present holds found
          have distinct := holds.distinct
          rw [split] at distinct
          obtain ⟨before, behind⟩ := distinct_cut distinct
          rw [step, refused, rewrite_other]
          · exact holds
          · rintro r mem ⟨same, length⟩
            rw [split] at mem
            rcases List.mem_append.mp mem with early | late
            · exact key_outside before r early same
            · rcases List.mem_cons.mp late with rfl | late
              · exact fits length.symm
              · exact key_outside behind r late same
  | delete key =>
    cases found : valueOf recs key with
    | none =>
      rw [step, delete_absent holds found, delete_other ((valueOf_none_iff recs key).mp found)]
      exact holds
    | some bytes =>
      obtain ⟨s', pre, post, split, done, after⟩ := delete_present holds found
      have distinct := holds.distinct
      rw [split] at distinct
      obtain ⟨before, behind⟩ := distinct_cut distinct
      have keepPre := delete_other before
      have keepPost := delete_other behind
      rw [recStep] at keepPre keepPost
      rw [step, done, recStep, split, List.filter_append, List.filter_cons_of_neg (by simp),
        keepPre, keepPost]
      exact after

/-- A key that kix_load would refuse never enters the index, and no OPEN takes a slot with
    unsaved changes, one for OUTPUT apart, which starts the file anew. -/
def Savable (w : World) : Event → Prop
  | .op (.write key p) =>
    key.length ≤ kixKeyMax ∨ p = [] ∨ (kixFind w.slot key).isSome = true ∨ w.slot.file = none
  | .openKeyed mode nonprint granted =>
    w.slot.dirty = true → mode = .output ∧ nonprint = false ∧ granted = true
  | _ => True

instance (w : World) (event : Event) : Decidable (Savable w event) :=
  match event with
  | .op (.write key p) => inferInstanceAs (Decidable
      (key.length ≤ kixKeyMax ∨ p = [] ∨ (kixFind w.slot key).isSome = true ∨ w.slot.file = none))
  | .openKeyed mode nonprint granted => inferInstanceAs (Decidable
      (w.slot.dirty = true → mode = .output ∧ nonprint = false ∧ granted = true))
  | .op (.read _ _) | .op (.rewrite _ _) | .op (.delete _) | .close => isTrue trivial

/-- The records an event leaves: the file's own operations change them, and an OPEN for
    OUTPUT discards them with the file. OPEN and CLOSE otherwise do not. -/
def eventRecs (w : World) (recs : List Rec) : Event → List Rec
  | .op op => if w.slot.file = none then recs else recStep recs op
  | .openKeyed .output false true => []
  | .openKeyed _ _ _ | .close => recs

def runRecs : World → List Rec → List Event → List Rec
  | _, recs, [] => recs
  | w, recs, e :: es =>
    match worldStep w e with
    | none => recs
    | some w' => runRecs w' (eventRecs w recs e) es

structure Kept (w : World) (recs : List Rec) : Prop where
  keys : ∀ r ∈ recs, r.key.length ≤ kixKeyMax
  small : (image recs).length < 2 ^ 63
  distinct : (recs.map (·.key)).Nodup
  positive : ∀ r ∈ recs, 0 < r.bytes.length
  opened : w.slot.file ≠ none → Holds w.slot recs ∧ w.isKeyed = true
  closed : w.slot.file = none → w.slot.ent = [] ∧ w.slot.dirty = false ∧ w.data.getD [] = image recs
  saved : w.slot.dirty = false → w.sidecar.elim [] kixEntries = layout 0 recs

theorem layout_reloads (keys : ∀ r ∈ recs, r.key.length ≤ kixKeyMax)
    (small : (image recs).length < 2 ^ 63) (positive : ∀ r ∈ recs, 0 < r.bytes.length) :
    kixEntries (kixBytes (layout 0 recs)) = layout 0 recs := by
  have sized := layout_sized small fun r mem => by
    have := keys r mem
    unfold kixKeyMax at this
    omega
  have count : (layout 0 recs).length < 2 ^ 63 := by
    rw [layout_length]
    have := length_le_image positive
    omega
  rw [entries_written sized count, List.Pairwise.insertionSort_eq (layout_sorted 0 recs)]
  rw [List.takeWhile_eq_self_iff]
  intro e mem
  have key : e.key ∈ recs.map (·.key) := by
    rw [← layout_keys 0 recs]
    exact List.mem_map_of_mem mem
  obtain ⟨r, inside, same⟩ := List.mem_map.mp key
  exact decide_eq_true (same ▸ keys r inside)

theorem start_kept : Kept World.start [] :=
  ⟨by simp, by decide, by simp, by simp, by simp [World.start], by simp [World.start, image],
    by simp [World.start, layout]⟩

variable {w : World}

theorem kept_closed (kept : Kept w recs) :
    (fcloseFile w).data.getD [] = image recs ∧ (fcloseFile w).slot.file = none ∧
      (fcloseFile w).sidecar = w.sidecar := by
  cases file : w.slot.file with
  | none => simp [fcloseFile, file, kept.closed file]
  | some f =>
    obtain ⟨holds, -⟩ := kept.opened (by simp [file])
    obtain ⟨pos, opened⟩ := holds.opened
    rw [file, Option.some.injEq] at opened
    simp [fcloseFile, file, opened]

/-- The slot as pli_file_open_keyed has it before it opens the stream. -/
def cleared (w : World) : World := fcloseFile { kixReset w with isKeyed := true }

theorem cleared_spec (kept : Kept w recs) :
    (cleared w).data.getD [] = image recs ∧ (cleared w).slot = ⟨none, [], false⟩ ∧
      (cleared w).sidecar = w.sidecar ∧ (cleared w).isKeyed = true := by
  obtain ⟨disk, -, -⟩ := kept_closed kept
  cases file : w.slot.file with
  | none | some f =>
    simp only [fcloseFile, file] at disk
    simp [cleared, fcloseFile, kixReset, file, disk]

theorem save_kept (kept : Kept w recs) : Kept (if w.isKeyed then kixSave w else w) recs ∧
      (if w.isKeyed then kixSave w else w).sidecar.elim [] kixEntries = layout 0 recs := by
  by_cases clean : w.slot.dirty = false
  · have same : (if w.isKeyed then kixSave w else w) = w := by
      simp [kixSave, clean]
    rw [same]
    exact ⟨kept, kept.saved clean⟩
  · have present : w.slot.file ≠ none := fun absent => clean (kept.closed absent).2.1
    obtain ⟨holds, keyed⟩ := kept.opened present
    have written : (some (kixBytes w.slot.ent)).elim [] kixEntries = layout 0 recs := by
      rw [holds.index, Option.elim_some]
      exact layout_reloads kept.keys kept.small kept.positive
    rw [keyed, if_pos rfl, kixSave, if_neg clean]
    refine ⟨⟨kept.keys, kept.small, kept.distinct, kept.positive, ?_, ?_, fun _ =>
      written⟩, written⟩
    · intro _
      exact ⟨⟨holds.opened, holds.index, holds.distinct, holds.positive⟩, keyed⟩
    · intro absent
      exact absurd absent present

theorem close_kept (kept : Kept w recs) : Kept (pliFileClose w) recs := by
  obtain ⟨kept', sidecar⟩ := save_kept kept
  obtain ⟨disk, absent, same⟩ := kept_closed kept'
  refine ⟨kept.keys, kept.small, kept.distinct, kept.positive, ?_, fun _ => ⟨rfl, rfl, disk⟩, ?_⟩
  · intro present
    exact absurd absent present
  · intro _
    have unchanged : (pliFileClose w).sidecar = (if w.isKeyed then kixSave w else w).sidecar := same
    rw [unchanged, sidecar]

theorem unopened_kept (kept : Kept w recs)
    (clean : w.slot.dirty = false) : Kept (cleared w) recs := by
  obtain ⟨disk, slot, sidecar, -⟩ := cleared_spec kept
  refine ⟨kept.keys, kept.small, kept.distinct, kept.positive, ?_, ?_, ?_⟩
  · intro present
    simp [slot] at present
  · intro _
    simp [slot, disk]
  · intro _
    rw [sidecar]
    exact kept.saved clean

theorem kixLoad_spec (w : World) :
    (kixLoad w).slot = { w.slot with ent := w.slot.ent ++ w.sidecar.elim [] kixEntries } ∧
      (kixLoad w).sidecar = w.sidecar ∧ (kixLoad w).isKeyed = w.isKeyed := by
  cases side : w.sidecar <;> simp [kixLoad, side]

theorem loaded_kept {v : World} (kept : Kept w recs)
    (clean : w.slot.dirty = false) (opened : v.slot = ⟨some ⟨image recs, 0⟩, [], false⟩)
    (sidecar : v.sidecar = w.sidecar) (keyed : v.isKeyed = true) : Kept (kixLoad v) recs := by
  obtain ⟨index, sameSidecar, sameKeyed⟩ := kixLoad_spec v
  rw [opened, sidecar, kept.saved clean] at index
  refine ⟨kept.keys, kept.small, kept.distinct, kept.positive, ?_, ?_, ?_⟩
  · intro _
    rw [index, sameKeyed]
    exact ⟨⟨⟨0, rfl⟩, rfl, kept.distinct, kept.positive⟩, keyed⟩
  · intro absent
    simp [index] at absent
  · intro _
    rw [sameSidecar, sidecar]
    exact kept.saved clean

theorem output_kept (w : World) : Kept (pliFileOpenKeyed w .output false true) [] := by
  have slot : (pliFileOpenKeyed w .output false true).slot = ⟨some ⟨[], 0⟩, [], true⟩ := rfl
  refine ⟨by simp, by decide, by simp, by simp, ?_, ?_, ?_⟩
  · intro _
    rw [slot]
    exact ⟨opened_output_holds 0 true, rfl⟩
  · intro absent
    simp [slot] at absent
  · intro clean
    simp [slot] at clean

theorem open_kept (kept : Kept w recs) {mode : Mode}
    {nonprint granted : Bool} (savable : Savable w (.openKeyed mode nonprint granted)) :
    Kept (pliFileOpenKeyed w mode nonprint granted)
      (eventRecs w recs (.openKeyed mode nonprint granted)) := by
  by_cases fresh : mode = .output ∧ nonprint = false ∧ granted = true
  · obtain ⟨rfl, rfl, rfl⟩ := fresh
    exact output_kept w
  · have clean : w.slot.dirty = false := Bool.eq_false_iff.mpr fun dirty => fresh (savable dirty)
    have same : eventRecs w recs (.openKeyed mode nonprint granted) = recs := by
      cases mode <;> cases nonprint <;> cases granted <;> simp_all [eventRecs]
    have opens : pliFileOpenKeyed w mode nonprint granted =
        if nonprint then cleared w
        else match fopenFile (cleared w) mode granted with
          | none => cleared w
          | some f =>
            let w := { cleared w with
              slot := { (cleared w).slot with file := some f }
              readOnly := mode = .input }
            if mode = .output then
              let w := { kixReset w with isKeyed := true, data := some [] }
              { w with slot := { w.slot with dirty := true } }
            else kixLoad w := rfl
    rw [same, opens]
    split
    · exact unopened_kept kept clean
    · rename_i print
      cases attempt : fopenFile (cleared w) mode granted with
      | none => exact unopened_kept kept clean
      | some f =>
        cases granted with
        | false => simp [fopenFile] at attempt
        | true =>
          have notOutput : mode ≠ .output := fun output => fresh ⟨output, by simpa using print, rfl⟩
          simp only [fopenFile, if_true, if_neg notOutput, Option.map_eq_some_iff] at attempt
          obtain ⟨bytes, found, rfl⟩ := attempt
          obtain ⟨disk, slot, sidecar, keyed⟩ := cleared_spec kept
          have whole : bytes = image recs := by simpa [found] using disk
          simp only [if_neg notOutput]
          exact loaded_kept kept clean (by simp [slot, whole]) sidecar keyed

theorem image_recStep {op : Op} (small : (image recs).length < 2 ^ 63)
    (room : ∀ key p, op = .write key p → (image recs).length + p.length < 2 ^ 63) :
    (image (recStep recs op)).length < 2 ^ 63 := by
  cases op with
  | write key p =>
    rw [recStep]
    split
    · have := room key p rfl
      rw [image_append]
      simpa [image] using this
    · exact small
  | read key p => exact small
  | rewrite key p =>
    have same : (image (recStep recs (.rewrite key p))).length = (image recs).length := by
      simp only [image, recStep, List.length_flatMap, List.map_map]
      congr 1
      apply List.map_congr_left
      intro r mem
      simp only [Function.comp_apply]
      split
      · rename_i both
        exact both.2.symm
      · rfl
    rw [same]
    exact small
  | delete key =>
    have shorter : (image (recStep recs (.delete key))).length ≤ (image recs).length := by
      exact (List.filter_sublist.flatMap _).length_le
    omega

def Marked (s s' : Slot) : Prop := s'.dirty = true ∨ (s'.dirty = s.dirty ∧ s'.ent = s.ent)

theorem step_marked (s : Slot) (op : Op) : Marked s (step s op).1 := by
  have same : ∀ file, Marked s { s with file := file } := fun _ => Or.inr ⟨rfl, rfl⟩
  cases op with
  | write key p =>
    simp only [step, pliRecordWriteKeyedChar, kixInsert]
    repeat' split
    all_goals first | exact same _ | exact Or.inl rfl
  | read key p =>
    simp only [step, pliRecordReadKeyedChar]
    repeat' split
    all_goals exact same _
  | rewrite key p =>
    simp only [step, pliRecordRewriteKeyedChar]
    repeat' split
    all_goals exact same _
  | delete key =>
    simp only [step, pliRecordDeleteKeyed]
    repeat' split
    all_goals first | exact same _ | exact Or.inl rfl

theorem recStep_keys {op : Op} (holds : Holds w.slot recs)
    (keys : ∀ r ∈ recs, r.key.length ≤ kixKeyMax) (savable : Savable w (.op op)) :
    ∀ r ∈ recStep recs op, r.key.length ≤ kixKeyMax := by
  cases op with
  | write key p =>
    rw [recStep]
    split
    · rename_i taken
      intro r mem
      rcases List.mem_append.mp mem with old | new
      · exact keys r old
      · cases List.mem_singleton.mp new
        have absent := find_absent holds ((valueOf_none_iff recs key).mpr taken.2)
        obtain ⟨pos, opened⟩ := holds.opened
        rcases savable with short | empty | found | closed
        · exact short
        · simp [empty] at taken
        · simp [absent] at found
        · simp [opened] at closed
    · exact keys
  | read key p => exact keys
  | rewrite key p =>
    intro r mem
    obtain ⟨old, inside, rfl⟩ := List.mem_map.mp mem
    split
    · rename_i both
      exact both.1 ▸ keys old inside
    · exact keys old inside
  | delete key =>
    intro r mem
    exact keys r (List.mem_of_mem_filter mem)

variable {w' : World}

theorem op_kept (kept : Kept w recs) {op : Op}
    (savable : Savable w (.op op)) (moved : worldStep w (.op op) = some w') :
    Kept w' (eventRecs w recs (.op op)) := by
  rw [worldStep] at moved
  obtain ⟨able, ⟨⟩⟩ := Option.ite_none_right_eq_some.mp moved
  cases file : w.slot.file with
  | none =>
    have refused : (step w.slot op).1 = w.slot := by
      cases op <;>
        simp [step, pliRecordWriteKeyedChar, pliRecordReadKeyedChar, pliRecordRewriteKeyedChar,
          pliRecordDeleteKeyed, recFile, file]
    rw [eventRecs, if_pos file, refused]
    exact kept
  | some f =>
    have present : w.slot.file ≠ none := by simp [file]
    obtain ⟨holds, keyed⟩ := kept.opened present
    have after := step_records holds op
    obtain ⟨pos, opened⟩ := holds.opened
    rw [eventRecs, if_neg present]
    obtain ⟨pos', reopened⟩ := after.opened
    refine ⟨?_, ?_, after.distinct, after.positive, fun _ => ⟨after, keyed⟩, ?_, ?_⟩
    · exact recStep_keys holds kept.keys savable
    · apply image_recStep kept.small
      rintro key p rfl
      have room := able
      simp only [canTransfer, opened, Option.all_some, Bool.and_eq_true, decide_eq_true_eq] at room
      exact room.2
    · intro absent
      simp [reopened] at absent
    · intro clean
      rcases step_marked w.slot op with marked | ⟨dirty, index⟩
      · exact absurd (marked.symm.trans clean) (by decide)
      · rw [← after.index, index, holds.index]
        exact kept.saved (dirty ▸ clean)

theorem event_kept (kept : Kept w recs) {event : Event}
    (savable : Savable w event) (moved : worldStep w event = some w') :
    Kept w' (eventRecs w recs event) := by
  cases event with
  | op op => exact op_kept kept savable moved
  | openKeyed mode nonprint granted =>
    cases moved
    exact open_kept kept savable
  | close =>
    cases moved
    exact close_kept kept

theorem run_kept {events : List Event} (kept : Kept w recs)
    (savable : AllSteps worldStep Savable w events) (ran : run worldStep w events = some w') :
    Kept w' (runRecs w recs events) := by
  induction events generalizing w recs with
  | nil =>
    cases ran
    exact kept
  | cons event events ih =>
    obtain ⟨mid, moved, rest⟩ := run_cons_iff.mp ran
    obtain ⟨here, later⟩ := (allSteps_cons_iff moved).mp savable
    simp only [runRecs, moved]
    exact ih (event_kept kept here moved) later rest

def Event.Reopens : Event → Prop
  | .op _ => False
  | .openKeyed mode _ _ => mode ≠ .output
  | .close => True

instance (event : Event) : Decidable event.Reopens :=
  match event with
  | .op _ => isFalse id
  | .openKeyed mode _ _ => inferInstanceAs (Decidable (mode ≠ .output))
  | .close => isTrue trivial

theorem runRecs_reopens {events : List Event}
    (reopens : ∀ e ∈ events, e.Reopens) : runRecs w recs events = recs := by
  induction events generalizing w with
  | nil => rfl
  | cons event events ih =>
    have same : eventRecs w recs event = recs := by
      have here := reopens event List.mem_cons_self
      cases event with
      | op op => exact here.elim
      | openKeyed mode nonprint granted =>
        cases mode with
        | output => exact absurd rfl here
        | input | update => rfl
      | close => rfl
    simp only [runRecs, same]
    cases worldStep w event with
    | none => rfl
    | some w' => exact ih fun e mem => reopens e (List.mem_cons_of_mem _ mem)

/-- In every state reached by events that can be saved, the index is read back as it would
    be written, and after any OPENs and CLOSEs that follow, an open file has it again. -/
theorem sidecar_survives {events : List Event} {w : World}
    (savable : AllSteps worldStep Savable World.start events)
    (ran : run worldStep World.start events = some w) :
    kixEntries (kixBytes w.slot.ent) = w.slot.ent ∧
    ∀ moves w', (∀ e ∈ moves, e.Reopens) → AllSteps worldStep Savable w moves →
      run worldStep w moves = some w' → w.slot.file ≠ none → w'.slot.file ≠ none →
        w'.slot.ent = w.slot.ent := by
  have kept := run_kept start_kept savable ran
  constructor
  · by_cases absent : w.slot.file = none
    · rw [(kept.closed absent).1]
      decide +kernel
    · rw [(kept.opened absent).1.index]
      exact layout_reloads kept.keys kept.small kept.positive
  · intro moves w' reopens savableMoves moved here there
    have final := run_kept kept savableMoves moved
    rw [runRecs_reopens reopens] at final
    rw [(final.opened there).1.index, (kept.opened here).1.index]

def twoRecords : World :=
  ⟨some [], none, ⟨some ⟨[10, 11, 20], 3⟩, [⟨[1], 0, 2⟩, ⟨[2], 2, 1⟩], true⟩, true, false⟩

/-- The file closed and opened for UPDATE: both records are still indexed. -/
theorem sidecar_closed_and_reopened :
    ∃ w, run worldStep twoRecords [.close, .openKeyed .update false true] = some w ∧
      w.slot.ent = twoRecords.slot.ent := by
  have spec := @sidecar_survives [.openKeyed .output false true, .op (.write [1] [10, 11]),
    .op (.write [2] [20])] twoRecords (by decide +kernel) (by decide +kernel)
  refine ⟨⟨some [10, 11, 20], some (kixBytes twoRecords.slot.ent),
    ⟨some ⟨[10, 11, 20], 0⟩, twoRecords.slot.ent, false⟩, true, false⟩, by decide +kernel, ?_⟩
  exact spec.2 [.close, .openKeyed .update false true] _ (by decide) (by decide +kernel)
    (by decide +kernel) (by decide) (by decide)

/-- A key of 1025 bytes is written and takes every entry of the sidecar with it, and an OPEN
    of the slot while it is open drops the record just written. -/
theorem long_key_and_reopen_lose :
    (run worldStep World.start [.openKeyed .output false true,
        .op (.write (List.replicate 1025 0) [1]), .op (.write [7] [2])]).any (fun w =>
      w.slot.ent.length == 2 && kixEntries (kixBytes w.slot.ent) == []) = true ∧
    (run worldStep World.start [.openKeyed .output false true, .op (.write [7] [2])]).any (fun w =>
      w.slot.ent == [⟨[7], 0, 1⟩] &&
        (run worldStep w [.openKeyed .update false true]).any fun w' =>
          w'.slot.file.isSome && w'.slot.ent == []) = true := by
  decide +kernel

end PliKeyedFile
