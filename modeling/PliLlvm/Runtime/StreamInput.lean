import PliLlvm.Lib.Run

/- Stream input from files (runtime/rt_stream.c, runtime/rt_file.c). A FILE pointer is a
   number; fopen hands out any number that is not open, one closed earlier included, and
   fread delivers the stream's next bytes, fewer than asked for only at its end. The
   name of a file, the output slab, the keyed index and the column counter that only
   COLUMN positioning reads are left out; opens are INPUT or NONPRINT. With no file
   selected rt_next_char reads SYSIN or a string and leaves this state alone. -/
namespace PliStreamInput
open Runs
open Function (update update_of_ne update_self)

def pliMaxFiles : Int := 16

def rtFileInBuf : Nat := 8192

structure Stream where
  bytes : List UInt8
  pos : Nat

/-- rt_pli_files, the open C streams, rt_in_f, and the read-ahead slab: its filled part
    (rt_in_f_len is its length), rt_in_f_pos and rt_in_f_owner. -/
structure Rt where
  files : Int → Option Nat
  streams : Nat → Option Stream
  inF : Option Nat
  owner : Option Nat
  buf : List UInt8
  pos : Nat

def fclose (s : Rt) : Option Nat → Rt
  | some h => { s with streams := update s.streams h none }
  | none => s

def outOfRange (slot : Int) : Bool := slot < 0 || pliMaxFiles ≤ slot

def pliFileOpen (s : Rt) (slot : Int) (nonprint : Bool) (opened : Option (Nat × List UInt8)) : Rt :=
  if outOfRange slot then s
  else
    let s := fclose s (s.files slot)
    if nonprint then { s with files := update s.files slot none }
    else match opened with
      | some (h, bytes) =>
        { s with
          files := update s.files slot (some h)
          streams := update s.streams h (some ⟨bytes, 0⟩) }
      | none => { s with files := update s.files slot none }

def pliFileClose (s : Rt) (slot : Int) : Rt :=
  if outOfRange slot then s
  else { fclose s (s.files slot) with files := update s.files slot none }

def isOpen (s : Rt) (slot : Int) : Bool := !outOfRange slot && (s.files slot).isSome

def pliGetSelect (s : Rt) (slot : Int) : Rt :=
  if isOpen s slot then { s with inF := s.files slot } else { s with inF := none }

def pliGetUnselect (s : Rt) : Rt := { s with inF := none }

inductive InChar where
  | sysin
  | file (c : Option UInt8)

def claimSlab (s : Rt) (f : Nat) : Rt :=
  if s.owner = some f then s else { s with owner := some f, buf := [], pos := 0 }

/-- Fill an exhausted slab by one fread; reading a closed stream is undefined. -/
def fillSlab (s : Rt) (f : Nat) : Option Rt :=
  if s.buf.length ≤ s.pos then
    (s.streams f).map fun st =>
      let chunk := (st.bytes.drop st.pos).take rtFileInBuf
      { s with
        streams := update s.streams f (some { st with pos := st.pos + chunk.length })
        buf := chunk
        pos := 0 }
  else some s

def rtNextChar (s : Rt) : Option (Rt × InChar) :=
  match s.inF with
  | none => some (s, .sysin)
  | some f =>
    (fillSlab (claimSlab s f) f).map fun s =>
      match s.buf[s.pos]? with
      | some c => ({ s with pos := s.pos + 1 }, .file (some c))
      | none => (s, .file none)

/- The history a program sees: per file the bytes its latest successful OPEN found and
   what rt_next_char has returned since while it was selected. `source` is the file
   whose current OPEN the slab was last filled from. -/
structure Session where
  rt : Rt
  selected : Option Int
  source : Option Int
  content : Int → List UInt8
  got : Int → List (Option UInt8)

def Session.start : Session :=
  ⟨⟨fun _ => none, fun _ => none, none, none, [], 0⟩, none, none, fun _ => [], fun _ => []⟩

inductive Event where
  | open (slot : Int) (nonprint : Bool) (opened : Option (Nat × List UInt8))
  | close (slot : Int)
  | select (slot : Int)
  | unselect
  | nextChar

def dropSource (s : Session) (slot : Int) : Option Int :=
  if s.source = some slot ∧ !outOfRange slot then none else s.source

/-- The slab is filled by the next rt_next_char. -/
def refills (s : Rt) : Bool := s.owner ≠ s.inF || s.buf.length ≤ s.pos

def step (s : Session) : Event → Option Session
  | .open slot nonprint opened =>
    let s' := { s with
      rt := pliFileOpen s.rt slot nonprint opened, source := dropSource s slot }
    match opened with
    | some (_, bytes) =>
      if outOfRange slot || nonprint then some s'
      else some { s' with
        content := update s.content slot bytes
        got := update s.got slot [] }
    | none => some s'
  | .close slot =>
    some { s with rt := pliFileClose s.rt slot, source := dropSource s slot }
  | .select slot =>
    some { s with
      rt := pliGetSelect s.rt slot
      selected := if isOpen s.rt slot then some slot else none }
  | .unselect => some { s with rt := pliGetUnselect s.rt, selected := none }
  | .nextChar =>
    match rtNextChar s.rt with
    | none => none
    | some (rt, .sysin) => some { s with rt := rt }
    | some (rt, .file c) =>
      match s.selected with
      | none => some { s with rt := rt }
      | some slot =>
        some { s with
          rt := rt
          source := if refills s.rt then some slot else s.source
          got := update s.got slot (s.got slot ++ [c]) }

def Possible (s : Session) : Event → Prop
  | .open slot _ (some (h, _)) =>
    outOfRange slot = false → (fclose s.rt (s.rt.files slot)).streams h = none
  | _ => True

def InOrder (content : List UInt8) (got : List (Option UInt8)) : Prop :=
  ∀ (i : Nat) c, got[i]? = some c → c = content[i]?

instance (s : Session) : (e : Event) → Decidable (Possible s e)
  | .open slot _ (some (h, _)) => inferInstanceAs (Decidable
      (outOfRange slot = false → (fclose s.rt (s.rt.files slot)).streams h = none))
  | .open _ _ none | .close _ | .select _ | .unselect | .nextChar => isTrue trivial

/-- The selected file's stream is the one rt_next_char reads, and the slab's unread
    characters, if any, are of the file's current OPEN, or of an OPEN that is over and
    had another FILE pointer. -/
def SlabClear (s : Session) : Event → Prop
  | .nextChar =>
    ∀ slot ∈ s.selected, s.rt.files slot = s.rt.inF ∧
      (s.rt.buf.length ≤ s.rt.pos ∨ s.source = some slot ∨
        s.source = none ∧ s.rt.owner ≠ s.rt.inF)
  | _ => True

instance (s : Session) : (e : Event) → Decidable (SlabClear s e)
  | .nextChar => inferInstanceAs (Decidable (∀ slot ∈ s.selected, s.rt.files slot = s.rt.inF ∧
      (s.rt.buf.length ≤ s.rt.pos ∨ s.source = some slot ∨
        s.source = none ∧ s.rt.owner ≠ s.rt.inF)))
  | .open _ _ _ | .close _ | .select _ | .unselect => isTrue trivial

def unread (s : Session) (slot : Int) : List UInt8 :=
  if s.source = some slot then s.rt.buf.drop s.rt.pos else []

/-- An open file: what remains to be returned is its part of the slab and then what its
    stream still holds. -/
structure Reading (s : Session) (slot : Int) (h : Nat) (st : Stream) : Prop where
  stream : s.rt.streams h = some st
  bytes : st.bytes = s.content slot
  remaining : st.bytes.drop (s.got slot).length = unread s slot ++ st.bytes.drop st.pos

structure Inv (s : Session) : Prop where
  apart : ∀ a b h, s.rt.files a = some h → s.rt.files b = some h → a = b
  range : ∀ slot h, s.rt.files slot = some h → outOfRange slot = false
  reading : ∀ slot h, s.rt.files slot = some h → ∃ st, Reading s slot h st
  source : ∀ slot, s.source = some slot →
    ∃ h, s.rt.files slot = some h ∧ s.rt.owner = some h
  selected : s.rt.inF = none ↔ s.selected = none
  ordered : ∀ slot, InOrder (s.content slot) (s.got slot)

theorem start_inv : Inv Session.start := by
  refine ⟨?_, ?_, ?_, ?_, ?_, ?_⟩ <;> simp [Session.start, InOrder]

theorem inOrder_snoc {content : List UInt8} {got : List (Option UInt8)} {c : Option UInt8}
    (ordered : InOrder content got) (next : c = content[got.length]?) :
    InOrder content (got ++ [c]) := by
  intro i x hx
  by_cases old : i < got.length
  · rw [List.getElem?_append_left old] at hx
    exact ordered i x hx
  · rw [List.getElem?_append_right (Nat.le_of_not_lt old)] at hx
    have last : i = got.length := by
      by_contra other
      have beyond : 1 ≤ i - got.length := by omega
      simp [List.getElem?_eq_none (l := [c]) (by simpa using beyond)] at hx
    subst last
    simp only [Nat.sub_self, List.getElem?_cons_zero, Option.some.injEq] at hx
    rw [← hx]
    exact next

variable {s : Session}

theorem fclose_other (inv : Inv s) {slot other : Int} {h : Nat}
    (apart : other ≠ slot) (opened : s.rt.files other = some h) :
    (fclose s.rt (s.rt.files slot)).streams h = s.rt.streams h := by
  cases held : s.rt.files slot with
  | none => rfl
  | some g =>
    have differs : h ≠ g := by
      intro same
      subst same
      exact apart (inv.apart other slot h opened held)
    simp [fclose, update_of_ne differs]

theorem close_keeps (inv : Inv s) (slot : Int) :
    Inv { s with rt := pliFileClose s.rt slot, source := dropSource s slot } := by
  by_cases outside : outOfRange slot = true
  · simpa [pliFileClose, dropSource, outside] using inv
  have files : ∀ other h, (pliFileClose s.rt slot).files other = some h →
      other ≠ slot ∧ s.rt.files other = some h := by
    intro other h opened
    by_cases same : other = slot
    · subst same
      simp [pliFileClose, outside] at opened
    · refine ⟨same, ?_⟩
      cases held : s.rt.files slot <;>
        simpa [pliFileClose, outside, fclose, held, update_of_ne same] using opened
  have rest : (pliFileClose s.rt slot).inF = s.rt.inF ∧
      (pliFileClose s.rt slot).owner = s.rt.owner ∧
      (pliFileClose s.rt slot).buf = s.rt.buf ∧ (pliFileClose s.rt slot).pos = s.rt.pos := by
    cases held : s.rt.files slot <;> simp [pliFileClose, outside, fclose, held]
  have source : ∀ other, other ≠ slot → (dropSource s slot = some other ↔
    s.source = some other) := by
    intro other differs
    unfold dropSource
    split
    · rename_i mine
      simp [mine.1, Ne.symm differs]
    · rfl
  refine ⟨?_, ?_, ?_, ?_, ?_, inv.ordered⟩
  · intro a b h ha hb
    exact inv.apart a b h (files a h ha).2 (files b h hb).2
  · intro other h opened
    exact inv.range other h (files other h opened).2
  · intro other h opened
    obtain ⟨differs, old⟩ := files other h opened
    obtain ⟨st, reading⟩ := inv.reading other h old
    refine ⟨st, ?_, reading.bytes, ?_⟩
    · have same := fclose_other inv differs old
      simp only [pliFileClose, outside, Bool.false_eq_true, ↓reduceIte]
      rw [same]
      exact reading.stream
    · have unchanged : unread { s with rt := pliFileClose s.rt slot, source := dropSource s slot }
          other = unread s other := by
        simp only [unread, rest.2.2.1, rest.2.2.2, source other differs]
      rw [unchanged]
      exact reading.remaining
  · intro other held
    have differs : other ≠ slot := by
      intro same
      subst same
      simp [dropSource, outside] at held
    obtain ⟨h, opened, owns⟩ := inv.source other ((source other differs).mp held)
    refine ⟨h, ?_, rest.2.1.trans owns⟩
    cases mine : s.rt.files slot <;>
      simp [pliFileClose, outside, fclose, mine, update_of_ne differs, opened]
  · exact (Iff.of_eq (by rw [rest.1])).trans inv.selected

def attach (s : Rt) (slot : Int) (h : Nat) (bytes : List UInt8) : Rt :=
  { s with
    files := update s.files slot (some h)
    streams := update s.streams h (some ⟨bytes, 0⟩) }

theorem open_attaches {s : Rt} {slot : Int} (inside : outOfRange slot = false) (h : Nat)
    (bytes : List UInt8) :
    pliFileOpen s slot false (some (h, bytes)) = attach (pliFileClose s slot) slot h bytes := by
  cases held : s.files slot <;> simp [pliFileOpen, attach, pliFileClose, inside, fclose, held]

theorem open_closes {s : Rt} {slot : Int} {nonprint : Bool} {opened : Option (Nat × List UInt8)}
    (none_found : outOfRange slot = true ∨ nonprint = true ∨ opened = none) :
    pliFileOpen s slot nonprint opened = pliFileClose s slot := by
  by_cases outside : outOfRange slot = true
  · simp [pliFileOpen, pliFileClose, outside]
  · rcases none_found with h | rfl | rfl
    · exact absurd h outside
    · cases held : s.files slot <;> simp [pliFileOpen, pliFileClose, outside, fclose, held]
    · cases held : s.files slot <;> simp [pliFileOpen, pliFileClose, outside, fclose, held]

theorem attach_keeps (inv : Inv s) {slot : Int} {h : Nat} (bytes : List UInt8)
    (inside : outOfRange slot = false) (closed : s.rt.files slot = none)
    (fresh : s.rt.streams h = none) :
    Inv { s with
      rt := attach s.rt slot h bytes
      content := update s.content slot bytes
      got := update s.got slot [] } := by
  -- an open file's stream is not the one fopen returned
  have other_stream : ∀ other g, s.rt.files other = some g → g ≠ h := by
    intro other g opened same
    subst same
    obtain ⟨st, reading⟩ := inv.reading other g opened
    have stream := reading.stream
    simp [fresh] at stream
  have files : ∀ other g, (attach s.rt slot h bytes).files other = some g →
      (other = slot ∧ g = h) ∨ (other ≠ slot ∧ s.rt.files other = some g) := by
    intro other g opened
    by_cases same : other = slot
    · subst same
      simp only [attach, update_self, Option.some.injEq] at opened
      exact Or.inl ⟨rfl, opened.symm⟩
    · simp only [attach, update_of_ne same] at opened
      exact Or.inr ⟨same, opened⟩
  have idle : s.source ≠ some slot := by
    intro held
    obtain ⟨g, opened, -⟩ := inv.source slot held
    simp [closed] at opened
  refine ⟨?_, ?_, ?_, ?_, inv.selected, ?_⟩
  · intro a b g ha hb
    rcases files a g ha with ⟨rfl, rfl⟩ | ⟨aOther, aOld⟩ <;>
      rcases files b g hb with ⟨rfl, same⟩ | ⟨bOther, bOld⟩
    · rfl
    · exact absurd rfl (other_stream b g bOld)
    · exact absurd same (other_stream a g aOld)
    · exact inv.apart a b g aOld bOld
  · intro other g opened
    rcases files other g opened with ⟨rfl, -⟩ | ⟨-, old⟩
    · exact inside
    · exact inv.range other g old
  · intro other g opened
    rcases files other g opened with ⟨rfl, rfl⟩ | ⟨differs, old⟩
    · refine ⟨⟨bytes, 0⟩, by simp [attach], by simp, ?_⟩
      simp [unread, idle]
    · obtain ⟨st, reading⟩ := inv.reading other g old
      refine ⟨st, ?_, ?_, ?_⟩
      · simp [attach, update_of_ne (other_stream other g old), reading.stream]
      · simp [update_of_ne differs, reading.bytes]
      · simp only [update_of_ne differs]
        exact reading.remaining
  · intro other held
    obtain ⟨g, opened, owns⟩ := inv.source other held
    have differs : other ≠ slot := by
      intro same
      subst same
      exact idle held
    exact ⟨g, by simp [attach, update_of_ne differs, opened], owns⟩
  · intro other
    by_cases same : other = slot
    · subst same
      simp [InOrder]
    · simpa [update_of_ne same] using inv.ordered other

theorem nextChar_reads {s : Rt} {f : Nat} {c : UInt8} {rest : List UInt8} (at' : s.inF = some f)
    (owns : s.owner = some f) (left : s.buf.drop s.pos = c :: rest) :
    rtNextChar s = some ({ s with pos := s.pos + 1 }, .file (some c)) := by
  have here : s.buf[s.pos]? = some c := by
    rw [← List.head?_drop, left]
    rfl
  have bound : ¬ s.buf.length ≤ s.pos := by
    intro beyond
    simp [List.drop_eq_nil_of_le beyond] at left
  simp [rtNextChar, at', claimSlab, owns, fillSlab, bound, here]

theorem nextChar_refills {s : Rt} {f : Nat} {st : Stream} (at' : s.inF = some f)
    (opened : s.streams f = some st) (needed : refills s = true) {chunk : List UInt8}
    (read : chunk = (st.bytes.drop st.pos).take rtFileInBuf) :
    rtNextChar s = some ({ s with
      owner := some f
      streams := update s.streams f (some { st with pos := st.pos + chunk.length })
      buf := chunk
      pos := min 1 chunk.length }, .file chunk.head?) := by
  have filled : fillSlab (claimSlab s f) f = some { s with
      owner := some f
      streams := update s.streams f (some { st with pos := st.pos + chunk.length })
      buf := chunk
      pos := 0 } := by
    subst read
    by_cases owns : s.owner = some f
    · have exhausted : s.buf.length ≤ s.pos := by
        simpa [refills, owns, at'] using needed
      simp [claimSlab, owns, fillSlab, exhausted, opened]
    · simp [claimSlab, owns, fillSlab, opened]
  cases chunk with
  | nil | cons c rest => simp [rtNextChar, at', filled]

theorem advance {bytes chunk rest : List UInt8} {count : Nat}
    (remaining : bytes.drop count = chunk ++ rest) (last : chunk = [] → rest = []) :
    chunk.head? = bytes[count]? ∧ bytes.drop (count + 1) = chunk.tail ++ rest := by
  have next : bytes.drop (count + 1) = (bytes.drop count).tail := (List.tail_drop).symm
  rw [next, ← List.head?_drop, remaining]
  cases chunk with
  | nil => simp [last rfl]
  | cons c chunk => simp

theorem deliver_keeps {s : Session} (inv : Inv s) {slot : Int} {f : Nat} {st st' : Stream}
    {rt : Rt} {c : Option UInt8} (opened : s.rt.files slot = some f)
    (reading : Reading s slot f st) (others : ∀ other, other ≠ slot → unread s other = [])
    (files : rt.files = s.rt.files) (inF : rt.inF = s.rt.inF) (owner : rt.owner = some f)
    (streams : rt.streams = update s.rt.streams f (some st'))
    (bytes : st'.bytes = st.bytes) (next : c = st.bytes[(s.got slot).length]?)
    (remaining : st.bytes.drop ((s.got slot).length + 1) =
      rt.buf.drop rt.pos ++ st.bytes.drop st'.pos) :
    Inv { s with
      rt := rt
      source := some slot
      got := update s.got slot (s.got slot ++ [c]) } := by
  refine ⟨?_, ?_, ?_, ?_, ?_, ?_⟩
  · intro a b h
    simp only [files]
    exact inv.apart a b h
  · intro other h
    simp only [files]
    exact inv.range other h
  · intro other h held
    simp only [files] at held
    by_cases same : other = slot
    · subst same
      rw [opened] at held
      cases held
      refine ⟨st', by simp [streams], bytes.trans reading.bytes, ?_⟩
      simp only [update_self, List.length_append, List.length_singleton, bytes, unread,
        ↓reduceIte]
      exact remaining
    · obtain ⟨st2, old⟩ := inv.reading other h held
      have differs : h ≠ f := by
        intro eq
        subst eq
        exact same (inv.apart other slot h held opened)
      refine ⟨st2, by simp [streams, update_of_ne differs, old.stream], old.bytes, ?_⟩
      have remains := old.remaining
      rw [others other same] at remains
      simp only [update_of_ne same, unread, Option.some.injEq, Ne.symm same, ↓reduceIte]
      exact remains
  · intro other held
    cases held
    exact ⟨f, by rw [files]; exact opened, owner⟩
  · simp only [inF]
    exact inv.selected
  · intro other
    by_cases same : other = slot
    · subst same
      simp only [update_self]
      exact inOrder_snoc (inv.ordered other) (by rw [← reading.bytes]; exact next)
    · simpa [update_of_ne same] using inv.ordered other

theorem fread_left (bytes : List UInt8) (pos : Nat) {chunk : List UInt8}
    (read : chunk = (bytes.drop pos).take rtFileInBuf) :
    bytes.drop pos = chunk ++ bytes.drop (pos + chunk.length) ∧
      (chunk = [] → bytes.drop (pos + chunk.length) = []) := by
  have split := List.take_append_drop rtFileInBuf (bytes.drop pos)
  have rest : bytes.drop (pos + chunk.length) = (bytes.drop pos).drop rtFileInBuf := by
    rw [← List.drop_drop, read, List.length_take]
    by_cases short : (bytes.drop pos).length ≤ rtFileInBuf
    · rw [Nat.min_eq_right short, List.drop_length, List.drop_eq_nil_of_le short]
    · rw [Nat.min_eq_left (by omega)]
  refine ⟨by rw [rest, read]; exact split.symm, ?_⟩
  intro empty
  rw [empty] at read
  rcases List.take_eq_nil_iff.mp read.symm with zero | none_left
  · simp [rtFileInBuf] at zero
  · simp [empty, none_left]

theorem nextChar_keeps (inv : Inv s) (clear : SlabClear s .nextChar) :
    ∃ s', step s .nextChar = some s' ∧ Inv s' := by
  cases at' : s.rt.inF with
  | none => exact ⟨s, by simp [step, rtNextChar, at'], inv⟩
  | some f =>
    obtain ⟨slot, chosen⟩ : ∃ slot, s.selected = some slot := by
      refine Option.ne_none_iff_exists'.mp ?_
      intro idle
      simp [inv.selected.mpr idle] at at'
    obtain ⟨opened, slab⟩ := clear slot chosen
    rw [at'] at opened slab
    obtain ⟨st, reading⟩ := inv.reading slot f opened
    by_cases needed : refills s.rt = true
    · -- the slab is exhausted, or its characters belong to no open file
      have used : ∀ other, unread s other = [] := by
        intro other
        by_cases held : s.source = some other
        · simp only [unread, held, ↓reduceIte]
          rcases slab with exhausted | mine | ⟨idle, -⟩
          · exact List.drop_eq_nil_of_le exhausted
          · obtain ⟨h, same, owns⟩ := inv.source slot mine
            rw [opened] at same
            cases same
            have exhausted : s.rt.buf.length ≤ s.rt.pos := by
              simpa [refills, owns, at'] using needed
            exact List.drop_eq_nil_of_le exhausted
          · simp [idle] at held
        · simp [unread, held]
      obtain ⟨chunk, read⟩ : ∃ chunk, chunk = (st.bytes.drop st.pos).take rtFileInBuf := ⟨_, rfl⟩
      have next := nextChar_refills at' reading.stream needed read
      obtain ⟨left, last⟩ := fread_left st.bytes st.pos read
      have remaining := reading.remaining
      rw [used slot, List.nil_append, left] at remaining
      obtain ⟨first, tail⟩ := advance remaining last
      refine ⟨{ s with
          rt := { s.rt with
            owner := some f
            streams := update s.rt.streams f (some { st with pos := st.pos + chunk.length })
            buf := chunk
            pos := min 1 chunk.length }
          source := some slot
          got := update s.got slot (s.got slot ++ [chunk.head?]) },
        by simp only [step, next, chosen, needed, ↓reduceIte], ?_⟩
      refine @deliver_keeps s inv slot f st { st with pos := st.pos + chunk.length } _ _ opened
        reading (fun other _ => used other) rfl rfl rfl rfl rfl first ?_
      rw [tail]
      cases chunk <;> simp
    · have owns : s.rt.owner = some f := by
        simp only [refills, at', Bool.or_eq_true, decide_eq_true_eq, not_or, ne_eq,
          Decidable.not_not] at needed
        exact needed.1
      have held : ¬ s.rt.buf.length ≤ s.rt.pos := by
        intro exhausted
        simp [refills, exhausted] at needed
      have mine : s.source = some slot := by
        rcases slab with exhausted | mine | ⟨-, differs⟩
        · exact absurd exhausted held
        · exact mine
        · exact absurd owns differs
      have others : ∀ other, other ≠ slot → unread s other = [] := by
        intro other differs
        simp [unread, mine, Ne.symm differs]
      obtain ⟨c, rest, left⟩ : ∃ c rest, s.rt.buf.drop s.rt.pos = c :: rest := by
        refine List.exists_cons_of_ne_nil ?_
        simpa using held
      have remaining := reading.remaining
      simp only [unread, mine, ↓reduceIte] at remaining
      obtain ⟨first, tail⟩ := advance remaining (by simp [left])
      have next := nextChar_reads at' owns left
      refine ⟨{ s with
          rt := { s.rt with pos := s.rt.pos + 1 }
          source := some slot
          got := update s.got slot (s.got slot ++ [some c]) },
        by simp [step, next, chosen, needed, mine], ?_⟩
      refine @deliver_keeps s inv slot f st st _ _ opened reading others rfl rfl owns ?_ rfl ?_ ?_
      · simp [← reading.stream]
      · rw [← first, left]
        rfl
      · rw [tail, List.tail_drop]

theorem select_keeps (inv : Inv s) (inF : Option Nat) (selected : Option Int)
    (agree : inF = none ↔ selected = none) :
    Inv { s with rt := { s.rt with inF := inF }, selected := selected } := by
  refine ⟨inv.apart, inv.range, ?_, inv.source, agree, inv.ordered⟩
  intro slot h opened
  obtain ⟨st, reading⟩ := inv.reading slot h opened
  exact ⟨st, reading.stream, reading.bytes, reading.remaining⟩

theorem open_keeps (inv : Inv s) {slot : Int} {nonprint : Bool}
    {opened : Option (Nat × List UInt8)} (possible : Possible s (.open slot nonprint opened)) :
    ∃ s', step s (.open slot nonprint opened) = some s' ∧ Inv s' := by
  have closed := close_keeps inv slot
  cases opened with
  | none =>
    refine ⟨_, rfl, ?_⟩
    rw [open_closes (Or.inr (Or.inr rfl))]
    exact closed
  | some found =>
    obtain ⟨h, bytes⟩ := found
    by_cases kept : outOfRange slot = true ∨ nonprint = true
    · refine ⟨{ s with rt := pliFileClose s.rt slot, source := dropSource s slot }, ?_, closed⟩
      have same := @open_closes s.rt slot nonprint (some (h, bytes)) (by tauto)
      simp only [step, same, Bool.or_eq_true, kept, ↓reduceIte]
    · rw [not_or, Bool.not_eq_true, Bool.not_eq_true] at kept
      obtain ⟨inside, printed⟩ := kept
      subst printed
      have fresh : (pliFileClose s.rt slot).streams h = none := by
        simpa [pliFileClose, inside] using possible inside
      have released : (pliFileClose s.rt slot).files slot = none := by
        simp [pliFileClose, inside]
      refine ⟨_, ?_, attach_keeps closed bytes inside released fresh⟩
      simp [step, inside, open_attaches inside]

/-- Every step the condition allows is performed and keeps the invariant. -/
theorem step_keeps (s : Session) (e : Event) (inv : Inv s) (ok : Possible s e ∧ SlabClear s e) :
    ∃ s', step s e = some s' ∧ Inv s' := by
  cases e with
  | «open» slot nonprint opened => exact open_keeps inv ok.1
  | close slot => exact ⟨_, rfl, close_keeps inv slot⟩
  | select slot =>
    refine ⟨_, rfl, ?_⟩
    by_cases opened : isOpen s.rt slot = true
    · simp only [pliGetSelect, opened, ↓reduceIte]
      refine select_keeps inv _ _ ?_
      simp only [isOpen, Bool.and_eq_true, Option.isSome_iff_exists] at opened
      obtain ⟨-, h, held⟩ := opened
      simp [held]
    · simp only [pliGetSelect, opened]
      exact select_keeps inv none none (by simp)
  | unselect => exact ⟨_, rfl, select_keeps inv none none (by simp)⟩
  | nextChar => exact nextChar_keeps inv ok.2

/-- In every run in which the slab is clear at each read, every read is defined and each
    file's characters come in order, with EOF only past the last. -/
theorem input_in_order_when_slab_clear (es : List Event)
    (clear : AllSteps step (fun s e => Possible s e ∧ SlabClear s e) Session.start es) :
    ∃ s, run step Session.start es = some s ∧ ∀ slot, InOrder (s.content slot) (s.got slot) := by
  obtain ⟨s, reached, inv⟩ := run_keeps step_keeps start_inv clear
  exact ⟨s, reached, inv.ordered⟩

def drainedRun : List Event :=
  [.open 0 false (some (1, [97])), .open 1 false (some (2, [120, 121])), .select 0, .nextChar,
    .unselect, .select 1, .nextChar, .nextChar, .unselect, .select 0, .nextChar]

theorem drained_run_in_order :
    AllSteps step (fun s e => Possible s e ∧ SlabClear s e) Session.start drainedRun ∧
      ∃ s, run step Session.start drainedRun = some s ∧
        ∀ slot, InOrder (s.content slot) (s.got slot) := by
  have clear : AllSteps step (fun s e => Possible s e ∧ SlabClear s e) Session.start
      drainedRun := by
    decide
  exact ⟨clear, input_in_order_when_slab_clear drainedRun clear⟩

def alternatingRun : List Event :=
  [.open 0 false (some (1, [97, 98])), .open 1 false (some (2, [120, 121])), .select 0, .nextChar,
    .unselect, .select 1, .nextChar, .unselect, .select 0, .nextChar]

/-- The second read of file 0 finds its slab discarded and its stream at the end: EOF
    in place of "b". -/
theorem alternating_run_loses :
    ¬ ∀ es, AllSteps step Possible Session.start es →
      ∃ s, run step Session.start es = some s ∧
        ∀ slot, InOrder (s.content slot) (s.got slot) := by
  intro always
  have possible : AllSteps step Possible Session.start alternatingRun := by
    decide
  obtain ⟨s, reached, ordered⟩ := always alternatingRun possible
  have seen : (run step Session.start alternatingRun).map (fun s => (s.content 0, s.got 0)) =
      some ([97, 98], [some 97, none]) := by
    decide
  rw [reached] at seen
  simp only [Option.map_some, Option.some.injEq, Prod.mk.injEq] at seen
  have second := ordered 0 1 none (by rw [seen.2]; rfl)
  rw [seen.1] at second
  exact absurd second (by decide)

end PliStreamInput
