import PliLlvm.Lib.Run

/- Stream output (runtime/rt_stream.c, runtime/rt_file.c): the byte writer, the slabs it
   writes behind, and the selection of its destination. FILE pointers are numbered in the
   order fopen hands them out, and using one that is closed is undefined; fwrite writes all
   it is given. rt_col is a 32-bit int that wraps. Locks, the keyed index and the open mode are
   left out. A PUT to a file that is not open signals ERROR; the state it leaves is kept. -/
namespace PliStreamOutput
open Runs
open Function (update update_idem update_of_ne update_self)

def pliMaxFiles : Int := 16

def rtStdoutBuf : Nat := 8192

def rtFileOutBuf : Nat := 8192

structure Stream where
  bytes : List UInt8
  isOpen : Bool
  deriving DecidableEq

/-- The C streams and the file slab: its filled part and rt_file_out_owner. -/
structure FileOut where
  streams : Nat → Option Stream
  buf : List UInt8
  owner : Option Nat

structure Rt where
  files : Int → Option Nat
  nonprint : Int → Bool
  linesize : Int → Int32
  fopened : Nat
  out : FileOut
  outF : Option Nat
  outDiscard : Bool
  /-- rt_out_buf: its capacity and what was written into it. -/
  outBuf : Option (Nat × List UInt8)
  curSlot : Int
  col : Int32
  stdoutBuf : List UInt8
  stdout : List UInt8

def Rt.start : Rt :=
  { files := fun _ => none, nonprint := fun _ => false, linesize := fun _ => 0, fopened := 0
    out := ⟨fun _ => none, [], none⟩, outF := none, outDiscard := false, outBuf := none
    curSlot := -1, col := 0, stdoutBuf := [], stdout := [] }

def isOpenFile (o : FileOut) (f : Nat) : Bool := (o.streams f).any (·.isOpen)

def fwrite (o : FileOut) (f : Nat) (p : List UInt8) : Option FileOut :=
  match o.streams f with
  | none => none
  | some st =>
    if st.isOpen then
      some { o with streams := update o.streams f (some { st with bytes := st.bytes ++ p }) }
    else none

def rtFileOutDrain (o : FileOut) : Option FileOut :=
  match o.owner with
  | some f => if 0 < o.buf.length then (fwrite o f o.buf).map ({ · with buf := [] }) else some o
  | none => some o

def rtFileOutDetach (o : FileOut) (f : Nat) : Option FileOut :=
  if o.owner = some f then (rtFileOutDrain o).map ({ · with owner := none }) else some o

def fclose (o : FileOut) (f : Nat) : Option FileOut :=
  match o.streams f with
  | none => none
  | some st =>
    if st.isOpen then
      some { o with streams := update o.streams f (some { st with isOpen := false }) }
    else none

def rtFlushStdout (s : Rt) : Rt :=
  if 0 < s.stdoutBuf.length then
    { s with stdout := s.stdout ++ s.stdoutBuf, stdoutBuf := [] }
  else s

def wraps (s : Rt) (n : Nat) : Bool :=
  0 ≤ s.curSlot && 0 < s.linesize s.curSlot && 0 < s.col &&
    s.linesize s.curSlot < s.col + Int32.ofNat n

/- The file half of rt_put_raw: the wrap, the slab's owner, and the slab or the stream. -/
def wrapLine (o : FileOut) (f : Nat) (wrap : Bool) : Option FileOut :=
  if wrap then (rtFileOutDrain o).bind fun o => fwrite o f [10] else some o

def takeSlab (o : FileOut) (f : Nat) : Option FileOut :=
  if o.owner ≠ some f then (rtFileOutDrain o).map ({ · with owner := some f }) else some o

def placeBytes (o : FileOut) (f : Nat) (p : List UInt8) : Option FileOut :=
  if rtFileOutBuf ≤ p.length then (rtFileOutDrain o).bind fun o => fwrite o f p
  else
    (if rtFileOutBuf < o.buf.length + p.length then rtFileOutDrain o else some o).map fun o =>
      { o with buf := o.buf ++ p }

def putFile (o : FileOut) (f : Nat) (wrap : Bool) (p : List UInt8) : Option FileOut :=
  (wrapLine o f wrap).bind fun o => (takeSlab o f).bind fun o => placeBytes o f p

def rtPutRaw (s : Rt) (p : List UInt8) : Option Rt :=
  match s.outF with
  | some f =>
    let wrap := wraps s p.length
    if isOpenFile s.out f then
      (putFile s.out f wrap p).map fun o =>
        { s with out := o, col := (if wrap then 0 else s.col) + Int32.ofNat p.length }
    else none
  | none =>
    if s.outDiscard then some s
    else match s.outBuf with
      | some (cap, text) => some { s with outBuf := some (cap, text ++ p.take (cap - text.length)) }
      | none =>
        let s :=
          if s.stdoutBuf.length + p.length ≤ rtStdoutBuf then
            { s with stdoutBuf := s.stdoutBuf ++ p }
          else
            let s := rtFlushStdout s
            { s with stdout := s.stdout ++ p }
        some { s with col := s.col + Int32.ofNat p.length }

def inRange (slot : Int) : Bool := 0 ≤ slot && slot < pliMaxFiles

def releaseFile (o : FileOut) : Option Nat → Option FileOut
  | some f => (rtFileOutDetach o f).bind fun o => fclose o f
  | none => some o

/-- pli_file_open and its siblings; `granted` is whether fopen finds the file. -/
def pliFileOpen (s : Rt) (slot : Int) (nonprint granted : Bool) : Option Rt :=
  if inRange slot then
    (releaseFile s.out (s.files slot)).map fun o =>
      if nonprint then
        { s with
          out := o
          files := update s.files slot none
          nonprint := update s.nonprint slot true }
      else if granted then
        { s with
          out := { o with streams := update o.streams s.fopened (some ⟨[], true⟩) }
          files := update s.files slot (some s.fopened)
          nonprint := update s.nonprint slot false
          fopened := s.fopened + 1 }
      else
        { s with
          out := o
          files := update s.files slot none
          nonprint := update s.nonprint slot false }
  else some s

def pliFileClose (s : Rt) (slot : Int) : Option Rt :=
  if inRange slot then
    (releaseFile s.out (s.files slot)).map fun o =>
      { s with out := o, files := update s.files slot none }
  else some s

def pliPutSelect (s : Rt) (slot : Int) : Rt :=
  let s := rtFlushStdout s
  if inRange slot && ((s.files slot).isSome || s.nonprint slot) then
    if s.nonprint slot then
      { s with outF := none, outDiscard := true, col := 0, curSlot := slot }
    else { s with outF := s.files slot, outDiscard := false, col := 0, curSlot := slot }
  else { s with outF := none, outDiscard := true, curSlot := -1 }

def pliPutUnselect (s : Rt) : Rt := { s with outF := none, outDiscard := false, curSlot := -1 }

/-- pli_file_set_linesize: n is cast to int. -/
def pliFileSetLinesize (s : Rt) (slot n : Int) : Rt :=
  if inRange slot && 0 < n then
    { s with linesize := update s.linesize slot (Int32.ofInt n) }
  else s

inductive Event where
  | put (p : List UInt8)
  | select (slot : Int)
  | unselect
  | stringOpen (cap : Nat)
  | stringClose
  | flushStdout
  | flushFileOut
  | detach (slot : Int)
  | open (slot : Int) (nonprint granted : Bool)
  | close (slot : Int)
  | setLinesize (slot n : Int)
  /-- The item writers set the column after a new line. -/
  | setCol (col : Int32)

def step (s : Rt) : Event → Option Rt
  | .put p => rtPutRaw s p
  | .select slot => some (pliPutSelect s slot)
  | .unselect => some (pliPutUnselect s)
  | .stringOpen cap => some { s with outBuf := some (cap, []) }
  | .stringClose => some { s with outBuf := none }
  | .flushStdout => some (rtFlushStdout s)
  | .flushFileOut => (rtFileOutDrain s.out).map fun o => { s with out := o }
  | .detach slot =>
    match s.files slot with
    | some f => (rtFileOutDetach s.out f).map fun o => { s with out := o }
    | none => some s
  | .open slot nonprint granted => pliFileOpen s slot nonprint granted
  | .close slot => pliFileClose s slot
  | .setLinesize slot n => some (pliFileSetLinesize s slot n)
  | .setCol col => some { s with col := col }

/- What a program means by its output: the destination selected at each moment and, for each
   destination, the bytes put while it was selected. -/
inductive Dest where
  | stdout
  | string
  | discard
  | file (f : Nat)
  deriving DecidableEq

structure Intent where
  slots : Int → Option Nat
  opened : Nat
  /-- The file selected, `discard` for one that is not open or NONPRINT; none when unselected. -/
  file : Option Dest
  string : Bool
  sent : Dest → List UInt8
  /-- The slot selected last and the bytes on its line since, counted in 32 bits. -/
  slot : Int
  col : Int32
  /-- The LINESIZE given last for a slot; CLOSE and OPEN keep it. -/
  linesize : Int → Int32

def Intent.start : Intent :=
  { slots := fun _ => none, opened := 0, file := none, string := false, sent := fun _ => []
    slot := -1, col := 0, linesize := fun _ => 0 }

def Intent.dest (t : Intent) : Dest := t.file.getD (if t.string then .string else .stdout)

def Intent.open (t : Intent) (slot : Int) (found : Bool) : Intent :=
  if inRange slot then
    if found then
      { t with slots := update t.slots slot (some t.opened), opened := t.opened + 1 }
    else { t with slots := update t.slots slot none }
  else t

/-- Bytes for a file of a LINESIZE that would run past it, on a line already begun. -/
def Intent.runsPast (t : Intent) (p : List UInt8) : Bool :=
  match t.file with
  | some (.file _) =>
    0 < t.linesize t.slot && 0 < t.col &&
      t.linesize t.slot < t.col + Int32.ofNat p.length
  | _ => false

/-- `limited` says whether a LINESIZE is heeded: it puts a new line in front of the bytes. -/
def intend (limited : Bool) (t : Intent) : Event → Intent
  | .put p =>
    let newline := limited && t.runsPast p
    { t with
      sent := update t.sent t.dest
        (t.sent t.dest ++ ((if newline then [10] else []) ++ p))
      col := (if newline then 0 else t.col) + Int32.ofNat p.length }
  | .select slot =>
    { t with
      file := some (if inRange slot then ((t.slots slot).map .file).getD .discard else .discard)
      slot := slot
      col := 0 }
  | .unselect => { t with file := none }
  | .stringOpen _ => { t with string := true }
  | .stringClose => { t with string := false }
  | .open slot nonprint granted => t.open slot (!nonprint && granted)
  | .close slot => t.open slot false
  | .setLinesize slot n =>
    if inRange slot && 0 < n then
      { t with linesize := update t.linesize slot (Int32.ofInt n) }
    else t
  | .setCol col => { t with col := col }
  | _ => t

def newlineBefore (s : Rt) : Event → Bool
  | .put p => s.outF.isSome && wraps s p.length
  | _ => false

structure Carries (o : FileOut) (sent : Nat → List UInt8) : Prop where
  bytes : ∀ f st, o.streams f = some st →
    st.bytes ++ (if o.owner = some f then o.buf else []) = sent f
  owned : ∀ f, o.owner = some f → isOpenFile o f = true
  idle : o.owner = none → o.buf = []

def SameFiles (o o' : FileOut) : Prop :=
  ∀ f, isOpenFile o' f = isOpenFile o f ∧ (o'.streams f).isSome = (o.streams f).isSome

theorem sameFiles_refl (o : FileOut) : SameFiles o o := fun _ => ⟨rfl, rfl⟩

variable {o : FileOut}

theorem SameFiles.trans {p q : FileOut} (first : SameFiles o p) (second : SameFiles p q) :
    SameFiles o q :=
  fun f => ⟨(second f).1.trans (first f).1, (second f).2.trans (first f).2⟩

theorem fwrite_open {f : Nat} (opened : isOpenFile o f = true) (p : List UInt8) :
    ∃ st, o.streams f = some st ∧ st.isOpen = true ∧
      fwrite o f p = some { o with
        streams := update o.streams f (some { st with bytes := st.bytes ++ p }) } := by
  obtain ⟨st, found, isOpen⟩ := (Option.any_eq_true _ _).mp opened
  exact ⟨st, found, isOpen, by simp [fwrite, found, isOpen]⟩

theorem sameFiles_update {f : Nat} {st : Stream} (found : o.streams f = some st)
    (bytes buf : List UInt8) (owner : Option Nat) :
    SameFiles o ⟨update o.streams f (some { st with bytes := bytes }), buf, owner⟩ := by
  intro g
  by_cases here : g = f
  · subst here
    simp [isOpenFile, found]
  · simp [isOpenFile, update_of_ne here]

variable {sent : Nat → List UInt8}

section
variable (carries : Carries o sent)
include carries

theorem drain_carries :
    ∃ o', rtFileOutDrain o = some o' ∧ Carries o' sent ∧ o'.buf = [] ∧ o'.owner = o.owner ∧
      SameFiles o o' := by
  cases held : o.owner with
  | none =>
    exact ⟨o, by simp [rtFileOutDrain, held], carries, carries.idle held, held, sameFiles_refl o⟩
  | some f =>
    have opened := carries.owned f held
    by_cases some_byte : 0 < o.buf.length
    · obtain ⟨st, found, -, written⟩ := fwrite_open opened o.buf
      have same := sameFiles_update found (st.bytes ++ o.buf) [] o.owner
      refine ⟨⟨update o.streams f (some { st with bytes := st.bytes ++ o.buf }), [], o.owner⟩,
        ?_, ⟨?_, ?_, fun _ => rfl⟩, rfl, held, same⟩
      · rw [rtFileOutDrain, held]
        simp only [if_pos some_byte, written, Option.map_some, held]
      · intro g st' there
        simp only [ite_self, List.append_nil]
        by_cases here : g = f
        · subst here
          simp only [update_self, Option.some.injEq] at there
          have before := carries.bytes g st found
          rw [if_pos held] at before
          rw [← there, before]
        · simp only [update_of_ne here] at there
          have before := carries.bytes g st' there
          have other : ¬ o.owner = some g := by
            rw [held, Option.some.injEq]
            exact Ne.symm here
          rwa [if_neg other, List.append_nil] at before
      · intro g owns
        rw [(same g).1]
        exact carries.owned g owns
    · have empty : o.buf = [] := by simpa using some_byte
      exact ⟨o, by simp [rtFileOutDrain, held, some_byte], carries, empty, held, sameFiles_refl o⟩

theorem through_carries
    (empty : o.buf = []) {f : Nat} (opened : isOpenFile o f = true) (p : List UInt8) :
    ∃ o', fwrite o f p = some o' ∧ Carries o' (update sent f (sent f ++ p)) ∧
      o'.buf = [] ∧ o'.owner = o.owner ∧ SameFiles o o' := by
  obtain ⟨st, found, -, written⟩ := fwrite_open opened p
  have same := sameFiles_update found (st.bytes ++ p) o.buf o.owner
  refine ⟨_, written, ⟨?_, ?_, fun _ => empty⟩, empty, rfl, same⟩
  · intro g st' there
    simp only [empty, ite_self, List.append_nil]
    by_cases here : g = f
    · subst here
      simp only [update_self, Option.some.injEq] at there
      have before := carries.bytes g st found
      rw [empty, ite_self, List.append_nil] at before
      rw [update_self, ← there, ← before]
    · simp only [update_of_ne here] at there
      have before := carries.bytes g st' there
      rw [empty, ite_self, List.append_nil] at before
      rw [update_of_ne here, before]
  · intro g owns
    rw [(same g).1]
    exact carries.owned g owns

theorem slab_carries {f : Nat} (owns : o.owner = some f) (p : List UInt8) :
    Carries { o with buf := o.buf ++ p } (update sent f (sent f ++ p)) := by
  refine ⟨?_, carries.owned, ?_⟩
  · intro g st there
    have before := carries.bytes g st there
    dsimp only at before ⊢
    by_cases here : g = f
    · subst here
      rw [if_pos owns] at before ⊢
      rw [update_self, ← before, List.append_assoc]
    · have other : ¬ o.owner = some g := by
        rw [owns, Option.some.injEq]
        exact Ne.symm here
      rw [if_neg other] at before ⊢
      rw [update_of_ne here, before]
  · intro unowned
    rw [owns] at unowned
    cases unowned

theorem owner_carries
    (empty : o.buf = []) {owner : Option Nat}
    (opened : ∀ f, owner = some f → isOpenFile o f = true) :
    Carries { o with owner := owner } sent := by
  refine ⟨?_, opened, fun _ => empty⟩
  intro g st there
  have before := carries.bytes g st there
  rw [empty, ite_self] at before
  simpa [empty] using before

theorem wrapLine_carries {f : Nat} (opened : isOpenFile o f = true) (wrap : Bool) :
    ∃ o', wrapLine o f wrap = some o' ∧
      Carries o' (update sent f (sent f ++ if wrap then [10] else [])) ∧ SameFiles o o' := by
  cases wrap with
  | false => exact ⟨o, rfl, by simpa using carries, sameFiles_refl o⟩
  | true =>
    obtain ⟨o', drained, carries', empty, -, same⟩ := drain_carries carries
    obtain ⟨o1, written, carries1, -, -, same1⟩ :=
      through_carries carries' empty ((same f).1.trans opened) [10]
    exact ⟨o1, by simp [wrapLine, drained, written], carries1, same.trans same1⟩

theorem takeSlab_carries {f : Nat} (opened : isOpenFile o f = true) :
    ∃ o', takeSlab o f = some o' ∧ Carries o' sent ∧ o'.owner = some f ∧ SameFiles o o' := by
  by_cases mine : o.owner = some f
  · exact ⟨o, by simp [takeSlab, mine], carries, mine, sameFiles_refl o⟩
  · obtain ⟨o', drained, carries', empty, -, same⟩ := drain_carries carries
    refine ⟨{ o' with owner := some f }, by simp [takeSlab, mine, drained], ?_, rfl, same⟩
    refine owner_carries carries' empty ?_
    intro g owner
    cases owner
    exact (same f).1.trans opened

theorem placeBytes_carries
    {f : Nat} (opened : isOpenFile o f = true) (owns : o.owner = some f) (p : List UInt8) :
    ∃ o', placeBytes o f p = some o' ∧ Carries o' (update sent f (sent f ++ p)) ∧
      SameFiles o o' := by
  obtain ⟨o', drained, carries', empty, owner', same⟩ := drain_carries carries
  by_cases large : rtFileOutBuf ≤ p.length
  · obtain ⟨o3, written, carries3, -, -, same3⟩ :=
      through_carries carries' empty ((same f).1.trans opened) p
    exact ⟨o3, by simp [placeBytes, large, drained, written], carries3, same.trans same3⟩
  · by_cases full : rtFileOutBuf < o.buf.length + p.length
    · exact ⟨{ o' with buf := o'.buf ++ p }, by simp [placeBytes, large, full, drained],
        slab_carries carries' (owner'.trans owns) p, same⟩
    · exact ⟨{ o with buf := o.buf ++ p }, by simp [placeBytes, large, full],
        slab_carries carries owns p, sameFiles_refl o⟩

theorem putFile_carries {f : Nat} (opened : isOpenFile o f = true) (wrap : Bool) (p : List UInt8) :
    ∃ o', putFile o f wrap p = some o' ∧
      Carries o' (update sent f (sent f ++ ((if wrap then [10] else []) ++ p))) ∧
      SameFiles o o' := by
  obtain ⟨o1, wrapped, carries1, same1⟩ := wrapLine_carries carries opened wrap
  obtain ⟨o2, handed, carries2, owns, same2⟩ := takeSlab_carries carries1 ((same1 f).1.trans opened)
  obtain ⟨o3, placed, carries3, same3⟩ :=
    placeBytes_carries carries2 (((same2 f).1.trans (same1 f).1).trans opened) owns p
  refine ⟨o3, by simp only [putFile, wrapped, Option.bind_some, handed, placed], ?_,
    (same1.trans same2).trans same3⟩
  rwa [update_idem, update_self, List.append_assoc] at carries3

theorem detach_carries (f : Nat) :
    ∃ o', rtFileOutDetach o f = some o' ∧ Carries o' sent ∧ o'.owner ≠ some f ∧ SameFiles o o' := by
  by_cases mine : o.owner = some f
  · obtain ⟨o', drained, carries', empty, -, same⟩ := drain_carries carries
    refine ⟨{ o' with owner := none }, by simp [rtFileOutDetach, mine, drained], ?_, by simp, same⟩
    exact owner_carries carries' empty (by simp)
  · exact ⟨o, by simp [rtFileOutDetach, mine], carries, mine, sameFiles_refl o⟩

end

def SameStreams (o o' : FileOut) : Prop := ∀ f, (o'.streams f).isSome = (o.streams f).isSome

theorem fclose_carries (carries : Carries o sent) {f : Nat}
    (opened : isOpenFile o f = true) (apart : o.owner ≠ some f) :
    ∃ o', fclose o f = some o' ∧ Carries o' sent ∧ SameStreams o o' ∧
      ∀ g, isOpenFile o' g = (isOpenFile o g && g ≠ f) := by
  obtain ⟨st, found, isOpen⟩ := (Option.any_eq_true _ _).mp opened
  refine ⟨{ o with streams := update o.streams f (some { st with isOpen := false }) },
    by simp [fclose, found, isOpen], ⟨?_, ?_, carries.idle⟩, ?_, ?_⟩
  · intro g st' there
    by_cases here : g = f
    · subst here
      simp only [update_self, Option.some.injEq] at there
      rw [← there]
      exact carries.bytes g st found
    · simp only [update_of_ne here] at there
      exact carries.bytes g st' there
  · intro g owns
    have other : g ≠ f := fun same => apart (same ▸ owns)
    have before := carries.owned g owns
    simpa [isOpenFile, update_of_ne other] using before
  · intro g
    by_cases here : g = f
    · subst here
      simp [found]
    · simp [update_of_ne here]
  · intro g
    by_cases here : g = f
    · subst here
      simp [isOpenFile]
    · simp [isOpenFile, here]

theorem releaseFile_carries (carries : Carries o sent)
    {held : Option Nat} (opened : ∀ f, held = some f → isOpenFile o f = true) :
    ∃ o', releaseFile o held = some o' ∧ Carries o' sent ∧ SameStreams o o' ∧
      ∀ g, isOpenFile o' g = (isOpenFile o g && decide (held ≠ some g)) := by
  cases held with
  | none => exact ⟨o, rfl, carries, fun _ => rfl, by simp⟩
  | some f =>
    obtain ⟨o1, detached, carries1, apart, same⟩ := detach_carries carries f
    obtain ⟨o2, closed, carries2, streams, status⟩ :=
      fclose_carries carries1 ((same f).1.trans (opened f rfl)) apart
    refine ⟨o2, by simp [releaseFile, detached, closed], carries2,
      fun g => (streams g).trans (same g).2, ?_⟩
    intro g
    rw [status, (same g).1]
    simp [eq_comm]

structure Wired (s : Rt) (t : Intent) : Prop where
  files : s.files = t.slots
  opened : s.fopened = t.opened
  silent : ∀ slot, s.nonprint slot = true → s.files slot = none
  live : ∀ slot f, s.files slot = some f → isOpenFile s.out f = true
  apart : ∀ a b f, s.files a = some f → s.files b = some f → a = b
  born : ∀ f, (s.out.streams f).isSome = true ↔ f < s.fopened
  selected : t.file = if s.outDiscard then some .discard else s.outF.map .file
  single : s.outDiscard = true → s.outF = none
  string : t.string = s.outBuf.isSome
  line : s.outF.isSome = true → 0 ≤ s.curSlot ∧ s.curSlot = t.slot ∧ s.col = t.col
  linesize : s.linesize = t.linesize

structure Follows (s : Rt) (t : Intent) : Prop extends Wired s t where
  unsent : ∀ f, s.fopened ≤ f → t.sent (.file f) = []
  carries : Carries s.out fun f => t.sent (.file f)
  stdout : s.stdout ++ s.stdoutBuf = t.sent .stdout

theorem start_follows : Follows Rt.start Intent.start := by
  refine ⟨⟨rfl, rfl, ?_, ?_, ?_, ?_, rfl, ?_, rfl, ?_, rfl⟩, ?_, ⟨?_, ?_, ?_⟩, rfl⟩ <;>
    simp [Rt.start, Intent.start]

theorem flushStdout_eq (s : Rt) :
    rtFlushStdout s = { s with stdout := s.stdout ++ s.stdoutBuf, stdoutBuf := [] } := by
  unfold rtFlushStdout
  split
  · rfl
  · rename_i empty
    have none : s.stdoutBuf = [] := by simpa using empty
    cases s
    simp_all

variable {s : Rt} {t : Intent}

theorem flushStdout_follows (follows : Follows s t) : Follows (rtFlushStdout s) t := by
  rw [flushStdout_eq]
  exact { follows with stdout := by simpa using follows.stdout }

theorem out_wired (wired : Wired s t) {o : FileOut} (same : SameFiles s.out o) :
    Wired { s with out := o } t := by
  refine { wired with live := ?_, born := ?_ }
  · intro slot f held
    exact (same f).1.trans (wired.live slot f held)
  · intro f
    rw [← wired.born f]
    exact Iff.of_eq (congrArg (· = true) (same f).2)

theorem file_sent (sent : Dest → List UInt8) (f : Nat) (text : List UInt8) :
    (fun g => update sent (.file f) text (.file g)) =
      update (fun g => sent (.file g)) f text := by
  funext g
  by_cases here : g = f
  · subst here
    simp
  · have other : Dest.file g ≠ Dest.file f := fun same => here (Dest.file.inj same)
    rw [update_of_ne other, update_of_ne here]

theorem other_sent (sent : Dest → List UInt8) {d : Dest} (other : ∀ f, Dest.file f ≠ d)
    (text : List UInt8) :
    (fun g => update sent d text (.file g)) = fun g => sent (.file g) := by
  funext g
  rw [update_of_ne (other g)]

/-- The writer wraps where the LINESIZE asks for it. -/
theorem wraps_runsPast (follows : Follows s t) {f : Nat} (selected : s.outF = some f)
    (p : List UInt8) : wraps s p.length = t.runsPast p := by
  have speaks : s.outDiscard = false := by
    cases discard : s.outDiscard with
    | false => rfl
    | true => simp [follows.single discard] at selected
  have file : t.file = some (.file f) := by
    rw [follows.selected, speaks, selected]
    rfl
  obtain ⟨inside, slot, col⟩ := follows.line (by rw [selected]; rfl)
  rw [slot] at inside
  simp [wraps, Intent.runsPast, file, slot, col, follows.linesize, inside]

theorem put_file_follows (follows : Follows s t) {f : Nat}
    (selected : s.outF = some f) (opened : isOpenFile s.out f = true) (p : List UInt8) :
    ∃ s', rtPutRaw s p = some s' ∧ Follows s' (intend true t (.put p)) := by
  have speaks : s.outDiscard = false := by
    cases discard : s.outDiscard with
    | false => rfl
    | true => simp [follows.single discard] at selected
  have dest : t.dest = .file f := by
    rw [Intent.dest, follows.selected, speaks, selected]
    rfl
  obtain ⟨inside, slot, col⟩ := follows.line (by rw [selected]; rfl)
  have early : f < s.fopened := by
    rw [← follows.born f]
    obtain ⟨st, found, -⟩ := (Option.any_eq_true _ _).mp opened
    simp [found]
  obtain ⟨o, placed, carries, same⟩ :=
    putFile_carries follows.carries opened (wraps s p.length) p
  have wired := out_wired follows.toWired same
  refine ⟨{ s with
    out := o
    col := (if wraps s p.length then 0 else s.col) + Int32.ofNat p.length },
    by simp only [rtPutRaw, selected, opened, placed, if_true, Option.map_some], ?_⟩
  simp only [intend, dest, Bool.true_and, ← wraps_runsPast follows selected]
  refine ⟨{ wired with line := fun _ => ⟨inside, slot, by rw [col]⟩ }, ?_, ?_, ?_⟩
  · intro g late
    have other : Dest.file g ≠ Dest.file f := by
      intro same
      cases Dest.file.inj same
      exact absurd early (Nat.not_lt.mpr late)
    dsimp only
    rw [update_of_ne other]
    exact follows.unsent g late
  · dsimp only
    rw [file_sent]
    exact carries
  · dsimp only
    rw [update_of_ne (by simp)]
    exact follows.stdout

theorem put_console_follows (follows : Follows s t) (unselected : s.outF = none) (p : List UInt8) :
    ∃ s', rtPutRaw s p = some s' ∧ Follows s' (intend true t (.put p)) := by
  have elsewhere : t.runsPast p = false := by
    rw [Intent.runsPast, follows.selected, unselected]
    cases s.outDiscard <;> rfl
  have whole : ∀ d : Dest, t.dest = d → intend true t (.put p) =
      { t with
        sent := update t.sent d (t.sent d ++ p)
        col := t.col + Int32.ofNat p.length } := by
    intro d dest
    simp [intend, elsewhere, dest]
  have silent : ∀ {P : Prop}, s.outF.isSome = true → P := by
    intro P heard
    rw [unselected] at heard
    cases heard
  by_cases discard : s.outDiscard = true
  · have dest : t.dest = .discard := by
      rw [Intent.dest, follows.selected, if_pos discard]
      rfl
    refine ⟨s, by simp [rtPutRaw, unselected, discard], ?_⟩
    rw [whole _ dest]
    refine ⟨{ follows.toWired with line := silent }, ?_, ?_, ?_⟩
    · intro f late
      dsimp only
      rw [update_of_ne (by simp)]
      exact follows.unsent f late
    · dsimp only
      rw [other_sent _ (by simp)]
      exact follows.carries
    · dsimp only
      rw [update_of_ne (by simp)]
      exact follows.stdout
  · have file : t.file = none := by
      rw [follows.selected, if_neg discard, unselected]
      rfl
    cases text : s.outBuf with
    | some sink =>
      obtain ⟨cap, text'⟩ := sink
      have dest : t.dest = .string := by
        rw [Intent.dest, file, follows.string, text]
        rfl
      refine ⟨{ s with outBuf := some (cap, text' ++ p.take (cap - text'.length)) },
        by simp [rtPutRaw, unselected, discard, text], ?_⟩
      rw [whole _ dest]
      refine ⟨{ follows.toWired with string := ?_, line := silent }, ?_, ?_, ?_⟩
      · dsimp only
        rw [follows.string, text]
        rfl
      · intro f late
        dsimp only
        rw [update_of_ne (by simp)]
        exact follows.unsent f late
      · dsimp only
        rw [other_sent _ (by simp)]
        exact follows.carries
      · dsimp only
        rw [update_of_ne (by simp)]
        exact follows.stdout
    | none =>
      have dest : t.dest = .stdout := by
        rw [Intent.dest, file, follows.string, text]
        rfl
      have unsent : ∀ f, s.fopened ≤ f →
          update t.sent .stdout (t.sent .stdout ++ p) (.file f) = [] := by
        intro f late
        rw [update_of_ne (by simp)]
        exact follows.unsent f late
      have carries : Carries s.out fun f =>
          update t.sent .stdout (t.sent .stdout ++ p) (.file f) := by
        rw [other_sent _ (by simp)]
        exact follows.carries
      rw [whole _ dest]
      by_cases fits : s.stdoutBuf.length + p.length ≤ rtStdoutBuf
      · refine ⟨{ s with stdoutBuf := s.stdoutBuf ++ p, col := s.col + Int32.ofNat p.length },
          by simp [rtPutRaw, unselected, discard, text, fits], ?_⟩
        refine ⟨{ follows.toWired with line := silent }, unsent, carries, ?_⟩
        dsimp only
        rw [update_self, ← List.append_assoc, follows.stdout]
      · refine ⟨{ s with
          stdout := s.stdout ++ s.stdoutBuf ++ p
          stdoutBuf := []
          col := s.col + Int32.ofNat p.length },
          by simp [rtPutRaw, unselected, discard, text, fits, flushStdout_eq], ?_⟩
        refine ⟨{ follows.toWired with line := silent }, unsent, carries, ?_⟩
        dsimp only
        rw [update_self, List.append_nil, follows.stdout]

variable {s' : Rt}

section
variable (follows : Follows s t)
include follows

theorem put_follows {p : List UInt8}
    (moved : rtPutRaw s p = some s') : Follows s' (intend true t (.put p)) := by
  cases selected : s.outF with
  | none =>
    obtain ⟨after, done, result⟩ := put_console_follows follows selected p
    rw [done] at moved
    cases moved
    exact result
  | some f =>
    by_cases opened : isOpenFile s.out f = true
    · obtain ⟨after, done, result⟩ := put_file_follows follows selected opened p
      rw [done] at moved
      cases moved
      exact result
    · simp [rtPutRaw, selected, opened] at moved

theorem select_follows (slot : Int) :
    Follows (pliPutSelect s slot) (intend true t (.select slot)) := by
  have flushed := flushStdout_follows follows
  rw [flushStdout_eq] at flushed
  have slots := follows.files
  simp only [pliPutSelect, flushStdout_eq, intend]
  by_cases opens : inRange slot && ((s.files slot).isSome || s.nonprint slot)
  · rw [if_pos opens]
    simp only [Bool.and_eq_true, Bool.or_eq_true] at opens
    rw [if_pos opens.1]
    by_cases quiet : s.nonprint slot = true
    · have closed : t.slots slot = none := by rw [← slots, follows.silent slot quiet]
      rw [if_pos quiet, closed]
      exact { flushed with
        selected := rfl
        single := fun _ => rfl
        line := fun heard => absurd heard (by simp) }
    · obtain ⟨f, held⟩ := Option.isSome_iff_exists.mp (opens.2.resolve_right quiet)
      have intended : t.slots slot = some f := by rw [← slots, held]
      have inside : 0 ≤ slot := by
        have range := opens.1
        simp only [inRange, Bool.and_eq_true, decide_eq_true_eq] at range
        exact range.1
      rw [if_neg quiet, intended, held]
      exact { flushed with
        selected := rfl
        single := by simp
        line := fun _ => ⟨inside, rfl, rfl⟩ }
  · rw [if_neg opens]
    have dest : (if inRange slot then ((t.slots slot).map Dest.file).getD .discard else .discard) =
        .discard := by
      by_cases inside : inRange slot = true
      · have closed : s.files slot = none := by
          simp only [inside, Bool.true_and, Bool.or_eq_true, not_or] at opens
          simpa using opens.1
        rw [if_pos inside, ← slots, closed]
        rfl
      · rw [if_neg inside]
    rw [dest]
    exact { flushed with
      selected := rfl
      single := fun _ => rfl
      line := fun heard => absurd heard (by simp) }

theorem release_follows (slot : Int) :
    ∃ o, releaseFile s.out (s.files slot) = some o ∧
      Carries o (fun f => t.sent (.file f)) ∧
      Wired { s with out := o, files := update s.files slot none }
        { t with slots := update t.slots slot none } := by
  obtain ⟨o, released, carries, streams, status⟩ :=
    releaseFile_carries follows.carries (follows.live slot)
  refine ⟨o, released, carries, { follows.toWired with
    files := by rw [follows.files], silent := ?_, live := ?_, apart := ?_, born := ?_ }⟩
  · intro other quiet
    by_cases here : other = slot
    · subst here
      exact update_self ..
    · exact (update_of_ne here ..).trans (follows.silent other quiet)
  · intro other f held
    by_cases here : other = slot
    · subst here
      simp at held
    · dsimp only at held
      rw [update_of_ne here] at held
      have different : s.files slot ≠ some f :=
        fun same => here (follows.apart other slot f held same)
      dsimp only
      rw [status, follows.live other f held]
      simp [different]
  · intro a b f ha hb
    by_cases hereA : a = slot
    · subst hereA
      simp at ha
    · by_cases hereB : b = slot
      · subst hereB
        simp at hb
      · dsimp only at ha hb
        rw [update_of_ne hereA] at ha
        rw [update_of_ne hereB] at hb
        exact follows.apart a b f ha hb
  · intro f
    dsimp only
    rw [streams f]
    exact follows.born f

theorem close_follows {slot : Int}
    (moved : pliFileClose s slot = some s') : Follows s' (intend true t (.close slot)) := by
  by_cases inside : inRange slot = true
  · obtain ⟨o, released, carries, wired⟩ := release_follows follows slot
    simp only [pliFileClose, inside, if_true, released, Option.map_some, Option.some.injEq] at moved
    rw [← moved]
    simp only [intend, Intent.open, inside, if_true]
    exact ⟨{ wired with }, follows.unsent, carries, follows.stdout⟩
  · simp only [pliFileClose, inside] at moved
    cases moved
    simpa [intend, Intent.open, inside] using follows

theorem open_follows {slot : Int}
    {nonprint granted : Bool} (moved : pliFileOpen s slot nonprint granted = some s') :
    Follows s' (intend true t (.open slot nonprint granted)) := by
  by_cases inside : inRange slot = true
  · obtain ⟨o, released, carries, wired⟩ := release_follows follows slot
    simp only [pliFileOpen, inside, if_true, released, Option.map_some, Option.some.injEq] at moved
    simp only [intend, Intent.open, inside, if_true]
    cases nonprint with
    | true =>
      simp only [if_true] at moved
      rw [← moved, Bool.not_true, Bool.false_and]
      refine ⟨{ wired with silent := ?_ }, follows.unsent, carries, follows.stdout⟩
      intro other quiet
      by_cases here : other = slot
      · subst here
        exact update_self ..
      · dsimp only at quiet
        rw [update_of_ne here] at quiet
        exact wired.silent other quiet
    | false =>
      have silent : ∀ other, update s.nonprint slot false other = true →
          other ≠ slot ∧ s.nonprint other = true := by
        intro other quiet
        by_cases here : other = slot
        · subst here
          simp at quiet
        · rw [update_of_ne here] at quiet
          exact ⟨here, quiet⟩
      simp only [Bool.false_eq_true, if_false] at moved
      cases granted with
      | false =>
        simp only [Bool.false_eq_true, if_false] at moved
        rw [← moved]
        refine ⟨{ wired with silent := ?_ }, follows.unsent, carries, follows.stdout⟩
        intro other quiet
        exact wired.silent other (silent other quiet).2
      | true =>
        simp only [if_true] at moved
        rw [← moved]
        have fresh : o.streams s.fopened = none := by
          have unborn := (wired.born s.fopened).not.mpr (Nat.lt_irrefl _)
          simpa using unborn
        have others : ∀ f, f ≠ s.fopened →
            isOpenFile { o with streams := update o.streams s.fopened (some ⟨[], true⟩) } f =
              isOpenFile o f := by
          intro f other
          simp [isOpenFile, other]
        have early : ∀ other f, other ≠ slot → update s.files slot none other = some f →
            f ≠ s.fopened := by
          intro other f _ held same
          have live := wired.live other f held
          rw [same] at live
          simp [isOpenFile, fresh] at live
        have files : ∀ other f, update s.files slot (some s.fopened) other = some f →
            (other = slot ∧ f = s.fopened) ∨
              (other ≠ slot ∧ update s.files slot none other = some f) := by
          intro other f held
          by_cases here : other = slot
          · subst here
            rw [update_self, Option.some.injEq] at held
            exact Or.inl ⟨rfl, held.symm⟩
          · rw [update_of_ne here] at held
            exact Or.inr ⟨here, (update_of_ne here ..).trans held⟩
        refine ⟨⟨?_, ?_, ?_, ?_, ?_, ?_, wired.selected, wired.single, wired.string, wired.line,
          wired.linesize⟩, ?_, ⟨?_, ?_, ?_⟩, follows.stdout⟩
        · simp [follows.files, follows.opened]
        · simp [follows.opened]
        · intro other quiet
          obtain ⟨here, quiet⟩ := silent other quiet
          exact (update_of_ne here ..).trans (follows.silent other quiet)
        · intro other f held
          rcases files other f held with ⟨-, rfl⟩ | ⟨here, held⟩
          · simp [isOpenFile]
          · exact (others f (early other f here held)).trans (wired.live other f held)
        · intro a b f ha hb
          rcases files a f ha with ⟨rfl, rfl⟩ | ⟨hereA, ha⟩ <;>
            rcases files b _ hb with ⟨rfl, same⟩ | ⟨hereB, hb⟩
          · rfl
          · exact absurd rfl (early b _ hereB hb)
          · exact absurd same (early a f hereA ha)
          · exact wired.apart a b f ha hb
        · intro f
          by_cases here : f = s.fopened
          · subst here
            simp
          · have born := wired.born f
            dsimp only at born ⊢
            rw [update_of_ne here, born]
            omega
        · intro f late
          exact follows.unsent f (by dsimp only at late; omega)
        · intro f st there
          by_cases here : f = s.fopened
          · subst here
            have unowned : ¬ o.owner = some s.fopened := by
              intro owns
              have live := carries.owned s.fopened owns
              simp [isOpenFile, fresh] at live
            have empty := follows.unsent s.fopened (Nat.le_refl _)
            simp only [update_self, Option.some.injEq] at there
            rw [← there]
            simp [unowned, empty]
          · dsimp only at there
            rw [update_of_ne here] at there
            exact carries.bytes f st there
        · intro f owns
          have live := carries.owned f owns
          have other : f ≠ s.fopened := by
            rintro rfl
            simp [isOpenFile, fresh] at live
          exact (others f other).trans live
        · exact carries.idle
  · simp only [pliFileOpen, inside] at moved
    cases moved
    simpa [intend, Intent.open, inside] using follows

theorem step_follows {e : Event}
    (moved : step s e = some s') : Follows s' (intend true t e) := by
  cases e with
  | put p => exact put_follows follows moved
  | select slot =>
    cases moved
    exact select_follows follows slot
  | unselect =>
    cases moved
    exact { follows with
      selected := rfl
      single := by simp [pliPutUnselect]
      line := fun heard => absurd heard (by simp [pliPutUnselect]) }
  | stringOpen cap | stringClose =>
    cases moved
    exact { follows with string := rfl }
  | flushStdout =>
    cases moved
    exact flushStdout_follows follows
  | flushFileOut =>
    obtain ⟨o, drained, carries, -, -, same⟩ := drain_carries follows.carries
    simp only [step, drained, Option.map_some, Option.some.injEq] at moved
    rw [← moved]
    exact ⟨out_wired follows.toWired same, follows.unsent, carries, follows.stdout⟩
  | detach slot =>
    cases held : s.files slot with
    | none =>
      simp only [step, held, Option.some.injEq] at moved
      rw [← moved]
      exact follows
    | some f =>
      obtain ⟨o, detached, carries, -, same⟩ := detach_carries follows.carries f
      simp only [step, held, detached, Option.map_some, Option.some.injEq] at moved
      rw [← moved]
      exact ⟨out_wired follows.toWired same, follows.unsent, carries, follows.stdout⟩
  | «open» slot nonprint granted => exact open_follows follows moved
  | close slot => exact close_follows follows moved
  | setLinesize slot n =>
    cases moved
    simp only [pliFileSetLinesize, intend]
    split
    · exact { follows with linesize := by rw [follows.linesize] }
    · exact follows
  | setCol col =>
    cases moved
    exact { follows with
      line := fun heard => ⟨(follows.line heard).1, (follows.line heard).2.1, rfl⟩ }

end

def putsToClosed (s : Rt) : Event → Bool
  | .put _ => s.outF.any fun f => !isOpenFile s.out f
  | _ => false

theorem step_performs (follows : Follows s t) {e : Event}
    (usable : putsToClosed s e = false) : ∃ s', step s e = some s' := by
  cases e with
  | put p =>
    cases selected : s.outF with
    | none =>
      obtain ⟨s', done, -⟩ := put_console_follows follows selected p
      exact ⟨s', done⟩
    | some f =>
      have opened : isOpenFile s.out f = true := by simpa [putsToClosed, selected] using usable
      obtain ⟨s', done, -⟩ := put_file_follows follows selected opened p
      exact ⟨s', done⟩
  | flushFileOut =>
    obtain ⟨o, drained, -⟩ := drain_carries follows.carries
    exact ⟨{ s with out := o }, by simp [step, drained]⟩
  | detach slot =>
    cases held : s.files slot with
    | none => exact ⟨s, by simp [step, held]⟩
    | some f =>
      obtain ⟨o, detached, -⟩ := detach_carries follows.carries f
      exact ⟨{ s with out := o }, by simp [step, held, detached]⟩
  | «open» slot nonprint granted =>
    obtain ⟨o, released, -⟩ := release_follows follows slot
    apply Option.isSome_iff_exists.mp
    simp only [step, pliFileOpen]
    split <;> simp [released]
  | close slot =>
    obtain ⟨o, released, -⟩ := release_follows follows slot
    apply Option.isSome_iff_exists.mp
    simp only [step, pliFileClose]
    split <;> simp [released]
  | _ => exact ⟨_, rfl⟩

theorem run_delivers (follows : Follows s t) {es : List Event}
    (usable : AllSteps step (fun s e => putsToClosed s e = false) s es) :
    ∃ s', run step s es = some s' ∧ Follows s' (es.foldl (intend true) t) := by
  induction es generalizing s t with
  | nil => exact ⟨s, rfl, follows⟩
  | cons e es ih =>
    obtain ⟨mid, moved⟩ := step_performs follows usable.1
    obtain ⟨s', ran, result⟩ := ih (step_follows follows moved) (usable.2 mid moved)
    exact ⟨s', run_cons_iff.mpr ⟨mid, moved, ran⟩, result⟩

structure Delivered (s : Rt) (sent : Dest → List UInt8) : Prop where
  stdout : (rtFlushStdout s).stdout = sent .stdout
  flushed : ∃ o, rtFileOutDrain s.out = some o ∧
    ∀ f st, o.streams f = some st → st.bytes = sent (.file f)
  closed : ∀ f st, s.out.streams f = some st → st.isOpen = false → st.bytes = sent (.file f)

theorem follows_delivered (follows : Follows s t) : Delivered s t.sent := by
  refine ⟨?_, ?_, ?_⟩
  · rw [flushStdout_eq]
    exact follows.stdout
  · obtain ⟨o, drained, carries, empty, -, -⟩ := drain_carries follows.carries
    refine ⟨o, drained, ?_⟩
    intro f st there
    have bytes := carries.bytes f st there
    rwa [empty, ite_self, List.append_nil] at bytes
  · intro f st there closed
    have bytes := follows.carries.bytes f st there
    have unowned : ¬ s.out.owner = some f := by
      intro owns
      have live := follows.carries.owned f owns
      simp [isOpenFile, there, closed] at live
    rwa [if_neg unowned, List.append_nil] at bytes

theorem intend_linesize {e : Event} (kept : ∀ slot n, e ≠ .setLinesize slot n) :
    (intend true t e).linesize = t.linesize := by
  cases e with
  | setLinesize slot n => exact absurd rfl (kept slot n)
  | «open» slot nonprint granted | close slot =>
    simp only [intend, Intent.open]
    split
    · split <;> rfl
    · rfl
  | _ => rfl

/-- Without a LINESIZE no line is too long. -/
theorem intend_unlimited (unlimited : ∀ slot, t.linesize slot = 0) (e : Event) :
    intend true t e = intend false t e := by
  cases e with
  | put p =>
    have short : t.runsPast p = false := by
      rw [Intent.runsPast]
      split <;> simp [unlimited]
    simp [intend, short]
  | _ => rfl

theorem foldl_unlimited {es : List Event} (unlimited : ∀ slot, t.linesize slot = 0)
    (kept : ∀ slot n, Event.setLinesize slot n ∉ es) :
    es.foldl (intend true) t = es.foldl (intend false) t := by
  induction es generalizing t with
  | nil => rfl
  | cons e es ih =>
    have same := intend_linesize (t := t) fun slot n here => kept slot n (here ▸ List.mem_cons_self)
    have after : ∀ slot, (intend true t e).linesize slot = 0 := by
      intro slot
      rw [same, unlimited]
    rw [List.foldl_cons, List.foldl_cons, ih after fun slot n there =>
      kept slot n (List.mem_cons_of_mem _ there), intend_unlimited unlimited]

/-- Every run that puts nothing to a closed file is performed and delivers to each destination
    what was put while it was selected, in order, with a new line before bytes that would run past
    a LINESIZE; with no LINESIZE nothing is added. -/
theorem output_delivered {es : List Event}
    (usable : AllSteps step (fun s e => putsToClosed s e = false) Rt.start es) :
    (∃ s, run step Rt.start es = some s ∧
        Delivered s (es.foldl (intend true) Intent.start).sent) ∧
      ((∀ slot n, Event.setLinesize slot n ∉ es) →
        es.foldl (intend true) Intent.start = es.foldl (intend false) Intent.start) := by
  obtain ⟨s, ran, follows⟩ := run_delivers start_follows usable
  exact ⟨⟨s, ran, follows_delivered follows⟩, foldl_unlimited fun _ => rfl⟩

/-- Two files written alternately, the first closed while the second has the slab. -/
theorem output_of_two_files :
    ∃ s, run step Rt.start [.open 0 false true, .open 1 false true, .select 0, .put [65], .unselect,
        .put [66], .select 1, .put [67], .select 0, .put [68], .select 1, .put [69],
          .close 0] = some s ∧
      (rtFlushStdout s).stdout = [66] ∧
      (∀ st, s.out.streams 0 = some st → st.isOpen = false → st.bytes = [65, 68]) ∧
      ∃ o, rtFileOutDrain s.out = some o ∧ ∀ st, o.streams 1 = some st → st.bytes = [67, 69] := by
  obtain ⟨⟨s, ran, delivered⟩, -⟩ := @output_delivered
    [.open 0 false true, .open 1 false true, .select 0, .put [65], .unselect,
      .put [66], .select 1, .put [67], .select 0, .put [68], .select 1, .put [69], .close 0]
    (by decide +kernel)
  refine ⟨s, ran, delivered.stdout.trans (by decide +kernel), ?_, ?_⟩
  · intro st there closed
    exact (delivered.closed 0 st there closed).trans (by decide +kernel)
  · obtain ⟨o, drained, bytes⟩ := delivered.flushed
    exact ⟨o, drained, fun st there => (bytes 1 st there).trans (by decide +kernel)⟩

def abcDefg : List Event :=
  [.open 0 false true, .setLinesize 0 5, .select 0, .put [97, 98, 99], .put [100, 101, 102, 103],
    .close 0]

/-- abc, then defg, to a file of LINESIZE 5: it gets a new line that was never put. -/
theorem linesize_adds_a_line :
    ((run step Rt.start abcDefg).bind fun s => s.out.streams 0) =
        some ⟨[97, 98, 99, 10, 100, 101, 102, 103], false⟩ ∧
      (abcDefg.foldl (intend false) Intent.start).sent (.file 0) =
        [97, 98, 99, 100, 101, 102, 103] := by
  decide +kernel

end PliStreamOutput
