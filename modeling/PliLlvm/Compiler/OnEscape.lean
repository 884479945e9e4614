import PliLlvm.Lib.Run
import Mathlib.Algebra.Order.Group.Nat

/- The way out of a procedure from one of its ON-units: the escape variables of a module
   and the code at a raising site that reads them (src/irgen.cpp). An activation of a
   procedure has a number, a unit has that of the activation that established it; which
   unit a condition enters is left open. Words are their unsigned values. Text is an
   address with a length: `next` is the memory that follows it. -/
namespace PliOnEscape
open Runs

/-- A procedure's result type, as far as the code tells them apart. A `locator` is any
    type held in an LLVM pointer. -/
inductive RetTy where
  | void
  | fixed (bits : Nat)
  | bit (len : Nat)
  | float
  | locator
  | complex
  | char (len : Nat)
  | varying (len : Nat)
  | starVarying
  | struct (size : Nat)
  deriving DecidableEq

inductive Val where
  | word (n : Nat)
  | packed (bytes : List UInt8)
  | real (bits : Nat)
  | ptr (addr : Nat)
  | cpx (re im : Nat)
  | text (s next : List UInt8)
  | record (bytes : List UInt8)

inductive Result where
  | word (n : Nat)
  | packed (bytes : List UInt8)
  | real (bits : Nat)
  | ptr (addr : Nat)
  | cpx (re im : Nat)
  | bytes (s : List UInt8)
  | varying (s : List UInt8)

def HasType : RetTy → Val → Prop
  | .fixed bits, .word n => n < 2 ^ bits
  | .bit len, .word n => len = 1 ∧ n < 2
  | .bit len, .packed bytes => len ≠ 1 ∧ bytes.length = (len + 7) / 8
  | .float, .real _ | .locator, .ptr _ | .complex, .cpx _ _ => True
  | .char _, .text _ _ | .varying _, .text _ _ | .starVarying, .text _ _ => True
  | .struct size, .record bytes => bytes.length = size
  | _, _ => False

def assignChar (len : Nat) (s : List UInt8) : List UInt8 :=
  s.take len ++ List.replicate (len - s.length) 32

def kStarRetMax : Nat := 32767

def deliver : RetTy → Val → Option Result
  | .fixed _, .word n | .bit _, .word n => some (.word n)
  | .bit _, .packed bytes => some (.packed bytes)
  | .float, .real x => some (.real x)
  | .locator, .ptr p => some (.ptr p)
  | .complex, .cpx re im => some (.cpx re im)
  | .char len, .text s _ => some (.bytes (assignChar len s))
  | .varying len, .text s _ => some (.varying (s.take len))
  | .starVarying, .text s _ => some (.varying (s.take kStarRetMax))
  | .struct _, .record bytes => some (.bytes bytes)
  | _, _ => none

structure Escape where
  onEscapeCode : Nat := 0
  onEscapeRetKind : Nat := 0
  onEscapeRetI64 : Nat := 0
  onEscapeRetF64 : Nat := 0
  onEscapeRetBuf : List UInt8 := List.replicate 4096 0
  onEscapeRetSize : Nat := 0
  onEscapeLabelIdx : Nat := 0

/-- Copy `size` bytes into the buffer: a read or a write outside the memory known to be
    there has no result. -/
def fillBuf (g : Escape) (kind size : Nat) (source : List UInt8) : Option Escape :=
  if size ≤ source.length ∧ size ≤ 4096 then
    some { g with
      onEscapeRetKind := kind
      onEscapeRetSize := size
      onEscapeRetBuf := source.take size ++ g.onEscapeRetBuf.drop size
      onEscapeCode := 1 }
  else none

/-- `getTypeStoreSize` of a length word and so many characters, with the padding behind them. -/
def varyingStoreSize (len : Nat) : Nat := 4 + (len + 3) / 4 * 4

/-- A CHARACTER(*) VARYING result has the storage type of VARYING(1) here. -/
def emitEscapeReturn (g : Escape) : RetTy → Val → Option Escape
  | .struct size, .record bytes => fillBuf g 2 size bytes
  | .char len, .text s next => fillBuf g 3 len (s ++ next)
  | .varying len, .text s next => fillBuf g 3 (varyingStoreSize len) (s ++ next)
  | .starVarying, .text s next => fillBuf g 3 (varyingStoreSize 1) (s ++ next)
  | .float, .real x => some { g with onEscapeRetKind := 1, onEscapeRetF64 := x, onEscapeCode := 1 }
  | .fixed _, .word n | .bit _, .word n =>
    some { g with onEscapeRetKind := 0, onEscapeRetI64 := n % 2 ^ 64, onEscapeCode := 1 }
  | _, _ => none

/-- A procedure's code: its labels are those of `labelBlocks_`, in the map's order. -/
structure ProcCode where
  retTy : RetTy
  isFunction : Bool
  hasHandlerGoto : Bool := false
  multiEntry : Bool := false
  labels : List String := []

/-- The value the return block reads back. With several entries there is no result
    pointer and the function itself returns nothing. -/
def emitEscapeReturnBlock (code : ProcCode) (g : Escape) : Option Result :=
  if code.multiEntry then none
  else match g.onEscapeRetKind, code.retTy with
  | 0, .fixed bits =>
    some (.word (if bits < 64 then g.onEscapeRetI64 % 2 ^ bits else g.onEscapeRetI64))
  | 0, .bit len => if len = 1 then some (.word (g.onEscapeRetI64 % 2 ^ 8)) else none
  | 0, .locator => some (.ptr g.onEscapeRetI64)
  | 1, .float => some (.real g.onEscapeRetF64)
  | 2, .struct _ => some (.bytes (g.onEscapeRetBuf.take g.onEscapeRetSize))
  | 3, .char len => some (.bytes (assignChar len (g.onEscapeRetBuf.take g.onEscapeRetSize)))
  | 3, .varying len => some (.varying ((g.onEscapeRetBuf.take g.onEscapeRetSize).take len))
  | 3, .starVarying => some (.varying ((g.onEscapeRetBuf.take g.onEscapeRetSize).take 1))
  | _, _ => none

inductive Frame where
  | proc (act : Nat)
  /-- `polls`: the site that raised the condition tests the escape code. -/
  | unit (owner : Nat) (polls : Bool)
  deriving DecidableEq

inductive Place where
  | resumed
  | label (name : String)
  | returned (r : Result)

structure Machine where
  frames : List Frame
  esc : Escape
  place : Place

inductive Event where
  | call (act : Nat)
  | ret
  | raise (owner : Nat) (polls : Bool)
  /-- A unit's end: by its last statement or a bare RETURN, by RETURN of a value, by GO TO. -/
  | unitEnd
  | escapeReturn (v : Val)
  | escapeGoto (name : String)

section Steps
variable (codeOf : Nat → ProcCode)

/-- The raising site, when the unit has returned to it. A site in another unit has no
    place to go to. -/
def emitEscapeCheck (esc : Escape) (polls : Bool) : List Frame → Option Machine
  | [] => none
  | raiser :: rest =>
    if polls = true ∧ esc.onEscapeCode ≠ 0 then
      match raiser with
      | .unit _ _ => none
      | .proc act =>
        if esc.onEscapeCode = 1 then
          (emitEscapeReturnBlock (codeOf act) esc).map fun r => ⟨rest, esc, .returned r⟩
        else if esc.onEscapeCode = 2 ∧ (codeOf act).hasHandlerGoto then
          ((codeOf act).labels[esc.onEscapeLabelIdx]?).map fun l =>
            ⟨raiser :: rest, esc, .label l⟩
        else none
    else some ⟨raiser :: rest, esc, .resumed⟩

def emitEscapeGoto (code : ProcCode) (g : Escape) (name : String) : Option Escape :=
  (code.labels.findIdx? (· == name)).map fun idx =>
    { g with onEscapeLabelIdx := idx, onEscapeCode := 2 }

def step (m : Machine) : Event → Option Machine
  | .call act => some { m with frames := .proc act :: m.frames }
  | .raise owner polls => some { m with frames := .unit owner polls :: m.frames }
  | .ret =>
    match m.frames with
    | .proc _ :: rest => some { m with frames := rest }
    | _ => none
  | .unitEnd =>
    match m.frames with
    | .unit _ polls :: rest => emitEscapeCheck codeOf m.esc polls rest
    | _ => none
  | .escapeReturn v =>
    match m.frames with
    | .unit owner polls :: rest =>
      (emitEscapeReturn m.esc (codeOf owner).retTy v).bind fun esc =>
        emitEscapeCheck codeOf esc polls rest
    | _ => none
  | .escapeGoto name =>
    match m.frames with
    | .unit owner polls :: rest =>
      (emitEscapeGoto (codeOf owner) m.esc name).bind fun esc =>
        emitEscapeCheck codeOf esc polls rest
    | _ => none

def framesFrom (act : Nat) : List Frame → Option (List Frame)
  | [] => none
  | f :: rest => if f = .proc act then some (f :: rest) else framesFrom act rest

def required (m : Machine) : Event → Option (List Frame × Place)
  | .unitEnd =>
    match m.frames with
    | .unit _ _ :: rest => some (rest, .resumed)
    | _ => none
  | .escapeReturn v =>
    match m.frames with
    | .unit owner _ :: rest =>
      (framesFrom owner rest).bind fun frames =>
        (deliver (codeOf owner).retTy v).map fun r => (frames.tail, .returned r)
    | _ => none
  | .escapeGoto name =>
    match m.frames with
    | .unit owner _ :: rest => (framesFrom owner rest).map fun frames => (frames, .label name)
    | _ => none
  | _ => none

def Event.endsUnit : Event → Bool
  | .unitEnd | .escapeReturn _ | .escapeGoto _ => true
  | _ => false

def Right (m : Machine) (e : Event) : Prop :=
  e.endsUnit = true → ∃ o, required codeOf m e = some o ∧
    (step codeOf m e).map (fun m' => (m'.frames, m'.place)) = some o

/-- A raising site tests the code in functions and in procedures with a GO TO in a unit.
    A unit's RETURN and GO TO are checked against the procedure it stands in. -/
def Possible (m : Machine) (e : Event) : Prop :=
  match e, m.frames with
  | .raise _ polls, .proc act :: _ =>
    polls = true → (codeOf act).isFunction = true ∨ (codeOf act).hasHandlerGoto = true
  | .unitEnd, frames => ∃ owner polls raiser rest, frames = .unit owner polls :: raiser :: rest
  | .escapeReturn v, frames => ∃ owner polls raiser rest,
    frames = .unit owner polls :: raiser :: rest ∧ HasType (codeOf owner).retTy v
  | .escapeGoto name, frames => ∃ owner polls raiser rest,
    frames = .unit owner polls :: raiser :: rest ∧ name ∈ (codeOf owner).labels ∧
      (codeOf owner).hasHandlerGoto = true
  | _, _ => True

/-- The values the escape variables carry: of at most 64 bits, or text and structures of
    at most 4096 bytes, text of at least the declared length (or followed by blanks). -/
def Carried : RetTy → Val → Prop
  | .fixed _, .word n => n < 2 ^ 64
  | .bit _, .word _ | .float, .real _ => True
  | .char len, .text s next => len ≤ 4096 ∧ len ≤ (s ++ next).length ∧
    next.take (len - s.length) = List.replicate (len - s.length) 32
  | .varying len, .text s next => varyingStoreSize len ≤ 4096 ∧
    varyingStoreSize len ≤ (s ++ next).length ∧ len ≤ s.length
  | .starVarying, .text s next => varyingStoreSize 1 ≤ 4096 ∧
    varyingStoreSize 1 ≤ (s ++ next).length ∧ s.length = 1
  | .struct size, .record _ => size ≤ 4096
  | _, _ => False

def Meets (m : Machine) : Event → Prop
  | .unitEnd =>
    match m.frames with
    | .unit _ polls :: _ => polls = true → m.esc.onEscapeCode = 0
    | _ => True
  | .escapeReturn v =>
    match m.frames with
    | .unit owner polls :: raiser :: _ => polls = true ∧ raiser = .proc owner ∧
      (codeOf owner).multiEntry = false ∧ Carried (codeOf owner).retTy v
    | _ => True
  | .escapeGoto _ =>
    match m.frames with
    | .unit owner polls :: raiser :: _ => polls = true ∧ raiser = .proc owner
    | _ => True
  | _ => True

end Steps

section Channel

variable {v : Val}

theorem typed_delivered {ty : RetTy} (typed : HasType ty v) : ∃ r, deliver ty v = some r := by
  unfold HasType at typed
  split at typed <;> first | exact ⟨_, rfl⟩ | exact typed.elim

theorem fillBuf_some {g g' : Escape} {kind size : Nat} {source : List UInt8}
    (filled : fillBuf g kind size source = some g') :
    size ≤ source.length ∧ size ≤ 4096 ∧ g'.onEscapeCode = 1 ∧ g'.onEscapeRetKind = kind ∧
      g'.onEscapeRetBuf.take g'.onEscapeRetSize = source.take size := by
  unfold fillBuf at filled
  obtain ⟨fits, ⟨⟩⟩ := Option.ite_none_right_eq_some.mp filled
  refine ⟨fits.1, fits.2, rfl, rfl, ?_⟩
  have size' : (source.take size).length = size := by simp [fits.1]
  dsimp only
  rw [List.take_append_of_le_length (by omega), List.take_take, Nat.min_self]

theorem fillBuf_fits (g : Escape) (kind : Nat) {size : Nat} {source : List UInt8}
    (readable : size ≤ source.length) (fits : size ≤ 4096) :
    ∃ g', fillBuf g kind size source = some g' := by
  unfold fillBuf
  rw [if_pos ⟨readable, fits⟩]
  exact ⟨_, rfl⟩

theorem store_sets_code {g g' : Escape} {ty : RetTy}
    (stored : emitEscapeReturn g ty v = some g') : g'.onEscapeCode = 1 := by
  unfold emitEscapeReturn at stored
  split at stored <;>
    first
    | exact (fillBuf_some stored).2.2.1
    | (cases stored; rfl)
    | cases stored

theorem assignChar_read (len : Nat) (s next : List UInt8) (readable : len ≤ (s ++ next).length) :
    assignChar len ((s ++ next).take len) = assignChar len s ↔
      next.take (len - s.length) = List.replicate (len - s.length) 32 := by
  have whole : assignChar len ((s ++ next).take len) = (s ++ next).take len := by
    unfold assignChar
    have size : ((s ++ next).take len).length = len := by
      rw [List.length_take]
      omega
    rw [size, Nat.sub_self, List.replicate_zero, List.append_nil, List.take_take, Nat.min_self]
  rw [whole, List.take_append]
  unfold assignChar
  exact List.append_right_inj _

theorem varyingStoreSize_len (len : Nat) : len ≤ varyingStoreSize len := by
  unfold varyingStoreSize
  omega

theorem varying_read (len : Nat) (s next : List UInt8)
    (readable : varyingStoreSize len ≤ (s ++ next).length) :
    ((s ++ next).take (varyingStoreSize len)).take len = s.take len ↔ len ≤ s.length := by
  have room := varyingStoreSize_len len
  rw [List.take_take, Nat.min_eq_left room]
  constructor
  · intro same
    have size := congrArg List.length same
    rw [List.length_take, List.length_take] at size
    omega
  · intro long
    rw [List.take_append_of_le_length long]

theorem starVarying_read (s next : List UInt8)
    (readable : varyingStoreSize 1 ≤ (s ++ next).length) :
    ((s ++ next).take (varyingStoreSize 1)).take 1 = s.take kStarRetMax ↔ s.length = 1 := by
  have room := varyingStoreSize_len 1
  rw [List.take_take, Nat.min_eq_left room]
  constructor
  · intro same
    have size := congrArg List.length same
    rw [List.length_take, List.length_take, kStarRetMax] at size
    omega
  · intro one
    have long : s.length ≤ kStarRetMax := by
      rw [one, kStarRetMax]
      omega
    rw [List.take_append_of_le_length one.ge, List.take_of_length_le one.le,
      List.take_of_length_le long]

theorem buf_channel {size : Nat} {source : List UInt8} {g : Escape} (got : List UInt8 → Result)
    {due : Result} {kept : Prop} (reads : size ≤ source.length →
    (got (source.take size) = due ↔ kept)) :
    (∃ esc, fillBuf g 3 size source = some esc ∧
        some (got (esc.onEscapeRetBuf.take esc.onEscapeRetSize)) = some due) ↔
      size ≤ 4096 ∧ size ≤ source.length ∧ kept := by
  constructor
  · rintro ⟨esc, stored, same⟩
    obtain ⟨readable, fits, -, -, bytes⟩ := fillBuf_some stored
    rw [bytes] at same
    exact ⟨fits, readable, (reads readable).1 (Option.some.inj same)⟩
  · rintro ⟨fits, readable, holds⟩
    obtain ⟨esc, stored⟩ := fillBuf_fits g 3 readable fits
    refine ⟨esc, stored, ?_⟩
    rw [(fillBuf_some stored).2.2.2.2, (reads readable).2 holds]

theorem char_channel (len : Nat) (s next : List UInt8) (g : Escape) :
    (∃ esc, fillBuf g 3 len (s ++ next) = some esc ∧
        some (Result.bytes (assignChar len (esc.onEscapeRetBuf.take esc.onEscapeRetSize))) =
          some (Result.bytes (assignChar len s))) ↔ Carried (.char len) (.text s next) :=
  buf_channel (fun bytes => .bytes (assignChar len bytes)) fun readable => by
    rw [Result.bytes.injEq, assignChar_read len s next readable]

theorem varying_channel (len : Nat) (s next : List UInt8) (g : Escape) :
    (∃ esc, fillBuf g 3 (varyingStoreSize len) (s ++ next) = some esc ∧
        some (Result.varying ((esc.onEscapeRetBuf.take esc.onEscapeRetSize).take len)) =
          some (Result.varying (s.take len))) ↔ Carried (.varying len) (.text s next) :=
  buf_channel (fun bytes => .varying (bytes.take len)) fun readable => by
    rw [Result.varying.injEq, varying_read len s next readable]

theorem starVarying_channel (s next : List UInt8) (g : Escape) :
    (∃ esc, fillBuf g 3 (varyingStoreSize 1) (s ++ next) = some esc ∧
        some (Result.varying ((esc.onEscapeRetBuf.take esc.onEscapeRetSize).take 1)) =
          some (Result.varying (s.take kStarRetMax))) ↔ Carried .starVarying (.text s next) :=
  buf_channel (fun bytes => .varying (bytes.take 1)) fun readable => by
    rw [Result.varying.injEq, starVarying_read s next readable]

theorem word_channel (n bits : Nat) (typed : n < 2 ^ bits) :
    (if bits < 64 then n % 2 ^ 64 % 2 ^ bits else n % 2 ^ 64) = n ↔ n < 2 ^ 64 := by
  split
  · rename_i narrow
    have bound : 2 ^ bits ≤ 2 ^ 64 := Nat.pow_le_pow_right (by decide) (by omega)
    have fits : n < 2 ^ 64 := Nat.lt_of_lt_of_le typed bound
    rw [Nat.mod_eq_of_lt fits, Nat.mod_eq_of_lt typed]
    exact ⟨fun _ => fits, fun _ => rfl⟩
  · constructor
    · intro same
      rw [← same]
      exact Nat.mod_lt _ (by decide)
    · intro fits
      exact Nat.mod_eq_of_lt fits

theorem struct_channel (size : Nat) (record : List UInt8) (typed : record.length = size)
    (g : Escape) :
    (∃ esc, fillBuf g 2 size record = some esc ∧
        some (Result.bytes (esc.onEscapeRetBuf.take esc.onEscapeRetSize)) =
          some (Result.bytes record)) ↔ Carried (.struct size) (.record record) := by
  constructor
  · rintro ⟨esc, stored, -⟩
    exact (fillBuf_some stored).2.1
  · intro fits
    obtain ⟨esc, stored⟩ := fillBuf_fits g 2 (Nat.le_of_eq typed.symm) fits
    refine ⟨esc, stored, ?_⟩
    rw [(fillBuf_some stored).2.2.2.2, ← typed, List.take_length]

theorem channel_iff {code : ProcCode} (typed : HasType code.retTy v)
    (single : code.multiEntry = false) (g : Escape) :
    (∃ esc, emitEscapeReturn g code.retTy v = some esc ∧
        emitEscapeReturnBlock code esc = deliver code.retTy v) ↔ Carried code.retTy v := by
  obtain ⟨retTy, isFunction, hasHandlerGoto, multiEntry, labels⟩ := code
  dsimp only at typed single ⊢
  subst single
  unfold HasType at typed
  split at typed
  case h_1 bits n =>
    simp only [emitEscapeReturn, emitEscapeReturnBlock, deliver, Option.some.injEq, exists_eq_left',
      Bool.false_eq_true, if_false, Result.word.injEq]
    exact word_channel n bits typed
  case h_2 len n =>
    have small : n % 2 ^ 64 % 2 ^ 8 = n := by omega
    simp only [emitEscapeReturn, emitEscapeReturnBlock, deliver, Option.some.injEq, exists_eq_left',
      Bool.false_eq_true, if_false, typed.1, if_true, small, Carried]
  case h_3 => simp [emitEscapeReturn, Carried]
  case h_4 => simp [emitEscapeReturn, emitEscapeReturnBlock, deliver, Carried]
  case h_5 => simp [emitEscapeReturn, Carried]
  case h_6 => simp [emitEscapeReturn, Carried]
  case h_7 len s next =>
    have read : ∀ esc, emitEscapeReturn g (.char len) (.text s next) = some esc →
        emitEscapeReturnBlock ⟨.char len, isFunction, hasHandlerGoto, false, labels⟩ esc =
          some (.bytes (assignChar len (esc.onEscapeRetBuf.take esc.onEscapeRetSize))) := by
      intro esc stored
      simp only [emitEscapeReturnBlock, (fillBuf_some stored).2.2.2.1, Bool.false_eq_true, if_false]
    rw [← char_channel len s next g]
    exact exists_congr fun esc => and_congr_right fun stored => by rw [read esc stored]; rfl
  case h_8 len s next =>
    have read : ∀ esc, emitEscapeReturn g (.varying len) (.text s next) = some esc →
        emitEscapeReturnBlock ⟨.varying len, isFunction, hasHandlerGoto, false, labels⟩ esc =
          some (.varying ((esc.onEscapeRetBuf.take esc.onEscapeRetSize).take len)) := by
      intro esc stored
      simp only [emitEscapeReturnBlock, (fillBuf_some stored).2.2.2.1, Bool.false_eq_true, if_false]
    rw [← varying_channel len s next g]
    exact exists_congr fun esc => and_congr_right fun stored => by rw [read esc stored]; rfl
  case h_9 s next =>
    have read : ∀ esc, emitEscapeReturn g .starVarying (.text s next) = some esc →
        emitEscapeReturnBlock ⟨.starVarying, isFunction, hasHandlerGoto, false, labels⟩ esc =
          some (.varying ((esc.onEscapeRetBuf.take esc.onEscapeRetSize).take 1)) := by
      intro esc stored
      simp only [emitEscapeReturnBlock, (fillBuf_some stored).2.2.2.1, Bool.false_eq_true, if_false]
    rw [← starVarying_channel s next g]
    exact exists_congr fun esc => and_congr_right fun stored => by rw [read esc stored]; rfl
  case h_10 size record =>
    have read : ∀ esc, emitEscapeReturn g (.struct size) (.record record) = some esc →
        emitEscapeReturnBlock ⟨.struct size, isFunction, hasHandlerGoto, false, labels⟩ esc =
          some (.bytes (esc.onEscapeRetBuf.take esc.onEscapeRetSize)) := by
      intro esc stored
      simp only [emitEscapeReturnBlock, (fillBuf_some stored).2.2.2.1, Bool.false_eq_true, if_false]
    rw [← struct_channel size record typed g]
    exact exists_congr fun esc => and_congr_right fun stored => by rw [read esc stored]; rfl
  case h_11 => exact typed.elim

end Channel

section Delivery
variable {codeOf : Nat → ProcCode}

theorem check_unpolled (esc : Escape) (raiser : Frame) (rest : List Frame) :
    emitEscapeCheck codeOf esc false (raiser :: rest) = some ⟨raiser :: rest, esc, .resumed⟩ := by
  simp [emitEscapeCheck]

variable {esc : Escape}

theorem check_clear (polls : Bool) (raiser : Frame) (rest : List Frame)
    (clear : esc.onEscapeCode = 0) :
    emitEscapeCheck codeOf esc polls (raiser :: rest) = some ⟨raiser :: rest, esc, .resumed⟩ := by
  simp [emitEscapeCheck, clear]

theorem check_return (act : Nat) (rest : List Frame) (set : esc.onEscapeCode = 1) :
    emitEscapeCheck codeOf esc true (.proc act :: rest) =
      (emitEscapeReturnBlock (codeOf act) esc).map fun r => ⟨rest, esc, .returned r⟩ := by
  simp [emitEscapeCheck, set]

theorem check_goto (act : Nat) (rest : List Frame) (set : esc.onEscapeCode = 2)
    (handler : (codeOf act).hasHandlerGoto = true) :
    emitEscapeCheck codeOf esc true (.proc act :: rest) =
      ((codeOf act).labels[esc.onEscapeLabelIdx]?).map fun l =>
        ⟨.proc act :: rest, esc, .label l⟩ := by
  simp [emitEscapeCheck, set, handler]

variable {raiser : Frame} {rest : List Frame}

theorem check_escapes {m' : Machine} (set : esc.onEscapeCode ≠ 0)
    (checked : emitEscapeCheck codeOf esc true (raiser :: rest) = some m') :
    ∃ act, raiser = .proc act ∧
      (esc.onEscapeCode = 1 ∧ m'.frames = rest ∧
          (∃ r, emitEscapeReturnBlock (codeOf act) esc = some r ∧ m'.place = .returned r) ∨
        esc.onEscapeCode = 2 ∧ m'.frames = raiser :: rest ∧ ∃ l, m'.place = .label l) := by
  simp only [emitEscapeCheck, ne_eq, set, not_false_eq_true, and_self, if_true] at checked
  cases raiser with
  | unit owner polls => cases checked
  | proc act =>
    refine ⟨act, rfl, ?_⟩
    dsimp only at checked
    split at checked
    · rename_i returns
      obtain ⟨r, block, rfl⟩ := Option.map_eq_some_iff.mp checked
      exact Or.inl ⟨returns, rfl, r, block, rfl⟩
    · split at checked
      · rename_i jumps
        obtain ⟨l, -, rfl⟩ := Option.map_eq_some_iff.mp checked
        exact Or.inr ⟨jumps.1, rfl, l, rfl⟩
      · cases checked

variable {act : Nat} {found : List Frame}

theorem framesFrom_length {frames : List Frame} (h : framesFrom act frames = some found) :
    found.length ≤ frames.length ∧ found ≠ [] := by
  induction frames with
  | nil => cases h
  | cons f rest ih =>
    unfold framesFrom at h
    split at h
    · cases h
      exact ⟨Nat.le_refl _, List.cons_ne_nil _ _⟩
    · exact ⟨Nat.le_succ_of_le (ih h).1, (ih h).2⟩

theorem framesFrom_here (act : Nat) (rest : List Frame) :
    framesFrom act (.proc act :: rest) = some (.proc act :: rest) := by
  unfold framesFrom
  rw [if_pos rfl]

theorem framesFrom_below {top : Frame}
    (other : top ≠ .proc act) (h : framesFrom act (top :: rest) = some found) :
    found.length ≤ rest.length := by
  unfold framesFrom at h
  rw [if_neg other] at h
  exact (framesFrom_length h).1

variable {m : Machine} {owner : Nat} {polls : Bool}

theorem unitEnd_right_iff (here : m.frames = .unit owner polls :: raiser :: rest) :
    Right codeOf m .unitEnd ↔ (polls = true → m.esc.onEscapeCode = 0) := by
  have wanted : required codeOf m .unitEnd = some (raiser :: rest, .resumed) := by
    simp only [required, here]
  have taken : step codeOf m .unitEnd = emitEscapeCheck codeOf m.esc polls (raiser :: rest) := by
    simp only [step, here]
  unfold Right
  rw [wanted, taken]
  constructor
  · intro right polled
    subst polled
    by_contra set
    obtain ⟨o, wanted', stepped⟩ := right rfl
    cases wanted'
    obtain ⟨m', checked, place⟩ := Option.map_eq_some_iff.mp stepped
    injection place with _ place
    obtain ⟨act, -, ⟨-, -, r, -, returned⟩ | ⟨-, -, l, labelled⟩⟩ := check_escapes set checked
    · rw [place] at returned
      cases returned
    · rw [place] at labelled
      cases labelled
  · intro clear _
    refine ⟨_, rfl, ?_⟩
    cases polls with
    | false => rw [check_unpolled]; rfl
    | true => rw [check_clear true raiser rest (clear rfl)]; rfl

theorem escapeReturn_right_iff {v : Val} (here : m.frames = .unit owner polls :: raiser :: rest)
    (typed : HasType (codeOf owner).retTy v) :
    Right codeOf m (.escapeReturn v) ↔ polls = true ∧ raiser = .proc owner ∧
      (codeOf owner).multiEntry = false ∧ Carried (codeOf owner).retTy v := by
  have wanted : required codeOf m (.escapeReturn v) =
      (framesFrom owner (raiser :: rest)).bind fun frames =>
        (deliver (codeOf owner).retTy v).map fun r => (frames.tail, .returned r) := by
    simp only [required, here]
  have taken : step codeOf m (.escapeReturn v) =
      (emitEscapeReturn m.esc (codeOf owner).retTy v).bind fun esc =>
        emitEscapeCheck codeOf esc polls (raiser :: rest) := by
    simp only [step, here]
  unfold Right
  rw [wanted, taken]
  constructor
  · intro right
    obtain ⟨o, requires, stepped⟩ := right rfl
    obtain ⟨frames, found, delivered⟩ := Option.bind_eq_some_iff.mp requires
    obtain ⟨r, delivers, rfl⟩ := Option.map_eq_some_iff.mp delivered
    obtain ⟨m', bound, same⟩ := Option.map_eq_some_iff.mp stepped
    obtain ⟨esc, stored, checked⟩ := Option.bind_eq_some_iff.mp bound
    injection same with sameFrames samePlace
    cases polls with
    | false =>
      rw [check_unpolled] at checked
      cases checked
      cases samePlace
    | true =>
      have set : esc.onEscapeCode ≠ 0 := by
        rw [store_sets_code stored]
        decide
      obtain ⟨act, raised, ⟨-, left, r', block, place⟩ | ⟨-, -, l, place⟩⟩ :=
        check_escapes set checked
      · have owned : raiser = .proc owner := by
          by_contra other
          have below := framesFrom_below other found
          have size := congrArg List.length (left.symm.trans sameFrames)
          have some_frame := List.length_pos_of_ne_nil (framesFrom_length found).2
          rw [List.length_tail] at size
          omega
        have sameAct : act = owner := by
          rw [raised] at owned
          injection owned
        subst sameAct
        have single : (codeOf act).multiEntry = false := by
          by_contra several
          rw [Bool.not_eq_false] at several
          unfold emitEscapeReturnBlock at block
          rw [if_pos several] at block
          cases block
        rw [samePlace] at place
        injection place with sameResult
        refine ⟨rfl, owned, single, (channel_iff typed single m.esc).1 ⟨esc, stored, ?_⟩⟩
        rw [block, delivers, sameResult]
      · rw [samePlace] at place
        cases place
  · rintro ⟨rfl, rfl, single, carried⟩ _
    obtain ⟨r, delivers⟩ := typed_delivered typed
    obtain ⟨esc, stored, block⟩ := (channel_iff typed single m.esc).2 carried
    refine ⟨(rest, .returned r), ?_, ?_⟩
    · rw [framesFrom_here, delivers]
      rfl
    · rw [stored, Option.bind_some, check_return owner rest (store_sets_code stored), block,
        delivers]
      rfl

theorem goto_sets {code : ProcCode} {g : Escape} {name : String} (declared : name ∈ code.labels) :
    ∃ esc, emitEscapeGoto code g name = some esc ∧ esc.onEscapeCode = 2 ∧
      code.labels[esc.onEscapeLabelIdx]? = some name := by
  cases at' : code.labels.findIdx? (· == name) with
  | none =>
    have absent := List.findIdx?_eq_none_iff.mp at' name declared
    simp at absent
  | some idx =>
    obtain ⟨inside, same, -⟩ := List.findIdx?_eq_some_iff_getElem.mp at'
    refine ⟨_, by unfold emitEscapeGoto; rw [at']; rfl, rfl, ?_⟩
    rw [List.getElem?_eq_getElem inside]
    exact congrArg some (beq_iff_eq.mp same)

theorem escapeGoto_right_iff {name : String} (here : m.frames = .unit owner polls :: raiser :: rest)
    (declared : name ∈ (codeOf owner).labels) (handler : (codeOf owner).hasHandlerGoto = true) :
    Right codeOf m (.escapeGoto name) ↔ polls = true ∧ raiser = .proc owner := by
  have wanted : required codeOf m (.escapeGoto name) =
      (framesFrom owner (raiser :: rest)).map fun frames => (frames, .label name) := by
    simp only [required, here]
  have taken : step codeOf m (.escapeGoto name) =
      (emitEscapeGoto (codeOf owner) m.esc name).bind fun esc =>
        emitEscapeCheck codeOf esc polls (raiser :: rest) := by
    simp only [step, here]
  obtain ⟨esc, recorded, code, label⟩ := @goto_sets (codeOf owner) m.esc name declared
  unfold Right
  rw [wanted, taken, recorded, Option.bind_some]
  constructor
  · intro right
    obtain ⟨o, requires, stepped⟩ := right rfl
    obtain ⟨frames, found, rfl⟩ := Option.map_eq_some_iff.mp requires
    obtain ⟨m', checked, same⟩ := Option.map_eq_some_iff.mp stepped
    injection same with sameFrames samePlace
    cases polls with
    | false =>
      rw [check_unpolled] at checked
      cases checked
      cases samePlace
    | true =>
      obtain ⟨act, raised, ⟨returns, -⟩ | ⟨-, left, -⟩⟩ :=
        check_escapes (by rw [code]; decide) checked
      · rw [code] at returns
        cases returns
      · refine ⟨rfl, ?_⟩
        by_contra other
        have below := framesFrom_below other found
        have size := congrArg List.length (left.symm.trans sameFrames)
        rw [List.length_cons] at size
        omega
  · rintro ⟨rfl, rfl⟩ _
    refine ⟨(.proc owner :: rest, .label name), ?_, ?_⟩
    · rw [framesFrom_here]
      rfl
    · rw [check_goto owner rest code handler, label]
      rfl

theorem right_iff_meets {e : Event} (possible : Possible codeOf m e) :
    Right codeOf m e ↔ Meets codeOf m e := by
  cases e with
  | call act | ret | raise owner polls => exact ⟨fun _ => trivial, fun _ ends => by cases ends⟩
  | unitEnd =>
    obtain ⟨owner, polls, raiser, rest, here⟩ := possible
    rw [unitEnd_right_iff here]
    simp only [Meets, here]
  | escapeReturn v =>
    obtain ⟨owner, polls, raiser, rest, here, typed⟩ := possible
    rw [escapeReturn_right_iff here typed]
    simp only [Meets, here]
  | escapeGoto name =>
    obtain ⟨owner, polls, raiser, rest, here, declared, handler⟩ := possible
    rw [escapeGoto_right_iff here declared handler]
    simp only [Meets, here]

def shortFunctions : Nat → ProcCode := fun _ => { retTy := .fixed 16, isFunction := true }

end Delivery

end PliOnEscape
