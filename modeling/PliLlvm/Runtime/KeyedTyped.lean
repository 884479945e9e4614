import PliLlvm.Runtime.KeyedFile

/- Keyed records of type FIXED, FLOAT and BIT (runtime/rt_file.c, pli_record_write_keyed_fixed
   and its siblings). A record is the value's bytes on a little-endian machine; a double is the
   word that it is stored as. fread returns how many complete items it has read. -/
namespace PliKeyedTyped
open ByteFiles PliKeyedFile
open Function (update update_of_ne update_self)

inductive RecType where
  | fixed
  | float
  | bit
  deriving DecidableEq

inductive Value where
  | fixed (v : Int64)
  | float (v : UInt64)
  | bit (v : UInt8)
  deriving DecidableEq

def RecType.size : RecType → Nat
  | .fixed | .float => 8
  | .bit => 1

def Value.type : Value → RecType
  | .fixed _ => .fixed
  | .float _ => .float
  | .bit _ => .bit

def Value.image : Value → List UInt8
  | .fixed v => leBytes 8 v.toUInt64.toNat
  | .float v => leBytes 8 v.toNat
  | .bit v => [v]

def RecType.decode (bytes : List UInt8) : RecType → Value
  | .fixed => .fixed (UInt64.ofNat (leValue bytes)).toInt64
  | .float => .float (UInt64.ofNat (leValue bytes))
  | .bit => .bit (bytes.headD 0)

def writeKeyed (s : Slot) (key : Key) (v : Value) : Slot × Outcome :=
  match recFile s with
  | .error msg => (s, .error msg)
  | .ok f =>
    if (kixFind s key).isSome then (s, .error "WRITE duplicates an existing key")
    else
      let f := f.seekEnd
      let off := f.tell
      let s := { s with file := some (f.write v.image) }
      (kixInsert s key off v.image.length, .done)

def pliRecordWriteKeyedFixed (s : Slot) (key : Key) (v : Int64) : Slot × Outcome :=
  writeKeyed s key (.fixed v)

def pliRecordWriteKeyedFloat (s : Slot) (key : Key) (v : UInt64) : Slot × Outcome :=
  writeKeyed s key (.float v)

def pliRecordWriteKeyedBit (s : Slot) (key : Key) (v : UInt8) : Slot × Outcome :=
  writeKeyed s key (.bit v)

/-- fread of `count` items of `size` bytes: what it got, and its result. -/
def fread (f : CFile) (size count : Nat) : List UInt8 × Nat × CFile :=
  let (got, f) := f.read (size * count)
  (got, got.length / size, f)

/-- `if (... || fread(&v, sizeof v, 1, f) != sizeof v)` -/
def readKeyed (type : RecType) (s : Slot) (key : Key) : Slot × Except String Value :=
  match recFile s with
  | .error msg => (s, .error msg)
  | .ok f =>
    match (kixFind s key).bind (s.ent[·]?) with
    | none => (s, .error "READ key not found")
    | some e =>
      let (got, items, f) := fread (f.seekSet e.off) type.size 1
      let s := { s with file := some f }
      if items ≠ type.size then (s, .error "READ from keyed file failed")
      else (s, .ok (type.decode got))

def pliRecordReadKeyedFixed (s : Slot) (key : Key) : Slot × Except String Value :=
  readKeyed .fixed s key

def pliRecordReadKeyedFloat (s : Slot) (key : Key) : Slot × Except String Value :=
  readKeyed .float s key

def pliRecordReadKeyedBit (s : Slot) (key : Key) : Slot × Except String Value :=
  readKeyed .bit s key

def rewriteKeyed (s : Slot) (key : Key) (v : Value) : Slot × Outcome :=
  match recFile s with
  | .error msg => (s, .error msg)
  | .ok f =>
    match (kixFind s key).bind (s.ent[·]?) with
    | none => (s, .error "REWRITE key not found")
    | some e =>
      if e.len ≠ v.image.length then (s, .error "REWRITE changes the record size")
      else ({ s with file := some ((f.seekSet e.off).write v.image) }, .done)

def pliRecordRewriteKeyedFixed (s : Slot) (key : Key) (v : Int64) : Slot × Outcome :=
  rewriteKeyed s key (.fixed v)

def pliRecordRewriteKeyedFloat (s : Slot) (key : Key) (v : UInt64) : Slot × Outcome :=
  rewriteKeyed s key (.float v)

def pliRecordRewriteKeyedBit (s : Slot) (key : Key) (v : UInt8) : Slot × Outcome :=
  rewriteKeyed s key (.bit v)

inductive TypedOp where
  | writeFixed (key : Key) (v : Int64)
  | writeFloat (key : Key) (v : UInt64)
  | writeBit (key : Key) (v : UInt8)
  | rewriteFixed (key : Key) (v : Int64)
  | rewriteFloat (key : Key) (v : UInt64)
  | rewriteBit (key : Key) (v : UInt8)
  | read (type : RecType) (key : Key)

def readAs (s : Slot) (key : Key) : RecType → Slot × Except String Value
  | .fixed => pliRecordReadKeyedFixed s key
  | .float => pliRecordReadKeyedFloat s key
  | .bit => pliRecordReadKeyedBit s key

def typedStep (s : Slot) : TypedOp → Slot
  | .writeFixed key v => (pliRecordWriteKeyedFixed s key v).1
  | .writeFloat key v => (pliRecordWriteKeyedFloat s key v).1
  | .writeBit key v => (pliRecordWriteKeyedBit s key v).1
  | .rewriteFixed key v => (pliRecordRewriteKeyedFixed s key v).1
  | .rewriteFloat key v => (pliRecordRewriteKeyedFloat s key v).1
  | .rewriteBit key v => (pliRecordRewriteKeyedBit s key v).1
  | .read type key => (readAs s key type).1

def typedRun (s : Slot) (ops : List TypedOp) : Slot := ops.foldl typedStep s

/- What was last written under each key: a value, or a record that was there before. -/
inductive Entry where
  | value (v : Value)
  | before (bytes : List UInt8)
  deriving DecidableEq

def Entry.image : Entry → List UInt8
  | .value v => v.image
  | .before bytes => bytes

abbrev Typed := Key → Option Entry

def noteWrite (m : Typed) (key : Key) (v : Value) : Typed :=
  if m key = none then update m key (some (.value v)) else m

def noteRewrite (m : Typed) (key : Key) (v : Value) : Typed :=
  if (m key).any (fun e => e.image.length == v.type.size) then
    update m key (some (.value v))
  else m

def noteStep (m : Typed) : TypedOp → Typed
  | .writeFixed key v => noteWrite m key (.fixed v)
  | .writeFloat key v => noteWrite m key (.float v)
  | .writeBit key v => noteWrite m key (.bit v)
  | .rewriteFixed key v => noteRewrite m key (.fixed v)
  | .rewriteFloat key v => noteRewrite m key (.float v)
  | .rewriteBit key v => noteRewrite m key (.bit v)
  | .read _ _ => m

def noteRun (m : Typed) (ops : List TypedOp) : Typed := ops.foldl noteStep m

/-- READ gives the value last written under the key where it has the type asked for, and
    signals ERROR where there is none. -/
def ReadsBack (s : Slot) (m : Typed) (key : Key) (type : RecType) : Prop :=
  match m key with
  | none => ∃ msg, (readAs s key type).2 = .error msg
  | some (.value v) => v.type = type → (readAs s key type).2 = .ok v
  | some (.before _) => True

def Stands (s : Slot) (m : Typed) : Prop :=
  ∃ recs, Holds s recs ∧ ∀ key, valueOf recs key = (m key).map Entry.image

@[simp] theorem image_length (v : Value) : v.image.length = v.type.size := by
  cases v <;> simp [Value.image, Value.type, RecType.size, leBytes_length]

theorem size_positive (v : Value) : 0 < v.image.length := by
  cases v <;> simp [Value.type, RecType.size]

theorem decode_image (v : Value) : v.type.decode v.image = v := by
  cases v with
  | fixed v =>
    have word := leValue_leBytes (k := 8) (n := v.toUInt64.toNat) (by
      have bound := v.toUInt64.toNat_lt
      omega)
    simp [Value.type, RecType.decode, Value.image, word]
  | float v =>
    have word := leValue_leBytes (k := 8) (n := v.toNat) (by
      have bound := v.toNat_lt
      omega)
    simp [Value.type, RecType.decode, Value.image, word]
  | bit v => rfl

theorem writeKeyed_char (s : Slot) (key : Key) (v : Value) :
    writeKeyed s key v = pliRecordWriteKeyedChar s key v.image := by
  have positive := size_positive v
  unfold writeKeyed pliRecordWriteKeyedChar
  cases recFile s with
  | error msg => rfl
  | ok f =>
    have guard : (v.image.length ≤ 0 ∨ (kixFind s key).isSome = true) ↔
        (kixFind s key).isSome = true := or_iff_right (by omega)
    simp only [guard]

theorem rewriteKeyed_char (s : Slot) (key : Key) (v : Value) :
    rewriteKeyed s key v = pliRecordRewriteKeyedChar s key v.image := by
  have positive := size_positive v
  unfold rewriteKeyed pliRecordRewriteKeyedChar
  cases recFile s with
  | error msg => rfl
  | ok f =>
    have guard : ¬ v.image.length ≤ 0 := by omega
    exact (if_neg guard).symm

variable {s : Slot} {m : Typed}

theorem writeKeyed_stands (stands : Stands s m) (key : Key) (v : Value) :
    Stands (writeKeyed s key v).1 (noteWrite m key v) := by
  obtain ⟨recs, holds, same⟩ := stands
  obtain ⟨recs', holds', value⟩ := @step_holds _ _ holds (.write key v.image) (size_positive v)
  rw [writeKeyed_char]
  refine ⟨recs', holds', ?_⟩
  intro other
  rw [value, mapStep, noteWrite, same]
  cases found : m key with
  | none =>
    rw [Option.map_none, if_pos rfl, if_pos rfl]
    by_cases here : other = key
    · subst here
      rw [update_self, update_self]
      rfl
    · rw [update_of_ne here, update_of_ne here, same]
  | some e =>
    rw [if_neg (by simp), if_neg (by simp), same]

theorem rewriteKeyed_stands (stands : Stands s m) (key : Key) (v : Value) :
    Stands (rewriteKeyed s key v).1 (noteRewrite m key v) := by
  obtain ⟨recs, holds, same⟩ := stands
  obtain ⟨recs', holds', value⟩ := @step_holds _ _ holds (.rewrite key v.image) (size_positive v)
  have guard : (valueOf recs key).any (fun r => r.length == v.image.length) =
      (m key).any fun e => e.image.length == v.type.size := by
    rw [same, image_length]
    cases m key <;> rfl
  rw [rewriteKeyed_char]
  refine ⟨recs', holds', ?_⟩
  intro other
  rw [value, mapStep, noteRewrite, guard]
  split
  · by_cases here : other = key
    · subst here
      rw [update_self, update_self]
      rfl
    · rw [update_of_ne here, update_of_ne here, same]
  · rw [same]

theorem readAs_eq (s : Slot) (key : Key) (type : RecType) :
    readAs s key type = readKeyed type s key := by
  cases type <;> rfl

theorem readKeyed_stands (stands : Stands s m) (key : Key) (type : RecType) :
    Stands (readKeyed type s key).1 m := by
  obtain ⟨recs, holds, same⟩ := stands
  obtain ⟨pos, opened⟩ := holds.opened
  refine ⟨recs, ?_, same⟩
  simp only [readKeyed, recFile, opened]
  split
  · exact holds
  · simp only [apply_ite Prod.fst, ite_self]
    exact ⟨⟨_, rfl⟩, holds.index, holds.distinct, holds.positive⟩

theorem typedStep_stands (stands : Stands s m) (op : TypedOp) :
    Stands (typedStep s op) (noteStep m op) := by
  cases op with
  | writeFixed key v => exact writeKeyed_stands stands key (.fixed v)
  | writeFloat key v => exact writeKeyed_stands stands key (.float v)
  | writeBit key v => exact writeKeyed_stands stands key (.bit v)
  | rewriteFixed key v => exact rewriteKeyed_stands stands key (.fixed v)
  | rewriteFloat key v => exact rewriteKeyed_stands stands key (.float v)
  | rewriteBit key v => exact rewriteKeyed_stands stands key (.bit v)
  | read type key =>
    rw [typedStep, readAs_eq]
    exact readKeyed_stands stands key type

theorem typedRun_stands (stands : Stands s m) (ops : List TypedOp) :
    Stands (typedRun s ops) (noteRun m ops) := by
  induction ops generalizing s m with
  | nil => exact stands
  | cons op ops ih => exact ih (typedStep_stands stands op)

theorem readKeyed_missing (stands : Stands s m) {key : Key}
    (missing : m key = none) (type : RecType) :
    (readKeyed type s key).2 = .error "READ key not found" := by
  obtain ⟨recs, holds, same⟩ := stands
  obtain ⟨pos, opened⟩ := holds.opened
  have absent := find_absent holds (by rw [same, missing]; rfl : valueOf recs key = none)
  simp [readKeyed, recFile, opened, absent]

theorem readKeyed_found (stands : Stands s m) {key : Key} {v : Value}
    (found : m key = some (.value v)) :
    (readKeyed v.type s key).2 =
      if v.type.size = 1 then .ok v else .error "READ from keyed file failed" := by
  obtain ⟨recs, holds, same⟩ := stands
  obtain ⟨pos, opened⟩ := holds.opened
  have present : valueOf recs key = some v.image := by rw [same, found]; rfl
  obtain ⟨pre, post, split, place, entry⟩ := find_present holds present
  have transfer : ((image recs).drop (image pre).length).take (v.type.size * 1) = v.image := by
    rw [split, image_cut, Nat.mul_one, ← image_length]
    exact read_middle _ _ _
  have positive := size_positive v
  have items : v.image.length / v.type.size = 1 := by
    rw [image_length] at positive ⊢
    exact Nat.div_self positive
  simp only [readKeyed, recFile, opened, place, Option.bind_some, entry, fread, CFile.read,
    CFile.seekSet, transfer, items, decode_image]
  by_cases one : v.type.size = 1
  · rw [if_neg (by omega), if_pos one]
  · rw [if_pos (Ne.symm one), if_neg one]

/-- After any run on a keyed file a READ of a value's own type gives the value back exactly
    where the value is a BIT; where there is none it signals ERROR. -/
theorem keyed_read_iff {s : Slot} {m : Typed} (stands : Stands s m) (ops : List TypedOp) (key : Key)
    (type : RecType) :
    ReadsBack (typedRun s ops) (noteRun m ops) key type ↔
      type = .bit ∨ ∀ v, noteRun m ops key = some (.value v) → v.type ≠ type := by
  have final := typedRun_stands stands ops
  unfold ReadsBack
  cases held : noteRun m ops key with
  | none =>
    have refused := readKeyed_missing final held type
    rw [← readAs_eq] at refused
    exact iff_of_true ⟨_, refused⟩ (Or.inr (by simp))
  | some e =>
    cases e with
    | before bytes => simp
    | value v =>
      dsimp only
      constructor
      · intro back
        by_cases own : v.type = type
        · left
          subst own
          have got := back rfl
          rw [readAs_eq, readKeyed_found final held] at got
          cases v with
          | bit v => rfl
          | fixed v | float v => cases got
        · right
          rintro other same
          cases same
          exact own
      · rintro bit own
        subst own
        have single := bit.resolve_right fun apart => apart v rfl rfl
        rw [readAs_eq, readKeyed_found final held, single]
        rfl

/-- A BIT record written, rewritten and read beside a FIXED one. -/
theorem bit_record_read_back :
    ReadsBack (typedRun ⟨some ⟨[], 0⟩, [], true⟩
        [.writeFixed [1] 7, .writeBit [2] 1, .rewriteBit [2] 0])
      (noteRun (fun _ => none) [.writeFixed [1] 7, .writeBit [2] 1, .rewriteBit [2] 0]) [2] .bit :=
  (keyed_read_iff ⟨[], opened_output_holds 0 true, fun _ => rfl⟩ _ [2] .bit).mpr (Or.inl rfl)

/-- A FIXED record under a key is there, and its READ signals ERROR. -/
theorem fixed_record_not_read :
    noteRun (fun _ => none) [.writeFixed [1] 7] [1] = some (.value (.fixed 7)) ∧
      (pliRecordReadKeyedFixed (typedRun ⟨some ⟨[], 0⟩, [], true⟩ [.writeFixed [1] 7]) [1]).2 =
        .error "READ from keyed file failed" := by
  decide +kernel

end PliKeyedTyped
