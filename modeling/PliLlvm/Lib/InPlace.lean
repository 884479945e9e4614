import PliLlvm.Lib.CellWrites

/- A text put together in its target, piece by piece. A piece is read from the memory that the
   pieces before it have already changed; read from the memory of the start, the pieces make up
   the text that is meant. -/
namespace InPlace
open CellWrites
variable {β : Type}

/-- A piece, read when so many cells of the target are filled. -/
abbrev Piece (β : Type) := (Int → β) → Nat → Option (List β)

/-- The text as the target receives it. -/
def gather (mem : Int → β) (dst : Int) : List β → List (Piece β) → Option (List β)
  | done, [] => some done
  | done, p :: rest =>
    (p (write mem dst done) done.length).bind fun more => gather mem dst (done ++ more) rest

/-- The text that the memory of the start holds. -/
def snapshot (mem : Int → β) : List β → List (Piece β) → Option (List β)
  | done, [] => some done
  | done, p :: rest => (p mem done.length).bind fun more => snapshot mem (done ++ more) rest

/-- Every piece, at its turn, is what it was at the start. -/
def Steady (mem : Int → β) (dst : Int) : List β → List (Piece β) → Prop
  | _, [] => True
  | done, p :: rest => ∃ more, p (write mem dst done) done.length = some more ∧
      p mem done.length = some more ∧ Steady mem dst (done ++ more) rest

/-- Whether a piece can be read, and its size, do not depend on the memory. -/
def Sized (p : Piece β) : Prop :=
  ∀ mem mem' filled, (p mem filled).map List.length = (p mem' filled).map List.length

variable {mem : Int → β} {dst : Int} {done text : List β} {pieces : List (Piece β)}

theorem gather_steady (steady : Steady mem dst done pieces) :
    ∃ text, gather mem dst done pieces = some text ∧ snapshot mem done pieces = some text := by
  induction pieces generalizing done with
  | nil => exact ⟨done, rfl, rfl⟩
  | cons p rest ih =>
    obtain ⟨more, now, before, later⟩ := steady
    obtain ⟨text, gathered, meant⟩ := ih later
    refine ⟨text, ?_, ?_⟩
    · rw [gather, now, Option.bind_some, gathered]
    · rw [snapshot, before, Option.bind_some, meant]

theorem gather_front (gathered : gather mem dst done pieces = some text) : done <+: text := by
  induction pieces generalizing done with
  | nil =>
    cases gathered
    exact List.prefix_rfl
  | cons p rest ih =>
    obtain ⟨more, -, later⟩ := Option.bind_eq_some_iff.mp gathered
    exact (List.prefix_append done more).trans (ih later)

theorem snapshot_front (meant : snapshot mem done pieces = some text) : done <+: text := by
  induction pieces generalizing done with
  | nil =>
    cases meant
    exact List.prefix_rfl
  | cons p rest ih =>
    obtain ⟨more, -, later⟩ := Option.bind_eq_some_iff.mp meant
    exact (List.prefix_append done more).trans (ih later)

theorem sized_length (sized : ∀ p ∈ pieces, Sized p) {done' : List β}
    (same : done.length = done'.length) :
    (gather mem dst done pieces).map List.length = (snapshot mem done' pieces).map List.length := by
  induction pieces generalizing done done' with
  | nil => simp [gather, snapshot, same]
  | cons p rest ih =>
    obtain ⟨first, sizes⟩ := List.forall_mem_cons.mp sized
    have size := first (write mem dst done) mem done.length
    rw [gather, snapshot, ← same]
    cases now : p (write mem dst done) done.length with
    | none =>
      rw [now] at size
      rw [Option.map_eq_none_iff.mp size.symm]
      rfl
    | some more =>
      rw [now] at size
      obtain ⟨more', before, length⟩ := Option.map_eq_some_iff.mp size.symm
      rw [before, Option.bind_some, Option.bind_some]
      exact ih sizes (by simp [same, length])

/-- Pieces of fixed sizes that make up the right text were all steady: nothing behind a
    piece writes over it. -/
theorem steady_iff_gather (sized : ∀ p ∈ pieces, Sized p) :
    (∃ text, gather mem dst done pieces = some text ∧ snapshot mem done pieces = some text) ↔
      Steady mem dst done pieces := by
  refine ⟨?_, gather_steady⟩
  rintro ⟨text, gathered, meant⟩
  induction pieces generalizing done with
  | nil => trivial
  | cons p rest ih =>
    obtain ⟨first, sizes⟩ := List.forall_mem_cons.mp sized
    obtain ⟨more, now, later⟩ := Option.bind_eq_some_iff.mp gathered
    obtain ⟨more', before, later'⟩ := Option.bind_eq_some_iff.mp meant
    have size := first (write mem dst done) mem done.length
    rw [now, before, Option.map_some, Option.map_some, Option.some.injEq] at size
    have same : done ++ more = done ++ more' := by
      obtain ⟨behind, text_eq⟩ := gather_front later
      obtain ⟨behind', text_eq'⟩ := snapshot_front later'
      rw [← text_eq'] at text_eq
      exact List.append_inj_left text_eq (by simp [size])
    have equal := List.append_cancel_left same
    subst equal
    exact ⟨more, now, before, ih sizes later later'⟩

/-- The cells of a block that lie under the filled part of the target hold what is filled in
    there. -/
def Kept (mem : Int → β) (dst : Int) (done : List β) (a : Int) (n : Nat) : Prop :=
  ∀ k j : Nat, k < n → dst + j = a + k → ∀ inside : j < done.length, done[j] = mem (a + k)

theorem write_at (mem : Int → β) (dst : Int) (done : List β) (b : Int) :
    (∃ j : Nat, b = dst + j ∧ ∃ inside : j < done.length, write mem dst done b = done[j]) ∨
      ((∀ j : Nat, j < done.length → b ≠ dst + j) ∧ write mem dst done b = mem b) := by
  by_cases inside : dst ≤ b ∧ b < dst + done.length
  · obtain ⟨j, rfl⟩ : ∃ j : Nat, b = dst + j := ⟨(b - dst).toNat, by omega⟩
    have within : j < done.length := by omega
    exact Or.inl ⟨j, rfl, within, write_inside within⟩
  · exact Or.inr ⟨fun j within => by omega, write_outside inside⟩

theorem kept_iff_read {a : Int} {n : Nat} :
    Kept mem dst done a n ↔ read (write mem dst done) a n = read mem a n := by
  constructor
  · intro kept
    refine List.map_congr_left fun k member => ?_
    rcases write_at mem dst done (a + k) with ⟨j, place, inside, value⟩ | ⟨-, value⟩
    · rw [value]
      exact kept k j (List.mem_range.mp member) place.symm inside
    · exact value
  · intro same k j less place inside
    have cell := congrArg (·[k]?) same
    simp only [read_get less, Option.some.injEq] at cell
    rw [← cell, ← place, write_inside inside]

theorem kept_apart {a : Int} {n : Nat} (apart : a + n ≤ dst ∨ dst + done.length ≤ a) :
    Kept mem dst done a n := by
  intro k j less place inside
  omega

/-- What is written behind a written block continues it. -/
theorem write_append (mem : Int → β) (dst : Int) (done more : List β) :
    write (write mem dst done) (dst + done.length) more = write mem dst (done ++ more) := by
  funext b
  by_cases late : dst + done.length ≤ b ∧ b < dst + done.length + more.length
  · obtain ⟨j, rfl⟩ : ∃ j : Nat, b = dst + done.length + j :=
      ⟨(b - (dst + done.length)).toNat, by omega⟩
    have inside : j < more.length := by omega
    have whole : dst + (done.length : Int) + j = dst + ((done.length + j : Nat) : Int) := by
      push_cast
      omega
    rw [write_inside inside, whole, write_inside (by simp; omega)]
    simp
  · rw [write_outside late]
    by_cases early : dst ≤ b ∧ b < dst + done.length
    · obtain ⟨j, rfl⟩ : ∃ j : Nat, b = dst + j := ⟨(b - dst).toNat, by omega⟩
      have inside : j < done.length := by omega
      rw [write_inside inside, write_inside (by simp; omega), List.getElem_append_left inside]
    · rw [write_outside early, write_outside (by simp; omega)]

theorem write_own (mem : Int → β) (a : Int) (n : Nat) : write mem a (read mem a n) = mem := by
  funext b
  rcases write_at mem a (read mem a n) b with ⟨j, rfl, inside, value⟩ | ⟨-, value⟩
  · rw [value]
    have within : j < n := by
      rw [read_length] at inside
      exact inside
    have cell := @read_get _ mem a n j within
    rw [List.getElem?_eq_getElem inside] at cell
    exact Option.some.inj cell
  · exact value

theorem write_nothing (mem : Int → β) (a : Int) : write mem a [] = mem := by
  funext b
  exact write_outside (by simp)

theorem write_inj {cells cells' : List β} (size : cells.length = cells'.length)
    (same : write mem dst cells = write mem dst cells') : cells = cells' := by
  refine List.ext_getElem size fun j first second => ?_
  have cell := congrFun same (dst + j)
  rwa [write_inside first, write_inside second] at cell

end InPlace
