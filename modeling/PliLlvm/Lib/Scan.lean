import Mathlib.Data.List.Basic

/- Reading a list of bytes from the left with a line and a column. A cursor is
   what is left of the input and the position of its first byte; past the end the
   next byte reads as zero. -/
namespace Scan

abbrev Byte := UInt8

def newline : Byte := 10

/-- A property of all bytes is checked on the 256 of them. -/
theorem forall_byte {P : Byte → Prop} (all : ∀ n : Fin 256, P (UInt8.ofNat n.val)) (c : Byte) :
    P c := by
  have checked := all ⟨c.toNat, c.toNat_lt⟩
  rwa [UInt8.ofNat_toNat] at checked

structure Loc where
  line : Nat
  col : Nat
  deriving DecidableEq

def Loc.after (loc : Loc) (c : Byte) : Loc :=
  if c = newline then ⟨loc.line + 1, 1⟩ else ⟨loc.line, loc.col + 1⟩

def Loc.advance (loc : Loc) : List Byte → Loc
  | [] => loc
  | c :: cs => (loc.after c).advance cs

def Loc.Before (a b : Loc) : Prop := a.line < b.line ∨ (a.line = b.line ∧ a.col < b.col)

@[simp] theorem advance_nil (loc : Loc) : loc.advance [] = loc := rfl

@[simp] theorem advance_cons (loc : Loc) (c : Byte) (cs : List Byte) :
    loc.advance (c :: cs) = (loc.after c).advance cs := rfl

@[simp] theorem advance_append (loc : Loc) (bs cs : List Byte) :
    loc.advance (bs ++ cs) = (loc.advance bs).advance cs := by
  induction bs generalizing loc with
  | nil => rfl
  | cons b bs ih => simp [ih]

theorem before_trans {a b c : Loc} (first : a.Before b) (second : b.Before c) : a.Before c := by
  unfold Loc.Before at *
  omega

theorem before_irrefl (a : Loc) : ¬ a.Before a := by
  unfold Loc.Before
  omega

theorem before_after (loc : Loc) (c : Byte) : loc.Before (loc.after c) := by
  unfold Loc.after Loc.Before
  split <;> dsimp only <;> omega

theorem before_advance (loc : Loc) {bs : List Byte} (some_byte : bs ≠ []) :
    loc.Before (loc.advance bs) := by
  induction bs generalizing loc with
  | nil => exact absurd rfl some_byte
  | cons b bs ih =>
    cases bs with
    | nil => exact before_after loc b
    | cons c cs => exact before_trans (before_after loc b) (ih _ (by simp))

/-- Two prefixes of one input that end at one position are the same prefix. -/
theorem advance_stops {loc : Loc} {bs rest : List Byte}
    (same : loc.advance (bs ++ rest) = loc.advance bs) : rest = [] := by
  by_contra more
  rw [advance_append] at same
  have before := before_advance (loc.advance bs) more
  rw [same] at before
  exact before_irrefl _ before

structure Cursor where
  rest : List Byte
  loc : Loc

namespace Cursor

def cur (s : Cursor) : Byte := s.rest.headD 0

def peek (s : Cursor) (n : Nat) : Byte := (s.rest.drop n).headD 0

def bump (s : Cursor) : Cursor :=
  match s.rest with
  | [] => s
  | c :: cs => ⟨cs, s.loc.after c⟩

def eatWhile (p : Byte → Bool) (s : Cursor) : List Byte × Cursor :=
  go s.rest s.loc
where
  go : List Byte → Loc → List Byte × Cursor
    | [], loc => ([], ⟨[], loc⟩)
    | c :: cs, loc =>
      if p c then
        let r := go cs (loc.after c)
        (c :: r.1, r.2)
      else ([], ⟨c :: cs, loc⟩)

/-- The bytes between two cursors of one input. -/
def Reads (s : Cursor) (bs : List Byte) (s' : Cursor) : Prop :=
  s.rest = bs ++ s'.rest ∧ s'.loc = s.loc.advance bs

end Cursor

open Cursor

variable {s mid s' : Cursor} {bs cs : List Byte} {c : Byte} {p : Byte → Bool}

theorem reads_refl (s : Cursor) : s.Reads [] s := ⟨rfl, rfl⟩

theorem reads_trans (first : s.Reads bs mid) (second : mid.Reads cs s') :
    s.Reads (bs ++ cs) s' :=
  ⟨by rw [first.1, second.1, List.append_assoc], by rw [second.2, first.2, advance_append]⟩

theorem reads_cons {tail : List Byte} {loc : Loc} (after : Reads ⟨tail, loc.after c⟩ bs s') :
    Reads ⟨c :: tail, loc⟩ (c :: bs) s' :=
  ⟨by rw [List.cons_append, ← after.1], after.2⟩

theorem cur_cons (here : s.cur = c) (byte : c ≠ 0) : ∃ tail, s.rest = c :: tail := by
  cases rest : s.rest with
  | nil => exact absurd (by simp [← here, cur, rest]) byte
  | cons b tail => exact ⟨tail, by simp [← here, cur, rest]⟩

theorem reads_bump (here : s.cur = c) (byte : c ≠ 0) : s.Reads [c] s.bump := by
  obtain ⟨tail, rest⟩ := cur_cons here byte
  simp [Reads, bump, rest]

theorem peek_bump (s : Cursor) (n : Nat) : s.bump.peek n = s.peek (n + 1) := by
  unfold bump peek
  cases rest : s.rest <;> simp [rest]

theorem cur_bump (s : Cursor) : s.bump.cur = s.peek 1 := by
  unfold bump peek cur
  cases rest : s.rest <;> simp [rest]

theorem reads_two {d : Byte} (here : s.cur = c) (next : s.peek 1 = d) (byte : c ≠ 0)
    (another : d ≠ 0) : s.Reads [c, d] s.bump.bump :=
  reads_trans (reads_bump here byte) (reads_bump ((cur_bump s).trans next) another)

theorem reads_eatWhile (p : Byte → Bool) (s : Cursor) :
    s.Reads (s.eatWhile p).1 (s.eatWhile p).2 := by
  suffices all : ∀ rest loc, Reads ⟨rest, loc⟩ (eatWhile.go p rest loc).1 (eatWhile.go p rest loc).2
    from all s.rest s.loc
  intro rest
  induction rest with
  | nil => exact fun loc => reads_refl _
  | cons c cs ih =>
    intro loc
    unfold eatWhile.go
    split
    · have tail := ih (loc.after c)
      exact ⟨by rw [List.cons_append, ← tail.1], tail.2⟩
    · exact reads_refl _

theorem eatWhile_all (p : Byte → Bool) (s : Cursor) : ∀ c ∈ (s.eatWhile p).1, p c = true := by
  suffices all : ∀ rest loc, ∀ c ∈ (eatWhile.go p rest loc).1, p c = true from all s.rest s.loc
  intro rest
  induction rest with
  | nil => exact fun loc c member => by simp [eatWhile.go] at member
  | cons b bs ih =>
    intro loc c member
    unfold eatWhile.go at member
    split at member
    · rename_i holds
      simp only [List.mem_cons] at member
      rcases member with rfl | later
      · exact holds
      · exact ih _ c later
    · simp at member

theorem eatWhile_some (here : p s.cur = true) (zero : p 0 = false) : (s.eatWhile p).1 ≠ [] := by
  have byte : s.cur ≠ 0 := by
    intro same
    rw [same, zero] at here
    cases here
  obtain ⟨tail, rest⟩ := cur_cons rfl byte
  unfold eatWhile
  rw [rest]
  simp [eatWhile.go, here]

theorem eatWhile_stop (zero : p 0 = false) (s : Cursor) : p (s.eatWhile p).2.cur = false := by
  suffices all : ∀ rest loc, p (eatWhile.go p rest loc).2.cur = false from all s.rest s.loc
  intro rest
  induction rest with
  | nil => exact fun loc => zero
  | cons c cs ih =>
    intro loc
    unfold eatWhile.go
    split
    · exact ih _
    · rename_i no
      simpa [cur] using no

/-- The loop stops where the run of matching bytes ends. -/
theorem eatWhile_run {rest : List Byte} (all : ∀ c ∈ bs, p c = true)
    (stop : p (rest.headD 0) = false) (loc : Loc) :
    eatWhile p ⟨bs ++ rest, loc⟩ = (bs, ⟨rest, loc.advance bs⟩) := by
  suffices run : ∀ loc, eatWhile.go p (bs ++ rest) loc = (bs, ⟨rest, loc.advance bs⟩) from run loc
  induction bs with
  | nil =>
    intro loc
    cases rest with
    | nil => rfl
    | cons c cs =>
      have no : p c = false := stop
      simp [eatWhile.go, no]
  | cons b bs ih =>
    intro loc
    have yes := all b (by simp)
    have tail := ih (fun c member => all c (by simp [member])) (loc.after b)
    simp [eatWhile.go, yes, tail]

theorem reads_shorter (reads : s.Reads bs s') : s'.rest.length ≤ s.rest.length := by
  rw [reads.1, List.length_append]
  omega

theorem reads_strict (reads : s.Reads bs s') (some_byte : bs ≠ []) :
    s'.rest.length < s.rest.length := by
  rw [reads.1, List.length_append]
  have pos := List.length_pos_of_ne_nil some_byte
  omega

end Scan
