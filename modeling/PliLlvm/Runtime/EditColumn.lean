import PliLlvm.Runtime.StreamOutput
import Mathlib.Tactic.Linarith

/- COLUMN(n) of an edit list (runtime/rt_edit.c, pli_put_edit_column) at every destination of
   the byte writer. The loop that pads has fuel; rt_col wraps, as it does in the writer. -/
namespace PliEditColumn
open Runs PliStreamOutput

/-- What a destination is given by rt_put_raw: a line that wraps adds a new line. -/
def handed (s : Rt) (p : List UInt8) : List UInt8 :=
  (if newlineBefore s (.put p) then [10] else []) ++ p

/-- `while (rt_col + 1 < (int)n) rt_put_raw(" ", 1);`, and the bytes handed over so far. -/
def columnLoop (m : Int32) : Nat → Rt → List UInt8 → Option (Rt × List UInt8)
  | 0, _, _ => none
  | fuel + 1, s, sent =>
    if s.col + 1 < m then
      (rtPutRaw s [32]).bind fun s' => columnLoop m fuel s' (sent ++ handed s [32])
    else some (s, sent)

def freshLine (m : Int32) (s : Rt) : Option (Rt × List UInt8) :=
  if 0 < s.col ∧ m < s.col + 1 then
    (rtPutRaw s [10]).map fun s' => ({ s' with col := 0 }, handed s [10])
  else some (s, [])

def pliPutEditColumn (fuel : Nat) (s : Rt) (n : Int) : Option (Rt × List UInt8) :=
  let n := if n < 1 then 1 else n
  let m := Int32.ofInt n
  (freshLine m s).bind fun (s, sent) => columnLoop m fuel s sent

def Ends (s : Rt) (n : Int) : Prop :=
  ∃ fuel s' sent, pliPutEditColumn fuel s n = some (s', sent) ∧
    sent.count 10 ≤ 1 ∧ (sent.count 32 : Int) ≤ max n 0

def still (s : Rt) : Bool := s.outF.isNone && (s.outDiscard || s.outBuf.isSome)

def limit (s : Rt) : Int :=
  if s.outF.isSome ∧ 0 ≤ s.curSlot then (s.linesize s.curSlot).toInt else 0

/-- Where the column moves, no blank is to wrap: the line holds the columns before n, or what is
    on it already when it is ended for being past n. The last bound is one on the counter, which
    is 0 or more until it overflows. -/
def Holds (s : Rt) (n : Int) : Prop :=
  let m := (Int32.ofInt (max n 1)).toInt
  let next := (s.col + 1).toInt
  if 0 < s.col ∧ m < next then
    if still s then m ≤ 1 else limit s ≤ 0 ∨ next ≤ limit s
  else
    m ≤ next ∨ still s = false ∧ (limit s ≤ 0 ∨ m ≤ limit s + 1) ∧ m - next ≤ max n 0

instance (s : Rt) (n : Int) : Decidable (Holds s n) := by
  unfold Holds
  infer_instance

theorem next_toInt {x y : Int32} (below : x.toInt < y.toInt) : (x + 1).toInt = x.toInt + 1 := by
  have bound := y.toInt_lt
  have low := x.le_toInt
  rw [Int32.toInt_add, Int32.toInt_one, Int.bmod_eq_of_le (by omega) (by omega)]

theorem wraps_one (s : Rt) {p : List UInt8} (one : p.length = 1) :
    newlineBefore s (.put p) = true ↔
      0 < limit s ∧ 0 < s.col.toInt ∧ limit s < (s.col + 1).toInt := by
  have unit : Int32.ofInt 1 = 1 := rfl
  simp only [newlineBefore, wraps, limit, one, Bool.and_eq_true, decide_eq_true_eq,
    Int32.lt_iff_toInt_lt, Int32.toInt_zero]
  by_cases selected : s.outF.isSome ∧ 0 ≤ s.curSlot
  · rw [if_pos selected]
    simp [selected.1, selected.2, and_assoc]
  · rw [if_neg selected]
    constructor
    · rintro ⟨file, ⟨⟨slot, -⟩, -⟩, -⟩
      exact absurd ⟨file, slot⟩ selected
    · rintro ⟨positive, -⟩
      exact absurd positive (by omega)

def Usable (s : Rt) : Prop := (∃ t, Follows s t) ∧ putsToClosed s (.put []) = false

structure SameSink (s s' : Rt) : Prop where
  still : still s' = still s
  limit : limit s' = limit s

variable {s : Rt}

theorem put_file_one (usable : Usable s) {f : Nat} (selected : s.outF = some f)
    {p : List UInt8} (one : p.length = 1) :
    ∃ s', rtPutRaw s p = some s' ∧ Usable s' ∧ SameSink s s' ∧
      s'.col = if newlineBefore s (.put p) then 1 else s.col + 1 := by
  obtain ⟨⟨t, follows⟩, opened⟩ := usable
  have live : isOpenFile s.out f = true := by simpa [putsToClosed, selected] using opened
  obtain ⟨o, placed, -, same⟩ := putFile_carries follows.carries live (wraps s p.length) p
  have done : rtPutRaw s p = some { s with
      out := o
      col := (if wraps s p.length then 0 else s.col) + Int32.ofNat p.length } := by
    simp only [rtPutRaw, selected, live, placed, if_true, Option.map_some]
  refine ⟨_, done, ⟨⟨_, put_follows follows done⟩, ?_⟩, ⟨rfl, rfl⟩, ?_⟩
  · simp [putsToClosed, selected, (same f).1, live]
  · have unit : Int32.ofNat 1 = 1 := rfl
    simp only [newlineBefore, selected, Option.isSome_some, Bool.true_and, one, unit]
    split <;> rfl

theorem put_one (usable : Usable s) {p : List UInt8} (one : p.length = 1) :
    ∃ s', rtPutRaw s p = some s' ∧ Usable s' ∧ SameSink s s' ∧
      s'.col = if still s then s.col
        else if newlineBefore s (.put p) then 1 else s.col + 1 := by
  have unit : Int32.ofNat 1 = 1 := rfl
  cases selected : s.outF with
  | some f =>
    obtain ⟨s', done, usable', same, col⟩ := put_file_one usable selected one
    exact ⟨s', done, usable', same, by simpa [still, selected] using col⟩
  | none =>
    obtain ⟨⟨t, follows⟩, -⟩ := usable
    have after : ∀ s', rtPutRaw s p = some s' → s'.outF = none → Usable s' := by
      intro s' done unselected
      exact ⟨⟨_, put_follows follows done⟩, by simp [putsToClosed, unselected]⟩
    have unwrapped : newlineBefore s (.put p) = false := by simp [newlineBefore, selected]
    rw [unwrapped]
    by_cases discard : s.outDiscard = true
    · have done : rtPutRaw s p = some s := by simp [rtPutRaw, selected, discard]
      exact ⟨s, done, after s done selected, ⟨rfl, rfl⟩, by simp [still, selected, discard]⟩
    · cases text : s.outBuf with
      | some sink =>
        have done : rtPutRaw s p =
            some { s with outBuf := some (sink.1, sink.2 ++ p.take (sink.1 - sink.2.length)) } := by
          simp [rtPutRaw, selected, discard, text]
        refine ⟨_, done, after _ done selected, ⟨?_, rfl⟩, ?_⟩
        · simp [still, selected, text]
        · simp [still, selected, text]
      | none =>
        by_cases fits : s.stdoutBuf.length + p.length ≤ rtStdoutBuf
        · have done : rtPutRaw s p =
              some { s with
                stdoutBuf := s.stdoutBuf ++ p, col := s.col + Int32.ofNat p.length } := by
            simp [rtPutRaw, selected, discard, text, fits]
          refine ⟨_, done, after _ done selected, ⟨rfl, rfl⟩, ?_⟩
          simp [still, selected, discard, text, one, unit]
        · have done : rtPutRaw s p = some { s with
              stdout := s.stdout ++ s.stdoutBuf ++ p
              stdoutBuf := []
              col := s.col + Int32.ofNat p.length } := by
            simp [rtPutRaw, selected, discard, text, fits, flushStdout_eq]
          refine ⟨_, done, after _ done selected, ⟨rfl, rfl⟩, ?_⟩
          simp [still, selected, discard, text, one, unit]

variable {m : Int32}

theorem columnLoop_pads (k : Nat) {s : Rt} (usable : Usable s) (moving : still s = false)
    (room : limit s ≤ 0 ∨ m.toInt ≤ limit s + 1) (sent : List UInt8)
    (left : (m.toInt - (s.col + 1).toInt).toNat = k) :
    ∃ s', columnLoop m (k + 1) s sent = some (s', sent ++ List.replicate k 32) := by
  induction k generalizing s sent with
  | zero =>
    have done : ¬ s.col + 1 < m := by
      rw [Int32.lt_iff_toInt_lt]
      omega
    exact ⟨s, by simp [columnLoop, done]⟩
  | succ k ih =>
    have short : (s.col + 1).toInt < m.toInt := by omega
    have first : s.col + 1 < m := Int32.lt_iff_toInt_lt.mpr short
    obtain ⟨s', done, usable', same, col⟩ := put_one usable (p := [32]) rfl
    have unwrapped : ¬ newlineBefore s (.put [32]) = true := by
      rw [wraps_one s rfl]
      rintro ⟨positive, -, past⟩
      omega
    rw [moving, if_neg Bool.false_ne_true, if_neg unwrapped] at col
    have next := next_toInt short
    obtain ⟨after, rest⟩ := ih usable' (same.still.trans moving) (same.limit ▸ room)
      (sent ++ [32]) (by rw [col, next]; omega)
    refine ⟨after, ?_⟩
    rw [columnLoop, if_pos first, done, Option.bind_some, handed, if_neg unwrapped, List.nil_append,
      rest, List.append_assoc, List.replicate_succ]
    rfl

theorem columnLoop_stuck (fuel : Nat) {s : Rt} (usable : Usable s)
    (short : (s.col + 1).toInt < m.toInt)
    (stuck : still s = true ∨ 0 < limit s ∧ limit s + 1 < m.toInt) (sent : List UInt8) :
    columnLoop m fuel s sent = none := by
  induction fuel generalizing s sent with
  | zero => rfl
  | succ fuel ih =>
    have first : s.col + 1 < m := Int32.lt_iff_toInt_lt.mpr short
    obtain ⟨s', done, usable', same, col⟩ := put_one usable (p := [32]) rfl
    rw [columnLoop, if_pos first, done, Option.bind_some]
    refine ih usable' ?_ ?_ _
    · rcases stuck with here | ⟨positive, narrow⟩
      · rw [col, if_pos here]
        exact short
      · by_cases moving : still s = true
        · rw [col, if_pos moving]
          exact short
        · rw [col, if_neg moving]
          split
          · have two : ((1 : Int32) + 1).toInt = 2 := rfl
            omega
          · rename_i unwrapped
            rw [wraps_one s rfl] at unwrapped
            rw [next_toInt short]
            by_cases started : 0 < s.col.toInt
            · omega
            · have bound := s.col.le_toInt
              have plain : (s.col + 1).toInt = s.col.toInt + 1 :=
                next_toInt (y := 1) (by rw [Int32.toInt_one]; omega)
              omega
    · rw [same.still, same.limit]
      exact stuck

def Reaches (s : Rt) (m : Int) : Prop :=
  m ≤ (s.col + 1).toInt ∨ still s = false ∧ (limit s ≤ 0 ∨ m ≤ limit s + 1)

theorem columnLoop_ends (usable : Usable s) (reaches : Reaches s m.toInt) (sent : List UInt8) :
    ∃ fuel s', columnLoop m fuel s sent =
      some (s', sent ++ List.replicate (m.toInt - (s.col + 1).toInt).toNat 32) := by
  by_cases there : m.toInt ≤ (s.col + 1).toInt
  · have done : ¬ s.col + 1 < m := by
      rw [Int32.lt_iff_toInt_lt]
      omega
    have none : (m.toInt - (s.col + 1).toInt).toNat = 0 := by omega
    exact ⟨1, s, by rw [none, columnLoop, if_neg done, List.replicate_zero, List.append_nil]⟩
  · obtain ⟨moving, room⟩ := reaches.resolve_left there
    obtain ⟨s', padded⟩ := columnLoop_pads _ usable moving room sent rfl
    exact ⟨_, s', padded⟩

theorem columnLoop_endless (usable : Usable s) (never : ¬ Reaches s m.toInt)
    (fuel : Nat) (sent : List UInt8) : columnLoop m fuel s sent = none := by
  simp only [Reaches, not_or, not_and, Int.not_le] at never
  obtain ⟨short, blocked⟩ := never
  refine columnLoop_stuck fuel usable short ?_ sent
  by_cases moving : still s = true
  · exact Or.inl moving
  · have blocked := blocked (by simpa using moving)
    exact Or.inr ⟨by omega, by omega⟩

variable {sent : List UInt8}

theorem columnLoop_unique {f g : Nat} {r r' : Rt × List UInt8}
    (one : columnLoop m f s sent = some r)
    (other : columnLoop m g s sent = some r') : r = r' := by
  induction f generalizing g s sent with
  | zero => cases one
  | succ f ih =>
    cases g with
    | zero => cases other
    | succ g =>
      rw [columnLoop] at one other
      split at one
      · rename_i short
        rw [if_pos short] at other
        obtain ⟨mid, put, one⟩ := Option.bind_eq_some_iff.mp one
        rw [put, Option.bind_some] at other
        exact ih one other
      · rename_i there
        rw [if_neg there] at other
        exact Option.some.inj (one.symm.trans other)

theorem ends_continued (usable : Usable s) {n : Int}
    (continued : ¬ (0 < s.col ∧ Int32.ofInt (max n 1) < s.col + 1)) :
    Ends s n ↔ Reaches s (Int32.ofInt (max n 1)).toInt ∧
      (Int32.ofInt (max n 1)).toInt - (s.col + 1).toInt ≤ max n 0 := by
  have start : ∀ fuel, pliPutEditColumn fuel s n =
      columnLoop (Int32.ofInt (max n 1)) fuel s [] := by
    intro fuel
    have clamped : (if n < 1 then 1 else n) = max n 1 := by omega
    rw [pliPutEditColumn, clamped, freshLine, if_neg continued, Option.bind_some]
  constructor
  · rintro ⟨fuel, s', sent, ended, -, blanks⟩
    rw [start] at ended
    by_cases reaches : Reaches s (Int32.ofInt (max n 1)).toInt
    · refine ⟨reaches, ?_⟩
      obtain ⟨other, after, padded⟩ := columnLoop_ends usable reaches []
      obtain ⟨-, rfl⟩ := Prod.mk.inj (columnLoop_unique ended padded)
      rw [List.nil_append, List.count_replicate_self] at blanks
      omega
    · rw [columnLoop_endless usable reaches] at ended
      cases ended
  · rintro ⟨reaches, blanks⟩
    obtain ⟨fuel, s', padded⟩ := columnLoop_ends usable reaches []
    refine ⟨fuel, s', _, (start fuel).trans padded, ?_, ?_⟩
    · simp [List.count_replicate]
    · rw [List.nil_append, List.count_replicate_self]
      omega

theorem target_le (n : Int) : (Int32.ofInt (max n 1)).toInt ≤ max n 1 := by
  have positive : 0 < max n 1 := by omega
  have size : Int32.size = 4294967296 := rfl
  rw [Int32.toInt_ofInt, size, Int.bmod_def]
  split <;> omega

theorem still_unwrapped (quiet : still s = true) (p : List UInt8) :
    newlineBefore s (.put p) = false := by
  simp only [still, Bool.and_eq_true, Option.isNone_iff_eq_none] at quiet
  simp [newlineBefore, quiet.1]

theorem ends_fresh (usable : Usable s) {n : Int}
    (fresh : 0 < s.col ∧ Int32.ofInt (max n 1) < s.col + 1) :
    Ends s n ↔ if still s then (Int32.ofInt (max n 1)).toInt ≤ 1
      else limit s ≤ 0 ∨ (s.col + 1).toInt ≤ limit s := by
  obtain ⟨s1, put, usable1, same, -⟩ := put_one usable (p := [10]) rfl
  obtain ⟨⟨t, follows⟩, opened⟩ := usable1
  have usable2 : Usable { s1 with col := 0 } :=
    ⟨⟨_, step_follows follows (show step s1 (.setCol 0) = some _ from rfl)⟩, opened⟩
  have still2 : still { s1 with col := 0 } = still s := same.still
  have limit2 : limit { s1 with col := 0 } = limit s := same.limit
  have one : (({ s1 with col := 0 } : Rt).col + 1).toInt = 1 := rfl
  have start : ∀ fuel, pliPutEditColumn fuel s n =
      columnLoop (Int32.ofInt (max n 1)) fuel { s1 with col := 0 } (handed s [10]) := by
    intro fuel
    have clamped : (if n < 1 then 1 else n) = max n 1 := by omega
    rw [pliPutEditColumn, clamped, freshLine, if_pos fresh, put, Option.map_some, Option.bind_some]
  have blank : (handed s [10]).count 32 = 0 := by
    unfold handed
    split <;> rfl
  have bound := target_le n
  obtain ⟨started, past⟩ := fresh
  rw [Int32.lt_iff_toInt_lt, Int32.toInt_zero] at started
  rw [Int32.lt_iff_toInt_lt] at past
  have wrapped : newlineBefore s (.put [10]) = true ↔
    0 < limit s ∧ limit s < (s.col + 1).toInt := by
    rw [wraps_one s rfl]
    simp [started]
  constructor
  · rintro ⟨fuel, s', sent, ended, lines, -⟩
    rw [start] at ended
    by_cases reaches : Reaches { s1 with col := 0 } (Int32.ofInt (max n 1)).toInt
    · obtain ⟨other, after, padded⟩ := columnLoop_ends usable2 reaches (handed s [10])
      obtain ⟨-, rfl⟩ := Prod.mk.inj (columnLoop_unique ended padded)
      rw [Reaches, one, still2, limit2] at reaches
      split
      · rename_i quiet
        rcases reaches with there | ⟨moving, -⟩
        · exact there
        · rw [quiet] at moving
          cases moving
      · have single : ¬ newlineBefore s (.put [10]) = true := by
          intro twice
          rw [List.count_append, handed, if_pos twice, List.count_append] at lines
          have both : List.count (10 : UInt8) [10] = 1 := rfl
          omega
        rw [wrapped] at single
        omega
    · rw [columnLoop_endless usable2 reaches] at ended
      cases ended
  · intro holds
    have single : newlineBefore s (.put [10]) = false := by
      by_cases quiet : still s = true
      · exact still_unwrapped quiet _
      · rw [if_neg quiet] at holds
        rw [← Bool.not_eq_true, wrapped]
        omega
    have reaches : Reaches { s1 with col := 0 } (Int32.ofInt (max n 1)).toInt := by
      rw [Reaches, one, still2, limit2]
      by_cases quiet : still s = true
      · rw [if_pos quiet] at holds
        exact Or.inl holds
      · rw [if_neg quiet] at holds
        exact Or.inr ⟨by simpa using quiet, by omega⟩
    obtain ⟨fuel, s', padded⟩ := columnLoop_ends usable2 reaches (handed s [10])
    refine ⟨fuel, s', _, (start fuel).trans padded, ?_, ?_⟩
    · rw [List.count_append, handed, single]
      simp [List.count_replicate]
    · rw [List.count_append, blank, List.count_replicate_self, one]
      omega

theorem ends_iff (usable : Usable s) (n : Int) : Ends s n ↔ Holds s n := by
  have compared : (0 < s.col ∧ Int32.ofInt (max n 1) < s.col + 1) ↔
      0 < s.col ∧ (Int32.ofInt (max n 1)).toInt < (s.col + 1).toInt := by
    rw [Int32.lt_iff_toInt_lt (x := Int32.ofInt (max n 1))]
  unfold Holds
  by_cases fresh : 0 < s.col ∧ Int32.ofInt (max n 1) < s.col + 1
  · rw [ends_fresh usable fresh]
    dsimp only
    rw [if_pos (compared.mp fresh)]
  · rw [ends_continued usable fresh, Reaches]
    dsimp only
    rw [if_neg (mt compared.mpr fresh)]
    constructor
    · rintro ⟨there | ⟨moving, room⟩, blanks⟩
      · exact Or.inl there
      · exact Or.inr ⟨moving, room, blanks⟩
    · rintro (there | ⟨moving, room, blanks⟩)
      · exact ⟨Or.inl there, by omega⟩
      · exact ⟨Or.inr ⟨moving, room⟩, blanks⟩

theorem reached_usable {es : List Event} {s : Rt} (reached : run step Rt.start es = some s)
    (opened : putsToClosed s (.put []) = false) : Usable s :=
  ⟨@run_invariant _ _ step (fun s => ∃ t, Follows s t)
    (fun _ _ _ ⟨_, follows⟩ moved => ⟨_, step_follows follows moved⟩) _ _ _ ⟨_,
      start_follows⟩ reached,
    opened⟩

/-- In every state that a run of output reaches, with a destination that is not a closed file,
    COLUMN(n) ends with one new line and n blanks at most exactly where the condition holds. -/
theorem column_ends_iff {es : List Event} {s : Rt} (reached : run step Rt.start es = some s)
    (opened : putsToClosed s (.put []) = false) (n : Int) : Ends s n ↔ Holds s n :=
  ends_iff (reached_usable reached opened) n

/-- COLUMN(6) on a file of LINESIZE 5, after two characters. -/
theorem column_ends_in_line :
    ∃ s, run step Rt.start [.open 0 false true, .setLinesize 0 5, .select 0, .put [65, 66]] =
      some s ∧
      Ends s 6 :=
  ⟨_, rfl, (@column_ends_iff [.open 0 false true, .setLinesize 0 5, .select 0, .put [65, 66]]
    _ rfl (by decide) 6).mpr (by decide)⟩

/-- COLUMN(5) on a NONPRINT file and COLUMN(7) on a file of LINESIZE 5 pad for ever. -/
theorem column_pads_for_ever :
    (∃ s, run step Rt.start [.open 0 true false, .select 0] = some s ∧
        putsToClosed s (.put []) = false ∧ ¬ Ends s 5) ∧
      ∃ s, run step Rt.start [.open 0 false true, .setLinesize 0 5, .select 0] = some s ∧
        putsToClosed s (.put []) = false ∧ ¬ Ends s 7 := by
  refine ⟨⟨_, rfl, by decide, ?_⟩, _, rfl, by decide, ?_⟩
  · rw [ends_iff (@reached_usable [.open 0 true false, .select 0] _ rfl (by decide))]
    decide
  · rw [ends_iff
      (@reached_usable [.open 0 false true, .setLinesize 0 5, .select 0] _ rfl (by decide))]
    decide

end PliEditColumn
