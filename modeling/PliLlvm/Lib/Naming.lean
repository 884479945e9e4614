import Mathlib.Data.List.Nodup
import Mathlib.Data.List.Induction
import Mathlib.Data.List.Perm.Subperm
import Mathlib.Data.List.TakeWhile

/- Tables of named values. A value asks for a name; when the name is taken, it gets the one
   `rename` makes of it. -/
namespace Naming
variable {N A : Type} [DecidableEq N]

/-- The first name of a row that is not taken. -/
def firstFree (taken : List N) (row : Nat → N) : N :=
  (((List.range (taken.length + 1)).map row).find? (· ∉ taken)).getD (row 0)

theorem firstFree_cases (taken : List N) (row : Nat → N) : ∃ i, firstFree taken row = row i := by
  unfold firstFree
  cases found : ((List.range (taken.length + 1)).map row).find? (· ∉ taken) with
  | none => exact ⟨0, rfl⟩
  | some n =>
    obtain ⟨i, _, is⟩ := List.mem_map.mp (List.mem_of_find?_eq_some found)
    exact ⟨i, is.symm⟩

theorem firstFree_not_taken (taken : List N) {row : Nat → N} (apart : Function.Injective row) :
    firstFree taken row ∉ taken := by
  unfold firstFree
  cases found : ((List.range (taken.length + 1)).map row).find? (· ∉ taken) with
  | some n => simpa using List.find?_some found
  | none =>
    have all : (List.range (taken.length + 1)).map row ⊆ taken := by
      intro n member
      simpa using List.find?_eq_none.mp found n member
    have nodup : ((List.range (taken.length + 1)).map row).Nodup :=
      List.nodup_range.map apart
    have count := (List.subperm_of_subset nodup all).length_le
    simp only [List.length_map, List.length_range] at count
    omega

section Table
variable (rename : List N → N → N)

def names (table : List (N × A)) : List N := table.map Prod.fst

/-- What a name stands for. -/
def valueOf (table : List (N × A)) (n : N) : Option A := table.lookup n

def place (table : List (N × A)) (asked : N × A) : List (N × A) :=
  table ++ [(if asked.1 ∈ names table then rename (names table) asked.1 else asked.1, asked.2)]

def table (asked : List (N × A)) : List (N × A) := asked.foldl (place rename) []

/-- A name has been given to a value that did not ask for it, before any value asks for it. -/
def given (asked : List (N × A)) (n : N) : Bool :=
  n ∈ names (table rename (asked.takeWhile fun a => a.1 ≠ n))

omit [DecidableEq N] in
theorem names_append (first second : List (N × A)) :
    names (first ++ second) = names first ++ names second := List.map_append

variable {rename}

theorem table_snoc (asked : List (N × A)) (a : N × A) :
    table rename (asked ++ [a]) = place rename (table rename asked) a := by
  rw [table, List.foldl_append]
  rfl

variable (rename) in
theorem table_append (first second : List (N × A)) :
    ∃ more, table rename (first ++ second) = table rename first ++ more := by
  induction second using List.reverseRecOn with
  | nil => exact ⟨[], by simp⟩
  | append_singleton second a ih =>
    obtain ⟨more, same⟩ := ih
    rw [← List.append_assoc, table_snoc, same, place, List.append_assoc]
    exact ⟨_, rfl⟩

/-- No value is lost or made up. -/
theorem table_values (asked : List (N × A)) :
    (table rename asked).map Prod.snd = asked.map Prod.snd := by
  induction asked using List.reverseRecOn with
  | nil => rfl
  | append_singleton asked a ih =>
    rw [table_snoc, place, List.map_append, List.map_append, ih]
    rfl

variable {asked : List (N × A)} {n : N}

/-- A value has the name it asked for or one made of it. -/
theorem table_origin {a : A} (member : (n, a) ∈ table rename asked) :
    ∃ wanted, (wanted, a) ∈ asked ∧
      (n = wanted ∨ ∃ taken, wanted ∈ taken ∧ n = rename taken wanted) := by
  induction asked using List.reverseRecOn with
  | nil => cases member
  | append_singleton asked b ih =>
    rw [table_snoc, place, List.mem_append] at member
    rcases member with old | new
    · obtain ⟨wanted, inside, shape⟩ := ih old
      exact ⟨wanted, List.mem_append_left _ inside, shape⟩
    · obtain ⟨name, value⟩ := Prod.mk.inj (List.mem_singleton.mp new)
      refine ⟨b.1, by rw [value]; simp, ?_⟩
      split at name
      · rename_i taken
        exact Or.inr ⟨_, taken, name⟩
      · exact Or.inl name

theorem asked_named (member : n ∈ names asked) : n ∈ names (table rename asked) := by
  induction asked using List.reverseRecOn with
  | nil => cases member
  | append_singleton asked b ih =>
    rw [names_append, List.mem_append] at member
    rw [table_snoc, place, names_append, List.mem_append]
    rcases member with before | last
    · exact Or.inl (ih before)
    · have same : n = b.1 := by simpa [names] using last
      by_cases taken : b.1 ∈ names (table rename asked)
      · exact Or.inl (same ▸ taken)
      · rw [if_neg taken]
        exact Or.inr (by simp [names, same])

theorem valueOf_cons (b : N × A) (t : List (N × A)) (n : N) :
    valueOf (b :: t) n = if n = b.1 then some b.2 else valueOf t n := by
  obtain ⟨m, a⟩ := b
  rw [valueOf, List.lookup_cons]
  by_cases same : n = m
  · simp [same]
  · rw [beq_eq_false_iff_ne.mpr same, if_neg same, valueOf]

theorem valueOf_append (first second : List (N × A)) (n : N) :
    valueOf (first ++ second) n = (valueOf first n).or (valueOf second n) :=
  List.lookup_append

variable {t : List (N × A)}

theorem valueOf_member {a : A} (found : valueOf t n = some a) : (n, a) ∈ t := by
  induction t with
  | nil => cases found
  | cons b t ih =>
    rw [valueOf_cons] at found
    split at found
    · rename_i same
      obtain rfl := Option.some.inj found
      rw [same]
      exact List.mem_cons_self
    · exact List.mem_cons_of_mem _ (ih found)

theorem valueOf_named (member : n ∈ names t) : ∃ a, valueOf t n = some a := by
  induction t with
  | nil => cases member
  | cons b t ih =>
    rw [valueOf_cons]
    split
    · exact ⟨_, rfl⟩
    · rename_i other
      rcases List.mem_cons.mp member with here | later
      · exact absurd here other
      · exact ih later

theorem valueOf_unnamed (absent : n ∉ names t) : valueOf t n = none := by
  cases found : valueOf t n with
  | none => rfl
  | some a => exact absurd (List.mem_map_of_mem (valueOf_member found)) absent

variable {first : List (N × A)}

theorem valueOf_append_named {second : List (N × A)} (member : n ∈ names first) :
    valueOf (first ++ second) n = valueOf first n := by
  obtain ⟨a, found⟩ := valueOf_named member
  rw [valueOf_append, found]
  rfl

theorem valueOf_append_unnamed {second : List (N × A)} (absent : n ∉ names first) :
    valueOf (first ++ second) n = valueOf second n := by
  rw [valueOf_append, valueOf_unnamed absent]
  rfl

/-- Looking a name up in the table of what is asked first already finds what it finds at last. -/
theorem valueOf_early (second : List (N × A)) {n : N} (member : n ∈ names (table rename first)) :
    valueOf (table rename (first ++ second)) n = valueOf (table rename first) n := by
  obtain ⟨more, same⟩ := table_append rename first second
  rw [same, valueOf_append_named member]

/-- A name that no value was given belongs to the first that asked for it. -/
theorem valueOf_asked (member : n ∈ names asked) (none : given rename asked n = false) :
    valueOf (table rename asked) n = valueOf asked n := by
  have absent : n ∉ names (table rename (asked.takeWhile fun a => a.1 ≠ n)) := by
    simpa [given] using none
  have before : n ∉ names (asked.takeWhile fun a => a.1 ≠ n) := by
    intro inside
    obtain ⟨a, early, same⟩ := List.mem_map.mp inside
    simpa [same] using List.mem_takeWhile_imp early
  have parts : asked.takeWhile (fun a => a.1 ≠ n) ++ asked.dropWhile (fun a => a.1 ≠ n) = asked :=
    List.takeWhile_append_dropWhile
  cases rest : asked.dropWhile fun a => a.1 ≠ n with
  | nil =>
    rw [rest, List.append_nil] at parts
    rw [parts] at before
    exact absurd member before
  | cons a after =>
    have first : a.1 = n := by
      have stops := List.head?_dropWhile_not (fun a : N × A => decide (a.1 ≠ n)) asked
      rw [rest] at stops
      simpa using stops
    obtain ⟨m, value⟩ := a
    obtain rfl : m = n := first
    rw [rest, ← List.singleton_append, ← List.append_assoc] at parts
    rw [← parts, valueOf_early after (asked_named (by simp [names])), table_snoc, place,
      if_neg absent, valueOf_append_unnamed absent, List.append_assoc,
      valueOf_append_unnamed before, List.singleton_append, valueOf_cons, valueOf_cons]
    simp

/-- A name that a value was given belongs to that value. -/
theorem valueOf_given (was : given rename asked n = true) :
    ∃ a wanted taken, valueOf (table rename asked) n = some a ∧ (wanted, a) ∈ asked ∧
      wanted ≠ n ∧ wanted ∈ taken ∧ n = rename taken wanted := by
  have inside : n ∈ names (table rename (asked.takeWhile fun a => a.1 ≠ n)) := by
    simpa [given] using was
  obtain ⟨a, found⟩ := valueOf_named inside
  obtain ⟨wanted, early, shape⟩ := table_origin (valueOf_member found)
  have other : wanted ≠ n := by simpa using List.mem_takeWhile_imp early
  rcases shape with same | ⟨taken, member, renamed⟩
  · exact absurd same.symm other
  · refine ⟨a, wanted, taken, ?_, List.takeWhile_subset _ early, other, member, renamed⟩
    have parts : asked.takeWhile (fun a => a.1 ≠ n) ++ asked.dropWhile (fun a => a.1 ≠ n) =
        asked := List.takeWhile_append_dropWhile
    rw [← found, ← valueOf_early _ inside, parts]

theorem given_false (never : ∀ taken wanted, wanted ∈ taken → n ≠ rename taken wanted) :
    given rename asked n = false := by
  cases was : given rename asked n with
  | false => rfl
  | true =>
    obtain ⟨_, wanted, taken, _, _, _, member, renamed⟩ := valueOf_given was
    exact absurd renamed (never taken wanted member)

end Table

end Naming
