import Mathlib.Data.List.Basic

/- A loop that tests before each pass: the states its body is executed in, in order. A
   step without a result ends the process, and so does want of fuel. -/
namespace GuardedLoop
variable {σ : Type} (test : σ → Bool) (next : σ → Option σ)

def loop : Nat → σ → Option (List σ)
  | 0, _ => none
  | fuel + 1, s =>
    if test s then (next s).bind fun s' => (loop fuel s').map (s :: ·) else some []

variable {test next}

variable {s : σ}

theorem loop_stop (stop : test s = false) (fuel : Nat) : loop test next (fuel + 1) s = some [] := by
  unfold loop
  rw [if_neg (by simp [stop])]

theorem loop_pass {s' : σ} (pass : test s = true) (stepped : next s = some s') (fuel : Nat) :
    loop test next (fuel + 1) s = (loop test next fuel s').map (s :: ·) := by
  conv_lhs => unfold loop
  rw [if_pos pass, stepped, Option.bind_some]

theorem loop_nil_iff (s : σ) : (∃ fuel, loop test next fuel s = some []) ↔ test s = false := by
  constructor
  · rintro ⟨fuel, done⟩
    by_contra go
    rw [Bool.not_eq_false] at go
    cases fuel with
    | zero => cases done
    | succ fuel =>
      unfold loop at done
      rw [if_pos go] at done
      obtain ⟨s', -, rest⟩ := Option.bind_eq_some_iff.mp done
      obtain ⟨visited, -, none⟩ := Option.map_eq_some_iff.mp rest
      cases none
  · intro stop
    exact ⟨1, loop_stop stop 0⟩

theorem loop_cons_iff {visited : List σ} : (∃ fuel, loop test next fuel s = some (s :: visited)) ↔
      test s = true ∧ ∃ s', next s = some s' ∧ ∃ fuel, loop test next fuel s' = some visited := by
  constructor
  · rintro ⟨fuel, done⟩
    cases fuel with
    | zero => cases done
    | succ fuel =>
      unfold loop at done
      split at done
      · rename_i go
        obtain ⟨s', stepped, rest⟩ := Option.bind_eq_some_iff.mp done
        obtain ⟨visited', loops, same⟩ := Option.map_eq_some_iff.mp rest
        injection same with _ same
        subst same
        exact ⟨go, s', stepped, fuel, loops⟩
      · cases done
  · rintro ⟨go, s', stepped, fuel, loops⟩
    exact ⟨fuel + 1, by rw [loop_pass go stepped, loops]; rfl⟩

/-- A loop that passes through n + 1 known states stops after them just when its last
    step leads to a state that fails the test. -/
theorem loop_visits_iff {states : Nat → σ} {n : Nat} (entered : ∀ k ≤ n, test (states k) = true)
    (stepped : ∀ k < n, next (states k) = some (states (k + 1))) :
    (∃ fuel, loop test next fuel (states 0) = some ((List.range (n + 1)).map states)) ↔
      ∃ last, next (states n) = some last ∧ test last = false := by
  induction n generalizing states with
  | zero =>
    rw [List.range_one, List.map_singleton, loop_cons_iff]
    simp only [loop_nil_iff]
    exact ⟨fun done => done.2, fun done => ⟨entered 0 (Nat.le_refl 0), done⟩⟩
  | succ n ih =>
    have rest := @ih (fun k => states (k + 1)) (fun k le => entered (k + 1) (by omega))
      (fun k lt => stepped (k + 1) (by omega))
    rw [← rest, List.range_succ_eq_map, List.map_cons, List.map_map, loop_cons_iff]
    constructor
    · rintro ⟨-, s', first, done⟩
      rw [stepped 0 (by omega)] at first
      cases first
      exact done
    · intro done
      exact ⟨entered 0 (by omega), states 1, stepped 0 (by omega), done⟩

end GuardedLoop
