import Mathlib.Data.List.Basic

/- Computations that end with a value or with an error, and what can be said of the
   one and of the other. -/
namespace Outcome

variable {ε α β : Type} {good good' : α → Prop} {bad bad' : ε → Prop}

/-- A value satisfies `good`, an error `bad`. -/
def Ends (x : Except ε α) (good : α → Prop) (bad : ε → Prop) : Prop :=
  match x with
  | .ok a => good a
  | .error e => bad e

variable {x : Except ε α}

theorem ends_mono (ends : Ends x good bad) (value : ∀ a, x = .ok a → good a → good' a)
    (error : ∀ e, bad e → bad' e) : Ends x good' bad' := by
  cases x with
  | ok a => exact value a rfl ends
  | error e => exact error e ends

theorem ends_value {a : α} (ends : Ends x good bad) (value : x = .ok a) : good a := by
  rw [value] at ends
  exact ends

theorem ends_bind {f : α → Except ε β} {after : β → Prop} (first : Ends x good bad)
    (rest : ∀ a, x = .ok a → good a → Ends (f a) after bad) : Ends (x.bind f) after bad := by
  cases x with
  | ok a => exact rest a rfl first
  | error e => exact first

theorem ends_map {f : α → β} {after : β → Prop} (first : Ends x good bad)
    (rest : ∀ a, x = .ok a → good a → after (f a)) : Ends (x.map f) after bad := by
  cases x with
  | ok a => exact rest a rfl first
  | error e => exact first

theorem ends_foldlM {f : α → β → Except ε α} (step : ∀ a b, good a → Ends (f a b) good bad) :
    ∀ {l : List β} {a : α}, good a → Ends (l.foldlM f a) good bad := by
  intro l
  induction l with
  | nil => exact fun start => start
  | cons b l ih =>
    intro a start
    rw [List.foldlM_cons]
    exact ends_bind (step a b start) fun a' _ next => ih next

theorem bind_ok {f : α → Except ε β} {b : β} : x.bind f = .ok b ↔ ∃ a, x = .ok a ∧ f a = .ok b := by
  cases x with
  | ok a | error e => simp [Except.bind]

theorem map_ok {f : α → β} {b : β} : x.map f = .ok b ↔ ∃ a, x = .ok a ∧ f a = b := by
  cases x with
  | ok a | error e => simp [Except.map]

end Outcome
