import Mathlib

/- The search of a graph for a way back to the node it starts from: a stack of nodes to visit and
   the nodes seen. The successors are lists; a node that is no key has none. -/
namespace Worklist
variable {V : Type} (adj : V → List V) (start : V)

/-- The stack has its top first; none when the fuel runs out. -/
def returns [DecidableEq V] : Nat → List V → List V → Option Bool
  | 0, _, _ => none
  | _ + 1, [], _ => some false
  | fuel + 1, q :: stack, seen =>
    if q = start then some true
    else if q ∈ seen then returns fuel stack seen
    else returns fuel ((adj q).reverse ++ stack) (q :: seen)

def Edge (a b : V) : Prop := b ∈ adj a

/-- What the seen and the stacked nodes still miss is nothing: the successors of every node that
    was left are seen or stacked. -/
structure Frontier (stack seen : List V) : Prop where
  unmet : start ∉ seen
  first : ∀ r ∈ adj start, r ∈ seen ∨ r ∈ stack
  next : ∀ q ∈ seen, ∀ r ∈ adj q, r ∈ seen ∨ r ∈ stack
  back : ∀ q ∈ stack, Relation.TransGen (Edge adj) start q

variable {adj start}

theorem frontier_start : Frontier adj start (adj start).reverse [] where
  unmet := by simp
  first := fun r edge => Or.inr (List.mem_reverse.mpr edge)
  next := by simp
  back := fun q there => Relation.TransGen.single (List.mem_reverse.mp there)

theorem Frontier.skip {q : V} {stack seen : List V}
    (frontier : Frontier adj start (q :: stack) seen)
    (known : q ∈ seen) : Frontier adj start stack seen where
  unmet := frontier.unmet
  first := fun r edge => by
    rcases frontier.first r edge with old | there
    · exact Or.inl old
    · rcases List.mem_cons.mp there with rfl | later
      · exact Or.inl known
      · exact Or.inr later
  next := fun p old r edge => by
    rcases frontier.next p old r edge with there | there
    · exact Or.inl there
    · rcases List.mem_cons.mp there with rfl | later
      · exact Or.inl known
      · exact Or.inr later
  back := fun p there => frontier.back p (List.mem_cons_of_mem _ there)

theorem Frontier.visit {q : V} {stack seen : List V}
    (frontier : Frontier adj start (q :: stack) seen) (other : q ≠ start) :
    Frontier adj start ((adj q).reverse ++ stack) (q :: seen) where
  unmet := by
    rw [List.mem_cons]
    rintro (same | old)
    · exact other same.symm
    · exact frontier.unmet old
  first := fun r edge => by
    rcases frontier.first r edge with old | there
    · exact Or.inl (List.mem_cons_of_mem _ old)
    · rcases List.mem_cons.mp there with rfl | later
      · exact Or.inl List.mem_cons_self
      · exact Or.inr (List.mem_append_right _ later)
  next := fun p old r edge => by
    rcases List.mem_cons.mp old with rfl | before
    · exact Or.inr (List.mem_append_left _ (List.mem_reverse.mpr edge))
    · rcases frontier.next p before r edge with there | there
      · exact Or.inl (List.mem_cons_of_mem _ there)
      · rcases List.mem_cons.mp there with rfl | later
        · exact Or.inl List.mem_cons_self
        · exact Or.inr (List.mem_append_right _ later)
  back := fun p there => by
    rcases List.mem_append.mp there with pushed | later
    · exact (frontier.back q List.mem_cons_self).tail (List.mem_reverse.mp pushed)
    · exact frontier.back p (List.mem_cons_of_mem _ later)

/-- With nothing stacked the seen nodes are closed, so no way leads back. -/
theorem Frontier.closed {seen : List V} (frontier : Frontier adj start [] seen) :
    ¬Relation.TransGen (Edge adj) start start := by
  intro cycle
  have seen_all {q : V} (way : Relation.TransGen (Edge adj) start q) : q ∈ seen := by
    induction way with
    | single edge => simpa using frontier.first _ edge
    | tail _ edge ih => simpa using frontier.next _ ih _ edge
  exact frontier.unmet (seen_all cycle)

theorem returns_iff [DecidableEq V] {fuel : Nat} {stack seen : List V} {b : Bool}
    (frontier : Frontier adj start stack seen) (done : returns adj start fuel stack seen = some b) :
    b = true ↔ Relation.TransGen (Edge adj) start start := by
  induction fuel generalizing stack seen with
  | zero => cases done
  | succ fuel ih =>
    cases stack with
    | nil =>
      cases done
      simp [frontier.closed]
    | cons q stack =>
      rw [returns] at done
      split at done
      · rename_i same
        cases done
        simpa [same] using frontier.back q List.mem_cons_self
      · rename_i other
        split at done
        · rename_i known
          exact ih (frontier.skip known) done
        · exact ih (frontier.visit other) done

/-- The successors not yet pushed. -/
def pending [DecidableEq V] (adj : V → List V) (keys seen : List V) : Nat :=
  (keys.map fun q => if q ∈ seen then 0 else (adj q).length).sum

theorem pending_cons [DecidableEq V] (k : V) (keys seen : List V) :
    pending adj (k :: keys) seen =
      (if k ∈ seen then 0 else (adj k).length) + pending adj keys seen := rfl

theorem pending_grows [DecidableEq V] (keys seen : List V) (q : V) :
    pending adj keys (q :: seen) ≤ pending adj keys seen := by
  induction keys with
  | nil => exact Nat.le_refl _
  | cons k keys ih =>
    rw [pending_cons, pending_cons]
    by_cases old : k ∈ seen
    · simpa [old] using ih
    · rw [if_neg old]
      split <;> omega

theorem pending_visit [DecidableEq V] {keys seen : List V} {q : V} (fresh : q ∉ seen)
    (leaf : q ∉ keys → adj q = []) :
    (adj q).length + pending adj keys (q :: seen) ≤ pending adj keys seen := by
  induction keys with
  | nil => simp [leaf, pending]
  | cons k keys ih =>
    rw [pending_cons, pending_cons]
    by_cases same : k = q
    · subst same
      have rest := @pending_grows _ adj _ keys seen k
      rw [if_pos List.mem_cons_self, if_neg fresh]
      omega
    · have rest := ih fun absent => leaf (by simp [Ne.symm same, absent])
      have seen_iff : k ∈ q :: seen ↔ k ∈ seen := by simp [same]
      simp only [seen_iff]
      omega

/-- The search ends once the fuel exceeds what is stacked and what is pending. -/
theorem returns_ends [DecidableEq V] {keys : List V}
    (leaf : ∀ q, q ∉ keys → adj q = []) {fuel : Nat}
    {stack seen : List V} (enough : stack.length + pending adj keys seen < fuel) :
    ∃ b, returns adj start fuel stack seen = some b := by
  induction fuel generalizing stack seen with
  | zero => omega
  | succ fuel ih =>
    cases stack with
    | nil => exact ⟨false, rfl⟩
    | cons q stack =>
      rw [returns]
      split
      · exact ⟨true, rfl⟩
      · split
        · refine ih ?_
          rw [List.length_cons] at enough
          omega
        · rename_i fresh
          refine ih ?_
          have less := pending_visit fresh (leaf q)
          rw [List.length_append, List.length_reverse]
          rw [List.length_cons] at enough
          omega

end Worklist
