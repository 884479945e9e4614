import Mathlib.Data.List.Nodup

/- Singly linked chains in memory: cells found by address, each naming the next, the last
   one naming null. A chain spells the list of its cells' addresses and data. The loops
   take a number of turns, one more than the chain has cells being enough. -/
namespace Chains
open Function (update update_of_ne)
variable {P N D : Type}

/-- How a cell of type N is linked at addresses P and what data D it holds. -/
structure Shape (P N D : Type) where
  null : P
  next : N → P
  data : N → D
  relink : N → P → N
  next_relink : ∀ n p, next (relink n p) = p
  data_relink : ∀ n p, data (relink n p) = data n

variable (c : Shape P N D)

def Chain (mem : P → Option N) : P → List (P × D) → Prop
  | p, [] => p = c.null
  | p, (b, d) :: rest =>
    p = b ∧ b ≠ c.null ∧ ∃ n, mem b = some n ∧ c.data n = d ∧ Chain mem (c.next n) rest

section
variable {c} {mem mem' : P → Option N} {p : P} {l : List (P × D)}

theorem Chain.frame (chain : Chain c mem p l) (same : ∀ x ∈ l, mem' x.1 = mem x.1) :
    Chain c mem' p l := by
  induction l generalizing p with
  | nil => exact chain
  | cons x rest ih =>
    obtain ⟨b, d⟩ := x
    obtain ⟨start, cell, n, found, data, later⟩ := chain
    have here := same (b, d) List.mem_cons_self
    exact ⟨start, cell, n, here.trans found, data,
      ih later fun y mem => same y (List.mem_cons_of_mem _ mem)⟩

theorem Chain.cell (chain : Chain c mem p l) {x : P × D} (inside : x ∈ l) :
    x.1 ≠ c.null ∧ ∃ n, mem x.1 = some n ∧ c.data n = x.2 := by
  induction l generalizing p with
  | nil => cases inside
  | cons y rest ih =>
    obtain ⟨b, d⟩ := y
    obtain ⟨-, cell, n, found, data, later⟩ := chain
    rcases List.mem_cons.mp inside with rfl | inside
    · exact ⟨cell, n, found, data⟩
    · exact ih later inside

end

/-- A place that holds an address: the head of the chain, or a cell's own link. -/
inductive Link (P : Type) where
  | head
  | after (p : P)
  deriving DecidableEq

variable [DecidableEq P]

/-- The loop `while (*link && *link != target) link = &(*link)->next`, with what the link
    holds at its end. -/
def seek (mem : P → Option N) (target : P) : Nat → Link P → P → Option (Link P × P)
  | 0, _, _ => none
  | turns + 1, link, p =>
    if p = c.null ∨ p = target then some (link, p)
    else (mem p).bind fun n => seek mem target turns (.after p) (c.next n)

/-- The loop that frees every cell from `p` on. -/
def releaseAll : Nat → (P → Option N) → P → Option (P → Option N)
  | 0, _, _ => none
  | turns + 1, mem, p =>
    if p = c.null then some mem
    else (mem p).bind fun n => releaseAll turns (update mem p none) (c.next n)

/-- The link that names the cell after `pre`. -/
def lastLink : Link P → List (P × D) → Link P
  | link, [] => link
  | _, (b, _) :: rest => lastLink (.after b) rest

/-- Store an address in a cell's own link; the head is not in memory. -/
def storeLink (mem : P → Option N) (link : Link P) (v : P) : P → Option N :=
  match link with
  | .head => mem
  | .after q => update mem q ((mem q).map fun n => c.relink n v)

variable {c} {mem : P → Option N} {p : P} {l : List (P × D)}

theorem seek_found {pre post : List (P × D)} {b : P} {d : D}
    (chain : Chain c mem p (pre ++ (b, d) :: post)) (before : b ∉ pre.map Prod.fst) {turns : Nat}
    (enough : pre.length < turns) (link : Link P) :
    seek c mem b turns link p = some (lastLink link pre, b) := by
  induction pre generalizing p turns link with
  | nil =>
    obtain ⟨n, rfl⟩ := Nat.exists_eq_add_of_lt enough
    obtain ⟨rfl, -⟩ := chain
    simp [seek, lastLink]
  | cons x pre ih =>
    obtain ⟨y, e⟩ := x
    obtain ⟨turns, rfl⟩ : ∃ n, turns = n + 1 := ⟨turns - 1, by simp at enough; omega⟩
    obtain ⟨rfl, cell, n, found, -, later⟩ := chain
    have other : p ≠ b := fun same => before (by simp [same])
    rw [seek, if_neg (not_or.mpr ⟨cell, other⟩), found, Option.bind_some,
      ih later (fun mem => before (by simp [mem])) (by simpa using enough)]
    rfl

theorem seek_absent {b : P} (chain : Chain c mem p l) (absent : b ∉ l.map Prod.fst) {turns : Nat}
    (enough : l.length < turns) (link : Link P) :
    ∃ last, seek c mem b turns link p = some (last, c.null) := by
  induction l generalizing p turns link with
  | nil =>
    obtain ⟨n, rfl⟩ := Nat.exists_eq_add_of_lt enough
    cases chain
    exact ⟨link, by simp [seek]⟩
  | cons x rest ih =>
    obtain ⟨y, e⟩ := x
    obtain ⟨turns, rfl⟩ : ∃ n, turns = n + 1 := ⟨turns - 1, by simp at enough; omega⟩
    obtain ⟨rfl, cell, n, found, -, later⟩ := chain
    have other : p ≠ b := fun same => absent (by simp [same])
    rw [seek, if_neg (not_or.mpr ⟨cell, other⟩), found, Option.bind_some]
    exact ih later (fun mem => absent (by simp [mem])) (by simpa using enough) _

omit [DecidableEq P] in
theorem lastLink_after (x : P) (pre : List (P × D)) :
    ∃ z, (z = x ∨ z ∈ pre.map Prod.fst) ∧ lastLink (.after x) pre = .after z := by
  induction pre generalizing x with
  | nil => exact ⟨x, Or.inl rfl, rfl⟩
  | cons y pre ih =>
    obtain ⟨z, inside, last⟩ := ih y.1
    refine ⟨z, Or.inr ?_, last⟩
    rw [List.map_cons]
    exact List.mem_cons.mpr inside

/-- Below the head: the cell that named `b` now names what `b` did. -/
theorem unlink_after {pre post : List (P × D)} {x b : P} {d : D} {nx nb : N}
    (first : mem x = some nx) (cut : mem b = some nb)
    (chain : Chain c mem (c.next nx) (pre ++ (b, d) :: post))
    (distinct : (x :: (pre ++ (b, d) :: post).map Prod.fst).Nodup) :
    ∃ nx', update (storeLink c mem (lastLink (.after x) pre) (c.next nb)) b none x = some nx' ∧
      c.data nx' = c.data nx ∧
      Chain c (update (storeLink c mem (lastLink (.after x) pre) (c.next nb)) b none)
        (c.next nx') (pre ++ post) := by
  induction pre generalizing x nx with
  | nil =>
    obtain ⟨start, cell, n, found, data, later⟩ := chain
    rw [cut] at found
    cases found
    simp only [List.nil_append, List.map_cons, List.nodup_cons, List.mem_cons, not_or] at distinct
    obtain ⟨⟨apart, outside⟩, after, -⟩ := distinct
    refine ⟨c.relink nx (c.next nb), ?_, c.data_relink nx _, ?_⟩
    · simp [lastLink, storeLink, apart, first]
    · rw [c.next_relink]
      refine later.frame ?_
      intro y inside
      have notCut : y.1 ≠ b := fun same => after (same ▸ List.mem_map_of_mem inside)
      have notFirst : y.1 ≠ x := fun same => outside (same ▸ List.mem_map_of_mem inside)
      simp [lastLink, storeLink, notCut, notFirst]
  | cons y pre ih =>
    obtain ⟨y, e⟩ := y
    obtain ⟨start, cell, ny, found, data, later⟩ := chain
    simp only [List.cons_append, List.map_cons, List.nodup_cons, List.mem_cons, not_or] at distinct
    obtain ⟨⟨apart, outside⟩, inner⟩ := distinct
    obtain ⟨ny', cellY, dataY, chainY⟩ := ih found later (List.nodup_cons.mpr inner)
    have kept : update (storeLink c mem (lastLink (.after y) pre) (c.next nb)) b none x =
        some nx := by
      have notCut : x ≠ b := fun same => outside (by simp [same])
      rw [update_of_ne notCut]
      obtain ⟨z, inside, last⟩ := lastLink_after y pre
      have notLast : x ≠ z := by
        rintro rfl
        rcases inside with same | inside
        · exact apart same
        · exact outside (by rw [List.map_append]; exact List.mem_append_left _ inside)
      rw [last, storeLink, update_of_ne notLast, first]
    refine ⟨nx, kept, rfl, start, cell, ny', cellY, dataY.trans data, chainY⟩

theorem releaseAll_frees (chain : Chain c mem p l) (distinct : (l.map Prod.fst).Nodup) {turns : Nat}
    (enough : l.length < turns) :
    ∃ mem', releaseAll c turns mem p = some mem' ∧
      ∀ x, mem' x = if x ∈ l.map Prod.fst then none else mem x := by
  induction l generalizing p mem turns with
  | nil =>
    obtain ⟨n, rfl⟩ := Nat.exists_eq_add_of_lt enough
    cases chain
    exact ⟨mem, by simp [releaseAll], by simp⟩
  | cons y rest ih =>
    obtain ⟨b, d⟩ := y
    obtain ⟨turns, rfl⟩ : ∃ n, turns = n + 1 := ⟨turns - 1, by simp at enough; omega⟩
    obtain ⟨rfl, cell, n, found, -, later⟩ := chain
    rw [List.map_cons, List.nodup_cons] at distinct
    have framed : Chain c (update mem p none) (c.next n) rest := by
      refine later.frame ?_
      intro y inside
      have other : y.1 ≠ p := by
        rintro rfl
        exact distinct.1 (List.mem_map.mpr ⟨y, inside, rfl⟩)
      rw [update_of_ne other]
    obtain ⟨mem', freed, cells⟩ := ih framed distinct.2 (by simpa using enough)
    refine ⟨mem', by rw [releaseAll, if_neg cell, found, Option.bind_some, freed], ?_⟩
    intro x
    rw [cells]
    by_cases here : x = p
    · simp [here]
    · rw [update_of_ne here, List.map_cons]
      simp only [List.mem_cons, here, false_or]

end Chains
