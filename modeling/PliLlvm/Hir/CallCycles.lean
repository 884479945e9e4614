import PliLlvm.Hir.EffectFacts

/- The search for call cycles. The list of finished procedures, newest first, is kept as a
   ghost: every call of a finished procedure is to a marked one or to one finished before. -/
namespace PliEffects
open PliHir

def Ordered (edges : Nat → List Nat) (marked : Finset Nat) : List Nat → Prop
  | [] => True
  | u :: older => (∀ v ∈ edges u, v ∈ marked ∨ v ∈ older) ∧ Ordered edges marked older

theorem Ordered.mono {edges : Nat → List Nat} {marked more : Finset Nat} {finished : List Nat}
    (h : Ordered edges marked finished) (sub : marked ⊆ more) : Ordered edges more finished := by
  induction finished with
  | nil => trivial
  | cons u older ih =>
    refine ⟨?_, ih h.2⟩
    intro v edge
    rcases h.1 v edge with marked | old
    · exact Or.inl (sub marked)
    · exact Or.inr old

structure Finished (edges : Nat → List Nat) (s : Search) (finished : List Nat) : Prop where
  black : ∀ v, s.colour v = .black ↔ v ∈ finished
  ordered : Ordered edges s.marked finished

structure Extends (s t : Search) (before after : List Nat) : Prop where
  marked : s.marked ⊆ t.marked
  grey : ∀ v, t.colour v = .grey ↔ s.colour v = .grey
  kept : before ⊆ after

theorem Extends.refl (s : Search) (finished : List Nat) : Extends s s finished finished :=
  ⟨Finset.Subset.refl _, fun _ => Iff.rfl, fun _ h => h⟩

theorem Extends.trans {s t u : Search} {a b c : List Nat} (first : Extends s t a b)
    (second : Extends t u b c) : Extends s u a c :=
  ⟨first.marked.trans second.marked, fun v => (second.grey v).trans (first.grey v),
    fun _ h => second.kept (first.kept h)⟩

section Whites
variable (n : Nat)

def whites (s : Search) : Finset Nat := (Finset.range n).filter fun v => s.colour v = .white

variable {n}

variable {s : Search}

theorem mem_whites {v : Nat} : v ∈ whites n s ↔ v < n ∧ s.colour v = .white := by
  rw [whites, Finset.mem_filter, Finset.mem_range]

theorem white_of_extends {edges : Nat → List Nat} {t : Search} {before after : List Nat}
    (first : Finished edges s before) (second : Finished edges t after)
    (more : Extends s t before after) {v : Nat} (white : t.colour v = .white) :
    s.colour v = .white := by
  cases colour : s.colour v with
  | white => rfl
  | grey =>
    have := (more.grey v).mpr colour
    rw [white] at this
    cases this
  | black =>
    have := (second.black v).mpr (more.kept ((first.black v).mp colour))
    rw [white] at this
    cases this

theorem whites_shrink {edges : Nat → List Nat} {t : Search} {before after : List Nat}
    (first : Finished edges s before) (second : Finished edges t after)
    (more : Extends s t before after) : whites n t ⊆ whites n s := by
  intro v member
  rw [mem_whites] at member ⊢
  exact ⟨member.1, white_of_extends first second more member.2⟩

theorem whites_paint {u : Nat} {c : Colour} (inside : u < n)
    (white : s.colour u = .white) (other : c ≠ .white) :
    (whites n (s.paint u c)).card < (whites n s).card := by
  apply Finset.card_lt_card
  rw [Finset.ssubset_iff_of_subset]
  · refine ⟨u, mem_whites.mpr ⟨inside, white⟩, ?_⟩
    rw [mem_whites]
    simp [Search.paint, other]
  · intro v member
    rw [mem_whites] at member ⊢
    by_cases same : v = u
    · subst same
      exact ⟨member.1, white⟩
    · simpa [Search.paint, same] using member

end Whites

section Visit
variable {edges : Nat → List Nat} {n : Nat}

def met (edges : Nat → List Nat) (depth : Nat) (s : Search) (c : Nat) : Search :=
  match s.colour c with
  | .grey => { s with marked := insert c s.marked }
  | .white => visit edges depth s c
  | .black => s

theorem visit_succ (depth : Nat) (s : Search) (u : Nat) :
    visit edges (depth + 1) s u =
      ((edges u).foldl (met edges depth) (s.paint u .grey)).paint u .black := rfl

theorem finished_grey {s : Search} {u : Nat} {finished : List Nat}
    (h : Finished edges s finished) (white : s.colour u = .white) :
    Finished edges (s.paint u .grey) finished := by
  constructor
  · intro v
    by_cases same : v = u
    · subst same
      have : v ∉ finished := by
        rw [← h.black v, white]
        decide
      simp [Search.paint, this]
    · simpa [Search.paint, same] using h.black v
  · exact h.ordered

theorem finished_black {s : Search} {u : Nat} {finished : List Nat}
    (h : Finished edges s finished) (edge : ∀ v ∈ edges u, v ∈ s.marked ∨ v ∈ finished) :
    Finished edges (s.paint u .black) (u :: finished) := by
  constructor
  · intro v
    by_cases same : v = u
    · simp [Search.paint, same]
    · simpa [Search.paint, same] using h.black v
  · exact ⟨edge, h.ordered⟩

def Visits (edges : Nat → List Nat) (n depth : Nat) : Prop :=
  ∀ s u finished, Finished edges s finished → s.colour u = .white → (whites n s).card < depth →
    ∃ after, Finished edges (visit edges depth s u) after ∧ u ∈ after ∧
      Extends s (visit edges depth s u) finished after

theorem met_finishes {depth : Nat} (visits : Visits edges n depth) {s : Search} {c : Nat}
    {finished : List Nat} (h : Finished edges s finished) (room : (whites n s).card < depth) :
    ∃ after, Finished edges (met edges depth s c) after ∧
      (c ∈ (met edges depth s c).marked ∨ c ∈ after) ∧
      Extends s (met edges depth s c) finished after := by
  unfold met
  cases colour : s.colour c with
  | white =>
    obtain ⟨after, done, mem, more⟩ := visits s c finished h colour room
    exact ⟨after, done, Or.inr mem, more⟩
  | grey =>
    have sub : s.marked ⊆ insert c s.marked := Finset.subset_insert c s.marked
    refine ⟨finished, ⟨h.black, h.ordered.mono sub⟩, Or.inl (Finset.mem_insert_self c _), ?_⟩
    exact ⟨sub, fun _ => Iff.rfl, fun _ mem => mem⟩
  | black => exact ⟨finished, h, Or.inr ((h.black c).mp colour), Extends.refl s finished⟩

theorem met_all_finishes {depth : Nat} (visits : Visits edges n depth) {list : List Nat}
    {s : Search} {finished : List Nat} (h : Finished edges s finished)
    (room : list ≠ [] → (whites n s).card < depth) :
    ∃ after, Finished edges (list.foldl (met edges depth) s) after ∧
      (∀ c ∈ list, c ∈ (list.foldl (met edges depth) s).marked ∨ c ∈ after) ∧
      Extends s (list.foldl (met edges depth) s) finished after := by
  induction list generalizing s finished with
  | nil => exact ⟨finished, h, fun c mem => absurd mem List.not_mem_nil, Extends.refl s finished⟩
  | cons c rest ih =>
    have bound := room (List.cons_ne_nil c rest)
    obtain ⟨mid, midFinished, midMet, midExtends⟩ := met_finishes visits (c := c) h bound
    have fewer := Finset.card_le_card (whites_shrink (n := n) h midFinished midExtends)
    obtain ⟨after, done, all, more⟩ := ih midFinished (fun _ => by omega)
    refine ⟨after, done, ?_, midExtends.trans more⟩
    intro v mem
    rcases List.mem_cons.mp mem with rfl | later
    · rcases midMet with marked | old
      · exact Or.inl (more.marked marked)
      · exact Or.inr (more.kept old)
    · exact all v later

theorem visit_finishes (inside : ∀ u, edges u ≠ [] → u < n) (depth : Nat) :
    Visits edges n depth := by
  induction depth with
  | zero =>
    intro s u finished _ _ room
    exact absurd room (Nat.not_lt_zero _)
  | succ depth ih =>
    intro s u finished h white room
    rw [visit_succ]
    have smaller : edges u ≠ [] → (whites n (s.paint u .grey)).card < depth := by
      intro calls
      have := whites_paint (s := s) (c := .grey) (inside u calls) white (by decide)
      omega
    obtain ⟨after, done, all, more⟩ := met_all_finishes ih (finished_grey h white) smaller
    refine ⟨u :: after, finished_black done all, List.mem_cons_self, ?_⟩
    refine ⟨more.marked, ?_, fun v mem => List.mem_cons_of_mem u (more.kept mem)⟩
    intro v
    have grey := more.grey v
    by_cases same : v = u
    · subst same
      simp [Search.paint, white]
    · simpa [Search.paint, same] using grey

def scan (edges : Nat → List Nat) (n : Nat) (s : Search) (p : Nat) : Search :=
  if s.colour p = .white then visit edges (n + 1) s p else s

theorem scan_finishes (inside : ∀ u, edges u ≠ [] → u < n) {list : List Nat} {s : Search}
    {finished : List Nat} (h : Finished edges s finished) (still : ∀ v, s.colour v ≠ .grey) :
    ∃ after, Finished edges (list.foldl (scan edges n) s) after ∧ finished ⊆ after ∧
      ∀ c ∈ list, c ∈ after := by
  induction list generalizing s finished with
  | nil => exact ⟨finished, h, fun _ mem => mem, fun c mem => by cases mem⟩
  | cons c rest ih =>
    obtain ⟨mid, done, mem, more⟩ : ∃ mid, Finished edges (scan edges n s c) mid ∧ c ∈ mid ∧
        Extends s (scan edges n s c) finished mid := by
      unfold scan
      cases colour : s.colour c with
      | white =>
        have few := Finset.card_filter_le (Finset.range n) fun v => s.colour v = .white
        rw [Finset.card_range] at few
        exact visit_finishes inside (n + 1) s c finished h colour (Nat.lt_succ_of_le few)
      | grey => exact absurd colour (still c)
      | black => exact ⟨finished, h, (h.black c).mp colour, Extends.refl s finished⟩
    obtain ⟨after, last, kept, all⟩ := ih done fun v grey => still v ((more.grey v).mp grey)
    refine ⟨after, last, fun v h => kept (more.kept h), ?_⟩
    intro v member
    rcases List.mem_cons.mp member with rfl | tail
    · exact kept mem
    · exact all v tail

theorem markCycles_orders (inside : ∀ u, edges u ≠ [] → u < n) :
    ∃ finished, Ordered edges (markCycles edges n) finished ∧ ∀ u, u < n → u ∈ finished := by
  have start : Finished edges ⟨fun _ => .white, ∅⟩ [] := ⟨by simp, trivial⟩
  obtain ⟨after, done, -, all⟩ := @scan_finishes edges n inside (List.range n) _ _ start (by simp)
  exact ⟨after, done.ordered, fun u bound => all u (List.mem_range.mpr bound)⟩

end Visit

end PliEffects
