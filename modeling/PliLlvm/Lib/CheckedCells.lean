import Mathlib.Data.List.Basic

/- Copying into and filling a block of cells. An access to a cell that the block, or the
   source of the copy, does not have has no result; an access to no cell at all is the
   identity wherever it points. -/
namespace CheckedCells
variable {α : Type}

/-- The cells from `pos` on replaced by as many new ones. -/
def splice (cells : List α) (pos : Nat) (news : List α) : List α :=
  cells.take pos ++ news ++ cells.drop (pos + news.length)

def move (dst : List α) (pos : Nat) (src : List α) (start count : Nat) : Option (List α) :=
  if count = 0 then some dst
  else if start + count ≤ src.length ∧ pos + count ≤ dst.length then
    some (splice dst pos ((src.drop start).take count))
  else none

def fill (dst : List α) (pos : Nat) (x : α) (count : Nat) : Option (List α) :=
  if count = 0 then some dst
  else if pos + count ≤ dst.length then some (splice dst pos (List.replicate count x))
  else none

@[simp] theorem splice_nil (cells : List α) (pos : Nat) : splice cells pos [] = cells := by
  simp [splice]

theorem splice_length {cells news : List α} {pos : Nat}
    (inside : pos + news.length ≤ cells.length) :
    (splice cells pos news).length = cells.length := by
  simp [splice]
  omega

variable {cells news : List α} {pos : Nat}

/-- The cells before and behind the replaced ones are the old ones. -/
theorem splice_outside {i : Nat}
    (inside : pos + news.length ≤ cells.length) (outside : i < pos ∨ pos + news.length ≤ i) :
    (splice cells pos news)[i]? = cells[i]? := by
  have front : (cells.take pos ++ news).length = pos + news.length := by simp; omega
  rcases outside with before | behind
  · rw [splice, List.append_assoc, List.getElem?_append_left (by simp; omega),
      List.getElem?_take_of_lt before]
  · rw [splice, List.getElem?_append_right (by omega), front, List.getElem?_drop]
    congr 1
    omega

theorem splice_inside {cells news : List α} {pos i : Nat}
    (inside : pos + news.length ≤ cells.length) (within : i < news.length) :
    (splice cells pos news)[pos + i]? = news[i]? := by
  have front : (cells.take pos).length = pos := by simp; omega
  rw [splice, List.append_assoc, List.getElem?_append_right (by omega), front,
    Nat.add_sub_cancel_left, List.getElem?_append_left within]

theorem splice_all (size : news.length = cells.length) : splice cells 0 news = news := by
  rw [splice, List.take_zero, List.nil_append, Nat.zero_add, List.drop_eq_nil_of_le (by omega),
    List.append_nil]

/-- Two neighbouring replacements are one. -/
theorem splice_splice {cells news more : List α} {pos : Nat}
    (inside : pos + news.length + more.length ≤ cells.length) :
    splice (splice cells pos news) (pos + news.length) more = splice cells pos (news ++ more) := by
  have front : (cells.take pos ++ news).length = pos + news.length := by simp; omega
  rw [splice, splice, List.take_left' front, List.drop_append, front,
    List.drop_eq_nil_of_le (by omega), List.nil_append, List.drop_drop, splice,
    List.length_append, List.append_assoc (cells.take pos)]
  congr 2
  omega

/-- Replacements of cells apart from each other may be done in either order. -/
theorem splice_comm {others : List α} {pos' : Nat}
    (apart : pos + news.length ≤ pos') (inside : pos' + others.length ≤ cells.length) :
    splice (splice cells pos' others) pos news = splice (splice cells pos news) pos' others := by
  have first := @splice_length _ cells news pos (by omega)
  have second := @splice_length _ cells others pos' inside
  apply List.ext_getElem?
  intro i
  by_cases low : pos ≤ i ∧ i < pos + news.length
  · obtain ⟨j, rfl⟩ := Nat.exists_eq_add_of_le low.1
    rw [splice_inside (by omega) (by omega), splice_outside (by omega) (Or.inl (by omega)),
      splice_inside (by omega) (by omega)]
  · rw [splice_outside (by omega) (by omega)]
    by_cases high : pos' ≤ i ∧ i < pos' + others.length
    · obtain ⟨j, rfl⟩ := Nat.exists_eq_add_of_le high.1
      rw [splice_inside (by omega) (by omega), splice_inside (by omega) (by omega)]
    · rw [splice_outside (by omega) (by omega), splice_outside (by omega) (by omega),
        splice_outside (by omega) (by omega)]

theorem splice_inj {cells news others : List α} {pos : Nat} (same : news.length = others.length) :
    splice cells pos news = splice cells pos others ↔ news = others := by
  constructor
  · intro equal
    rw [splice, splice, List.append_assoc, List.append_assoc, same] at equal
    exact List.append_inj_left (List.append_cancel_left equal) same
  · rintro rfl
    rfl

@[simp] theorem move_nothing (dst : List α) (pos : Nat) (src : List α) (start : Nat) :
    move dst pos src start 0 = some dst := by
  simp [move]

@[simp] theorem fill_nothing (dst : List α) (pos : Nat) (x : α) : fill dst pos x 0 = some dst := by
  simp [fill]

variable {dst src : List α} {start count : Nat}

theorem move_inside (within : start + count ≤ src.length ∨ count = 0)
    (inside : pos + count ≤ dst.length ∨ count = 0) :
    move dst pos src start count = some (splice dst pos ((src.drop start).take count)) := by
  by_cases none : count = 0
  · simp [none]
  · rw [move, if_neg none, if_pos ⟨within.resolve_right none, inside.resolve_right none⟩]

theorem fill_inside (x : α) (inside : pos + count ≤ dst.length ∨ count = 0) :
    fill dst pos x count = some (splice dst pos (List.replicate count x)) := by
  by_cases none : count = 0
  · simp [none]
  · rw [fill, if_neg none, if_pos (inside.resolve_right none)]

theorem move_outside (some_cell : count ≠ 0)
    (outside : dst.length < pos + count) : move dst pos src start count = none := by
  rw [move, if_neg some_cell, if_neg (by omega)]

theorem fill_outside (x : α) (some_cell : count ≠ 0)
    (outside : dst.length < pos + count) : fill dst pos x count = none := by
  rw [fill, if_neg some_cell, if_neg (by omega)]

/-- A field of `count + pad` cells: the source cells, then the padding. -/
def padded (src : List α) (start count : Nat) (x : α) (pad : Nat) : List α :=
  (src.drop start).take count ++ List.replicate pad x

theorem padded_length (x : α) (pad : Nat) (within : start + count ≤ src.length ∨ count = 0) :
    (padded src start count x pad).length = count + pad := by
  simp [padded]
  omega

/-- A copy and the fill of the cells behind it write one field. -/
theorem move_fill {pad : Nat} (x : α) (within : start + count ≤ src.length ∨ count = 0)
    (inside : pos + count + pad ≤ dst.length) :
    (move dst pos src start count).bind (fun out => fill out (pos + count) x pad) =
      some (splice dst pos (padded src start count x pad)) := by
  have part : ((src.drop start).take count).length = count := by simp; omega
  rw [move_inside within (Or.inl (by omega)), Option.bind_some,
    fill_inside x (Or.inl (by rw [splice_length (by omega)]; omega)), padded]
  congr 1
  nth_rewrite 2 [← part]
  exact splice_splice (by rw [part, List.length_replicate]; exact inside)

def store (dst : List α) (pos : Nat) (x : α) : Option (List α) :=
  if pos < dst.length then some (dst.set pos x) else none

theorem store_splice (x : α) (inside : pos < dst.length) :
    store dst pos x = some (splice dst pos [x]) := by
  rw [store, if_pos inside, splice, List.set_eq_take_append_cons_drop, if_pos inside]
  simp

/-- The cells up to a place are those of a field that takes the whole block. -/
def Upto (field cells : List α) (k : Nat) : Prop :=
  cells.length = field.length ∧ ∀ i, i < k → cells[i]? = field[i]?

variable {field : List α}

theorem upto_nothing (size : cells.length = field.length) :
    Upto field cells 0 := ⟨size, fun _ less => absurd less (Nat.not_lt_zero _)⟩

theorem upto_whole (upto : Upto field cells field.length) : cells = field := by
  refine List.ext_getElem? fun i => ?_
  by_cases inside : i < field.length
  · exact upto.2 i inside
  · rw [List.getElem?_eq_none (by have := upto.1; omega), List.getElem?_eq_none (by omega)]

theorem upto_store {k : Nat} {x : α} (upto : Upto field cells k) (next : field[k]? = some x) :
    ∃ out, store cells k x = some out ∧ Upto field out (k + 1) := by
  obtain ⟨inside, -⟩ := List.getElem?_eq_some_iff.mp next
  have size := upto.1
  refine ⟨cells.set k x, if_pos (by omega), by rw [List.length_set, size], fun i less => ?_⟩
  by_cases here : k = i
  · subst here
    rw [List.getElem?_set_self (by omega), next]
  · rw [List.getElem?_set_ne here]
    exact upto.2 i (by omega)

theorem upto_splice {field cells news : List α} {k : Nat} (upto : Upto field cells k)
    (inside : k + news.length ≤ field.length)
    (next : ∀ i, i < news.length → field[k + i]? = news[i]?) :
    Upto field (splice cells k news) (k + news.length) := by
  have size := upto.1
  refine ⟨by rw [splice_length (by omega), size], fun i less => ?_⟩
  by_cases before : i < k
  · rw [splice_outside (by omega) (Or.inl before)]
    exact upto.2 i before
  · obtain ⟨j, rfl⟩ : ∃ j, i = k + j := ⟨i - k, by omega⟩
    rw [splice_inside (by omega) (by omega), next j (by omega)]

theorem upto_fill {field cells : List α} {k count : Nat} {x : α} (upto : Upto field cells k)
    (inside : k + count ≤ field.length) (same : ∀ i, k ≤ i → i < k + count → field[i]? = some x) :
    ∃ out, fill cells k x count = some out ∧ Upto field out (k + count) := by
  have size := upto.1
  have news : (List.replicate count x).length = count := List.length_replicate
  refine ⟨_, fill_inside x (Or.inl (by omega)), ?_⟩
  have written := @upto_splice _ _ _ (List.replicate count x) _ upto (by omega) fun i within => by
    rw [same _ (by omega) (by omega), List.getElem?_replicate, if_pos (by omega)]
  rwa [news] at written

/-- The block `for (; i < n; ++i) dst[i] = value;`, the value one that may have to be read. -/
def storeLoop (n : Nat) (value : Nat → Option α) (dst : List α) (i : Nat) : Option (List α) :=
  if i < n then
    (value i).bind fun x => (store dst i x).bind fun dst => storeLoop n value dst (i + 1)
  else some dst
termination_by n - i

theorem storeLoop_upto {field cells : List α} {n k : Nat} {value : Nat → Option α}
    (upto : Upto field cells k)
    (values : ∀ i, k ≤ i → i < n → ∃ x, value i = some x ∧ field[i]? = some x) :
    ∃ out, storeLoop n value cells k = some out ∧ Upto field out (max k n) := by
  induction left : n - k generalizing cells k with
  | zero =>
    have ended : max k n = k := by omega
    exact ⟨cells, by rw [storeLoop, if_neg (by omega)], by rw [ended]; exact upto⟩
  | succ m ih =>
    obtain ⟨x, read, cell⟩ := values k (Nat.le_refl k) (by omega)
    obtain ⟨out, stored, later⟩ := upto_store upto cell
    obtain ⟨last, done, whole⟩ := ih later (fun i low high => values i (by omega) high) (by omega)
    have same : max (k + 1) n = max k n := by omega
    rw [same] at whole
    exact ⟨last, by rw [storeLoop, if_pos (by omega), read, Option.bind_some, stored,
      Option.bind_some, done], whole⟩

/-- A block in a memory that goes on at both ends: what a load without a check yields. -/
structure Window (cells : List α) where
  load : Int → α
  inside : ∀ (i : Nat) (within : i < cells.length), load i = cells[i]

theorem Window.read {cells : List α} (memory : Window cells) {i : Nat} (within : i < cells.length) :
    cells[i]? = some (memory.load i) := by
  rw [memory.inside i within, List.getElem?_eq_getElem within]

variable {back : List α}

theorem Window.ahead {front : List α} (memory : Window cells)
    (shape : cells = front ++ back) (P : α → Prop) :
    (front.length < cells.length ∧ P (memory.load front.length)) ↔
      ∃ c, back.head? = some c ∧ P c := by
  cases back with
  | nil => simp [shape]
  | cons c back =>
    have within : front.length < cells.length := by simp [shape]
    have load : memory.load front.length = c := by
      rw [memory.inside front.length within]
      simp [shape]
    simp [load, within]

section
variable {β : Type} {cells : List α}

/-- `while (i < n && p(s[i])) acc = step(acc, s[i++]);` -/
def foldWhile (cells : List α) (p : α → Bool) (step : β → α → β) (i : Nat) (acc : β) :
    Option (Nat × β) :=
  if i < cells.length then
    cells[i]?.bind fun c =>
      if p c then foldWhile cells p step (i + 1) (step acc c) else some (i, acc)
  else some (i, acc)
termination_by cells.length - i

/-- The same loop where the cell is loaded before the bound is tested. -/
def Window.foldWhile (memory : Window cells) (p : α → Bool) (step : β → α → β) (i : Nat) (acc : β) :
    Nat × β :=
  let c := memory.load i
  if i < cells.length ∧ p c = true then memory.foldWhile p step (i + 1) (step acc c) else (i, acc)
termination_by cells.length - i

theorem foldWhile_spec (p : α → Bool) (step : β → α → β) {i : Nat} (part : i ≤ cells.length)
    (acc : β) :
    CheckedCells.foldWhile cells p step i acc =
      some (i + ((cells.drop i).takeWhile p).length,
        ((cells.drop i).takeWhile p).foldl step acc) := by
  induction left : cells.length - i generalizing i acc with
  | zero =>
    rw [CheckedCells.foldWhile, if_neg (by omega), List.drop_eq_nil_of_le (by omega)]
    rfl
  | succ m ih =>
    have within : i < cells.length := by omega
    rw [CheckedCells.foldWhile, if_pos within, List.getElem?_eq_getElem within, Option.bind_some,
      List.drop_eq_getElem_cons within, List.takeWhile_cons]
    split
    · rw [ih (by omega) _ (by omega), List.length_cons, List.foldl_cons]
      congr 2
      omega
    · rfl

theorem Window.foldWhile_eq (memory : Window cells) (p : α → Bool) (step : β → α → β) (i : Nat)
    (acc : β) :
    CheckedCells.foldWhile cells p step i acc = some (memory.foldWhile p step i acc) := by
  induction left : cells.length - i generalizing i acc with
  | zero =>
    rw [CheckedCells.foldWhile, if_neg (by omega), Window.foldWhile, if_neg (by omega)]
  | succ m ih =>
    have within : i < cells.length := by omega
    rw [CheckedCells.foldWhile, if_pos within, memory.read within, Option.bind_some,
      Window.foldWhile]
    by_cases goes : p (memory.load i) = true
    · rw [if_pos goes, if_pos ⟨within, goes⟩, ih _ _ (by omega)]
    · rw [if_neg goes, if_neg (fun both => goes both.2)]

theorem Window.foldWhile_spec (memory : Window cells) (p : α → Bool) (step : β → α → β) {i : Nat}
    (part : i ≤ cells.length) (acc : β) :
    memory.foldWhile p step i acc =
      (i + ((cells.drop i).takeWhile p).length, ((cells.drop i).takeWhile p).foldl step acc) := by
  have whole := CheckedCells.foldWhile_spec p step part acc
  rw [memory.foldWhile_eq] at whole
  exact Option.some.inj whole

end

/-- A run in front of a cell that is not of the run. -/
theorem takeWhile_run {p : α → Bool} {run : List α} (all : ∀ c ∈ run, p c = true)
    (stops : ∀ c, back.head? = some c → p c = false) : (run ++ back).takeWhile p = run := by
  rw [List.takeWhile_append_of_pos all]
  cases back with
  | nil => simp
  | cons c back => simp [stops c rfl]

theorem Window.foldWhile_run {β : Type} {front run : List α} (memory : Window cells)
    (shape : cells = front ++ (run ++ back)) {p : α → Bool} (step : β → α → β)
    (all : ∀ c ∈ run, p c = true) (stops : ∀ c, back.head? = some c → p c = false) (acc : β) :
    memory.foldWhile p step front.length acc = ((front ++ run).length, run.foldl step acc) := by
  have part : front.length ≤ cells.length := by
    rw [shape, List.length_append]
    omega
  have found : (cells.drop front.length).takeWhile p = run := by
    rw [shape, List.drop_left, takeWhile_run all stops]
  rw [memory.foldWhile_spec p step part, found, List.length_append]

end CheckedCells
