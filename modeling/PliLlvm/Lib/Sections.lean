import PliLlvm.Lib.RowMajor

/- Cross-sections of row-major arrays. A selection names an index for each fixed axis and none for
   the others; what is left is an array of its own, walked by a counter through strides. -/
namespace Sections
open RowMajor

abbrev Selection := List (Option Int)

/-- The bounds with 0 below. -/
def zeroed (bounds : Bounds) : Bounds := bounds.map fun axis => (0, extent axis - 1)

/-- Where each axis is when the next index is one element further. -/
def strides : Bounds → List Int
  | [] => []
  | _ :: bounds => count bounds :: strides bounds

/-- A counter taken apart by strides. -/
def digits : List Int → Int → List Int
  | [], _ => []
  | s :: ss, p => p / s :: digits ss (p % s)

def dot : List Int → List Int → Int
  | c :: cs, s :: ss => c * s + dot cs ss
  | _, _ => 0

/-- The axes that are left. -/
def reduced : Bounds → Selection → Bounds
  | axis :: bounds, none :: sel => axis :: reduced bounds sel
  | _ :: bounds, some _ :: sel => reduced bounds sel
  | _, _ => []

/-- The strides of these in the whole array. -/
def reducedStrides : Bounds → Selection → List Int
  | _ :: bounds, none :: sel => count bounds :: reducedStrides bounds sel
  | _ :: bounds, some _ :: sel => reducedStrides bounds sel
  | _, _ => []

/-- The place of the first element left. -/
def anchor : Bounds → Selection → Int
  | _ :: bounds, none :: sel => anchor bounds sel
  | axis :: bounds, some i :: sel => (i - axis.1) * count bounds + anchor bounds sel
  | _, _ => 0

/-- The index vector of the element at coordinates, counted from 0, of the axes that are left. -/
def fill : Bounds → Selection → List Int → List Int
  | axis :: bounds, none :: sel, c :: cs => (axis.1 + c) :: fill bounds sel cs
  | _ :: bounds, some i :: sel, cs => i :: fill bounds sel cs
  | _, _, _ => []

/-- The fixed indices are within their axes, and there is one entry for each axis. -/
def Fixed : Bounds → Selection → Prop
  | [], [] => True
  | _ :: bounds, none :: sel => Fixed bounds sel
  | axis :: bounds, some i :: sel => (axis.1 ≤ i ∧ i ≤ axis.2) ∧ Fixed bounds sel
  | _, _ => False

theorem extent_zeroed (axis : Int × Int) : extent (0, extent axis - 1) = extent axis := by
  unfold extent
  omega

variable {b b' : Bounds}

theorem count_congr (same : b.map extent = b'.map extent) : count b = count b' := by
  induction b generalizing b' with
  | nil =>
    cases b' with
    | nil => rfl
    | cons axis b' => cases same
  | cons axis b ih =>
    cases b' with
    | nil => cases same
    | cons axis' b' =>
      obtain ⟨first, later⟩ := List.cons.inj same
      rw [count, count, first, ih later]

theorem count_zeroed (bounds : Bounds) : count (zeroed bounds) = count bounds := by
  refine count_congr ?_
  rw [zeroed, List.map_map]
  exact List.map_congr_left fun axis _ => extent_zeroed axis

theorem hasElements_zeroed (bounds : Bounds) : HasElements (zeroed bounds) ↔
    HasElements bounds := by
  have each (axis : Int × Int) : 0 ≤ extent axis - 1 ↔ axis.1 ≤ axis.2 := by
    unfold extent
    omega
  unfold HasElements zeroed
  rw [List.forall_mem_map]
  exact forall₂_congr fun axis _ => each axis

theorem digits_eq_index (bounds : Bounds) (p : Int) :
    digits (strides bounds) p = index (zeroed bounds) p := by
  induction bounds generalizing p with
  | nil => rfl
  | cons axis bounds ih =>
    have later := count_zeroed bounds
    unfold zeroed at later ih ⊢
    rw [strides, digits, List.map_cons, index, later, ih, Int.zero_add]

variable {bounds : Bounds} {c : List Int}

theorem place_eq_dot (each : c.length = bounds.length) :
    place (zeroed bounds) c = dot c (strides bounds) := by
  induction bounds generalizing c with
  | nil =>
    cases c with
    | nil => rfl
    | cons j c => cases each
  | cons axis bounds ih =>
    cases c with
    | nil => cases each
    | cons j c =>
      have later := count_zeroed bounds
      have rest := ih (Nat.succ.inj each)
      unfold zeroed at later rest ⊢
      rw [List.map_cons, place, strides, dot, later, rest, Int.sub_zero]

/-- The counter is the place its coordinates have. -/
theorem dot_digits (elements : HasElements bounds) {p : Int} (low : 0 ≤ p)
    (high : p < count bounds) : dot (digits (strides bounds) p) (strides bounds) = p := by
  have elements' := (hasElements_zeroed bounds).mpr elements
  rw [← count_zeroed bounds] at high
  have within := index_within elements' low high
  have each : (index (zeroed bounds) p).length = bounds.length := by
    rw [within_length within, zeroed, List.length_map]
  rw [digits_eq_index, ← place_eq_dot each, place_index elements' low high]

/-- The counter's digits are coordinates, and all coordinates are a counter's digits. -/
theorem digits_within (elements : HasElements bounds) {p : Int} (low : 0 ≤ p)
    (high : p < count bounds) : Within (zeroed bounds) (digits (strides bounds) p) := by
  rw [digits_eq_index]
  rw [← count_zeroed bounds] at high
  exact index_within ((hasElements_zeroed bounds).mpr elements) low high

theorem digits_place (within : Within (zeroed bounds) c) :
    (0 ≤ place (zeroed bounds) c ∧ place (zeroed bounds) c < count bounds) ∧
      digits (strides bounds) (place (zeroed bounds) c) = c := by
  have range := place_range within
  rw [count_zeroed] at range
  exact ⟨range, by rw [digits_eq_index, index_place within]⟩

theorem digits_injective (elements : HasElements bounds) {p q : Int}
    (first : 0 ≤ p ∧ p < count bounds) (second : 0 ≤ q ∧ q < count bounds)
    (same : digits (strides bounds) p = digits (strides bounds) q) : p = q := by
  rw [← dot_digits elements first.1 first.2, same, dot_digits elements second.1 second.2]

theorem strides_congr (same : b.map extent = b'.map extent) : strides b = strides b' := by
  induction b generalizing b' with
  | nil =>
    cases b' with
    | nil => rfl
    | cons axis b' => cases same
  | cons axis b ih =>
    cases b' with
    | nil => cases same
    | cons axis' b' =>
      obtain ⟨-, later⟩ := List.cons.inj same
      rw [strides, strides, count_congr later, ih later]

theorem zeroed_congr (same : b.map extent = b'.map extent) : zeroed b = zeroed b' := by
  have parts (b : Bounds) : zeroed b = (b.map extent).map fun e => (0, e - 1) := by
    rw [zeroed, List.map_map]
    rfl
  rw [parts, parts, same]

theorem digits_length (ss : List Int) (p : Int) : (digits ss p).length = ss.length := by
  induction ss generalizing p with
  | nil => rfl
  | cons s ss ih => exact congrArg (· + 1) (ih _)

theorem strides_length (bounds : Bounds) : (strides bounds).length = bounds.length := by
  induction bounds with
  | nil => rfl
  | cons axis bounds ih => exact congrArg (· + 1) ih

/-- An array without an element has an axis without one, where no extent is negative. -/
theorem hasElements_of_count (extents : ∀ axis ∈ bounds, 0 ≤ extent axis)
    (some_element : 0 < count bounds) : HasElements bounds := by
  induction bounds with
  | nil => exact fun axis member => absurd member (List.not_mem_nil)
  | cons axis bounds ih =>
    obtain ⟨first, later⟩ := List.forall_mem_cons.mp extents
    rw [count] at some_element
    have own : 0 < extent axis := by
      rcases Int.lt_or_eq_of_le first with positive | zero
      · exact positive
      · rw [← zero, Int.zero_mul] at some_element
        omega
    have rest := ih later (Int.pos_of_mul_pos_right some_element own)
    refine hasElements_cons.mpr ⟨?_, rest⟩
    unfold extent at own
    omega

variable {sel : Selection}

theorem reduced_mem {axis : Int × Int} (member : axis ∈ reduced bounds sel) : axis ∈ bounds := by
  fun_induction reduced bounds sel with
  | case1 own bounds sel ih =>
    rcases List.mem_cons.mp member with rfl | later
    · exact List.mem_cons_self
    · exact List.mem_cons_of_mem _ (ih later)
  | case2 own bounds i sel ih => exact List.mem_cons_of_mem _ (ih member)
  | case3 => cases member

/-- An element of the section is at its coordinates' distance from the first. -/
theorem place_fill (fixed : Fixed bounds sel) (each : c.length = (reduced bounds sel).length) :
    place bounds (fill bounds sel c) =
      anchor bounds sel + dot c (reducedStrides bounds sel) := by
  fun_induction fill bounds sel c with
  | case1 axis bounds sel c cs ih =>
    have rest := ih fixed (Nat.succ.inj each)
    have own : axis.1 + c - axis.1 = c := by omega
    rw [place, rest, anchor, reducedStrides, dot, own]
    omega
  | case2 axis bounds i sel cs ih =>
    rw [place, ih fixed.2 each, anchor, reducedStrides]
    omega
  | case3 bounds sel cs other none_left =>
    cases bounds with
    | nil =>
      cases sel with
      | nil =>
        cases cs with
        | nil => rfl
        | cons c cs => cases each
      | cons a sel => exact fixed.elim
    | cons axis bounds =>
      cases sel with
      | nil => exact fixed.elim
      | cons a sel =>
        cases a with
        | none =>
          cases cs with
          | nil => cases each
          | cons c cs => exact absurd rfl (other axis bounds sel c cs rfl rfl)
        | some i => exact absurd rfl (none_left axis bounds i sel rfl)

theorem fill_within (fixed : Fixed bounds sel)
    (within : Within (zeroed (reduced bounds sel)) c) : Within bounds (fill bounds sel c) := by
  induction bounds generalizing sel c with
  | nil =>
    cases sel with
    | nil => trivial
    | cons a sel => exact fixed.elim
  | cons axis bounds ih =>
    cases sel with
    | nil => exact fixed.elim
    | cons a sel =>
      cases a with
      | none =>
        cases c with
        | nil => exact within.elim
        | cons j c =>
          obtain ⟨own, later⟩ := within
          change 0 ≤ j ∧ j ≤ extent axis - 1 at own
          unfold extent at own
          exact ⟨⟨by omega, by omega⟩, ih fixed later⟩
      | some i => exact ⟨fixed.1, ih fixed.2 within⟩

theorem fill_injective {d : List Int} (fixed : Fixed bounds sel)
    (first : c.length = (reduced bounds sel).length)
    (second : d.length = (reduced bounds sel).length)
    (same : fill bounds sel c = fill bounds sel d) : c = d := by
  induction bounds generalizing sel c d with
  | nil =>
    have none_c := List.eq_nil_of_length_eq_zero first
    have none_d := List.eq_nil_of_length_eq_zero second
    rw [none_c, none_d]
  | cons axis bounds ih =>
    cases sel with
    | nil => exact fixed.elim
    | cons a sel =>
      cases a with
      | none =>
        cases c with
        | nil => cases first
        | cons j c =>
          cases d with
          | nil => cases second
          | cons k d =>
            obtain ⟨own, later⟩ := List.cons.inj same
            rw [ih fixed (Nat.succ.inj first) (Nat.succ.inj second) later]
            congr 1
            omega
      | some i => exact ih fixed.2 first second (List.cons.inj same).2

theorem reduced_all {n : Nat} (fixed : Fixed bounds (List.replicate n none)) :
    reduced bounds (List.replicate n none) = bounds := by
  induction bounds generalizing n with
  | nil => cases n <;> rfl
  | cons axis bounds ih =>
    cases n with
    | zero => exact fixed.elim
    | succ n => exact congrArg (axis :: ·) (ih fixed)

/-- Where only the last axes are left their strides are those of the section. -/
theorem reducedStrides_suffix (fixed : Fixed bounds sel)
    {front : List Int} {n : Nat} (shape : sel = front.map some ++ List.replicate n none) :
    reducedStrides bounds sel = strides (reduced bounds sel) := by
  induction bounds generalizing sel front n with
  | nil =>
    cases sel with
    | nil => rfl
    | cons a sel => exact fixed.elim
  | cons axis bounds ih =>
    cases front with
    | cons i front =>
      subst shape
      exact ih fixed.2 rfl
    | nil =>
      cases n with
      | zero =>
        subst shape
        exact fixed.elim
      | succ n =>
        subst shape
        have rest : reducedStrides bounds (List.replicate n none) =
            strides (reduced bounds (List.replicate n none)) :=
          @ih (List.replicate n none) fixed [] n rfl
        have whole : reduced bounds (List.replicate n none) = bounds := reduced_all fixed
        change count bounds :: reducedStrides bounds (List.replicate n none) =
          count (reduced bounds (List.replicate n none)) :: strides
            (reduced bounds (List.replicate n none))
        rw [rest, whole]

end Sections
