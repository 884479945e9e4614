import Mathlib.Data.List.Basic

/- Row-major places of index vectors between bounds. An axis is a pair of a lower and an upper
   bound, and may be empty; the last axis varies fastest. -/
namespace RowMajor

abbrev Bounds := List (Int × Int)

/-- How many indices an axis has, when it is not empty. -/
def extent (axis : Int × Int) : Int := axis.2 - axis.1 + 1

def count : Bounds → Int
  | [] => 1
  | axis :: bounds => extent axis * count bounds

def Within : Bounds → List Int → Prop
  | [], [] => True
  | axis :: bounds, i :: is => (axis.1 ≤ i ∧ i ≤ axis.2) ∧ Within bounds is
  | [], _ :: _ => False
  | _ :: _, [] => False

def HasElements (bounds : Bounds) : Prop := ∀ axis ∈ bounds, axis.1 ≤ axis.2

def place : Bounds → List Int → Int
  | axis :: bounds, i :: is => (i - axis.1) * count bounds + place bounds is
  | _, _ => 0

/-- The index vector at a place. -/
def index : Bounds → Int → List Int
  | [], _ => []
  | axis :: bounds, p => (axis.1 + p / count bounds) :: index bounds (p % count bounds)

variable {bounds : Bounds} {i : List Int}

theorem within_length (within : Within bounds i) : i.length = bounds.length := by
  induction bounds generalizing i with
  | nil =>
    cases i with
    | nil => rfl
    | cons j i => exact within.elim
  | cons axis bounds ih =>
    cases i with
    | nil => exact within.elim
    | cons j i => exact congrArg (· + 1) (ih within.2)

theorem within_hasElements (within : Within bounds i) : HasElements bounds := by
  induction bounds generalizing i with
  | nil =>
    intro axis member
    cases member
  | cons axis bounds ih =>
    cases i with
    | nil => exact within.elim
    | cons j i =>
      intro other member
      rcases List.mem_cons.mp member with rfl | later
      · exact Int.le_trans within.1.1 within.1.2
      · exact ih within.2 other later

theorem hasElements_cons {axis : Int × Int} :
    HasElements (axis :: bounds) ↔ axis.1 ≤ axis.2 ∧ HasElements bounds :=
  List.forall_mem_cons

theorem count_pos (elements : HasElements bounds) : 0 < count bounds := by
  induction bounds with
  | nil => exact Int.one_pos
  | cons axis bounds ih =>
    obtain ⟨first, later⟩ := hasElements_cons.mp elements
    refine Int.mul_pos ?_ (ih later)
    rw [extent]
    omega

/-- The vector of the lower bounds. -/
theorem lower_within (elements : HasElements bounds) : Within bounds (bounds.map Prod.fst) := by
  induction bounds with
  | nil => trivial
  | cons axis bounds ih =>
    obtain ⟨first, later⟩ := hasElements_cons.mp elements
    exact ⟨⟨Int.le_refl _, first⟩, ih later⟩

theorem upper_within (elements : HasElements bounds) : Within bounds (bounds.map Prod.snd) := by
  induction bounds with
  | nil => trivial
  | cons axis bounds ih =>
    obtain ⟨first, later⟩ := hasElements_cons.mp elements
    exact ⟨⟨first, Int.le_refl _⟩, ih later⟩

/-- A place between bounds is one of the places of the array. -/
theorem place_range (within : Within bounds i) :
    0 ≤ place bounds i ∧ place bounds i < count bounds := by
  induction bounds generalizing i with
  | nil =>
    cases i with
    | nil => exact ⟨Int.le_refl 0, Int.one_pos⟩
    | cons j i => exact within.elim
  | cons axis bounds ih =>
    cases i with
    | nil => exact within.elim
    | cons j i =>
      obtain ⟨own, later⟩ := within
      obtain ⟨low, high⟩ := ih later
      have positive := count_pos (within_hasElements later)
      have rows : (j - axis.1) * count bounds ≤ (axis.2 - axis.1) * count bounds :=
        Int.mul_le_mul_of_nonneg_right (by omega) (Int.le_of_lt positive)
      have whole : count (axis :: bounds) = (axis.2 - axis.1) * count bounds + count bounds := by
        rw [count, extent, Int.add_mul, Int.one_mul]
      have own_nonneg : 0 ≤ (j - axis.1) * count bounds :=
        Int.mul_nonneg (by omega) (Int.le_of_lt positive)
      rw [place, whole]
      omega

theorem index_within (elements : HasElements bounds) {p : Int} (low : 0 ≤ p)
    (high : p < count bounds) : Within bounds (index bounds p) := by
  induction bounds generalizing p with
  | nil => trivial
  | cons axis bounds ih =>
    obtain ⟨first, later⟩ := hasElements_cons.mp elements
    have positive := count_pos later
    have row : p / count bounds < extent axis := Int.ediv_lt_of_lt_mul positive high
    have row_nonneg : 0 ≤ p / count bounds := Int.ediv_nonneg low (Int.le_of_lt positive)
    rw [extent] at row
    refine ⟨⟨by omega, by omega⟩, ih later (Int.emod_nonneg _ (Int.ne_of_gt positive)) ?_⟩
    exact Int.emod_lt_of_pos _ positive

theorem place_index (elements : HasElements bounds) {p : Int} (low : 0 ≤ p)
    (high : p < count bounds) : place bounds (index bounds p) = p := by
  induction bounds generalizing p with
  | nil =>
    rw [count] at high
    change (0 : Int) = p
    omega
  | cons axis bounds ih =>
    obtain ⟨first, later⟩ := hasElements_cons.mp elements
    have positive := count_pos later
    have row : axis.1 + p / count bounds - axis.1 = p / count bounds := by omega
    rw [index, place, row, ih later (Int.emod_nonneg _ (Int.ne_of_gt positive))
      (Int.emod_lt_of_pos _ positive)]
    exact Int.ediv_mul_add_emod p (count bounds)

theorem index_place (within : Within bounds i) : index bounds (place bounds i) = i := by
  induction bounds generalizing i with
  | nil =>
    cases i with
    | nil => rfl
    | cons j i => exact within.elim
  | cons axis bounds ih =>
    cases i with
    | nil => exact within.elim
    | cons j i =>
      obtain ⟨_, later⟩ := within
      obtain ⟨low, high⟩ := place_range later
      have positive := count_pos (within_hasElements later)
      have row : ((j - axis.1) * count bounds + place bounds i) / count bounds = j - axis.1 := by
        rw [Int.add_comm, Int.add_mul_ediv_right _ _ (Int.ne_of_gt positive),
          Int.ediv_eq_zero_of_lt low high, Int.zero_add]
      have column : ((j - axis.1) * count bounds + place bounds i) % count bounds =
          place bounds i := by
        rw [Int.add_comm, Int.add_mul_emod_self_right, Int.emod_eq_of_lt low high]
      rw [place, index, row, column, ih later]
      congr 1
      omega

/-- Different vectors have different places. -/
theorem place_injective {j : List Int} (within_i : Within bounds i)
    (within_j : Within bounds j) (same : place bounds i = place bounds j) : i = j := by
  rw [← index_place within_i, same, index_place within_j]

/-- The elements of an array, with `e` bytes each, take the bytes from its address on. -/
theorem covered_iff {e address b : Int} (size : 0 ≤ e) :
    (∃ i, Within bounds i ∧ address + place bounds i * e ≤ b ∧
        b < address + place bounds i * e + e) ↔
      HasElements bounds ∧ address ≤ b ∧ b < address + count bounds * e := by
  constructor
  · rintro ⟨i, within, low, high⟩
    obtain ⟨nonneg, less⟩ := place_range within
    have first : 0 ≤ place bounds i * e := Int.mul_nonneg nonneg size
    have last : (place bounds i + 1) * e ≤ count bounds * e :=
      Int.mul_le_mul_of_nonneg_right (by omega) size
    rw [Int.add_mul, Int.one_mul] at last
    exact ⟨within_hasElements within, by omega, by omega⟩
  · rintro ⟨elements, low, high⟩
    have positive : 0 < e := by
      rcases Int.lt_or_eq_of_le size with positive | rfl
      · exact positive
      · rw [Int.mul_zero] at high
        omega
    have element : (b - address) / e < count bounds :=
      Int.ediv_lt_of_lt_mul positive (by omega)
    have nonneg : 0 ≤ (b - address) / e := Int.ediv_nonneg (by omega) size
    refine ⟨index bounds ((b - address) / e), index_within elements nonneg element, ?_⟩
    rw [place_index elements nonneg element]
    have split := Int.ediv_mul_add_emod (b - address) e
    have rest := Int.emod_nonneg (b - address) (Int.ne_of_gt positive)
    have less := Int.emod_lt_of_pos (b - address) positive
    omega

end RowMajor
