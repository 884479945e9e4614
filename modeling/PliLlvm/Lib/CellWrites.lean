import Mathlib.Algebra.Order.Group.Unbundled.Int
import Mathlib.Data.List.Basic

/- A memory of cells at whole addresses: blocks read and written, and blocks of one size written one
   after the other. -/
namespace CellWrites
variable {β κ : Type}

def read (mem : Int → β) (a : Int) (n : Nat) : List β := (List.range n).map fun
    (i : Nat) => mem (a + i)

def write (mem : Int → β) (a : Int) (cells : List β) : Int → β := fun b =>
  if a ≤ b ∧ b < a + cells.length then cells.getD (b - a).toNat (mem b) else mem b

/-- Two blocks of n cells share none. -/
def Apart (n : Nat) (a b : Int) : Prop := a + n ≤ b ∨ b + n ≤ a

def writeAll (target : κ → Int) (cells : κ → List β) (ks : List κ) (mem : Int → β) : Int → β :=
  ks.foldl (fun mem k => write mem (target k) (cells k)) mem

theorem read_length (mem : Int → β) (a : Int) (n : Nat) : (read mem a n).length = n := by
  simp [read]

theorem read_get {mem : Int → β} {a : Int} {n i : Nat} (inside : i < n) :
    (read mem a n)[i]? = some (mem (a + i)) := by
  simp [read, inside]

variable {mem : Int → β} {a : Int}

theorem read_congr {mem' : Int → β} {n : Nat}
    (same : ∀ b, a ≤ b → b < a + n → mem b = mem' b) : read mem a n = read mem' a n := by
  refine List.map_congr_left fun i member => same _ ?_ ?_
  · omega
  · have inside := List.mem_range.mp member
    omega

variable {cells : List β}

theorem write_outside {b : Int}
    (outside : ¬(a ≤ b ∧ b < a + cells.length)) : write mem a cells b = mem b :=
  if_neg outside

theorem write_inside {i : Nat} (inside : i < cells.length) :
    write mem a cells (a + i) = cells[i] := by
  have place : (a + i - a).toNat = i := by omega
  rw [write, if_pos ⟨by omega, by omega⟩, place, List.getD_eq_getElem?_getD,
    List.getElem?_eq_getElem inside, Option.getD_some]

theorem read_write (mem : Int → β) (a : Int) (cells : List β) :
    read (write mem a cells) a cells.length = cells := by
  refine List.ext_getElem (read_length _ _ _) fun i first second => ?_
  have there := @read_get _ (write mem a cells) a cells.length i second
  rw [write_inside second, List.getElem?_eq_getElem first] at there
  exact Option.some.inj there

theorem read_write_apart {b : Int} (apart : Apart cells.length a b) :
    read (write mem a cells) b cells.length = read mem b cells.length := by
  refine read_congr fun x low high => write_outside ?_
  unfold Apart at apart
  omega

section All
variable {n : Nat} {target : κ → Int} {cells : κ → List β} {ks : List κ}

theorem writeAll_outside (mem : Int → β) {b : Int}
    (outside : ∀ k ∈ ks, ¬(target k ≤ b ∧ b < target k + (cells k).length)) :
    writeAll target cells ks mem b = mem b := by
  induction ks generalizing mem with
  | nil => rfl
  | cons k ks ih =>
    obtain ⟨first, later⟩ := List.forall_mem_cons.mp outside
    change writeAll target cells ks (write mem (target k) (cells k)) b = mem b
    rw [ih _ later, write_outside first]

/-- Of blocks that share no cell each one is there in the end. -/
theorem writeAll_target (mem : Int → β) (size : ∀ k ∈ ks, (cells k).length = n)
    (apart : ks.Pairwise fun j k => Apart n (target j) (target k)) {k : κ} (member : k ∈ ks) :
    read (writeAll target cells ks mem) (target k) n = cells k := by
  induction ks generalizing mem with
  | nil => cases member
  | cons j ks ih =>
    obtain ⟨first, later⟩ := List.pairwise_cons.mp apart
    obtain ⟨own, sizes⟩ := List.forall_mem_cons.mp size
    change read (writeAll target cells ks (write mem (target j) (cells j))) (target k) n = cells k
    rcases List.mem_cons.mp member with rfl | behind
    · have kept : read (writeAll target cells ks (write mem (target k) (cells k))) (target k) n =
          read (write mem (target k) (cells k)) (target k) n := by
        refine read_congr fun b low high => writeAll_outside _ fun i inside => ?_
        have far := first i inside
        have length := sizes i inside
        unfold Apart at far
        omega
      rw [kept, ← own, read_write]
    · exact ih _ sizes later behind

/-- Blocks one behind the other are one block. -/
theorem writeAll_run {mem : Int → β} {a s : Int} {m : Nat} {target : Nat → Int}
    {cells : Nat → List β}
    (targets : ∀ k, k < m → target k = a + k * n)
    (sources : ∀ k, k < m → cells k = read mem (s + k * n) n) :
    writeAll target cells (List.range m) mem = write mem a (read mem s (m * n)) := by
  have size : ∀ k ∈ List.range m, (cells k).length = n := by
    intro k member
    rw [sources k (List.mem_range.mp member), read_length]
  have apart : (List.range m).Pairwise fun j k => Apart n (target j) (target k) := by
    refine List.pairwise_lt_range.imp_of_mem fun {j k} first second less => Or.inl ?_
    rw [targets j (List.mem_range.mp first), targets k (List.mem_range.mp second)]
    have rows : ((j + 1 : Nat) : Int) * n ≤ (k : Int) * n :=
      Int.mul_le_mul_of_nonneg_right (by omega) (by omega)
    push_cast at rows
    rw [Int.add_mul] at rows
    omega
  funext b
  by_cases inside : a ≤ b ∧ b < a + ((m * n : Nat) : Int)
  · obtain ⟨x, rfl⟩ : ∃ x : Nat, b = a + x := ⟨(b - a).toNat, by omega⟩
    have within : x < m * n := by omega
    have positive : 0 < n := Nat.pos_of_mul_pos_left (by omega : 0 < m * n)
    have row : x / n < m := Nat.div_lt_of_lt_mul (by rw [Nat.mul_comm]; exact within)
    have column : x % n < n := Nat.mod_lt x positive
    have parts : x / n * n + x % n = x := Nat.div_add_mod' x n
    have there := writeAll_target mem size apart (List.mem_range.mpr row)
    have cell := congrArg (·[x % n]?) there
    have address : a + ((x / n : Nat) : Int) * n + ((x % n : Nat) : Int) = a + x := by
      have whole : (((x / n : Nat) : Int) * n + ((x % n : Nat) : Int)) = x :=
        by exact_mod_cast parts
      omega
    have origin : s + ((x / n : Nat) : Int) * n + ((x % n : Nat) : Int) = s + x := by
      have whole : (((x / n : Nat) : Int) * n + ((x % n : Nat) : Int)) = x :=
        by exact_mod_cast parts
      omega
    simp only [read_get column, targets _ row, sources _ row, address, origin,
      Option.some.injEq] at cell
    have length : x < (read mem s (m * n)).length := by rw [read_length]; exact within
    have value := @read_get _ mem s (m * n) x within
    rw [List.getElem?_eq_getElem length] at value
    rw [cell, write_inside length]
    exact (Option.some.inj value).symm
  · rw [write_outside (by rw [read_length]; exact inside)]
    refine writeAll_outside mem fun k member => ?_
    have row := List.mem_range.mp member
    rw [size k member, targets k row]
    have rows : ((k + 1 : Nat) : Int) * n ≤ (m : Int) * n :=
      Int.mul_le_mul_of_nonneg_right (by omega) (by omega)
    have first : (0 : Int) ≤ (k : Int) * n := Int.mul_nonneg (by omega) (by omega)
    push_cast at rows inside
    rw [Int.add_mul] at rows
    omega

end All

end CellWrites
