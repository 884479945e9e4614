import PliLlvm.Runtime.StackArena

/- Where the arenas, their slots and the stacks are in every state of a run, and which faults
   the handler answers rightly. -/
namespace PliStackArena
open Runs
open Function (update update_of_ne update_self)

section Geometry
variable {k : Nat}

theorem page_pos : 0 < page k := Nat.two_pow_pos k

theorem chunk_power : ∃ j, rtStackChunkBytes k = 2 ^ j ∧ k < j := by
  unfold rtStackChunkBytes page
  split
  · exact ⟨k + 1, by rw [Nat.pow_succ, Nat.mul_comm], Nat.lt_succ_self k⟩
  · rename_i small
    refine ⟨16, rfl, ?_⟩
    by_contra large
    have grows : 2 ^ 16 ≤ 2 ^ k := Nat.pow_le_pow_right (by omega) (by omega)
    simp only [rtStackChunk] at small
    omega

theorem page_dvd_chunk : page k ∣ rtStackChunkBytes k := by
  obtain ⟨j, power, larger⟩ := @chunk_power k
  rw [power]
  exact Nat.pow_dvd_pow 2 (Nat.le_of_lt larger)

theorem two_pages : 2 * page k ≤ rtStackChunkBytes k := by
  unfold rtStackChunkBytes
  split <;> omega

theorem roundSize_spec (request : Nat) (bound : rtStackChunkBytes k ≤ 2 ^ 64) :
    rtStackChunkBytes k ∣ roundSize k request ∧ rtStackChunkBytes k ≤ roundSize k request := by
  obtain ⟨j, power, -⟩ := @chunk_power k
  unfold roundSize
  dsimp only
  split
  · exact ⟨Nat.dvd_refl _, Nat.le_refl _⟩
  · rename_i large
    refine ⟨?_, by omega⟩
    rw [power] at bound ⊢
    have within : j ≤ 64 := (Nat.pow_le_pow_iff_right (by omega)).mp bound
    have mask : (2 ^ 64 - 2 ^ j) % 2 ^ j = 0 :=
      Nat.mod_eq_zero_of_dvd (Nat.dvd_sub (Nat.pow_dvd_pow 2 within) (Nat.dvd_refl _))
    refine Nat.dvd_of_mod_eq_zero ?_
    rw [Nat.and_mod_two_pow, mask, Nat.and_zero]

/-- An arena as rt_arena_new lays it out, when nothing has wrapped. -/
structure Shape (k : Nat) (a : Arena) : Prop where
  aligned : page k ∣ a.base
  slot : a.slot = a.usable + page k
  bytes : a.bytes = a.slot * rtArenaSlots
  chunks : rtStackChunkBytes k ∣ a.usable
  room : rtStackChunkBytes k ≤ a.usable
  below : a.base + a.bytes < 2 ^ 64

variable {a b : Arena} {i j x : Nat}

theorem Shape.usable_pages (shape : Shape k a) : 2 * page k ≤ a.usable :=
  Nat.le_trans two_pages shape.room

theorem slotTop_eq (a : Arena) (i : Nat) : slotTop a i = slotBase a (i + 1) := by
  unfold slotTop slotBase
  rw [Nat.add_mul]
  omega

theorem slotBase_mono (le : i ≤ j) : slotBase a i ≤ slotBase a j :=
  Nat.add_le_add_left (Nat.mul_le_mul_right _ le) _

theorem slotTop_le (lt : i < j) : slotTop a i ≤ slotBase a j := by
  rw [slotTop_eq]
  exact slotBase_mono lt

theorem slot_within (shape : Shape k a) (inside : i < rtArenaSlots) :
    a.base ≤ slotBase a i ∧ slotBase a i < slotTop a i ∧ slotTop a i ≤ a.base + a.bytes := by
  have above : slotTop a i ≤ slotBase a rtArenaSlots := slotTop_le inside
  have whole : slotBase a rtArenaSlots = a.base + a.bytes := by
    rw [slotBase, shape.bytes, Nat.mul_comm]
  have slot := shape.slot
  have := @page_pos k
  refine ⟨Nat.le_add_right _ _, ?_, by omega⟩
  unfold slotTop
  omega

theorem slot_of (shape : Shape k a) (inside : a.holds x) : ∃ i, i < rtArenaSlots ∧
    (x - a.base) / a.slot = i ∧ slotBase a i ≤ x ∧ x < slotTop a i := by
  obtain ⟨low, high⟩ := inside
  have positive : 0 < a.slot := by
    have := shape.slot
    have := @page_pos k
    omega
  have quotient := Nat.div_add_mod (x - a.base) a.slot
  have remainder := Nat.mod_lt (x - a.base) positive
  refine ⟨(x - a.base) / a.slot, ?_, rfl, ?_, ?_⟩
  · refine Nat.div_lt_of_lt_mul ?_
    rw [← shape.bytes]
    omega
  · rw [slotBase, Nat.mul_comm]
    omega
  · rw [slotTop, slotBase, Nat.mul_comm]
    omega

theorem slot_index {r : Nat} (positive : r < a.slot) : (i * a.slot + r) / a.slot = i := by
  rw [Nat.mul_comm, Nat.mul_add_div (by omega), Nat.div_eq_of_lt positive, Nat.add_zero]

theorem stackAt_top (shape : Shape k a) :
    (stackAt k a i).base + (stackAt k a i).size = slotTop a i := by
  have := shape.slot
  simp only [stackAt, slotTop]
  omega

end Geometry

structure Layout (k : Nat) (s : Sys) : Prop where
  shape : ∀ a ∈ s.arenas, Shape k a
  disjoint : ∀ a ∈ s.arenas, ∀ b ∈ s.arenas,
    a = b ∨ a.base + a.bytes ≤ b.base ∨ b.base + b.bytes ≤ a.base
  free : ∀ a ∈ s.arenas, (s.free a.base).Nodup ∧ ∀ i ∈ s.free a.base, i < rtArenaSlots
  held : ∀ stack ∈ s.live, ∃ a ∈ s.arenas, ∃ i, i < rtArenaSlots ∧ i ∉ s.free a.base ∧
    stack = stackAt k a i
  given : ∀ a ∈ s.arenas, ∀ i, i < rtArenaSlots → i ∉ s.free a.base → stackAt k a i ∈ s.live
  once : s.live.Nodup
  pages : ∀ a ∈ s.arenas, ∀ i, i < rtArenaSlots →
    ∃ lo, slotBase a i + 2 * page k ≤ lo ∧ lo ≤ slotTop a i ∧
      ∀ p, slotBase a i ≤ p * page k → p * page k < slotTop a i →
        (s.acc p = true ↔ lo ≤ p * page k)

section Layouts
variable {k : Nat} {s : Sys} {a b : Arena} {i j x : Nat}

theorem start_layout (acc : Nat → Bool) : Layout k (Sys.start acc) where
  shape := by
    intro a member
    cases member
  disjoint := by
    intro a member
    cases member
  free := by
    intro a member
    cases member
  held := by
    intro stack member
    cases member
  given := by
    intro a member
    cases member
  once := List.nodup_nil
  pages := by
    intro a member
    cases member

section
variable (layout : Layout k s)
include layout

theorem Layout.apart (member : a ∈ s.arenas) (member' : b ∈ s.arenas)
    (inside : i < rtArenaSlots) (inside' : j < rtArenaSlots) :
    (a = b ∧ i = j) ∨ slotTop a i ≤ slotBase b j ∨ slotTop b j ≤ slotBase a i := by
  have first := slot_within (layout.shape a member) inside
  have second := slot_within (layout.shape b member') inside'
  rcases layout.disjoint a member b member' with rfl | before | after
  · rcases Nat.lt_trichotomy i j with less | same | more
    · exact .inr (.inl (slotTop_le less))
    · exact .inl ⟨rfl, same⟩
    · exact .inr (.inr (slotTop_le more))
  · exact .inr (.inl (by omega))
  · exact .inr (.inr (by omega))

theorem Layout.one_slot (member : a ∈ s.arenas) (member' : b ∈ s.arenas)
    (inside : i < rtArenaSlots) (inside' : j < rtArenaSlots) (low : slotBase a i ≤ x)
    (high : x < slotTop a i) (low' : slotBase b j ≤ x) (high' : x < slotTop b j) :
    a = b ∧ i = j := by
  rcases layout.apart member member' inside inside' with same | before | after
  · exact same
  · omega
  · omega

theorem Layout.stackAt_inj (member : a ∈ s.arenas)
    (member' : b ∈ s.arenas) (inside : i < rtArenaSlots) (inside' : j < rtArenaSlots)
    (same : (stackAt k a i).base = (stackAt k b j).base) : a = b ∧ i = j := by
  have first := slot_within (layout.shape a member) inside
  have second := slot_within (layout.shape b member') inside'
  simp only [stackAt] at same
  exact layout.one_slot (x := slotBase a i) member member' inside inside' (by omega) (by omega)
    (by omega) (by omega)

theorem Layout.arenaOf (member : a ∈ s.arenas) (inside : a.holds x) :
    rtArenaOf s.arenas x = some a := by
  unfold rtArenaOf
  cases found : s.arenas.find? fun a => decide (a.holds x) with
  | none =>
    have missing := List.find?_eq_none.mp found a member
    simp [inside] at missing
  | some b =>
    have member' := List.mem_of_find?_eq_some found
    have inside' : b.holds x := by simpa using List.find?_some found
    obtain ⟨low, high⟩ := inside
    obtain ⟨low', high'⟩ := inside'
    rcases layout.disjoint b member' a member with rfl | before | after
    · rfl
    · omega
    · omega

theorem Layout.sound : Sound k s where
  slots := by
    intro a member i inside
    by_cases free : i ∈ s.free a.base
    · left
      refine ⟨List.count_eq_one_of_mem (layout.free a member).1 free, fun live => ?_⟩
      obtain ⟨b, member', j, inside', used, same⟩ := layout.held _ live
      obtain ⟨rfl, rfl⟩ := layout.stackAt_inj member member' inside inside' (by rw [same])
      exact used free
    · right
      exact ⟨List.count_eq_zero_of_not_mem free,
        List.count_eq_one_of_mem layout.once (layout.given a member i inside free)⟩
  given := by
    intro stack live
    obtain ⟨a, member, i, inside, -, same⟩ := layout.held stack live
    exact ⟨a, member, i, inside, same⟩
  apart := fun a member b member' i j inside inside' =>
    layout.apart member member' inside inside'
  pages := layout.pages

theorem Layout.grown {lo : Nat} (member : a ∈ s.arenas)
    (inside : i < rtArenaSlots) (above : slotBase a i + 2 * page k ≤ lo)
    (below : lo ≤ slotTop a i) :
    Layout k { s with acc := protect k s.acc lo (slotTop a i - lo) } where
  shape := layout.shape
  disjoint := layout.disjoint
  free := layout.free
  held := layout.held
  given := layout.given
  once := layout.once
  pages := by
    intro b member' j inside'
    have whole : lo + (slotTop a i - lo) = slotTop a i := by omega
    obtain ⟨lo', above', below', exact'⟩ := layout.pages b member' j inside'
    rcases layout.apart member member' inside inside' with ⟨rfl, rfl⟩ | apart
    · refine ⟨min lo lo', by omega, by omega, fun p low high => ?_⟩
      have old := exact' p low high
      simp only [protect, whole]
      by_cases new : lo ≤ p * page k
      · rw [if_pos ⟨new, high⟩]
        simp only [true_iff]
        omega
      · rw [if_neg (by omega), old]
        omega
    · refine ⟨lo', above', below', fun p low high => ?_⟩
      have outside : ¬(lo ≤ p * page k ∧ p * page k < slotTop a i) := by
        have := @page_pos k
        omega
      simp only [protect, whole, if_neg outside]
      exact exact' p low high

theorem Layout.base_inj (member : a ∈ s.arenas) (member' : b ∈ s.arenas)
    (same : a.base = b.base) : a = b := by
  have first := slot_within (layout.shape a member) (i := 0) (by decide)
  have second := slot_within (layout.shape b member') (i := 0) (by decide)
  rcases layout.disjoint a member b member' with equal | before | after
  · exact equal
  · omega
  · omega

theorem Layout.free_update (member : a ∈ s.arenas) (member' : b ∈ s.arenas)
    (list : List Nat) : update s.free a.base list b.base =
      if b = a then list else s.free b.base := by
  by_cases same : b = a
  · rw [if_pos same, same, update_self]
  · rw [if_neg same, update_of_ne fun bases => same (layout.base_inj member' member bases)]

theorem Layout.taken {rest : List Nat} (member : a ∈ s.arenas) (first : s.free a.base = i :: rest) :
    Layout k { s with
      free := update s.free a.base rest, live := stackAt k a i :: s.live } := by
  obtain ⟨nodup, inside⟩ := layout.free a member
  rw [first] at nodup inside
  have used : i ∉ rest := (List.nodup_cons.mp nodup).1
  have bound : i < rtArenaSlots := inside i List.mem_cons_self
  refine ⟨layout.shape, layout.disjoint, fun b member' => ?_, fun stack live => ?_,
    fun b member' j inside' busy => ?_, ?_, layout.pages⟩
  · simp only [layout.free_update member member']
    split
    · exact ⟨(List.nodup_cons.mp nodup).2, fun j later => inside j (List.mem_cons_of_mem _ later)⟩
    · exact layout.free b member'
  · rcases List.mem_cons.mp live with rfl | live
    · refine ⟨a, member, i, bound, ?_, rfl⟩
      simp only [update_self]
      exact used
    · obtain ⟨b, member', j, inside', busy, same⟩ := layout.held stack live
      refine ⟨b, member', j, inside', ?_, same⟩
      simp only [layout.free_update member member']
      split
      · rename_i here
        rw [here, first] at busy
        exact fun later => busy (List.mem_cons_of_mem _ later)
      · exact busy
  · simp only [layout.free_update member member'] at busy
    split at busy
    · rename_i here
      subst here
      by_cases same : j = i
      · exact same ▸ List.mem_cons_self
      · refine List.mem_cons_of_mem _ (layout.given b member j inside' ?_)
        rw [first]
        exact fun listed => (List.mem_cons.mp listed).elim same busy
    · exact List.mem_cons_of_mem _ (layout.given b member' j inside' busy)
  · refine List.nodup_cons.mpr ⟨fun live => ?_, layout.once⟩
    obtain ⟨b, member', j, inside', busy, same⟩ := layout.held _ live
    obtain ⟨rfl, rfl⟩ := layout.stackAt_inj member member' bound inside' (by rw [same])
    rw [first] at busy
    exact busy List.mem_cons_self

theorem Layout.returned (member : a ∈ s.arenas) (inside : i < rtArenaSlots)
    (used : i ∉ s.free a.base) :
    Layout k { s with
      free := update s.free a.base (i :: s.free a.base)
      live := s.live.erase (stackAt k a i) } := by
  obtain ⟨nodup, bounds⟩ := layout.free a member
  refine ⟨layout.shape, layout.disjoint, fun b member' => ?_, fun stack live => ?_,
    fun b member' j inside' busy => ?_, layout.once.erase _, layout.pages⟩
  · simp only [layout.free_update member member']
    split
    · refine ⟨List.nodup_cons.mpr ⟨used, nodup⟩, fun j listed => ?_⟩
      rcases List.mem_cons.mp listed with rfl | later
      · exact inside
      · exact bounds j later
    · exact layout.free b member'
  · obtain ⟨other, live⟩ := (layout.once.mem_erase_iff).mp live
    obtain ⟨b, member', j, inside', busy, same⟩ := layout.held stack live
    refine ⟨b, member', j, inside', ?_, same⟩
    simp only [layout.free_update member member']
    split
    · rename_i here
      subst here
      intro listed
      rcases List.mem_cons.mp listed with rfl | later
      · exact other same
      · exact busy later
    · exact busy
  · simp only [layout.free_update member member'] at busy
    split at busy
    · rename_i here
      subst here
      rw [List.mem_cons, not_or] at busy
      obtain ⟨other, busy⟩ := busy
      refine (layout.once.mem_erase_iff).mpr ⟨fun same => other ?_,
        layout.given b member j inside' busy⟩
      exact (layout.stackAt_inj member member inside' inside (by rw [same])).2
    · rename_i elsewhere
      refine (layout.once.mem_erase_iff).mpr ⟨fun same => elsewhere ?_,
        layout.given b member' j inside' busy⟩
      exact (layout.stackAt_inj member' member inside' inside (by rw [same])).1

theorem Layout.extended {usable region : Nat}
    (shape : Shape k (arenaAt k usable region)) (fresh : freshFor k s (arenaAt k usable region)) :
    Layout k (rtArenaNew k s usable region).1 := by
  obtain ⟨-, -, away⟩ := fresh
  have lists : ∀ b ∈ s.arenas, update s.free region (List.range rtArenaSlots).reverse
      b.base = s.free b.base := by
    intro b member
    have first := slot_within shape (i := 0) (by decide)
    have second := slot_within (layout.shape b member) (i := 0) (by decide)
    refine update_of_ne (fun same => ?_) _ _
    have base : (arenaAt k usable region).base = region := rfl
    rcases away b member with before | after
    · omega
    · omega
  refine ⟨fun b member => ?_, fun b member c member' => ?_, fun b member => ?_,
    fun stack live => ?_, fun b member j inside busy => ?_, layout.once,
    fun b member j inside => ?_⟩
  · rcases List.mem_cons.mp member with rfl | member
    · exact shape
    · exact layout.shape b member
  · rcases List.mem_cons.mp member with rfl | member <;>
      rcases List.mem_cons.mp member' with rfl | member'
    · exact .inl rfl
    · exact .inr (away c member')
    · exact .inr (away b member).symm
    · exact layout.disjoint b member c member'
  · rcases List.mem_cons.mp member with rfl | member
    · simp only [rtArenaNew, arenaAt, update_self]
      refine ⟨List.nodup_reverse.mpr List.nodup_range, fun i listed => ?_⟩
      exact List.mem_range.mp (List.mem_reverse.mp listed)
    · simp only [rtArenaNew, lists b member]
      exact layout.free b member
  · obtain ⟨b, member, j, inside, busy, same⟩ := layout.held stack live
    refine ⟨b, List.mem_cons_of_mem _ member, j, inside, ?_, same⟩
    simp only [rtArenaNew, lists b member]
    exact busy
  · rcases List.mem_cons.mp member with rfl | member
    · simp only [rtArenaNew, arenaAt, update_self] at busy
      exact absurd (List.mem_reverse.mpr (List.mem_range.mpr inside)) busy
    · simp only [rtArenaNew, lists b member] at busy
      exact layout.given b member j inside busy
  · rcases List.mem_cons.mp member with rfl | member
    · have within := slot_within shape inside
      have room := shape.usable_pages
      have slot := shape.slot
      refine ⟨slotTop (arenaAt k usable region) j, ?_, Nat.le_refl _, fun p low high => ?_⟩
      · unfold slotTop
        omega
      · have base : (arenaAt k usable region).base = region := rfl
        simp only [rtArenaNew, reserve]
        rw [if_pos ⟨by omega, by omega⟩]
        simp only [Bool.false_eq_true, false_iff]
        omega
    · obtain ⟨lo, above, below, exact'⟩ := layout.pages b member j inside
      refine ⟨lo, above, below, fun p low high => ?_⟩
      have within := slot_within (layout.shape b member) inside
      have base : (arenaAt k usable region).base = region := rfl
      have outside : ¬(region ≤ p * page k ∧
          p * page k < region + (arenaAt k usable region).bytes) := by
        rcases away b member with before | after <;> omega
      simp only [rtArenaNew, reserve, if_neg outside]
      exact exact' p low high

end

variable {request : Nat}

theorem arenaAt_shape {region : Nat} (fits : (roundSize k request + page k) * rtArenaSlots < 2 ^ 64)
    (fresh : freshFor k s (arenaAt k (roundSize k request) region)) :
    Shape k (arenaAt k (roundSize k request) region) := by
  have least : rtStackChunkBytes k ≤ roundSize k request ∨ roundSize k request <
      rtStackChunkBytes k := by omega
  have small : rtStackChunkBytes k ≤ 2 ^ 64 := by
    rcases least with below | above
    · simp only [rtArenaSlots] at fits
      omega
    · unfold roundSize at above
      dsimp only at above
      split at above <;> omega
  obtain ⟨chunks, room⟩ := roundSize_spec request small
  have slot : sizeT (roundSize k request + page k) = roundSize k request + page k := by
    refine Nat.mod_eq_of_lt ?_
    simp only [rtArenaSlots] at fits
    omega
  refine ⟨fresh.1, slot, ?_, chunks, room, fresh.2.1⟩
  simp only [arenaAt, slot]
  exact Nat.mod_eq_of_lt fits

theorem take_spec {mapped : Option Nat} (layout : Layout k s)
    (fits : (roundSize k request + page k) * rtArenaSlots < 2 ^ 64)
    (fresh : ∀ region ∈ mapped, freshFor k s (arenaAt k (roundSize k request) region)) :
    rtArenaTake k s (roundSize k request) mapped = none ∨
      ∃ s' a i rest, rtArenaTake k s (roundSize k request) mapped =
          some ({ s' with free := update s'.free a.base rest }, a, sizeT (i * a.slot)) ∧
        Layout k s' ∧ s'.live = s.live ∧ a ∈ s'.arenas ∧ a.usable = roundSize k request ∧
        s'.free a.base = i :: rest := by
  unfold rtArenaTake
  dsimp only
  cases found : s.arenas.find? fun a =>
    a.usable == roundSize k request && !(s.free a.base).isEmpty with
  | some a =>
    have member := List.mem_of_find?_eq_some found
    have meets := List.find?_some found
    simp only [Bool.and_eq_true, beq_iff_eq, Bool.not_eq_true', List.isEmpty_eq_false_iff] at meets
    obtain ⟨i, rest, first⟩ := List.exists_cons_of_ne_nil meets.2
    refine .inr ⟨s, a, i, rest, ?_, layout, rfl, member, meets.1, first⟩
    simp only [Option.bind_some, first]
  | none =>
    cases mapped with
    | none => exact .inl rfl
    | some region =>
      have fresh := fresh region rfl
      have shape := arenaAt_shape fits fresh
      refine .inr ⟨(rtArenaNew k s (roundSize k request) region).1,
        arenaAt k (roundSize k request) region, 63, (List.range 63).reverse, ?_,
        layout.extended shape fresh, rfl, List.mem_cons_self, rfl, ?_⟩
      · simp only [Option.map_some, Option.bind_some, rtArenaNew, arenaAt, update_self]
        rfl
      · simp only [rtArenaNew, arenaAt, update_self]
        rfl

theorem alloc_layout {mapped : Option Nat} (layout : Layout k s)
    (fits : (roundSize k request + page k) * rtArenaSlots < 2 ^ 64)
    (fresh : ∀ region ∈ mapped, freshFor k s (arenaAt k (roundSize k request) region)) :
    Layout k { (stackAlloc k s request mapped).1 with
      live := (stackAlloc k s request mapped).2.toList ++ s.live } := by
  unfold stackAlloc
  dsimp only
  rcases take_spec layout fits fresh with none | ⟨s', a, i, rest, taken, layout',
    live, member, size,
    first⟩
  · rw [none]
    exact layout
  · rw [taken]
    have shape := layout'.shape a member
    have bound : i < rtArenaSlots := (layout'.free a member).2 i (by rw [first]; simp)
    have within := slot_within shape bound
    have slot := shape.slot
    have below := shape.below
    have room := shape.usable_pages
    have place : slotBase a i = a.base + i * a.slot := rfl
    have top : slotTop a i = slotBase a i + a.slot := rfl
    have off : sizeT (i * a.slot) = i * a.slot := Nat.mod_eq_of_lt (by omega)
    have usable : sizeT (a.base + i * a.slot + page k) = slotBase a i + page k :=
      Nat.mod_eq_of_lt (by omega)
    have last : sizeT (slotBase a i + page k + a.usable) = slotTop a i := by
      rw [sizeT, Nat.mod_eq_of_lt (by omega)]
      omega
    have above : slotBase a i + 2 * page k ≤ slotTop a i - page k := by omega
    have grown := (layout'.taken member first).grown member bound above (by omega)
    have length : slotTop a i - (slotTop a i - page k) = page k := by omega
    rw [length] at grown
    simp only [off, usable, ← size, last, ← live, Option.toList_some]
    exact grown

variable {stack : Stack}

theorem free_layout (layout : Layout k s) (live : stack ∈ s.live) :
    Layout k { stackFree s stack.base with live := s.live.erase stack } := by
  obtain ⟨a, member, i, inside, used, rfl⟩ := layout.held stack live
  have shape := layout.shape a member
  have within := slot_within shape inside
  have room := shape.usable_pages
  have slot := shape.slot
  have place : slotBase a i = a.base + i * a.slot := rfl
  have top : slotTop a i = slotBase a i + a.slot := rfl
  have holds : a.holds (slotBase a i + page k) := ⟨by omega, by have := @page_pos k; omega⟩
  have index : (slotBase a i + page k - a.base) / a.slot = i := by
    rw [show slotBase a i + page k - a.base = i * a.slot + page k by omega]
    exact slot_index (by have := @page_pos k; omega)
  obtain ⟨nodup, bounds⟩ := layout.free a member
  have short : (s.free a.base).length < rtArenaSlots := by
    have sub : i :: s.free a.base ⊆ List.range rtArenaSlots := by
      intro j listed
      rcases List.mem_cons.mp listed with rfl | later
      · exact List.mem_range.mpr inside
      · exact List.mem_range.mpr (bounds j later)
    have fewer := (List.subperm_of_subset (List.nodup_cons.mpr ⟨used, nodup⟩) sub).length_le
    rw [List.length_range] at fewer
    exact fewer
  have returned := layout.returned member inside used
  simp only [stackFree, stackAt, layout.arenaOf member holds, rtArenaGive, if_pos short, index]
  exact returned

theorem slotTop_aligned (shape : Shape k a) : page k ∣ slotTop a i := by
  have slot : page k ∣ a.slot := by
    rw [shape.slot]
    exact Nat.dvd_add (Nat.dvd_trans page_dvd_chunk shape.chunks) (Nat.dvd_refl _)
  rw [slotTop_eq, slotBase]
  exact Nat.dvd_add shape.aligned (Nat.dvd_mul_left_of_dvd slot _)

theorem fault_in_slot (layout : Layout k s) (member : a ∈ s.arenas) (inside : i < rtArenaSlots)
    (low : slotBase a i ≤ x) (high : x < slotTop a i) :
    (x < slotBase a i + 2 * page k ∧ rtStackFault k s x = (2, s.acc)) ∨
      (slotBase a i + 2 * page k ≤ x ∧ ∃ lo, page k ∣ lo ∧ slotBase a i + 2 * page k ≤ lo ∧ lo ≤ x ∧
        rtStackFault k s x = (1, protect k s.acc lo (slotTop a i - lo))) := by
  have shape := layout.shape a member
  have within := slot_within shape inside
  have slot := shape.slot
  have below := shape.below
  have place : slotBase a i = a.base + i * a.slot := rfl
  have last : slotTop a i = slotBase a i + a.slot := rfl
  have index : (x - a.base) / a.slot = i := by
    rw [show x - a.base = i * a.slot + (x - slotBase a i) by omega]
    exact slot_index (by omega)
  have usable : sizeT (a.base + i * a.slot + page k) = slotBase a i + page k := by
    have := shape.usable_pages
    exact Nat.mod_eq_of_lt (by omega)
  have top : sizeT (slotBase a i + page k + a.usable) = slotTop a i := by
    rw [sizeT, Nat.mod_eq_of_lt (by omega)]
    omega
  unfold rtStackFault
  rw [layout.arenaOf member (x := x) ⟨by omega, by omega⟩]
  dsimp only
  rw [index, usable, top, if_neg (by omega)]
  by_cases under : x < slotBase a i + page k + page k
  · rw [if_pos under]
    exact .inl ⟨by omega, rfl⟩
  · rw [if_neg under]
    right
    refine ⟨by omega, ?_⟩
    have chunk : 0 < rtStackChunkBytes k := by
      have := @two_pages k
      have := @page_pos k
      omega
    have quotient := Nat.div_add_mod (slotTop a i - x - 1) (rtStackChunkBytes k)
    have remainder := Nat.mod_lt (slotTop a i - x - 1) chunk
    have whole : ((slotTop a i - x - 1) / rtStackChunkBytes k + 1) * rtStackChunkBytes k =
        rtStackChunkBytes k * ((slotTop a i - x - 1) / rtStackChunkBytes k) +
          rtStackChunkBytes k := by
      rw [Nat.add_mul, Nat.one_mul, Nat.mul_comm]
    by_cases bottom : slotTop a i -
        ((slotTop a i - x - 1) / rtStackChunkBytes k + 1) * rtStackChunkBytes k <
          slotBase a i + page k + page k
    · rw [if_pos bottom]
      refine ⟨slotBase a i + page k + page k, ?_, by omega, by omega, rfl⟩
      have floor : slotBase a i + page k + page k + a.usable = slotTop a i + page k := by omega
      refine (Nat.dvd_add_left (Nat.dvd_trans page_dvd_chunk shape.chunks)).mp ?_
      rw [floor]
      exact Nat.dvd_add (slotTop_aligned shape) (Nat.dvd_refl _)
    · rw [if_neg bottom]
      refine ⟨_, ?_, by omega, by omega, rfl⟩
      exact Nat.dvd_sub (slotTop_aligned shape)
        (Nat.dvd_mul_left_of_dvd page_dvd_chunk _)

theorem fault_outside (outside : ∀ a ∈ s.arenas, ¬a.holds x) :
    rtStackFault k s x = (0, s.acc) := by
  have none : rtArenaOf s.arenas x = none :=
    List.find?_eq_none.mpr fun a member => by simp [outside a member]
  unfold rtStackFault
  rw [none]

theorem protect_address {acc : Nat → Bool} {lo top : Nat} (aligned : page k ∣ lo) (low : lo ≤ x)
    (high : x < top) : protect k acc lo (top - lo) (x / page k) = true := by
  have quotient := Nat.div_add_mod x (page k)
  have product : page k * (x / page k) = x / page k * page k := Nat.mul_comm _ _
  have start : lo ≤ x / page k * page k := by
    obtain ⟨m, rfl⟩ := aligned
    rw [Nat.mul_comm (page k)]
    refine Nat.mul_le_mul_right _ ?_
    rw [Nat.le_div_iff_mul_le page_pos, Nat.mul_comm]
    exact low
  unfold protect
  rw [if_pos ⟨start, by omega⟩]

theorem fault_right_iff (layout : Layout k s) (raised : Raised k s stack x) :
    FaultRight k s stack x ↔ stack.base ≤ x + page k ∨ ∃ a ∈ s.arenas, ∃ i, i < rtArenaSlots ∧
      slotBase a i ≤ x ∧ x < slotBase a i + 2 * page k := by
  obtain ⟨live, under, closed⟩ := raised
  obtain ⟨a, member, i, inside, -, rfl⟩ := layout.held stack live
  have shape := layout.shape a member
  have top := stackAt_top (i := i) shape
  rw [top] at under
  have base : (stackAt k a i).base = slotBase a i + page k := rfl
  have pages := @page_pos k
  unfold FaultRight
  rw [top, base]
  by_cases own : slotBase a i ≤ x
  · refine ⟨fun _ => .inl (by omega), fun _ => ?_⟩
    rcases fault_in_slot layout member inside own under with ⟨bottom, answer⟩ |
      ⟨above, lo, aligned, floor, low, answer⟩
    · rw [answer, if_neg (by omega)]
      exact ⟨fun p _ => rfl, rfl⟩
    · rw [answer, if_pos (by omega)]
      exact ⟨fun p outside => if_neg (by omega), rfl, protect_address aligned low under⟩
  · rw [if_neg (by omega)]
    by_cases held : ∃ b ∈ s.arenas, b.holds x
    · obtain ⟨b, member', holds⟩ := held
      obtain ⟨j, inside', -, low, high⟩ := slot_of (layout.shape b member') holds
      rcases fault_in_slot layout member' inside' low high with ⟨bottom, answer⟩ |
        ⟨above, lo, aligned, floor, from', answer⟩
      · rw [answer]
        exact ⟨fun _ => .inr ⟨b, member', j, inside', low, bottom⟩, fun _ => ⟨fun p _ => rfl, rfl⟩⟩
      · rw [answer]
        refine ⟨fun right => ?_, fun lands => ?_⟩
        · cases right.2
        · rcases lands with near | ⟨c, member'', m, inside'', low', bottom⟩
          · omega
          · have roomy := (layout.shape c member'').usable_pages
            have last : slotTop c m = slotBase c m + c.slot := rfl
            have slot := (layout.shape c member'').slot
            obtain ⟨rfl, rfl⟩ := layout.one_slot member' member'' inside' inside'' low high low'
              (by omega)
            omega
    · have nowhere : ∀ b ∈ s.arenas, ¬b.holds x := fun b member' holds => held ⟨b, member', holds⟩
      rw [fault_outside nowhere]
      refine ⟨fun right => ?_, fun lands => ?_⟩
      · cases right.2
      · rcases lands with near | ⟨c, member'', m, inside'', low', bottom⟩
        · omega
        · have shape' := layout.shape c member''
          have within := slot_within shape' inside''
          have roomy := shape'.usable_pages
          have last : slotTop c m = slotBase c m + c.slot := rfl
          have slot := shape'.slot
          exact absurd ⟨by omega, by omega⟩ (nowhere c member'')

theorem fault_layout (layout : Layout k s) (grew : (rtStackFault k s x).1 = 1) :
    Layout k { s with acc := (rtStackFault k s x).2 } := by
  by_cases held : ∃ b ∈ s.arenas, b.holds x
  · obtain ⟨b, member, holds⟩ := held
    obtain ⟨j, inside, -, low, high⟩ := slot_of (layout.shape b member) holds
    rcases fault_in_slot layout member inside low high with ⟨bottom, answer⟩ |
      ⟨above, lo, aligned, floor, from', answer⟩
    · rw [answer] at grew
      cases grew
    · rw [answer]
      exact layout.grown member inside floor (by omega)
  · rw [fault_outside fun b member holds => held ⟨b, member, holds⟩] at grew
    cases grew

theorem step_layout {e : Event} {s' : Sys} (layout : Layout k s) (fits : Fits k s e)
    (stepped : step k s e = some s') : Layout k s' := by
  cases e with
  | alloc request mapped =>
    simp only [step] at stepped
    split at stepped
    · rename_i fresh
      cases stepped
      have allocated := alloc_layout layout fits fresh
      have live : (stackAlloc k s request mapped).1.live = s.live := by
        unfold stackAlloc
        dsimp only
        rcases take_spec layout fits fresh with none | ⟨s₁, a, i, rest, taken, -, live, -⟩
        · rw [none]
        · rw [taken]
          exact live
      rw [live]
      exact allocated
    · cases stepped
  | free base =>
    simp only [step] at stepped
    cases found : s.live.find? (·.base == base) with
    | none =>
      rw [found] at stepped
      cases stepped
    | some stack =>
      rw [found] at stepped
      cases stepped
      have named : stack.base = base := by simpa using List.find?_some found
      rw [← named]
      exact free_layout layout (List.mem_of_find?_eq_some found)
  | fault stack x =>
    simp only [step] at stepped
    split at stepped
    · split at stepped
      · rename_i grew
        cases stepped
        exact fault_layout layout grew
      · cases stepped
    · cases stepped

end Layouts

/-- In every run whose arenas fit the address space each state is sound; and each fault that the
    run raises is answered rightly exactly if each is in its stack's own slot, or in the guard
    page or the bottom usable page of another. -/
theorem stacks_apart_iff (k : Nat) (acc : Nat → Bool) (es : List Event)
    (fits : AllSteps (step k) (Fits k) (Sys.start acc) es) :
    (∀ done rest s, es = done ++ rest → run (step k) (Sys.start acc) done = some s → Sound k s) ∧
      (AllSteps (step k) (Right k) (Sys.start acc) es ↔
        AllSteps (step k) (Lands k) (Sys.start acc) es) := by
  have keep : ∀ s e s', Layout k s → Fits k s e → step k s e = some s' → Layout k s' :=
    fun _ _ _ layout fits stepped => step_layout layout fits stepped
  refine ⟨fun done rest s split reached => ?_, ?_⟩
  · subst split
    exact (run_invariant_where keep (start_layout acc)
      (allSteps_append_iff.mp fits).1 reached).sound
  · refine allSteps_congr (fun s e possible => ?_) (allSteps_invariant keep (start_layout acc) fits)
    cases e with
    | alloc request mapped | free base => exact Iff.rfl
    | fault stack x => exact forall_congr' fun raised => fault_right_iff possible.1 raised

set_option maxRecDepth 10000 in
/-- Two stacks of one chunk each; a frame of the upper one that is larger than its stack reaches
    the lower one, whose pages the handler then makes accessible. And a request whose arena does
    not fit the address space gets a stack that is in no arena. -/
theorem frame_reaches_neighbour :
    (∃ s, run (step 12) (Sys.start fun _ => false)
        [.alloc 65536 (some 1048576), .alloc 65536 none] = some s ∧
      s.live = [⟨5369856, 65536⟩, ⟨5439488, 65536⟩] ∧
      Raised 12 s ⟨5439488, 65536⟩ 5400000 ∧ (rtStackFault 12 s 5400000).1 = 1 ∧
      s.acc 1318 = false ∧ (rtStackFault 12 s 5400000).2 1318 = true) ∧
    ∃ s, run (step 12) (Sys.start fun _ => false) [.alloc (2 ^ 58) (some 1048576)] = some s ∧
      ∃ stack ∈ s.live, ∀ a ∈ s.arenas, ¬a.holds stack.base := by
  refine ⟨⟨_, rfl, rfl, ?_, ?_, ?_, ?_⟩, ⟨_, rfl, _, List.mem_cons_self, ?_⟩⟩
  · decide +kernel
  · decide +kernel
  · decide +kernel
  · decide +kernel
  · intro a member
    obtain rfl := List.mem_singleton.mp member
    decide

set_option maxRecDepth 10000 in
/-- A stack that grows by one page of its own. -/
theorem stack_grows : ∃ s, run (step 12) (Sys.start fun _ => false)
    [.alloc 65536 (some 1048576), .fault ⟨5439488, 65536⟩ 5500000] = some s ∧ Sound 12 s := by
  refine ⟨_, rfl, ?_⟩
  refine (stacks_apart_iff 12 _ [.alloc 65536 (some 1048576), .fault ⟨5439488, 65536⟩ 5500000]
    ?_).1 _ [] _ (List.append_nil _).symm rfl
  refine (allSteps_cons_iff rfl).mpr ⟨?_, (allSteps_cons_iff rfl).mpr ⟨trivial, trivial⟩⟩
  exact (by decide : (roundSize 12 65536 + page 12) * rtArenaSlots < 2 ^ 64)

end PliStackArena
