import PliLlvm.Lib.Run
import PliLlvm.Lib.Chain
import Mathlib.Algebra.Order.BigOperators.Group.List
import Mathlib.Data.List.Perm.Subperm
import Mathlib.Algebra.Order.Ring.Int

/- AREA storage (runtime/rt_storage.c). Areas and blocks are cells of one address space,
   found by their address; NULL is 0, sizes are long long, and a pointer into a block stands
   16 bytes above its header. What malloc returns is the environment's choice, and using
   an area that was never created or is destroyed is undefined. The ON unit that
   rt_area_raise runs makes its own calls after the one that raised, which has nothing left
   to do by then but return; with no unit the program ends there. -/
namespace PliAreas
open Runs Chains
open Function (update update_eq_self update_of_ne update_self)

structure PliBlock where
  size : Int64
  next : UInt64

structure PliArea where
  size : Int64
  used : Int64
  blocks : UInt64

structure Heap where
  areas : UInt64 → Option PliArea
  blocks : UInt64 → Option PliBlock

def Heap.start : Heap := ⟨fun _ => none, fun _ => none⟩

def blockShape : Shape UInt64 PliBlock Int64 where
  null := 0
  next b := b.next
  data b := b.size
  relink b p := { b with next := p }
  next_relink _ _ := rfl
  data_relink _ _ := rfl

def hdr : Int64 := 16

def turns : Nat := 2 ^ 64 + 1

/-- `raise` is what the call returns once the ON unit has resumed. -/
inductive Outcome where
  | done
  | ret (p : UInt64)
  | raise (msg : String) (p : UInt64)
  | abort (msg : String)

def pliAreaCreate (h : Heap) (n : Int64) (m : UInt64) : Heap × Outcome :=
  if m = 0 then (h, .abort "AREA: out of memory")
  else ({ h with areas := update h.areas m (some ⟨if 0 < n then n else 0, 0, 0⟩) }, .ret m)

def pliAreaDestroy (h : Heap) (ap : UInt64) : Option (Heap × Outcome) :=
  if ap = 0 then some (h, .done)
  else (h.areas ap).bind fun a =>
    (releaseAll blockShape turns h.blocks a.blocks).map fun blocks =>
      (⟨update h.areas ap none, blocks⟩, .done)

def pliAreaAlloc (h : Heap) (ap : UInt64) (n : Int64) (m : UInt64) : Option (Heap × Outcome) :=
  if ap = 0 then some (h, .raise "AREA: allocation from a null area" 0)
  else (h.areas ap).map fun a =>
    let need := if n < 0 then 0 else n
    if need > a.size - a.used - hdr then (h, .raise "AREA: area overflow" 0)
    else if m = 0 then (h, .abort "AREA: out of memory")
    else
      ({ areas := update h.areas ap
          (some { a with blocks := m, used := a.used + (need + hdr) })
         blocks := update h.blocks m (some ⟨need, a.blocks⟩) }, .ret (m + 16))

def pliAreaOffset (h : Heap) (ap p : UInt64) : Option (Heap × Outcome) :=
  if p = 0 then some (h, .ret 0)
  else if ap = 0 then some (h, .raise "AREA: OFFSET of a pointer with a null area" p)
  else (h.areas ap).bind fun a =>
    (seek blockShape h.blocks (p - 16) turns .head a.blocks).map fun (_, live) =>
      if live = 0 then (h, .raise "AREA: OFFSET of a pointer not allocated in this area" p)
      else (h, .ret p)

def pliAreaFree (h : Heap) (ap p : UInt64) : Option (Heap × Outcome) :=
  if p = 0 then some (h, .done)
  else if ap = 0 then some (h, .raise "AREA: FREE through a null area" 0)
  else (h.areas ap).bind fun a =>
    (seek blockShape h.blocks (p - 16) turns .head a.blocks).bind fun (link, found) =>
      if found = 0 then some (h, .raise "AREA: FREE of a pointer not allocated in this area" 0)
      else (h.blocks found).map fun b =>
        ({ areas := update h.areas ap
            (some { a with
              blocks := if link = .head then b.next else a.blocks
              used := a.used - (b.size + hdr) })
           blocks := update (storeLink blockShape h.blocks link b.next) found none }, .done)

inductive Call where
  | create (n : Int64) (m : UInt64)
  | alloc (ap : UInt64) (n : Int64) (m : UInt64)
  | free (ap p : UInt64)
  | offset (ap p : UInt64)
  | destroy (ap : UInt64)

def perform (h : Heap) : Call → Option (Heap × Outcome)
  | .create n m => some (pliAreaCreate h n m)
  | .alloc ap n m => pliAreaAlloc h ap n m
  | .free ap p => pliAreaFree h ap p
  | .offset ap p => pliAreaOffset h ap p
  | .destroy ap => pliAreaDestroy h ap

def step (h : Heap) (call : Call) : Option Heap :=
  match perform h call with
  | some (_, .abort _) => none
  | some (h', _) => some h'
  | none => none

def need (n : Int64) : Int := max n.toInt 0

def Mallocs (h : Heap) : Call → Prop
  | .create _ m => m ≠ 0 → h.areas m = none ∧ h.blocks m = none
  | .alloc _ n m => m ≠ 0 → (h.areas m = none ∧ h.blocks m = none) ∧ m.toNat + 16 + need n < 2 ^ 64
  | _ => True

instance (h : Heap) (call : Call) : Decidable (Mallocs h call) :=
  match call with
  | .create _ m => inferInstanceAs (Decidable (m ≠ 0 → h.areas m = none ∧ h.blocks m = none))
  | .alloc _ n m => inferInstanceAs (Decidable
      (m ≠ 0 → (h.areas m = none ∧ h.blocks m = none) ∧ m.toNat + 16 + need n < 2 ^ 64))
  | .free _ _ | .offset _ _ | .destroy _ => isTrue trivial

/- The accounts a program could keep: what each area was created with and the blocks it has
   taken from it and not given back, newest first, by header address and size. -/
structure Region where
  capacity : Int
  live : List (UInt64 × Int64)
  deriving DecidableEq

abbrev Accounts := UInt64 → Option Region

def Region.charged (r : Region) : Int := (r.live.map fun b => b.2.toInt + 16).sum

def Region.headers (r : Region) : List UInt64 := r.live.map Prod.fst

def entered (s : Accounts) : Call → Accounts
  | .create n m => update s m (some ⟨need n, []⟩)
  | .alloc ap n m =>
    match s ap with
    | none => s
    | some r =>
      if need n + 16 ≤ r.capacity - r.charged then
        update s ap (some { r with live := (m, if n < 0 then 0 else n) :: r.live })
      else s
  | .free ap p =>
    match s ap with
    | none => s
    | some r =>
      if p = 0 then s
      else update s ap (some { r with live := r.live.filter fun b => b.1 ≠ p - 16 })
  | .offset _ _ => s
  | .destroy ap => update s ap none

structure Holds (blocks : UInt64 → Option PliBlock) (ar : PliArea) (r : Region) : Prop where
  size : ar.size.toInt = r.capacity
  used : ar.used.toInt = r.charged
  within : r.charged ≤ r.capacity
  chain : Chain blockShape blocks ar.blocks r.live
  distinct : r.headers.Nodup
  sized : ∀ b ∈ r.live, 0 ≤ b.2.toInt ∧ b.1.toNat + 16 < 2 ^ 64

structure Represents (h : Heap) (s : Accounts) : Prop where
  null : s 0 = none
  missing : ∀ a, s a = none → h.areas a = none
  area : ∀ a r, s a = some r → ∃ ar, h.areas a = some ar ∧ Holds h.blocks ar r
  apart : ∀ a b r t, s a = some r → s b = some t → a ≠ b → ∀ x ∈ r.headers, x ∉ t.headers

section
variable {blocks : UInt64 → Option PliBlock} {ar : PliArea} {r : Region}

theorem add_exact {a b : Int64} (low : -2 ^ 63 ≤ a.toInt + b.toInt)
    (high : a.toInt + b.toInt < 2 ^ 63) : (a + b).toInt = a.toInt + b.toInt := by
  rw [Int64.toInt_add, Int.bmod_eq_of_le low high]

theorem sub_exact {a b : Int64} (low : -2 ^ 63 ≤ a.toInt - b.toInt)
    (high : a.toInt - b.toInt < 2 ^ 63) : (a - b).toInt = a.toInt - b.toInt := by
  rw [Int64.toInt_sub, Int.bmod_eq_of_le low high]

theorem hdr_toInt : hdr.toInt = 16 := rfl

theorem zero_toInt : (0 : Int64).toInt = 0 := rfl

theorem need_toInt (n : Int64) : (if n < 0 then 0 else n).toInt = need n := by
  unfold need
  split
  · rename_i negative
    rw [Int64.lt_iff_toInt_lt, zero_toInt] at negative
    rw [zero_toInt]
    omega
  · rename_i positive
    rw [Int64.lt_iff_toInt_lt, zero_toInt] at positive
    omega

theorem charged_nonneg (holds : Holds blocks ar r) : 0 ≤ r.charged := by
  apply List.sum_nonneg
  intro x inside
  obtain ⟨b, mem, rfl⟩ := List.mem_map.mp inside
  have := (holds.sized b mem).1
  omega

theorem chain_short (holds : Holds blocks ar r) : r.live.length < turns := by
  have distinct := holds.distinct.map fun _ _ => UInt64.toNat_inj.mp
  have inside : (r.headers.map UInt64.toNat) ⊆ List.range (2 ^ 64) := by
    intro x mem
    obtain ⟨b, -, rfl⟩ := List.mem_map.mp mem
    exact List.mem_range.mpr b.toNat_lt
  have short := (List.subperm_of_subset distinct inside).length_le
  rw [List.length_range, List.length_map, Region.headers, List.length_map] at short
  exact Nat.lt_succ_of_le short

theorem overflow_iff (holds : Holds blocks ar r) (n : Int64) :
    (if n < 0 then 0 else n) > ar.size - ar.used - hdr ↔ r.capacity - r.charged < need n + 16 := by
  have within := holds.within
  have positive := charged_nonneg holds
  have top := ar.size.toInt_lt
  have size := holds.size
  have used := holds.used
  have left : (ar.size - ar.used).toInt = r.capacity - r.charged := by
    rw [sub_exact (by omega) (by omega), size, used]
  have room : (ar.size - ar.used - hdr).toInt = r.capacity - r.charged - 16 := by
    rw [sub_exact (by rw [left, hdr_toInt]; omega) (by rw [left, hdr_toInt]; omega), left,
      hdr_toInt]
  rw [gt_iff_lt, Int64.lt_iff_toInt_lt, need_toInt, room]
  omega

theorem holds_new (blocks : UInt64 → Option PliBlock) (n : Int64) :
    Holds blocks ⟨if 0 < n then n else 0, 0, 0⟩ ⟨need n, []⟩ := by
  refine ⟨?_, rfl, ?_, rfl, List.nodup_nil, by simp⟩
  · have sign := @Int64.lt_iff_toInt_lt 0 n
    rw [zero_toInt] at sign
    dsimp only [need]
    split
    · rename_i positive
      have := sign.mp positive
      omega
    · rename_i negative
      have := mt sign.mpr negative
      rw [zero_toInt]
      omega
  · simp [Region.charged, need]

theorem holds_alloc {n : Int64} {m : UInt64} (holds : Holds blocks ar r)
    (fits : need n + 16 ≤ r.capacity - r.charged) (given : m ≠ 0) (fresh : blocks m = none)
    (ends : m.toNat + 16 + need n < 2 ^ 64) :
    Holds (update blocks m (some ⟨if n < 0 then 0 else n, ar.blocks⟩))
      { ar with blocks := m, used := ar.used + ((if n < 0 then 0 else n) + hdr) }
      { r with live := (m, if n < 0 then 0 else n) :: r.live } := by
  have outside : m ∉ r.headers := by
    intro inside
    obtain ⟨b, mem, rfl⟩ := List.mem_map.mp inside
    obtain ⟨-, cell, found, -⟩ := holds.chain.cell mem
    rw [fresh] at found
    cases found
  have size := need_toInt n
  have positive : 0 ≤ need n := le_max_right _ _
  have before := charged_nonneg holds
  have top := ar.size.toInt_lt
  have cap := holds.size
  have within := holds.within
  have charge : ((if n < 0 then 0 else n) + hdr).toInt = need n + 16 := by
    rw [add_exact (by rw [size, hdr_toInt]; omega) (by rw [size, hdr_toInt]; omega), size,
      hdr_toInt]
  have total : ({ r with live := (m, if n < 0 then 0 else n) :: r.live } : Region).charged =
      need n + 16 + r.charged := by
    rw [← size]
    simp [Region.charged]
  refine ⟨holds.size, ?_, ?_, ?_, ?_, ?_⟩
  · rw [total, add_exact (by rw [charge, holds.used]; omega) (by rw [charge, holds.used]; omega),
      charge, holds.used]
    omega
  · rw [total]
    dsimp only
    omega
  · refine ⟨rfl, given, _, update_self .., rfl, holds.chain.frame ?_⟩
    intro b mem
    have other : b.1 ≠ m := fun same => outside (same ▸ List.mem_map_of_mem mem)
    exact update_of_ne other ..
  · exact List.nodup_cons.mpr ⟨outside, holds.distinct⟩
  · intro b mem
    rcases List.mem_cons.mp mem with rfl | mem
    · exact ⟨by rw [size]; exact positive, by dsimp only; omega⟩
    · exact holds.sized b mem

variable {pre post : List (UInt64 × Int64)} {b : UInt64} {size : Int64}

theorem unlink_chain {p : UInt64} {cell : PliBlock}
    (chain : Chain blockShape blocks p (pre ++ (b, size) :: post)) (found : blocks b = some cell)
    (distinct : ((pre ++ (b, size) :: post).map Prod.fst).Nodup) :
    Chain blockShape
      (update (storeLink blockShape blocks (lastLink .head pre) cell.next) b none)
      (if lastLink (Link.head : Link UInt64) pre = .head then cell.next else p) (pre ++ post) := by
  cases pre with
  | nil =>
    obtain ⟨-, -, n, there, -, later⟩ := chain
    rw [found] at there
    cases there
    rw [lastLink, if_pos rfl]
    refine later.frame ?_
    intro y inside
    have other : y.1 ≠ b := by
      rintro rfl
      exact (List.nodup_cons.mp distinct).1 (List.mem_map.mpr ⟨y, inside, rfl⟩)
    exact update_of_ne other ..
  | cons x pre =>
    obtain ⟨start, given, n, there, data, later⟩ := chain
    obtain ⟨z, -, last⟩ := lastLink_after x.1 pre
    obtain ⟨n', kept, same, shorter⟩ := unlink_after there found later distinct
    rw [lastLink, if_neg (by rw [last]; simp)]
    exact ⟨start, given, n', kept, same.trans data, shorter⟩

theorem filter_cut (distinct : ((pre ++ (b, size) :: post).map Prod.fst).Nodup) :
    (pre ++ (b, size) :: post).filter (fun x => decide (x.1 ≠ b)) = pre ++ post := by
  rw [List.map_append, List.map_cons, List.nodup_append, List.nodup_cons] at distinct
  obtain ⟨-, ⟨after, -⟩, before⟩ := distinct
  have keeps : ∀ l : List (UInt64 × Int64), b ∉ l.map Prod.fst →
      l.filter (fun x => decide (x.1 ≠ b)) = l := by
    intro l absent
    apply List.filter_eq_self.mpr
    intro x inside
    apply decide_eq_true
    rintro rfl
    exact absent (List.mem_map_of_mem inside)
  have early : b ∉ pre.map Prod.fst := fun inside => before b inside b (by simp) rfl
  rw [List.filter_append, List.filter_cons_of_neg (by simp), keeps pre early, keeps post after]

theorem holds_free {cell : PliBlock}
    (holds : Holds blocks ar r) (split : r.live = pre ++ (b, size) :: post)
    (found : blocks b = some cell) :
    Holds (update (storeLink blockShape blocks (lastLink .head pre) cell.next) b none)
      { ar with
        blocks := if lastLink (Link.head : Link UInt64) pre = .head then cell.next else ar.blocks
        used := ar.used - (cell.size + hdr) }
      { r with live := r.live.filter fun x => x.1 ≠ b } := by
  have chain := holds.chain
  have distinct := holds.distinct
  rw [Region.headers, split] at distinct
  rw [split] at chain
  obtain ⟨-, n, there, data⟩ := chain.cell (by simp : (b, size) ∈ pre ++ (b, size) :: post)
  rw [found] at there
  cases there
  have sizeHere : cell.size = size := data
  have left := filter_cut distinct
  have positive := (holds.sized (b, size) (by rw [split]; simp)).1
  dsimp only at positive
  have total : r.charged =
      size.toInt + 16 + ({ r with live := r.live.filter fun x => x.1 ≠ b } : Region).charged := by
    rw [Region.charged, Region.charged, split, left]
    simp only [List.map_append, List.map_cons, List.sum_append, List.sum_cons]
    omega
  have rest : 0 ≤ ({ r with live := r.live.filter fun x => x.1 ≠ b } : Region).charged := by
    apply List.sum_nonneg
    intro x inside
    obtain ⟨y, mem, rfl⟩ := List.mem_map.mp inside
    have := (holds.sized y (List.mem_of_mem_filter mem)).1
    omega
  have top := ar.size.toInt_lt
  have cap := holds.size
  have within := holds.within
  have used := holds.used
  have charge : (cell.size + hdr).toInt = size.toInt + 16 := by
    rw [sizeHere, add_exact (by rw [hdr_toInt]; omega) (by rw [hdr_toInt]; omega), hdr_toInt]
  refine ⟨holds.size, ?_, ?_, ?_, ?_, ?_⟩
  · rw [sub_exact (by rw [charge]; omega) (by rw [charge]; omega), charge, used]
    omega
  · dsimp only at total rest ⊢
    omega
  · dsimp only
    rw [split, left]
    exact unlink_chain chain found distinct
  · exact holds.distinct.sublist (List.filter_sublist.map _)
  · intro x inside
    exact holds.sized x (List.mem_of_mem_filter inside)

end

section
variable {h : Heap} {s : Accounts} {ap : UInt64} {blocks : UInt64 → Option PliBlock}

theorem start_represents : Represents Heap.start fun _ => none :=
  ⟨rfl, fun _ _ => rfl, by simp, by simp⟩

theorem represents_update (rep : Represents h s) {ar : PliArea} {r : Region} (given : ap ≠ 0)
    (holds : Holds blocks ar r)
    (alone : ∀ b t, s b = some t → b ≠ ap → ∀ x ∈ r.headers, x ∉ t.headers)
    (kept : ∀ b t, s b = some t → b ≠ ap → ∀ x ∈ t.headers, blocks x = h.blocks x) :
    Represents ⟨update h.areas ap (some ar), blocks⟩ (update s ap (some r)) := by
  refine ⟨?_, ?_, ?_, ?_⟩
  · rw [update_of_ne given.symm, rep.null]
  · intro b absent
    by_cases here : b = ap
    · subst here
      simp at absent
    · rw [update_of_ne here] at absent
      exact (update_of_ne here ..).trans (rep.missing b absent)
  · intro b t account
    by_cases here : b = ap
    · subst here
      rw [update_self, Option.some.injEq] at account
      subst account
      exact ⟨ar, update_self .., holds⟩
    · rw [update_of_ne here] at account
      obtain ⟨ar', found, old⟩ := rep.area b t account
      refine ⟨ar', (update_of_ne here ..).trans found, { old with chain := ?_ }⟩
      refine old.chain.frame ?_
      intro x inside
      exact kept b t account here x.1 (List.mem_map_of_mem inside)
  · intro a b r' t ha hb different x inside there
    by_cases here : a = ap
    · subst here
      rw [update_self, Option.some.injEq] at ha
      rw [update_of_ne different.symm] at hb
      subst ha
      exact alone b t hb different.symm x inside there
    · rw [update_of_ne here] at ha
      by_cases other : b = ap
      · subst other
        rw [update_self, Option.some.injEq] at hb
        subst hb
        exact alone a r' ha here x there inside
      · rw [update_of_ne other] at hb
        exact rep.apart a b r' t ha hb different x inside there

theorem represents_remove (rep : Represents h s)
    (kept : ∀ b t, s b = some t → b ≠ ap → ∀ x ∈ t.headers, blocks x = h.blocks x) :
    Represents ⟨update h.areas ap none, blocks⟩ (update s ap none) := by
  have other : ∀ {b : UInt64} {t : Region}, update s ap none b = some t →
      b ≠ ap ∧ s b = some t := by
    intro b t account
    by_cases here : b = ap
    · subst here
      simp at account
    · rw [update_of_ne here] at account
      exact ⟨here, account⟩
  refine ⟨?_, ?_, ?_, ?_⟩
  · by_cases null : ap = 0
    · rw [null, update_self]
    · rw [update_of_ne (Ne.symm null), rep.null]
  · intro b absent
    by_cases here : b = ap
    · subst here
      exact update_self ..
    · rw [update_of_ne here] at absent
      exact (update_of_ne here ..).trans (rep.missing b absent)
  · intro b t account
    obtain ⟨here, account⟩ := other account
    obtain ⟨ar, found, old⟩ := rep.area b t account
    refine ⟨ar, (update_of_ne here ..).trans found, { old with chain := ?_ }⟩
    refine old.chain.frame ?_
    intro x inside
    exact kept b t account here x.1 (List.mem_map_of_mem inside)
  · intro a b r t ha hb different
    exact rep.apart a b r t (other ha).2 (other hb).2 different

theorem fresh_outside (rep : Represents h s) {b m : UInt64} {t : Region} (account : s b = some t)
    (fresh : h.blocks m = none) : m ∉ t.headers := by
  intro inside
  obtain ⟨ar, -, holds⟩ := rep.area b t account
  obtain ⟨x, mem, rfl⟩ := List.mem_map.mp inside
  obtain ⟨-, cell, found, -⟩ := holds.chain.cell mem
  rw [fresh] at found
  cases found

variable {r : Region}

theorem seek_live {ar : PliArea} (holds : Holds h.blocks ar r) {b : UInt64} (live : b ∈ r.headers) :
    ∃ pre post size cell, r.live = pre ++ (b, size) :: post ∧ h.blocks b = some cell ∧ b ≠ 0 ∧
      seek blockShape h.blocks b turns .head ar.blocks = some (lastLink .head pre, b) := by
  obtain ⟨⟨b, size⟩, mem, rfl⟩ := List.mem_map.mp live
  obtain ⟨pre, post, split⟩ := List.append_of_mem mem
  have chain := holds.chain
  have distinct := holds.distinct
  obtain ⟨given, cell, found, -⟩ := chain.cell mem
  rw [split] at chain
  rw [Region.headers, split, List.map_append, List.map_cons, List.nodup_append] at distinct
  have before : b ∉ pre.map Prod.fst := fun inside => distinct.2.2 b inside b (by simp) rfl
  have short := chain_short holds
  rw [split, List.length_append] at short
  exact ⟨pre, post, size, cell, split, found, given,
    seek_found chain before (by omega) .head⟩

theorem seek_other {ar : PliArea} (holds : Holds h.blocks ar r) {b : UInt64}
    (other : b ∉ r.headers) :
    ∃ last, seek blockShape h.blocks b turns .head ar.blocks = some (last, 0) :=
  seek_absent holds.chain other (chain_short holds) .head

section
variable (rep : Represents h s)
include rep

theorem account_given {r : Region} (account : s ap = some r) : ap ≠ 0 := by
  rintro rfl
  rw [rep.null] at account
  cases account

theorem alloc_refused {r : Region} (account : s ap = some r) {n : Int64}
    (m : UInt64) (full : r.capacity - r.charged < need n + 16) :
    pliAreaAlloc h ap n m = some (h, .raise "AREA: area overflow" 0) := by
  obtain ⟨ar, found, holds⟩ := rep.area ap r account
  rw [pliAreaAlloc, if_neg (account_given rep account), found, Option.map_some,
    if_pos ((overflow_iff holds n).mpr full)]

theorem alloc_granted {r : Region} (account : s ap = some r) {n : Int64}
    {m : UInt64} (given : m ≠ 0) (fits : need n + 16 ≤ r.capacity - r.charged) :
    ∃ h', pliAreaAlloc h ap n m = some (h', .ret (m + 16)) ∧
      (Mallocs h (.alloc ap n m) → Represents h' (entered s (.alloc ap n m))) := by
  obtain ⟨ar, found, holds⟩ := rep.area ap r account
  have room : ¬ (if n < 0 then 0 else n) > ar.size - ar.used - hdr := by
    rw [overflow_iff holds n]
    omega
  rw [pliAreaAlloc, if_neg (account_given rep account), found, Option.map_some]
  simp only [if_neg room, if_neg given]
  refine ⟨_, rfl, ?_⟩
  intro mallocs
  obtain ⟨⟨-, fresh⟩, ends⟩ := mallocs given
  simp only [entered, account, if_pos fits]
  refine represents_update rep (account_given rep account) (holds_alloc holds fits given fresh ends)
    ?_ ?_
  · intro b t other different x inside there
    rcases List.mem_cons.mp inside with rfl | inside
    · exact fresh_outside rep other fresh there
    · exact rep.apart ap b r t account other different.symm x inside there
  · intro b t other different x inside
    have apart : x ≠ m := fun same => fresh_outside rep other fresh (same ▸ inside)
    exact update_of_ne apart ..

theorem free_live {r : Region} (account : s ap = some r) {p : UInt64}
    (given : p ≠ 0) (live : p - 16 ∈ r.headers) :
    ∃ h', pliAreaFree h ap p = some (h', .done) ∧ Represents h' (entered s (.free ap p)) := by
  obtain ⟨ar, found, holds⟩ := rep.area ap r account
  obtain ⟨pre, post, size, cell, split, there, header, walked⟩ := seek_live holds live
  rw [pliAreaFree, if_neg given, if_neg (account_given rep account), found,
    Option.bind_some, walked,
    Option.bind_some]
  simp only [if_neg header, there, Option.map_some]
  refine ⟨_, rfl, ?_⟩
  simp only [entered, account, if_neg given]
  refine represents_update rep (account_given rep account) (holds_free holds split there) ?_ ?_
  · intro b t other different x inside
    refine rep.apart ap b r t account other different.symm x ?_
    exact (List.filter_sublist.map _).subset inside
  · -- The cells written are of this area's chain.
    intro b t other different x inside
    have foreign : x ∉ r.headers := rep.apart b ap t r other account different x inside
    have notCut : x ≠ p - 16 := fun same => foreign (same ▸ live)
    rw [update_of_ne notCut]
    cases pre with
    | nil => rfl
    | cons y pre =>
      obtain ⟨z, inChain, last⟩ := lastLink_after y.1 pre
      have notLast : x ≠ z := by
        rintro rfl
        apply foreign
        rw [Region.headers, split, List.map_append, List.map_cons]
        exact List.mem_append_left _ (List.mem_cons.mpr inChain)
      rw [lastLink, last]
      exact update_of_ne notLast ..

theorem free_other {r : Region} (account : s ap = some r) {p : UInt64}
    (other : p = 0 ∨ p - 16 ∉ r.headers) :
    pliAreaFree h ap p = some (h, if p = 0 then .done
      else .raise "AREA: FREE of a pointer not allocated in this area" 0) := by
  by_cases null : p = 0
  · rw [pliAreaFree, if_pos null, if_pos null]
  · obtain ⟨ar, found, holds⟩ := rep.area ap r account
    obtain ⟨last, walked⟩ := seek_other holds (other.resolve_left null)
    rw [pliAreaFree, if_neg null, if_neg (account_given rep account), found,
      Option.bind_some, walked,
      Option.bind_some, if_neg null]
    simp only [if_true]

theorem offset_answers {r : Region} (account : s ap = some r) {p : UInt64} (given : p ≠ 0) :
    pliAreaOffset h ap p = some (h, if p - 16 ∈ r.headers then .ret p
      else .raise "AREA: OFFSET of a pointer not allocated in this area" p) := by
  obtain ⟨ar, found, holds⟩ := rep.area ap r account
  rw [pliAreaOffset, if_neg given, if_neg (account_given rep account), found, Option.bind_some]
  by_cases live : p - 16 ∈ r.headers
  · obtain ⟨pre, post, size, cell, -, -, header, walked⟩ := seek_live holds live
    rw [walked, Option.map_some, if_pos live]
    simp only [if_neg header]
  · obtain ⟨last, walked⟩ := seek_other holds live
    rw [walked, Option.map_some, if_neg live]
    simp only [if_true]

theorem destroy_releases {r : Region} (account : s ap = some r) :
    ∃ h', pliAreaDestroy h ap = some (h', .done) ∧ Represents h' (entered s (.destroy ap)) := by
  obtain ⟨ar, found, holds⟩ := rep.area ap r account
  obtain ⟨blocks, freed, cells⟩ :=
    releaseAll_frees holds.chain holds.distinct (chain_short holds)
  rw [pliAreaDestroy, if_neg (account_given rep account), found, Option.bind_some, freed,
    Option.map_some]
  refine ⟨_, rfl, represents_remove rep ?_⟩
  intro b t other different x inside
  have foreign : x ∉ r.live.map Prod.fst := rep.apart b ap t r other account different x inside
  rw [cells, if_neg foreign]

theorem create_opens {n : Int64} {m : UInt64} (given : m ≠ 0) :
    Represents (pliAreaCreate h n m).1 (entered s (.create n m)) := by
  rw [pliAreaCreate, if_neg given]
  exact represents_update rep given (holds_new h.blocks n) (by simp [Region.headers]) (by simp)

end

theorem entered_free_other {p : UInt64} (account : s ap = some r)
    (other : p = 0 ∨ p - 16 ∉ r.headers) : entered s (.free ap p) = s := by
  simp only [entered, account]
  split
  · rfl
  · rename_i given
    have absent := other.resolve_left given
    have all : r.live.filter (fun b => decide (b.1 ≠ p - 16)) = r.live := by
      apply List.filter_eq_self.mpr
      intro x inside
      apply decide_eq_true
      rintro same
      exact absent (same ▸ List.mem_map_of_mem inside)
    rw [all, ← account, update_eq_self]

theorem step_represents (rep : Represents h s) {call : Call} {h' : Heap} (mallocs : Mallocs h call)
    (moved : step h call = some h') : Represents h' (entered s call) := by
  cases call with
  | create n m =>
    by_cases given : m = 0
    · simp [step, perform, pliAreaCreate, given] at moved
    · have opened := create_opens rep (n := n) given
      simp only [step, perform, pliAreaCreate, if_neg given, Option.some.injEq] at moved opened
      rwa [← moved]
  | alloc ap n m =>
    cases account : s ap with
    | none =>
      by_cases null : ap = 0
      · subst null
        simp only [step, perform, pliAreaAlloc, if_true, Option.some.injEq] at moved
        simpa [entered, account, ← moved] using rep
      · simp [step, perform, pliAreaAlloc, null, rep.missing ap account] at moved
    | some r =>
      by_cases fits : need n + 16 ≤ r.capacity - r.charged
      · by_cases given : m = 0
        · obtain ⟨ar, found, holds⟩ := rep.area ap r account
          have room : ¬ (if n < 0 then 0 else n) > ar.size - ar.used - hdr := by
            rw [overflow_iff holds n]
            omega
          simp [step, perform, pliAreaAlloc, account_given rep account, found, room, given] at moved
        · obtain ⟨after, granted, represents⟩ := alloc_granted rep account given fits
          simp only [step, perform, granted, Option.some.injEq] at moved
          rw [← moved]
          exact represents mallocs
      · have refused :=
          alloc_refused rep account m (by omega : r.capacity - r.charged < need n + 16)
        simp only [step, perform, refused, Option.some.injEq] at moved
        simpa [entered, account, fits, ← moved] using rep
  | free ap p =>
    cases account : s ap with
    | none =>
      have same : entered s (.free ap p) = s := by simp [entered, account]
      rw [same]
      by_cases null : p = 0
      · simp only [step, perform, pliAreaFree, if_pos null, Option.some.injEq] at moved
        rwa [← moved]
      · by_cases nullArea : ap = 0
        · simp only [step, perform, pliAreaFree, if_neg null, if_pos nullArea,
            Option.some.injEq] at moved
          rwa [← moved]
        · simp [step, perform, pliAreaFree, null, nullArea, rep.missing ap account] at moved
    | some r =>
      by_cases live : p ≠ 0 ∧ p - 16 ∈ r.headers
      · obtain ⟨after, freed, represents⟩ := free_live rep account live.1 live.2
        simp only [step, perform, freed, Option.some.injEq] at moved
        rwa [← moved]
      · have other : p = 0 ∨ p - 16 ∉ r.headers := by
          by_cases null : p = 0
          · exact Or.inl null
          · exact Or.inr fun inside => live ⟨null, inside⟩
        rw [entered_free_other account other]
        have refused := free_other rep account other
        by_cases null : p = 0
        · simp only [step, perform, refused, if_pos null, Option.some.injEq] at moved
          rwa [← moved]
        · simp only [step, perform, refused, if_neg null, Option.some.injEq] at moved
          rwa [← moved]
  | offset ap p =>
    by_cases null : p = 0
    · simp only [step, perform, pliAreaOffset, if_pos null, Option.some.injEq] at moved
      rwa [← moved]
    · by_cases nullArea : ap = 0
      · simp only [step, perform, pliAreaOffset, if_neg null, if_pos nullArea,
          Option.some.injEq] at moved
        rwa [← moved]
      · cases account : s ap with
        | none =>
          simp [step, perform, pliAreaOffset, null, nullArea, rep.missing ap account] at moved
        | some r =>
          have answers := offset_answers rep account null
          by_cases live : p - 16 ∈ r.headers
          · simp only [step, perform, answers, if_pos live, Option.some.injEq] at moved
            rwa [← moved]
          · simp only [step, perform, answers, if_neg live, Option.some.injEq] at moved
            rwa [← moved]
  | destroy ap =>
    by_cases null : ap = 0
    · simp only [step, perform, pliAreaDestroy, if_pos null, Option.some.injEq] at moved
      have same : entered s (.destroy ap) = s := by
        rw [entered, null, ← rep.null, update_eq_self]
      rwa [same, ← moved]
    · cases account : s ap with
      | none => simp [step, perform, pliAreaDestroy, null, rep.missing ap account] at moved
      | some r =>
        obtain ⟨after, released, represents⟩ := destroy_releases rep account
        simp only [step, perform, released, Option.some.injEq] at moved
        rwa [← moved]

def accounts (calls : List Call) : Accounts := calls.foldl entered fun _ => none

theorem run_represents {calls : List Call} (rep : Represents h s) {h' : Heap}
    (mallocs : AllSteps step Mallocs h calls) (ran : run step h calls = some h') :
    Represents h' (calls.foldl entered s) := by
  induction calls generalizing h s with
  | nil =>
    cases ran
    exact rep
  | cons call calls ih =>
    obtain ⟨mid, moved, rest⟩ := run_cons_iff.mp ran
    obtain ⟨here, later⟩ := (allSteps_cons_iff moved).mp mallocs
    exact ih (step_represents rep here moved) later rest

structure Exact (h : Heap) (s : Accounts) : Prop where
  charge : ∀ a, (h.areas a).map (fun ar => (ar.size.toInt, ar.used.toInt)) =
    (s a).map fun r => (r.capacity, r.charged)
  within : ∀ a r, s a = some r → r.charged ≤ r.capacity
  alloc_fails : ∀ a r n m, s a = some r → r.capacity < r.charged + (need n + 16) →
    pliAreaAlloc h a n m = some (h, .raise "AREA: area overflow" 0)
  alloc_succeeds : ∀ a r n m, s a = some r → r.charged + (need n + 16) ≤ r.capacity → m ≠ 0 →
    ∃ h', pliAreaAlloc h a n m = some (h', .ret (m + 16))
  free_removes : ∀ a r p, s a = some r → p ≠ 0 → p - 16 ∈ r.headers →
    ∃ h', pliAreaFree h a p = some (h', .done)
  free_keeps : ∀ a r p, s a = some r → p = 0 ∨ p - 16 ∉ r.headers →
    pliAreaFree h a p = some (h, if p = 0 then .done
      else .raise "AREA: FREE of a pointer not allocated in this area" 0)
  null_keeps : ∀ n m p, pliAreaAlloc h 0 n m =
      some (h, .raise "AREA: allocation from a null area" 0) ∧
    ∃ out, pliAreaFree h 0 p = some (h, out)

theorem represents_exact (rep : Represents h s) : Exact h s := by
  refine ⟨?_, ?_, ?_, ?_, ?_, fun a r p account other => free_other rep account other, ?_⟩
  · intro a
    cases account : s a with
    | none => rw [rep.missing a account]; rfl
    | some r =>
      obtain ⟨ar, found, holds⟩ := rep.area a r account
      rw [found, Option.map_some, holds.size, holds.used]
      rfl
  · intro a r account
    obtain ⟨ar, -, holds⟩ := rep.area a r account
    exact holds.within
  · intro a r n m account full
    exact alloc_refused rep account m (by omega)
  · intro a r n m account fits given
    obtain ⟨h', granted, -⟩ := alloc_granted rep account given (n := n) (by omega)
    exact ⟨h', granted⟩
  · intro a r p account given live
    obtain ⟨h', freed, -⟩ := free_live rep account given live
    exact ⟨h', freed⟩
  · intro n m p
    refine ⟨by rw [pliAreaAlloc, if_pos rfl], ?_⟩
    by_cases null : p = 0
    · exact ⟨.done, by rw [pliAreaFree, if_pos null]⟩
    · exact ⟨.raise "AREA: FREE through a null area" 0,
        by rw [pliAreaFree, if_neg null, if_pos rfl]⟩

end

/-- After every call of every run the areas agree with the accounts. -/
theorem area_accounting_exact {calls : List Call} {h : Heap}
    (mallocs : AllSteps step Mallocs Heap.start calls) (ran : run step Heap.start calls = some h) :
    Exact h (accounts calls) :=
  represents_exact (run_represents start_represents mallocs ran)

/-- Three blocks, the middle one freed: the area charges the other two, and 38 bytes with
    their header are one more than it has left. -/
theorem area_with_a_gap :
    ∃ h, run step Heap.start [.create 100 1000, .alloc 1000 10 2000, .alloc 1000 20 3000,
        .alloc 1000 5 4000, .free 1000 3016] = some h ∧
      (h.areas 1000).map (fun ar => (ar.size.toInt, ar.used.toInt)) = some (100, 47) ∧
      pliAreaAlloc h 1000 38 5000 = some (h, .raise "AREA: area overflow" 0) := by
  have ran : (run step Heap.start [.create 100 1000, .alloc 1000 10 2000, .alloc 1000 20 3000,
      .alloc 1000 5 4000, .free 1000 3016]).isSome = true := by decide +kernel
  obtain ⟨h, ran⟩ := Option.isSome_iff_exists.mp ran
  have spec := area_accounting_exact (by decide +kernel) ran
  refine ⟨h, ran, ?_, ?_⟩
  · rw [spec.charge]
    decide +kernel
  · exact spec.alloc_fails 1000 ⟨100, [(4000, 5), (2000, 10)]⟩ 38 5000 (by decide +kernel)
      (by decide +kernel)

end PliAreas
