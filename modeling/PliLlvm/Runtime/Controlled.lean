import PliLlvm.Lib.Run
import PliLlvm.Lib.Block
import Mathlib.Data.List.Count
import Mathlib.Data.List.Nodup

/- CONTROLLED storage of one task (runtime/rt_storage.c). Heap blocks are numbered
   in the order malloc hands them out, so every allocation is fresh and a number is
   never used again; allocation succeeds. realloc of an extent array frees the old
   block. The table of variables is a block of its own: ctl_last points into one
   incarnation of it, and reading through it after the table moved is `dangling`. -/
namespace PliControlled
open Runs Blocks
open Function (update update_eq_self update_of_ne update_self)

/-- One slot of a variable's generation arrays: gens[k], lens[k], ranks[k] and
    dimss[k], the last with the block's number and the extents it holds. -/
structure GenSlot where
  gen : Option Nat
  len : Int
  rank : Nat
  dims : Option (Nat × List Int)
  deriving DecidableEq

def extentsOf (slot : GenSlot) : List Int :=
  match slot.dims with
  | none => []
  | some (_, ext) => ext

def GenSlot.unused : GenSlot := ⟨none, 0, 0, none⟩

/-- The arrays' capacity is the length of `slots`. -/
structure CtlVar where
  key : Int
  slots : List GenSlot
  depth : Nat
  deriving DecidableEq

/-- The CONTROLLED part of pli_task_local, with malloc's counter and free's log. -/
structure Ctl where
  vars : List CtlVar
  table : Nat
  last : Option (Nat × Nat)
  cacheKey : Int
  cacheBytes : Option Nat
  cacheLen : Int
  nextBuf : Nat
  freed : List Nat
  deriving DecidableEq

def Ctl.start : Ctl := ⟨[], 0, none, 0, none, 0, 0, []⟩

/-- The one way a call is undefined: a read through a stale pointer. -/
inductive Halt where
  | dangling
  deriving DecidableEq

def pliAlloc (s : Ctl) : Ctl × Nat := ({ s with nextBuf := s.nextBuf + 1 }, s.nextBuf)

def pliFree (s : Ctl) (p : Option Nat) : Ctl := { s with freed := p.toList ++ s.freed }

/-- The shortcut through ctl_last: the entry it names, when that is the variable. -/
def ctlLast (s : Ctl) (key : Int) : Except Halt (Option Nat) :=
  match s.last with
  | none => .ok none
  | some (table, i) =>
    if s.vars.length = 0 then .ok none
    else if table = s.table then
      match s.vars[i]? with
      | some v => .ok (if v.key = key then some i else none)
      | none => .error .dangling
    else .error .dangling

def appendVar (s : Ctl) (key : Int) : Ctl :=
  { s with
    vars := s.vars ++ [⟨key, [], 0⟩]
    table := s.table + 1
    last := some (s.table + 1, s.vars.length) }

def ctlFind (s : Ctl) (key : Int) (create : Bool) : Except Halt (Ctl × Option Nat) :=
  match ctlLast s key with
  | .error h => .error h
  | .ok (some i) => .ok (s, some i)
  | .ok none =>
    match s.vars.findIdx? fun v => v.key == key with
    | some i => .ok ({ s with last := some (s.table, i) }, some i)
    | none => if create then .ok (appendVar s key, some s.vars.length) else .ok (s, none)

def ctlGrow (v : CtlVar) : CtlVar :=
  if v.depth < v.slots.length then v
  else
    let ncap := if v.slots.length = 0 then 4 else v.slots.length * 2
    { v with slots := realloc GenSlot.unused v.slots ncap }

def pushSlot (v : CtlVar) (slot : GenSlot) : CtlVar :=
  { v with slots := v.slots.set v.depth slot, depth := v.depth + 1 }

def openVar (s : Ctl) (key : Int) : Except Halt (Ctl × Nat × CtlVar) :=
  match ctlFind s key true with
  | .error h => .error h
  | .ok (s, found) =>
    match found.bind fun i => (s.vars[i]?).map (i, ·) with
    | none => .error .dangling
    | some (i, v) => .ok (s, i, ctlGrow v)

def takeBuffer (s : Ctl) (key n : Int) : Ctl × Nat :=
  match s.cacheBytes with
  | some b =>
    if s.cacheKey = key ∧ s.cacheLen = n then ({ s with cacheBytes := none }, b) else pliAlloc s
  | none => pliAlloc s

def pliCtlAlloc (s : Ctl) (key n : Int) : Except Halt (Ctl × Nat) :=
  match openVar s key with
  | .error h => .error h
  | .ok (s, i, v) =>
    let (s, buf) := takeBuffer s key n
    .ok ({ s with vars := s.vars.set i (pushSlot v ⟨some buf, n, 0, none⟩) }, buf)

def pliCtlAllocDims (s : Ctl) (key n rank : Int) : Except Halt (Ctl × Nat) :=
  match openVar s key with
  | .error h => .error h
  | .ok (s, i, v) =>
    let rank := if rank < 0 then 0 else rank.toNat
    let (s, buf) := pliAlloc s
    let (s, dims) :=
      if rank = 0 then (s, none)
      else
        let (s, d) := pliAlloc s
        (s, some (d, List.replicate rank (0 : Int)))
    .ok ({ s with vars := s.vars.set i (pushSlot v ⟨some buf, n, rank, dims⟩) }, buf)

def ctlTop (s : Ctl) (key : Int) : Except Halt (Ctl × Option (Nat × CtlVar × GenSlot)) :=
  match ctlFind s key false with
  | .error h => .error h
  | .ok (s, none) => .ok (s, none)
  | .ok (s, some i) =>
    match s.vars[i]? with
    | none => .error .dangling
    | some v =>
      if v.depth = 0 then .ok (s, none)
      else match v.slots[v.depth - 1]? with
        | none => .error .dangling
        | some slot => .ok (s, some (i, v, slot))

def widen (s : Ctl) (slot : GenSlot) (a : Nat) : Ctl × GenSlot :=
  if slot.rank ≤ a then
    let (s, d) := pliAlloc (pliFree s (slot.dims.map (·.1)))
    (s, { slot with
      rank := a + 1, dims := some (d, extentsOf slot ++ List.replicate (a + 1 - slot.rank) 0) })
  else (s, slot)

def storeExtent (slot : GenSlot) (a : Nat) (extent : Int) : GenSlot :=
  { slot with dims := slot.dims.map fun (d, ext) => (d, ext.set a extent) }

def pliCtlSetDim (s : Ctl) (key axis extent : Int) : Except Halt Ctl :=
  match ctlTop s key with
  | .error h => .error h
  | .ok (s, none) => .ok s
  | .ok (s, some (i, v, slot)) =>
    if axis < 0 then .ok s
    else
      let (s, slot) := widen s slot axis.toNat
      let slot := storeExtent slot axis.toNat extent
      .ok { s with vars := s.vars.set i { v with slots := v.slots.set (v.depth - 1) slot } }

/-- A popped generation without extents goes to the cache, unless the cache already
    serves its shape; any other is freed. -/
def stash (s : Ctl) (key : Int) (slot : GenSlot) : Ctl :=
  if slot.rank = 0 then
    if s.cacheBytes ≠ none ∧ s.cacheKey = key ∧ s.cacheLen = slot.len then pliFree s slot.gen
    else { pliFree s s.cacheBytes with
      cacheKey := key, cacheBytes := slot.gen, cacheLen := slot.len }
  else pliFree s slot.gen

def popSlot (v : CtlVar) (slot : GenSlot) : CtlVar :=
  { v with
    slots := v.slots.set (v.depth - 1) { slot with gen := none, dims := none }
    depth := v.depth - 1 }

/-- An empty stack is signalled; an ON-unit may resume the task elsewhere, so the
    state after the call counts there too. -/
def pliCtlFreeAddr (s : Ctl) (key : Int) : Except Halt (Ctl × Except String (Option Nat)) :=
  match ctlTop s key with
  | .error h => .error h
  | .ok (s, none) => .ok (s, .error "FREE of empty CONTROLLED stack")
  | .ok (s, some (i, v, slot)) =>
    let s := stash (pliFree s (slot.dims.map (·.1))) key slot
    let v := popSlot v slot
    .ok ({ s with vars := s.vars.set i v },
      .ok (if 0 < v.depth then (v.slots[v.depth - 1]?).bind (·.gen) else none))

def pliCtlAddr (s : Ctl) (key : Int) : Except Halt (Ctl × Option Nat) :=
  (ctlTop s key).map fun (s, top) => (s, top.bind fun (_, _, slot) => slot.gen)

def pliCtlLen (s : Ctl) (key : Int) : Except Halt (Ctl × Int) :=
  (ctlTop s key).map fun (s, top) => (s, (top.map fun (_, _, slot) => slot.len).getD 0)

def pliCtlRank (s : Ctl) (key : Int) : Except Halt (Ctl × Nat) :=
  (ctlTop s key).map fun (s, top) => (s, (top.map fun (_, _, slot) => slot.rank).getD 0)

def pliCtlExtent (s : Ctl) (key axis : Int) : Except Halt (Ctl × Int) :=
  (ctlTop s key).map fun (s, top) =>
    (s, match top with
      | none => 0
      | some (_, _, slot) =>
        if axis < 0 ∨ (slot.rank : Int) ≤ axis then 0
        else ((slot.dims.bind fun (_, ext) => ext[axis.toNat]?).getD 0))

def pliCtlDepth (s : Ctl) (key : Int) : Except Halt (Ctl × Nat) :=
  match ctlFind s key false with
  | .error h => .error h
  | .ok (s, none) => .ok (s, 0)
  | .ok (s, some i) =>
    match s.vars[i]? with
    | none => .error .dangling
    | some v => .ok (s, v.depth)

def pliCtlEnsure (s : Ctl) (key n : Int) : Except Halt Ctl :=
  match pliCtlDepth s key with
  | .error h => .error h
  | .ok (s, depth) => if depth = 0 then (pliCtlAlloc s key n).map (·.1) else .ok s

/- What the operations are for: every key has its own stack of generations. -/
structure Gen where
  buf : Nat
  len : Int
  extents : List Int

abbrev Stacks := Int → List Gen

def genOf (slot : GenSlot) : Gen := ⟨slot.gen.getD 0, slot.len, extentsOf slot⟩

def CtlVar.live (v : CtlVar) : List GenSlot := v.slots.take v.depth

def stackOf (v : CtlVar) : List Gen := (v.live.map genOf).reverse

def stacksOf (s : Ctl) : Stacks := fun key =>
  match s.vars.find? fun v => v.key == key with
  | some v => stackOf v
  | none => []

def slotBufs (slot : GenSlot) : List Nat := slot.gen.toList ++ (slot.dims.map (·.1)).toList

def varBufs (v : CtlVar) : List Nat := v.live.flatMap slotBufs

def liveBufs (s : Ctl) : List Nat := s.vars.flatMap varBufs

structure SlotOk (slot : GenSlot) : Prop where
  held : ∃ b, slot.gen = some b
  extents : (extentsOf slot).length = slot.rank
  array : slot.dims = none ↔ slot.rank = 0

structure VarOk (v : CtlVar) : Prop where
  room : v.depth ≤ v.slots.length
  slots : ∀ slot ∈ v.live, SlotOk slot

/-- Every block handed out so far is owned once: by one live slot, by the cache, or
    by the log of freed blocks. -/
structure Inv (s : Ctl) : Prop where
  keys : (s.vars.map (·.key)).Nodup
  last : ∀ table i, s.last = some (table, i) → table = s.table ∧ i < s.vars.length
  vars : ∀ v ∈ s.vars, VarOk v
  owned : ∀ b, (liveBufs s).count b + s.cacheBytes.toList.count b + s.freed.count b =
    if b < s.nextBuf then 1 else 0

theorem start_inv : Inv Ctl.start :=
  ⟨List.nodup_nil, by simp [Ctl.start], by simp [Ctl.start], by simp [Ctl.start, liveBufs]⟩

variable {pre post : List CtlVar} {v : CtlVar}

theorem key_cut (distinct : ((pre ++ v :: post).map (·.key)).Nodup) :
    ∀ u ∈ pre, (u.key == v.key) = false := by
  rw [List.map_append, List.nodup_append] at distinct
  intro u mem
  have ne := distinct.2.2 u.key (List.mem_map_of_mem mem) v.key (by simp)
  simpa using ne

variable {s : Ctl}

theorem stacksOf_split (inv : Inv s)
    (split : s.vars = pre ++ v :: post) : stacksOf s v.key = stackOf v := by
  have distinct := inv.keys
  rw [split] at distinct
  have miss : pre.find? (fun u => u.key == v.key) = none := by
    rw [List.find?_eq_none]
    intro u mem
    simp [key_cut distinct u mem]
  simp [stacksOf, split, List.find?_append, miss]

theorem replace_var {s s' : Ctl} {pre post : List CtlVar} {v v' : CtlVar} (inv : Inv s)
    (split : s.vars = pre ++ v :: post) (vars' : s'.vars = pre ++ v' :: post)
    (key : v'.key = v.key) (table : s'.table = s.table) (last : s'.last = s.last)
    (ok : VarOk v')
    (account : ∀ b, (varBufs v').count b + s'.cacheBytes.toList.count b + s'.freed.count b +
        (if b < s.nextBuf then 1 else 0) =
      (varBufs v).count b + s.cacheBytes.toList.count b + s.freed.count b +
        (if b < s'.nextBuf then 1 else 0)) :
    Inv s' ∧ stacksOf s' = update (stacksOf s) v.key (stackOf v') := by
  have distinct := inv.keys
  rw [split] at distinct
  have keys' : (s'.vars.map (·.key)).Nodup := by
    rw [vars']
    simpa [key] using distinct
  refine ⟨⟨keys', ?_, ?_, ?_⟩, ?_⟩
  · intro t i h
    rw [last] at h
    have old := inv.last t i h
    rw [table, vars']
    rw [split] at old
    simpa using old
  · intro u mem
    rw [vars'] at mem
    rcases List.mem_append.mp mem with early | late
    · exact inv.vars u (by rw [split]; simp [early])
    · rcases List.mem_cons.mp late with rfl | late
      · exact ok
      · exact inv.vars u (by rw [split]; simp [late])
  · intro b
    have old := inv.owned b
    have change := account b
    simp only [liveBufs, split, vars', List.flatMap_append, List.flatMap_cons,
      List.count_append] at old ⊢
    omega
  · funext k
    by_cases same : k = v.key
    · subst same
      have inv' : (s'.vars.map (·.key)).Nodup := keys'
      rw [update_self]
      rw [vars'] at inv'
      have miss : pre.find? (fun u => u.key == v.key) = none := by
        rw [List.find?_eq_none]
        intro u mem
        simp [key_cut distinct u mem]
      simp [stacksOf, vars', List.find?_append, miss, key]
    · have other : (v.key == k) = false := by simpa using Ne.symm same
      rw [update_of_ne same]
      simp [stacksOf, split, vars', List.find?_append, key, other]

theorem ctlLast_spec (inv : Inv s) (key : Int) : ∃ found, ctlLast s key = .ok found ∧
      ∀ i, found = some i → ∃ v, s.vars[i]? = some v ∧ v.key = key := by
  unfold ctlLast
  split
  · exact ⟨none, rfl, by simp⟩
  · rename_i table i at'
    obtain ⟨same, bound⟩ := inv.last table i at'
    rw [if_neg (by omega), if_pos same, List.getElem?_eq_getElem bound]
    by_cases hit : (s.vars[i]).key = key
    · refine ⟨some i, by simp [hit], ?_⟩
      intro j hj
      cases hj
      exact ⟨_, List.getElem?_eq_getElem bound, hit⟩
    · exact ⟨none, by simp [hit], by simp⟩

theorem appendVar_inv (inv : Inv s) {key : Int}
    (absent : ∀ v ∈ s.vars, (v.key == key) = false) : Inv (appendVar s key) := by
  refine ⟨?_, ?_, ?_, ?_⟩
  · simp only [appendVar, List.map_append, List.nodup_append]
    refine ⟨inv.keys, by simp, ?_⟩
    intro k mem last here same
    simp only [List.map_cons, List.map_nil, List.mem_singleton] at here
    obtain ⟨v, hv, rfl⟩ := List.mem_map.mp mem
    have := absent v hv
    simp [same, here] at this
  · intro t j h
    cases h
    simp [appendVar]
  · intro v mem
    rcases List.mem_append.mp mem with old | new
    · exact inv.vars v old
    · simp only [List.mem_singleton] at new
      subst new
      exact ⟨Nat.le_refl _, by simp [CtlVar.live]⟩
  · intro b
    have same : liveBufs (appendVar s key) = liveBufs s := by
      simp [appendVar, liveBufs, varBufs, CtlVar.live]
    rw [same]
    exact inv.owned b

theorem appendVar_stacks (s : Ctl) (key : Int) : stacksOf (appendVar s key) = stacksOf s := by
  funext k
  simp only [stacksOf, appendVar, List.find?_append]
  cases s.vars.find? fun v => v.key == k with
  | some v => simp
  | none =>
    by_cases same : key = k
    · simp [same, stackOf, CtlVar.live]
    · have other : (key == k) = false := by simpa using same
      simp [other]

theorem ctlFind_spec (inv : Inv s) (key : Int) (create : Bool) :
    ∃ s1 found, ctlFind s key create = .ok (s1, found) ∧ Inv s1 ∧ stacksOf s1 = stacksOf s ∧
      (found = none → create = false ∧ stacksOf s key = []) ∧
      ∀ i, found = some i → ∃ v, s1.vars[i]? = some v ∧ v.key = key := by
  obtain ⟨found, shortcut, hit⟩ := ctlLast_spec inv key
  cases found with
  | some i => exact ⟨s, some i, by simp [ctlFind, shortcut], inv, rfl, by simp, hit⟩
  | none =>
    cases scan : s.vars.findIdx? fun v => v.key == key with
    | some i =>
      obtain ⟨bound, here, _⟩ := List.findIdx?_eq_some_iff_getElem.mp scan
      refine ⟨{ s with last := some (s.table, i) }, some i, by simp [ctlFind, shortcut, scan],
        ⟨inv.keys, ?_, inv.vars, inv.owned⟩, rfl, by simp, ?_⟩
      · intro t j h
        cases h
        exact ⟨rfl, bound⟩
      · intro j hj
        cases hj
        exact ⟨_, List.getElem?_eq_getElem bound, by simpa using here⟩
    | none =>
      have absent := List.findIdx?_eq_none_iff.mp scan
      cases create with
      | false =>
        refine ⟨s, none, by simp [ctlFind, shortcut, scan], inv, rfl, fun _ => ⟨rfl, ?_⟩, by simp⟩
        have missing : s.vars.find? (fun v => v.key == key) = none := by
          rw [List.find?_eq_none]
          intro v mem
          simp [absent v mem]
        simp [stacksOf, missing]
      | true =>
        refine ⟨appendVar s key, some s.vars.length, by simp [ctlFind, shortcut, scan],
          appendVar_inv inv absent, appendVar_stacks s key, by simp, ?_⟩
        intro j hj
        cases hj
        exact ⟨⟨key, [], 0⟩, by simp [appendVar], rfl⟩

theorem ctlGrow_spec (ok : VarOk v) :
    (ctlGrow v).key = v.key ∧ (ctlGrow v).depth = v.depth ∧ (ctlGrow v).live = v.live ∧
      v.depth < (ctlGrow v).slots.length := by
  unfold ctlGrow
  split
  · rename_i room
    exact ⟨rfl, rfl, rfl, room⟩
  · rename_i full
    have larger : v.depth < if v.slots.length = 0 then 4 else v.slots.length * 2 := by
      have := ok.room
      split <;> omega
    exact ⟨rfl, rfl, realloc_take _ _ (Nat.le_of_lt larger) ok.room,
      by rw [realloc_length]; exact larger⟩

theorem pushSlot_live (slot : GenSlot) (room : v.depth < v.slots.length) :
    (pushSlot v slot).live = v.live ++ [slot] := set_take_succ slot room

theorem openVar_spec (inv : Inv s) (key : Int) :
    ∃ s1 pre v post grown, openVar s key = .ok (s1, pre.length, grown) ∧ Inv s1 ∧
      stacksOf s1 = stacksOf s ∧ s1.vars = pre ++ v :: post ∧ v.key = key ∧ grown.key = key ∧
      grown.live = v.live ∧ grown.depth < grown.slots.length := by
  obtain ⟨s1, found, hfind, inv1, stacked, none_case, some_case⟩ := ctlFind_spec inv key true
  cases found with
  | none => simp at none_case
  | some i =>
    obtain ⟨v, at', here⟩ := some_case i rfl
    obtain ⟨pre, post, split, place⟩ := cut_at at'
    have ok : VarOk v := inv1.vars v (by rw [split]; simp)
    obtain ⟨sameKey, sameDepth, sameLive, room⟩ := ctlGrow_spec ok
    refine ⟨s1, pre, v, post, ctlGrow v, ?_, inv1, stacked, split, here,
      sameKey.trans here, sameLive,
      by rw [sameDepth]; exact room⟩
    simp [openVar, hfind, at', place]

variable {slot : GenSlot}

theorem push_ok {grown : CtlVar} (ok : VarOk v) (same : grown.live = v.live)
    (room : grown.depth < grown.slots.length) (slotOk : SlotOk slot) :
    VarOk (pushSlot grown slot) := by
  have live := pushSlot_live slot room
  refine ⟨?_, ?_⟩
  · simp only [pushSlot, List.length_set]
    omega
  · rw [live, same]
    intro x mem
    rcases List.mem_append.mp mem with old | new
    · exact ok.slots x old
    · simp only [List.mem_singleton] at new
      subst new
      exact slotOk

theorem count_fresh (next b : Nat) :
    [next].count b + (if b < next then 1 else 0) = if b < next + 1 then 1 else 0 := by
  by_cases same : b = next
  · subst same
    simp
  · have other : [next].count b = 0 := by simp [Ne.symm same]
    rw [other]
    split <;> split <;> omega

structure Taken (s s' : Ctl) (bufs : List Nat) : Prop where
  vars : s'.vars = s.vars
  table : s'.table = s.table
  last : s'.last = s.last
  account : ∀ b, bufs.count b + s'.cacheBytes.toList.count b + s'.freed.count b +
      (if b < s.nextBuf then 1 else 0) =
    s.cacheBytes.toList.count b + s.freed.count b + (if b < s'.nextBuf then 1 else 0)

theorem alloc_taken (s : Ctl) : Taken s (pliAlloc s).1 [(pliAlloc s).2] := by
  refine ⟨rfl, rfl, rfl, ?_⟩
  intro b
  have := count_fresh s.nextBuf b
  change [s.nextBuf].count b + s.cacheBytes.toList.count b + s.freed.count b +
    (if b < s.nextBuf then 1 else 0) =
    s.cacheBytes.toList.count b + s.freed.count b + (if b < s.nextBuf + 1 then 1 else 0)
  omega

variable {s1 s2 : Ctl}

theorem Taken.trans {xs ys : List Nat} (first : Taken s s1 xs)
    (second : Taken s1 s2 ys) : Taken s s2 (xs ++ ys) := by
  refine ⟨second.vars.trans first.vars, second.table.trans first.table,
    second.last.trans first.last, ?_⟩
  intro b
  have h1 := first.account b
  have h2 := second.account b
  simp only [List.count_append]
  omega

variable {key : Int}

theorem push_generation {grown : CtlVar} (inv1 : Inv s1) (stacked : stacksOf s1 = stacksOf s)
    (split : s1.vars = pre ++ v :: post) (here : v.key = key) (sameKey : grown.key = key)
    (same : grown.live = v.live) (room : grown.depth < grown.slots.length) (slotOk : SlotOk slot)
    (taken : Taken s1 s2 (slotBufs slot)) :
    Inv { s2 with vars := s2.vars.set pre.length (pushSlot grown slot) } ∧
      stacksOf { s2 with vars := s2.vars.set pre.length (pushSlot grown slot) } =
        update (stacksOf s) key (genOf slot :: stacksOf s key) := by
  have ok : VarOk v := inv1.vars v (by rw [split]; simp)
  have live := pushSlot_live slot room
  have placed : s2.vars.set pre.length (pushSlot grown slot) =
      pre ++ pushSlot grown slot :: post := by
    rw [taken.vars, split, List.set_append_right _ _ (Nat.le_refl _), Nat.sub_self]
    rfl
  have stack : stackOf (pushSlot grown slot) = genOf slot :: stackOf v := by
    simp [stackOf, live, same]
  have result := @replace_var s1 { s2 with vars := s2.vars.set pre.length (pushSlot grown slot) }
    pre post v (pushSlot grown slot) inv1 split placed (sameKey.trans here.symm) taken.table
    taken.last (push_ok ok same room slotOk) (by
      intro b
      have := taken.account b
      simp only [varBufs, live, same, List.flatMap_append, List.flatMap_cons, List.flatMap_nil,
        List.append_nil, List.count_append]
      omega)
  refine ⟨result.1, ?_⟩
  rw [result.2, stack, ← stacksOf_split inv1 split, stacked, here]

theorem fresh_not_live (inv : Inv s) {b : Nat} (outside : s.nextBuf ≤ b ∨ s.cacheBytes = some b) :
    ∀ key, ∀ g ∈ stacksOf s key, g.buf ≠ b := by
  intro key g mem same
  subst same
  have count := inv.owned g.buf
  have absent : (liveBufs s).count g.buf = 0 := by
    rcases outside with above | cached
    · rw [if_neg (Nat.not_lt.mpr above)] at count
      omega
    · rw [cached] at count
      simp only [Option.toList_some, List.count_singleton_self] at count
      split at count <;> omega
  simp only [stacksOf] at mem
  split at mem
  · rename_i v found
    have inside : v ∈ s.vars := List.mem_of_find?_eq_some found
    simp only [stackOf, List.mem_reverse, List.mem_map] at mem
    obtain ⟨slot, live, rfl⟩ := mem
    obtain ⟨b, held⟩ := ((inv.vars v inside).slots slot live).held
    have owns : b ∈ liveBufs s :=
      List.mem_flatMap.mpr ⟨v, inside, List.mem_flatMap.mpr ⟨slot, live, by simp [slotBufs, held]⟩⟩
    have zero : (liveBufs s).count b = 0 := by simpa [genOf, held] using absent
    exact List.count_eq_zero.mp zero owns
  · simp at mem

theorem takeBuffer_taken (s : Ctl) (key n : Int) :
    Taken s (takeBuffer s key n).1 [(takeBuffer s key n).2] ∧
      (s.nextBuf ≤ (takeBuffer s key n).2 ∨ s.cacheBytes = some (takeBuffer s key n).2) := by
  unfold takeBuffer
  split
  · rename_i b held
    split
    · refine ⟨⟨rfl, rfl, rfl, ?_⟩, Or.inr held⟩
      intro c
      simp [held]
    · exact ⟨alloc_taken s, Or.inl (Nat.le_refl _)⟩
  · exact ⟨alloc_taken s, Or.inl (Nat.le_refl _)⟩

theorem alloc_spec (inv : Inv s) (key n : Int) :
    ∃ s' b, pliCtlAlloc s key n = .ok (s', b) ∧ Inv s' ∧
      (∀ k, ∀ g ∈ stacksOf s k, g.buf ≠ b) ∧
      stacksOf s' = update (stacksOf s) key (⟨b, n, []⟩ :: stacksOf s key) := by
  obtain ⟨s1, pre, v, post, grown, opened, inv1, stacked, split, here, sameKey, same, room⟩ :=
    openVar_spec inv key
  obtain ⟨taken, outside⟩ := takeBuffer_taken s1 key n
  have slotOk : SlotOk ⟨some (takeBuffer s1 key n).2, n, 0, none⟩ := ⟨⟨_, rfl⟩, rfl, by simp⟩
  obtain ⟨inv', result⟩ := push_generation inv1 stacked split here sameKey same room slotOk taken
  refine ⟨_, _, by simp only [pliCtlAlloc, opened]; rfl, inv', ?_, result⟩
  rw [← stacked]
  exact fresh_not_live inv1 outside

theorem allocDims_spec (inv : Inv s) (key n rank : Int) :
    ∃ s' b, pliCtlAllocDims s key n rank = .ok (s', b) ∧ Inv s' ∧
      (∀ k, ∀ g ∈ stacksOf s k, g.buf ≠ b) ∧
      stacksOf s' = update (stacksOf s) key
        (⟨b, n, List.replicate rank.toNat 0⟩ :: stacksOf s key) := by
  obtain ⟨s1, pre, v, post, grown, opened, inv1, stacked, split, here, sameKey, same, room⟩ :=
    openVar_spec inv key
  have clamp : (if rank < 0 then 0 else rank.toNat) = rank.toNat := by split <;> omega
  have fresh : ∀ k, ∀ g ∈ stacksOf s k, g.buf ≠ s1.nextBuf := by
    rw [← stacked]
    exact fresh_not_live inv1 (Or.inl (Nat.le_refl _))
  by_cases flat : rank.toNat = 0
  · have slotOk : SlotOk ⟨some s1.nextBuf, n, 0, none⟩ := ⟨⟨_, rfl⟩, rfl, by simp⟩
    obtain ⟨inv', result⟩ := push_generation inv1 stacked split here sameKey same room slotOk
      (alloc_taken s1)
    refine ⟨_, _, ?_, inv', fresh, by rw [result, flat]; rfl⟩
    simp only [pliCtlAllocDims, opened, clamp]
    rw [flat]
    rfl
  · have slotOk : SlotOk ⟨some s1.nextBuf, n, rank.toNat,
        some (s1.nextBuf + 1, List.replicate rank.toNat 0)⟩ :=
      ⟨⟨_, rfl⟩, by simp [extentsOf], by simp [flat]⟩
    obtain ⟨inv', result⟩ := push_generation inv1 stacked split here sameKey same room slotOk
      ((alloc_taken s1).trans (alloc_taken _))
    refine ⟨_, _, ?_, inv', fresh, result⟩
    simp only [pliCtlAllocDims, opened, clamp, flat, ↓reduceIte]
    rfl

structure TopAt (s : Ctl) (key : Int) (i : Nat) (v : CtlVar) (slot : GenSlot)
    (pre post : List CtlVar) (lower : List GenSlot) : Prop where
  split : s.vars = pre ++ v :: post
  place : pre.length = i
  here : v.key = key
  live : v.live = lower ++ [slot]
  depth : v.depth = lower.length + 1

theorem ctlTop_spec (inv : Inv s) (key : Int) :
    ∃ s1 top, ctlTop s key = .ok (s1, top) ∧ Inv s1 ∧ stacksOf s1 = stacksOf s ∧
      (top = none → stacksOf s key = []) ∧
      ∀ i v slot, top = some (i, v, slot) →
        ∃ pre post lower, TopAt s1 key i v slot pre post lower := by
  obtain ⟨s1, found, hfind, inv1, stacked, none_case, some_case⟩ := ctlFind_spec inv key false
  cases found with
  | none =>
    exact ⟨s1, none, by simp [ctlTop, hfind], inv1, stacked, fun _ => (none_case rfl).2, by simp⟩
  | some i =>
    obtain ⟨v, at', here⟩ := some_case i rfl
    obtain ⟨pre, post, split, place⟩ := cut_at at'
    have ok : VarOk v := inv1.vars v (by rw [split]; simp)
    by_cases empty : v.depth = 0
    · refine ⟨s1, none, by simp [ctlTop, hfind, at', empty], inv1, stacked, fun _ => ?_, by simp⟩
      rw [← stacked, ← here, stacksOf_split inv1 split]
      simp [stackOf, CtlVar.live, empty]
    · have bound : v.depth - 1 < v.slots.length := by
        have := ok.room
        omega
      have top := List.getElem?_eq_getElem bound
      refine ⟨s1, some (i, v, v.slots[v.depth - 1]), ?_, inv1, stacked, by simp, ?_⟩
      · simp [ctlTop, hfind, at', empty, top]
      · intro j u slot h
        cases h
        refine ⟨pre, post, v.slots.take (v.depth - 1), split, place, here, ?_, ?_⟩
        · have succ : v.depth = v.depth - 1 + 1 := by omega
          rw [CtlVar.live]
          conv => lhs; rw [succ]
          rw [List.take_add_one, top]
          rfl
        · simp
          omega

variable {i : Nat} {lower : List GenSlot}

theorem TopAt.stack (inv : Inv s) (top : TopAt s key i v slot pre post lower) :
    stacksOf s key = genOf slot :: (lower.map genOf).reverse := by
  rw [← top.here, stacksOf_split inv top.split]
  simp [stackOf, top.live]

theorem TopAt.slotOk (inv : Inv s) (top : TopAt s key i v slot pre post lower) : SlotOk slot :=
  (inv.vars v (by rw [top.split]; simp)).slots slot (by rw [top.live]; simp)

theorem TopAt.bound (inv : Inv s)
    (top : TopAt s key i v slot pre post lower) : v.depth - 1 < v.slots.length := by
  have room := (inv.vars v (by rw [top.split]; simp)).room
  have := top.depth
  omega

theorem TopAt.lower_eq
    (top : TopAt s key i v slot pre post lower) : v.slots.take (v.depth - 1) = lower := by
  have whole := top.live
  have short : v.depth - 1 = lower.length := by
    have := top.depth
    omega
  rw [short]
  calc v.slots.take lower.length = (v.slots.take v.depth).take lower.length := by
        rw [List.take_take, Nat.min_eq_left]
        have := top.depth
        omega
    _ = (lower ++ [slot]).take lower.length := by rw [← whole]; rfl
    _ = lower := List.take_left

def setExtent (g : Gen) (axis : Nat) (extent : Int) : Gen :=
  { g with
    extents := (g.extents ++ List.replicate (axis + 1 - g.extents.length) 0).set axis extent }

def recordExtent (stack : List Gen) (axis extent : Int) : List Gen :=
  if axis < 0 then stack else
  match stack with
  | [] => []
  | g :: rest => setExtent g axis.toNat extent :: rest

theorem change_top {slot' : GenSlot} (inv1 : Inv s1)
    (stacked : stacksOf s1 = stacksOf s) (top : TopAt s1 key pre.length v slot pre post lower)
    (slotOk : SlotOk slot') (vars : s2.vars = s1.vars) (table : s2.table = s1.table)
    (last : s2.last = s1.last)
    (account : ∀ b, (slotBufs slot').count b + s2.cacheBytes.toList.count b + s2.freed.count b +
        (if b < s1.nextBuf then 1 else 0) =
      (slotBufs slot).count b + s1.cacheBytes.toList.count b + s1.freed.count b +
        (if b < s2.nextBuf then 1 else 0)) :
    Inv { s2 with
        vars := s2.vars.set pre.length { v with slots := v.slots.set (v.depth - 1) slot' } } ∧
      stacksOf { s2 with
          vars := s2.vars.set pre.length { v with slots := v.slots.set (v.depth - 1) slot' } } =
        update (stacksOf s) key (genOf slot' :: (lower.map genOf).reverse) := by
  have ok : VarOk v := inv1.vars v (by rw [top.split]; simp)
  have succ : v.depth = v.depth - 1 + 1 := by
    have := top.depth
    omega
  have live : CtlVar.live { v with slots := v.slots.set (v.depth - 1) slot' } =
    lower ++ [slot'] := by
    simp only [CtlVar.live]
    conv => lhs; arg 1; rw [succ]
    rw [set_take_succ slot' (top.bound inv1), top.lower_eq]
  have placed : s2.vars.set pre.length { v with slots := v.slots.set (v.depth - 1) slot' } =
      pre ++ { v with slots := v.slots.set (v.depth - 1) slot' } :: post := by
    rw [vars, top.split, List.set_append_right _ _ (Nat.le_refl _), Nat.sub_self]
    rfl
  have ok' : VarOk { v with slots := v.slots.set (v.depth - 1) slot' } := by
    refine ⟨by simpa using ok.room, ?_⟩
    rw [live]
    intro x mem
    rcases List.mem_append.mp mem with old | new
    · exact ok.slots x (by rw [top.live]; simp [old])
    · simp only [List.mem_singleton] at new
      subst new
      exact slotOk
  have result := @replace_var s1
    { s2 with vars := s2.vars.set pre.length { v with slots := v.slots.set (v.depth - 1) slot' } }
    pre post v _ inv1 top.split placed rfl table last ok' (by
      intro b
      have := account b
      simp only [varBufs, live, top.live, List.flatMap_append, List.flatMap_cons, List.flatMap_nil,
        List.append_nil, List.count_append]
      omega)
  have stack : stackOf { v with slots := v.slots.set (v.depth - 1) slot' } =
      genOf slot' :: (lower.map genOf).reverse := by
    simp [stackOf, live]
  refine ⟨result.1, ?_⟩
  rw [result.2, stack, stacked, top.here]

theorem widen_spec (s : Ctl) {slot : GenSlot} (slotOk : SlotOk slot) (a : Nat) :
    SlotOk (widen s slot a).2 ∧ (widen s slot a).2.gen = slot.gen ∧
      (widen s slot a).2.len = slot.len ∧
      extentsOf (widen s slot a).2 =
        extentsOf slot ++ List.replicate (a + 1 - (extentsOf slot).length) 0 ∧
      (widen s slot a).1.vars = s.vars ∧ (widen s slot a).1.table = s.table ∧
      (widen s slot a).1.last = s.last ∧
      ∀ b, (slotBufs (widen s slot a).2).count b +
          (widen s slot a).1.cacheBytes.toList.count b + (widen s slot a).1.freed.count b +
          (if b < s.nextBuf then 1 else 0) =
        (slotBufs slot).count b + s.cacheBytes.toList.count b + s.freed.count b +
          (if b < (widen s slot a).1.nextBuf then 1 else 0) := by
  have ranks := slotOk.extents
  unfold widen
  split
  · rename_i wider
    refine ⟨⟨slotOk.held, ?_, by simp⟩, rfl, rfl, ?_, rfl, rfl, rfl, ?_⟩
    · change (extentsOf slot ++ List.replicate (a + 1 - slot.rank) 0).length = a + 1
      rw [List.length_append, List.length_replicate, ranks]
      omega
    · rw [ranks]
      rfl
    · intro b
      have fresh := count_fresh s.nextBuf b
      change (slot.gen.toList ++ [s.nextBuf]).count b + s.cacheBytes.toList.count b +
          ((slot.dims.map (·.1)).toList ++ s.freed).count b + (if b < s.nextBuf then 1 else 0) =
        (slot.gen.toList ++ (slot.dims.map (·.1)).toList).count b + s.cacheBytes.toList.count b +
          s.freed.count b + (if b < s.nextBuf + 1 then 1 else 0)
      simp only [List.count_append]
      omega
  · rename_i covered
    refine ⟨slotOk, rfl, rfl, ?_, rfl, rfl, rfl, fun b => rfl⟩
    have none_new : a + 1 - (extentsOf slot).length = 0 := by omega
    simp [none_new]

theorem storeExtent_extents (slot : GenSlot) (a : Nat) (extent : Int) :
    extentsOf (storeExtent slot a extent) = (extentsOf slot).set a extent := by
  cases held : slot.dims <;> simp [storeExtent, extentsOf, held]

theorem storeExtent_ok (slotOk : SlotOk slot) (a : Nat) (extent : Int) :
    SlotOk (storeExtent slot a extent) := by
  refine ⟨slotOk.held, ?_, ?_⟩
  · rw [storeExtent_extents, List.length_set, slotOk.extents]
    rfl
  · simpa [storeExtent] using slotOk.array

theorem storeExtent_bufs (slot : GenSlot) (a : Nat) (extent : Int) :
    slotBufs (storeExtent slot a extent) = slotBufs slot := by
  cases held : slot.dims <;> simp [storeExtent, slotBufs, held]

theorem setDim_spec (inv : Inv s) (key axis extent : Int) :
    ∃ s', pliCtlSetDim s key axis extent = .ok s' ∧ Inv s' ∧
      stacksOf s' = update (stacksOf s) key
        (recordExtent (stacksOf s key) axis extent) := by
  obtain ⟨s1, top, htop, inv1, stacked, none_case, some_case⟩ := ctlTop_spec inv key
  cases top with
  | none =>
    refine ⟨s1, by simp [pliCtlSetDim, htop], inv1, ?_⟩
    have empty := none_case rfl
    have kept : recordExtent (stacksOf s key) axis extent = stacksOf s key := by
      simp [empty, recordExtent]
    rw [kept, update_eq_self, stacked]
  | some found =>
    obtain ⟨i, v, slot⟩ := found
    obtain ⟨pre, post, lower, top⟩ := some_case i v slot rfl
    have stack := top.stack inv1
    rw [stacked] at stack
    have place := top.place
    subst place
    by_cases below : axis < 0
    · refine ⟨s1, by simp [pliCtlSetDim, htop, below], inv1, ?_⟩
      simp [recordExtent, below, stacked]
    · have slotOk := top.slotOk inv1
      obtain ⟨wideOk, gen, len, extents, vars, table, last, account⟩ :=
        widen_spec s1 slotOk axis.toNat
      have changed := change_top inv1 stacked top
        (storeExtent_ok wideOk axis.toNat extent) vars table last
        (by rw [storeExtent_bufs]; exact account)
      refine ⟨_, by simp only [pliCtlSetDim, htop, below, ↓reduceIte], changed.1, ?_⟩
      rw [changed.2, stack, recordExtent, if_neg below]
      simp only [setExtent, genOf, storeExtent_extents, extents]
      simp [storeExtent, gen, len]

theorem stash_released {s' : Ctl} (h : stash (pliFree s (slot.dims.map (·.1))) key slot = s') :
    s'.vars = s.vars ∧ s'.table = s.table ∧ s'.last = s.last ∧ s'.nextBuf = s.nextBuf ∧
      ∀ b, s'.cacheBytes.toList.count b + s'.freed.count b =
        (slotBufs slot).count b + s.cacheBytes.toList.count b + s.freed.count b := by
  subst h
  unfold stash
  split
  · split
    · refine ⟨rfl, rfl, rfl, rfl, ?_⟩
      intro b
      simp only [pliFree, slotBufs, List.count_append]
      omega
    · refine ⟨rfl, rfl, rfl, rfl, ?_⟩
      intro b
      simp only [pliFree, slotBufs, List.count_append]
      omega
  · refine ⟨rfl, rfl, rfl, rfl, ?_⟩
    intro b
    simp only [pliFree, slotBufs, List.count_append]
    omega

theorem popSlot_live
    (top : TopAt s key i v slot pre post lower) : (popSlot v slot).live = lower := by
  rw [← top.lower_eq]
  simp [popSlot, CtlVar.live, List.take_set_of_le]

theorem popSlot_top (inv : Inv s) (top : TopAt s key i v slot pre post lower) :
    (if 0 < (popSlot v slot).depth then
        ((popSlot v slot).slots[(popSlot v slot).depth - 1]?).bind (·.gen) else none) =
      ((lower.map genOf).reverse.head?).map (·.buf) := by
  have depth : (popSlot v slot).depth = lower.length := by
    have := top.depth
    simp only [popSlot]
    omega
  have live := popSlot_live top
  rw [depth]
  rcases List.eq_nil_or_concat lower with rfl | ⟨init, last, rfl⟩
  · simp
  · have at' : (popSlot v slot).slots[init.length]? = some last := by
      have inLive : (popSlot v slot).live[init.length]? = some last := by
        rw [live]
        simp
      rw [CtlVar.live, List.getElem?_take] at inLive
      split at inLive
      · exact inLive
      · simp at inLive
    have lastOk : SlotOk last :=
      (inv.vars v (by rw [top.split]; simp)).slots last (by rw [top.live]; simp)
    obtain ⟨b, held⟩ := lastOk.held
    simp [at', held, genOf]

theorem freeAddr_spec (inv : Inv s) (key : Int) :
    ∃ s' reply, pliCtlFreeAddr s key = .ok (s', reply) ∧ Inv s' ∧
      stacksOf s' = update (stacksOf s) key (stacksOf s key).tail ∧
      reply = if stacksOf s key = [] then .error "FREE of empty CONTROLLED stack"
        else .ok ((stacksOf s key).tail.head?.map (·.buf)) := by
  obtain ⟨s1, top, htop, inv1, stacked, none_case, some_case⟩ := ctlTop_spec inv key
  cases top with
  | none =>
    have empty := none_case rfl
    refine ⟨s1, .error "FREE of empty CONTROLLED stack", by simp only [pliCtlFreeAddr, htop],
      inv1, ?_, by rw [if_pos empty]⟩
    have kept : (stacksOf s key).tail = stacksOf s key := by simp [empty]
    rw [kept, update_eq_self, stacked]
  | some found =>
    obtain ⟨i, v, slot⟩ := found
    obtain ⟨pre, post, lower, top⟩ := some_case i v slot rfl
    have stack := top.stack inv1
    rw [stacked] at stack
    have place := top.place
    subst place
    have ok : VarOk v := inv1.vars v (by rw [top.split]; simp)
    have live := popSlot_live top
    have popped : VarOk (popSlot v slot) := by
      refine ⟨?_, ?_⟩
      · have := ok.room
        simp only [popSlot, List.length_set]
        omega
      · rw [live]
        intro x mem
        exact ok.slots x (by rw [top.live]; simp [mem])
    obtain ⟨s2, hs2⟩ : ∃ s2, stash (pliFree s1 (slot.dims.map (·.1))) key slot = s2 := ⟨_, rfl⟩
    obtain ⟨vars, table, last, next, account⟩ := stash_released hs2
    have placed : s2.vars.set pre.length (popSlot v slot) = pre ++ popSlot v slot :: post := by
      rw [vars, top.split, List.set_append_right _ _ (Nat.le_refl _), Nat.sub_self]
      rfl
    have result := @replace_var s1 { s2 with vars := s2.vars.set pre.length (popSlot v slot) }
      pre post v _ inv1 top.split placed rfl table last popped (by
        intro b
        have moved := account b
        simp only [varBufs, live, top.live, List.flatMap_append, List.flatMap_cons,
          List.flatMap_nil, List.append_nil, List.count_append, next]
        omega)
    have popStack : stackOf (popSlot v slot) = (stacksOf s key).tail := by
      rw [stack]
      simp [stackOf, live]
    refine ⟨{ s2 with vars := s2.vars.set pre.length (popSlot v slot) }, _,
      by simp only [pliCtlFreeAddr, htop, hs2]; rfl, result.1, ?_, ?_⟩
    · rw [result.2, popStack, stacked, top.here]
    · rw [popSlot_top inv1 top, stack, if_neg (by simp)]
      rfl

/- What the queries answer for a stack of generations. -/
def topAddr (stack : List Gen) : Option Nat := stack.head?.map (·.buf)

def topLen (stack : List Gen) : Int := (stack.head?.map (·.len)).getD 0

def topRank (stack : List Gen) : Nat := (stack.head?.map (·.extents.length)).getD 0

def topExtent (stack : List Gen) (axis : Int) : Int :=
  if axis < 0 then 0 else (stack.head?.bind (·.extents[axis.toNat]?)).getD 0

theorem top_answer {α : Type} {read : Ctl × Option (Nat × CtlVar × GenSlot) → Ctl × α}
    {top : List Gen → α} (inv : Inv s) (key : Int) (empty : ∀ s, read (s, none) = (s, top []))
    (given : ∀ s i v slot lower, SlotOk slot →
      read (s, some (i, v, slot)) = (s, top (genOf slot :: lower))) :
    ∃ s', (ctlTop s key).map read = .ok (s', top (stacksOf s key)) ∧ Inv s' ∧
      stacksOf s' = stacksOf s := by
  obtain ⟨s1, found, htop, inv1, stacked, none_case, some_case⟩ := ctlTop_spec inv key
  refine ⟨s1, ?_, inv1, stacked⟩
  rw [htop, Except.map]
  cases found with
  | none => rw [none_case rfl, empty]
  | some found =>
    obtain ⟨i, v, slot⟩ := found
    obtain ⟨pre, post, lower, here⟩ := some_case i v slot rfl
    rw [← stacked, here.stack inv1, given s1 i v slot _ (here.slotOk inv1)]

theorem addr_spec (inv : Inv s) (key : Int) :
    ∃ s', pliCtlAddr s key = .ok (s', topAddr (stacksOf s key)) ∧ Inv s' ∧
      stacksOf s' = stacksOf s := by
  refine top_answer inv key (fun _ => rfl) fun s i v slot lower slotOk => ?_
  obtain ⟨b, held⟩ := slotOk.held
  simp [topAddr, genOf, held]

theorem len_spec (inv : Inv s) (key : Int) :
    ∃ s', pliCtlLen s key = .ok (s', topLen (stacksOf s key)) ∧ Inv s' ∧
      stacksOf s' = stacksOf s :=
  top_answer inv key (fun _ => rfl) fun _ _ _ _ _ _ => rfl

theorem rank_spec (inv : Inv s) (key : Int) :
    ∃ s', pliCtlRank s key = .ok (s', topRank (stacksOf s key)) ∧ Inv s' ∧
      stacksOf s' = stacksOf s := by
  refine top_answer inv key (fun _ => rfl) fun s _ _ _ _ slotOk => ?_
  exact congrArg (Prod.mk s) slotOk.extents.symm

theorem extent_guard (slotOk : SlotOk slot) (axis : Int) :
    (if axis < 0 ∨ (slot.rank : Int) ≤ axis then (0 : Int)
      else (slot.dims.bind fun x => x.2[axis.toNat]?).getD 0) =
    if axis < 0 then 0 else ((extentsOf slot)[axis.toNat]?).getD 0 := by
  by_cases below : axis < 0
  · simp [below]
  by_cases beyond : (slot.rank : Int) ≤ axis
  · have outside : (extentsOf slot).length ≤ axis.toNat := by
      rw [slotOk.extents]
      omega
    simp [below, beyond, List.getElem?_eq_none outside]
  · rw [if_neg (by omega), if_neg below]
    cases held : slot.dims <;> simp [extentsOf, held]

theorem extent_spec (inv : Inv s) (key axis : Int) :
    ∃ s', pliCtlExtent s key axis = .ok (s', topExtent (stacksOf s key) axis) ∧ Inv s' ∧
      stacksOf s' = stacksOf s := by
  refine @top_answer s _ _ (fun stack => topExtent stack axis) inv key ?_
    fun s _ _ _ _ slotOk => ?_
  · simp [topExtent]
  · exact congrArg (Prod.mk s) (extent_guard slotOk axis)

theorem depth_spec (inv : Inv s) (key : Int) :
    ∃ s', pliCtlDepth s key = .ok (s', (stacksOf s key).length) ∧ Inv s' ∧
      stacksOf s' = stacksOf s := by
  obtain ⟨s1, found, hfind, inv1, stacked, none_case, some_case⟩ := ctlFind_spec inv key false
  refine ⟨s1, ?_, inv1, stacked⟩
  cases found with
  | none => simp [pliCtlDepth, hfind, (none_case rfl).2]
  | some i =>
    obtain ⟨v, at', here⟩ := some_case i rfl
    obtain ⟨pre, post, split, place⟩ := cut_at at'
    have room := (inv1.vars v (by rw [split]; simp)).room
    have size : (stacksOf s key).length = v.depth := by
      rw [← stacked, ← here, stacksOf_split inv1 split]
      simp [stackOf, CtlVar.live, room]
    simp [pliCtlDepth, hfind, at', size]

theorem ensure_spec (inv : Inv s) (key n : Int) : ∃ s', pliCtlEnsure s key n = .ok s' ∧ Inv s' ∧
      ((stacksOf s key ≠ [] ∧ stacksOf s' = stacksOf s) ∨
        stacksOf s key = [] ∧ ∃ b, (∀ k, ∀ g ∈ stacksOf s k, g.buf ≠ b) ∧
          stacksOf s' = update (stacksOf s) key [⟨b, n, []⟩]) := by
  obtain ⟨s1, hdepth, inv1, stacked⟩ := depth_spec inv key
  by_cases empty : stacksOf s key = []
  · obtain ⟨s2, b, halloc, inv2, fresh, stacked2⟩ := alloc_spec inv1 key n
    rw [stacked] at fresh stacked2
    refine ⟨s2, by simp [pliCtlEnsure, hdepth, empty, halloc, Except.map], inv2,
      Or.inr ⟨empty, b, fresh, by rw [stacked2, empty]⟩⟩
  · exact ⟨s1, by simp [pliCtlEnsure, hdepth, empty], inv1, Or.inl ⟨empty, stacked⟩⟩

/- A task's calls on its CONTROLLED variables, with what each returned. -/
inductive Op where
  | alloc (key n : Int)
  | allocDims (key n rank : Int)
  | setDim (key axis extent : Int)
  | ensure (key n : Int)
  | freeAddr (key : Int)
  | addr (key : Int)
  | len (key : Int)
  | rank (key : Int)
  | extent (key axis : Int)
  | depth (key : Int)

inductive Reply where
  | void
  | addr (p : Option Nat)
  | value (n : Int)
  | signal (msg : String)
  deriving DecidableEq

def freeReply : Except String (Option Nat) → Reply
  | .ok p => .addr p
  | .error msg => .signal msg

def perform (s : Ctl) : Op → Except Halt (Ctl × Reply)
  | .alloc key n => (pliCtlAlloc s key n).map fun (s, b) => (s, .addr (some b))
  | .allocDims key n rank => (pliCtlAllocDims s key n rank).map fun (s, b) => (s, .addr (some b))
  | .setDim key axis extent => (pliCtlSetDim s key axis extent).map fun s => (s, .void)
  | .ensure key n => (pliCtlEnsure s key n).map fun s => (s, .void)
  | .freeAddr key => (pliCtlFreeAddr s key).map fun (s, r) => (s, freeReply r)
  | .addr key => (pliCtlAddr s key).map fun (s, p) => (s, .addr p)
  | .len key => (pliCtlLen s key).map fun (s, n) => (s, .value n)
  | .rank key => (pliCtlRank s key).map fun (s, n) => (s, .value n)
  | .extent key axis => (pliCtlExtent s key axis).map fun (s, n) => (s, .value n)
  | .depth key => (pliCtlDepth s key).map fun (s, n) => (s, .value n)

def step (t : Ctl × List Reply) (op : Op) : Option (Ctl × List Reply) :=
  match perform t.1 op with
  | .ok (s, reply) => some (s, reply :: t.2)
  | .error _ => none

def Unused (st : Stacks) (b : Nat) : Prop := ∀ key, ∀ g ∈ st key, g.buf ≠ b

/-- The same calls on stacks of generations; a new generation's buffer is any one
    that no generation uses. -/
inductive GenStep : Stacks → Op → Stacks → Reply → Prop where
  | alloc {st key n b} (fresh : Unused st b) :
      GenStep st (.alloc key n) (update st key (⟨b, n, []⟩ :: st key)) (.addr (some b))
  | allocDims {st key n rank b} (fresh : Unused st b) :
      GenStep st (.allocDims key n rank)
        (update st key (⟨b, n, List.replicate rank.toNat 0⟩ :: st key)) (.addr (some b))
  | setDim {st key axis extent} :
      GenStep st (.setDim key axis extent)
        (update st key (recordExtent (st key) axis extent)) .void
  | ensureHeld {st key n} (held : st key ≠ []) : GenStep st (.ensure key n) st .void
  | ensureNew {st key n b} (empty : st key = []) (fresh : Unused st b) :
      GenStep st (.ensure key n) (update st key [⟨b, n, []⟩]) .void
  | free {st key} (held : st key ≠ []) :
      GenStep st (.freeAddr key) (update st key (st key).tail)
        (.addr (topAddr (st key).tail))
  | freeEmpty {st key} (empty : st key = []) :
      GenStep st (.freeAddr key) st (.signal "FREE of empty CONTROLLED stack")
  | addr {st key} : GenStep st (.addr key) st (.addr (topAddr (st key)))
  | len {st key} : GenStep st (.len key) st (.value (topLen (st key)))
  | rank {st key} : GenStep st (.rank key) st (.value (topRank (st key)))
  | extent {st key axis} : GenStep st (.extent key axis) st (.value (topExtent (st key) axis))
  | depth {st key} : GenStep st (.depth key) st (.value (st key).length)

/-- The abstract calls with their replies logged as `step` logs them. -/
def genRel (t : Stacks × List Reply) (op : Op) (t' : Stacks × List Reply) : Prop :=
  ∃ reply, GenStep t.1 op t'.1 reply ∧ t'.2 = reply :: t.2

theorem perform_spec (inv : Inv s) (op : Op) : ∃ s' reply, perform s op = .ok (s', reply) ∧ Inv s' ∧
      GenStep (stacksOf s) op (stacksOf s') reply := by
  cases op with
  | alloc key n =>
    obtain ⟨s', b, hcall, inv', fresh, stacked⟩ := alloc_spec inv key n
    refine ⟨s', .addr (some b), by simp [perform, hcall, Except.map], inv', ?_⟩
    rw [stacked]
    exact GenStep.alloc fresh
  | allocDims key n rank =>
    obtain ⟨s', b, hcall, inv', fresh, stacked⟩ := allocDims_spec inv key n rank
    refine ⟨s', .addr (some b), by simp [perform, hcall, Except.map], inv', ?_⟩
    rw [stacked]
    exact GenStep.allocDims fresh
  | setDim key axis extent =>
    obtain ⟨s', hcall, inv', stacked⟩ := setDim_spec inv key axis extent
    refine ⟨s', .void, by simp [perform, hcall, Except.map], inv', ?_⟩
    rw [stacked]
    exact GenStep.setDim
  | ensure key n =>
    obtain ⟨s', hcall, inv', stacked⟩ := ensure_spec inv key n
    refine ⟨s', .void, by simp [perform, hcall, Except.map], inv', ?_⟩
    rcases stacked with ⟨held, same⟩ | ⟨empty, b, fresh, pushed⟩
    · rw [same]
      exact GenStep.ensureHeld held
    · rw [pushed]
      exact GenStep.ensureNew empty fresh
  | freeAddr key =>
    obtain ⟨s', reply, hcall, inv', stacked, answer⟩ := freeAddr_spec inv key
    refine ⟨s', freeReply reply, by simp [perform, hcall, Except.map], inv', ?_⟩
    by_cases empty : stacksOf s key = []
    · have kept : stacksOf s' = stacksOf s := by
        have tail : (stacksOf s key).tail = stacksOf s key := by simp [empty]
        rw [stacked, tail, update_eq_self]
      rw [answer, if_pos empty, kept]
      exact GenStep.freeEmpty empty
    · rw [answer, if_neg empty, stacked]
      exact GenStep.free empty
  | addr key =>
    obtain ⟨s', hcall, inv', stacked⟩ := addr_spec inv key
    refine ⟨s', _, by simp [perform, hcall, Except.map]; rfl, inv', ?_⟩
    rw [stacked]
    exact GenStep.addr
  | len key =>
    obtain ⟨s', hcall, inv', stacked⟩ := len_spec inv key
    refine ⟨s', _, by simp [perform, hcall, Except.map]; rfl, inv', ?_⟩
    rw [stacked]
    exact GenStep.len
  | rank key =>
    obtain ⟨s', hcall, inv', stacked⟩ := rank_spec inv key
    refine ⟨s', _, by simp [perform, hcall, Except.map]; rfl, inv', ?_⟩
    rw [stacked]
    exact GenStep.rank
  | extent key axis =>
    obtain ⟨s', hcall, inv', stacked⟩ := extent_spec inv key axis
    refine ⟨s', _, by simp [perform, hcall, Except.map]; rfl, inv', ?_⟩
    rw [stacked]
    exact GenStep.extent
  | depth key =>
    obtain ⟨s', hcall, inv', stacked⟩ := depth_spec inv key
    refine ⟨s', _, by simp [perform, hcall, Except.map]; rfl, inv', ?_⟩
    rw [stacked]
    exact GenStep.depth

/-- Every sequence of calls runs to its end and answers as stacks of generations do;
    every buffer handed out is then live in one slot, cached, or freed once. -/
theorem controlled_refines_generation_stacks (ops : List Op) :
    ∃ s replies st, run step (Ctl.start, []) ops = some (s, replies) ∧
      RelRun genRel (fun _ => [], []) ops (st, replies) ∧
      (∀ key, (pliCtlAddr s key).map (·.2) = .ok (topAddr (st key)) ∧
        (pliCtlLen s key).map (·.2) = .ok (topLen (st key)) ∧
        (pliCtlDepth s key).map (·.2) = .ok (st key).length ∧
        (pliCtlRank s key).map (·.2) = .ok (topRank (st key)) ∧
        ∀ axis, (pliCtlExtent s key axis).map (·.2) = .ok (topExtent (st key) axis)) ∧
      ∀ b, b < s.nextBuf →
        (liveBufs s).count b + s.cacheBytes.toList.count b + s.freed.count b = 1 := by
  have sim : ∀ (t : Ctl × List Reply) (a : Stacks × List Reply) (op : Op),
      (Inv t.1 ∧ a = (stacksOf t.1, t.2)) →
      ∃ t' a', step t op = some t' ∧ genRel a op a' ∧ Inv t'.1 ∧ a' = (stacksOf t'.1, t'.2) := by
    rintro ⟨s, log⟩ a op ⟨inv, rfl⟩
    obtain ⟨s', reply, hcall, inv', related⟩ := perform_spec inv op
    exact ⟨(s', reply :: log), (stacksOf s', reply :: log), by simp [step, hcall],
      ⟨reply, related, rfl⟩, inv', rfl⟩
  obtain ⟨⟨s, replies⟩, a, hrun, arun, inv, rfl⟩ :=
    run_simulates_rel sim (s := (Ctl.start, [])) (t := (fun _ => [], [])) ⟨start_inv, rfl⟩ ops
  refine ⟨s, replies, stacksOf s, hrun, arun, ?_, ?_⟩
  · intro key
    obtain ⟨s1, addr, -⟩ := addr_spec inv key
    obtain ⟨s2, len, -⟩ := len_spec inv key
    obtain ⟨s3, depth, -⟩ := depth_spec inv key
    obtain ⟨s4, rank, -⟩ := rank_spec inv key
    refine ⟨by rw [addr]; rfl, by rw [len]; rfl, by rw [depth]; rfl, by rw [rank]; rfl, ?_⟩
    intro axis
    obtain ⟨s5, extent, -⟩ := extent_spec inv key axis
    rw [extent]
    rfl
  · intro b obtained
    have owned := inv.owned b
    rwa [if_pos obtained] at owned

end PliControlled
