import PliLlvm.Runtime.Controlled

/- CONTROLLED storage that an earlier task has left behind, and what a task's calls answer
   whatever the buffers' addresses are: the generations are numbered as they are made, and
   an address is the number of a generation and the buffer that it has. -/
namespace PliControlled
open Runs Blocks
open Function (update update_of_ne update_self)

def forget (lost : List Nat) (s : Ctl) : Ctl := { s with freed := s.freed ++ lost }

section Forget
variable (lost : List Nat) (s : Ctl) (key : Int)

theorem ctlFind_forget (create : Bool) : ctlFind (forget lost s) key create =
    (ctlFind s key create).map fun (t, i) => (forget lost t, i) := by
  have shortcut : ctlLast (forget lost s) key = ctlLast s key := rfl
  unfold ctlFind
  rw [shortcut]
  cases ctlLast s key with
  | error h => rfl
  | ok found =>
    cases found with
    | some i => rfl
    | none =>
      have scan : (forget lost s).vars = s.vars := rfl
      simp only [scan]
      cases s.vars.findIdx? fun v => v.key == key with
      | some i => rfl
      | none => cases create <;> rfl

theorem openVar_forget : openVar (forget lost s) key =
    (openVar s key).map fun (t, i, v) => (forget lost t, i, v) := by
  unfold openVar
  rw [ctlFind_forget]
  cases ctlFind s key true with
  | error h => rfl
  | ok found =>
    obtain ⟨t, i⟩ := found
    simp only [Except.map]
    have same : (forget lost t).vars = t.vars := rfl
    rw [same]
    cases i.bind fun i => (t.vars[i]?).map (i, ·) <;> rfl

theorem takeBuffer_forget (n : Int) : takeBuffer (forget lost s) key n =
    (forget lost (takeBuffer s key n).1, (takeBuffer s key n).2) := by
  unfold takeBuffer
  cases cached : s.cacheBytes with
  | none => simp [forget, cached, pliAlloc]
  | some b =>
    simp only [forget, cached]
    by_cases fits : s.cacheKey = key ∧ s.cacheLen = n
    · rw [if_pos fits, if_pos fits]
    · simp [pliAlloc, fits, cached]

theorem alloc_forget (n : Int) : pliCtlAlloc (forget lost s) key n =
    (pliCtlAlloc s key n).map fun (t, b) => (forget lost t, b) := by
  unfold pliCtlAlloc
  rw [openVar_forget]
  cases openVar s key with
  | error h => rfl
  | ok found =>
    obtain ⟨t, i, v⟩ := found
    simp only [Except.map, takeBuffer_forget]
    rfl

theorem allocDims_forget (n rank : Int) : pliCtlAllocDims (forget lost s) key n rank =
    (pliCtlAllocDims s key n rank).map fun (t, b) => (forget lost t, b) := by
  unfold pliCtlAllocDims
  rw [openVar_forget]
  cases openVar s key with
  | error h => rfl
  | ok found =>
    obtain ⟨t, i, v⟩ := found
    simp only [Except.map]
    by_cases none' : (if rank < 0 then 0 else rank.toNat) = 0
    · rw [if_pos none', if_pos none']
      rfl
    · rw [if_neg none', if_neg none']
      rfl

theorem ctlTop_forget : ctlTop (forget lost s) key =
    (ctlTop s key).map fun (t, top) => (forget lost t, top) := by
  unfold ctlTop
  rw [ctlFind_forget]
  cases ctlFind s key false with
  | error h => rfl
  | ok found =>
    obtain ⟨t, i⟩ := found
    cases i with
    | none => rfl
    | some i =>
      simp only [Except.map]
      have same : (forget lost t).vars = t.vars := rfl
      rw [same]
      cases t.vars[i]? with
      | none => rfl
      | some v =>
        simp only
        by_cases empty : v.depth = 0
        · rw [if_pos empty, if_pos empty]
        · rw [if_neg empty, if_neg empty]
          cases v.slots[v.depth - 1]? <;> rfl

theorem free_forget (p : Option Nat) : pliFree (forget lost s) p = forget lost (pliFree s p) := by
  simp [pliFree, forget]

theorem widen_forget (slot : GenSlot) (a : Nat) : widen (forget lost s) slot a =
    (forget lost (widen s slot a).1, (widen s slot a).2) := by
  unfold widen
  split
  · rw [free_forget]
    rfl
  · rfl

theorem setDim_forget (axis extent : Int) : pliCtlSetDim (forget lost s) key axis extent =
    (pliCtlSetDim s key axis extent).map (forget lost) := by
  unfold pliCtlSetDim
  rw [ctlTop_forget]
  cases ctlTop s key with
  | error h => rfl
  | ok found =>
    obtain ⟨t, top⟩ := found
    cases top with
    | none => rfl
    | some top =>
      obtain ⟨i, v, slot⟩ := top
      simp only [Except.map, widen_forget]
      by_cases below : axis < 0
      · rw [if_pos below, if_pos below]
      · rw [if_neg below, if_neg below]
        rfl

theorem stash_forget (slot : GenSlot) : stash (forget lost s) key slot =
    forget lost (stash s key slot) := by
  have cached : (forget lost s).cacheBytes = s.cacheBytes := rfl
  have keyed : (forget lost s).cacheKey = s.cacheKey := rfl
  have sized : (forget lost s).cacheLen = s.cacheLen := rfl
  unfold stash
  rw [cached, keyed, sized]
  simp only [free_forget]
  split
  · split <;> rfl
  · rfl

theorem freeAddr_forget : pliCtlFreeAddr (forget lost s) key =
    (pliCtlFreeAddr s key).map fun (t, r) => (forget lost t, r) := by
  unfold pliCtlFreeAddr
  rw [ctlTop_forget]
  cases ctlTop s key with
  | error h => rfl
  | ok found =>
    obtain ⟨t, top⟩ := found
    cases top with
    | none => rfl
    | some top =>
      obtain ⟨i, v, slot⟩ := top
      simp only [Except.map, free_forget, stash_forget]
      rfl

theorem depth_forget : pliCtlDepth (forget lost s) key =
    (pliCtlDepth s key).map fun (t, n) => (forget lost t, n) := by
  unfold pliCtlDepth
  rw [ctlFind_forget]
  cases ctlFind s key false with
  | error h => rfl
  | ok found =>
    obtain ⟨t, i⟩ := found
    cases i with
    | none => rfl
    | some i =>
      simp only [Except.map]
      have same : (forget lost t).vars = t.vars := rfl
      rw [same]
      cases t.vars[i]? <;> rfl

theorem ensure_forget (n : Int) : pliCtlEnsure (forget lost s) key n =
    (pliCtlEnsure s key n).map (forget lost) := by
  unfold pliCtlEnsure
  rw [depth_forget]
  cases pliCtlDepth s key with
  | error h => rfl
  | ok found =>
    obtain ⟨t, depth⟩ := found
    simp only [Except.map]
    split
    · rw [alloc_forget]
      cases pliCtlAlloc t key n <;> rfl
    · rfl

theorem perform_forget (op : Op) : perform (forget lost s) op =
    (perform s op).map fun (t, r) => (forget lost t, r) := by
  have top : ∀ {β : Type} (read : Option (Nat × CtlVar × GenSlot) → β) (key : Int),
      (ctlTop (forget lost s) key).map (fun (t, found) => (t, read found)) =
        ((ctlTop s key).map fun (t, found) => (t, read found)).map
          fun (t, r) => (forget lost t, r) := by
    intro β read key
    rw [ctlTop_forget]
    cases ctlTop s key <;> rfl
  cases op with
  | alloc key n =>
    simp only [perform, alloc_forget]
    cases pliCtlAlloc s key n <;> rfl
  | allocDims key n rank =>
    simp only [perform, allocDims_forget]
    cases pliCtlAllocDims s key n rank <;> rfl
  | setDim key axis extent =>
    simp only [perform, setDim_forget]
    cases pliCtlSetDim s key axis extent <;> rfl
  | ensure key n =>
    simp only [perform, ensure_forget]
    cases pliCtlEnsure s key n <;> rfl
  | freeAddr key =>
    simp only [perform, freeAddr_forget]
    cases pliCtlFreeAddr s key <;> rfl
  | depth key =>
    simp only [perform, depth_forget]
    cases pliCtlDepth s key <;> rfl
  | addr key =>
    simp only [perform, pliCtlAddr, ctlTop_forget]
    cases ctlTop s key <;> rfl
  | len key =>
    simp only [perform, pliCtlLen, ctlTop_forget]
    cases ctlTop s key <;> rfl
  | rank key =>
    simp only [perform, pliCtlRank, ctlTop_forget]
    cases ctlTop s key <;> rfl
  | extent key axis =>
    simp only [perform, pliCtlExtent, ctlTop_forget]
    cases ctlTop s key <;> rfl

end Forget

/-- What the calls do with generations that are numbered as they are made; the number stands
    where the buffer does. -/
def number (st : Stacks) (n : Nat) : Op → Stacks × Nat × Reply
  | .alloc key len => (update st key (⟨n, len, []⟩ :: st key), n + 1, .addr (some n))
  | .allocDims key len rank =>
    (update st key (⟨n, len, List.replicate rank.toNat 0⟩ :: st key), n + 1,
      .addr (some n))
  | .setDim key axis extent =>
    (update st key (recordExtent (st key) axis extent), n, .void)
  | .ensure key len =>
    if st key = [] then (update st key [⟨n, len, []⟩], n + 1, .void) else (st, n, .void)
  | .freeAddr key =>
    if st key = [] then (st, n, .signal "FREE of empty CONTROLLED stack")
    else (update st key (st key).tail, n, .addr (topAddr (st key).tail))
  | .addr key => (st, n, .addr (topAddr (st key)))
  | .len key => (st, n, .value (topLen (st key)))
  | .rank key => (st, n, .value (topRank (st key)))
  | .extent key axis => (st, n, .value (topExtent (st key) axis))
  | .depth key => (st, n, .value (st key).length)

def atBuf (bufs : Nat → Nat) (g : Gen) : Gen := { g with buf := bufs g.buf }

def placed (bufs : Nat → Nat) (st : Stacks) : Stacks := fun key => (st key).map (atBuf bufs)

def replyAt (bufs : Nat → Nat) : Reply → Reply
  | .addr p => .addr (p.map bufs)
  | r => r

structure Numbered (bufs : Nat → Nat) (st : Stacks) (n : Nat) : Prop where
  below : ∀ key, ∀ g ∈ st key, g.buf < n
  apart : ∀ key key', ∀ g ∈ st key, ∀ h ∈ st key', bufs g.buf = bufs h.buf → g.buf = h.buf

section Number
variable {bufs : Nat → Nat} {st : Stacks} {n : Nat}

theorem placed_update (key : Int) (l : List Gen) :
    placed bufs (update st key l) =
      update (placed bufs st) key (l.map (atBuf bufs)) := by
  funext k
  by_cases here : k = key
  · subst here
    simp [placed]
  · simp [placed, here]

theorem topAddr_placed (l : List Gen) : topAddr (l.map (atBuf bufs)) = (topAddr l).map bufs := by
  cases l <;> rfl

theorem topLen_placed (l : List Gen) : topLen (l.map (atBuf bufs)) = topLen l := by
  cases l <;> rfl

theorem topRank_placed (l : List Gen) : topRank (l.map (atBuf bufs)) = topRank l := by
  cases l <;> rfl

theorem topExtent_placed (l : List Gen) (axis : Int) :
    topExtent (l.map (atBuf bufs)) axis = topExtent l axis := by
  cases l <;> rfl

theorem recordExtent_placed (l : List Gen) (axis extent : Int) :
    recordExtent (l.map (atBuf bufs)) axis extent =
      (recordExtent l axis extent).map (atBuf bufs) := by
  unfold recordExtent
  split
  · rfl
  · cases l <;> rfl

theorem recordExtent_members {l : List Gen} {axis extent : Int} {g : Gen}
    (inside : g ∈ recordExtent l axis extent) : ∃ h ∈ l, h.buf = g.buf := by
  unfold recordExtent at inside
  split at inside
  · exact ⟨g, inside, rfl⟩
  · cases l with
    | nil => cases inside
    | cons h l =>
      rcases List.mem_cons.mp inside with rfl | later
      · exact ⟨h, List.mem_cons_self, rfl⟩
      · exact ⟨g, List.mem_cons_of_mem _ later, rfl⟩

section
variable (numbered : Numbered bufs st n)
include numbered

theorem Numbered.kept {st' : Stacks}
    (old : ∀ key, ∀ g ∈ st' key, ∃ h ∈ st key, h.buf = g.buf) : Numbered bufs st' n := by
  refine ⟨fun key g inside => ?_, fun key key' g inside h within same => ?_⟩
  · obtain ⟨g', before, named⟩ := old key g inside
    exact named ▸ numbered.below key g' before
  · obtain ⟨g', before, named⟩ := old key g inside
    obtain ⟨h', earlier, named'⟩ := old key' h within
    rw [← named, ← named'] at same ⊢
    exact numbered.apart key key' g' before h' earlier same

theorem Numbered.push {b : Nat} {key : Int} {g : Gen} {l : List Gen}
    (fresh : Unused (placed bufs st) b) (new : g.buf = n) (below : ∀ h ∈ l, h ∈ st key) :
    Numbered (update bufs n b) (update st key (g :: l)) (n + 1) := by
  have keep : ∀ i, i < n → update bufs n b i = bufs i :=
    fun i old => update_of_ne (Nat.ne_of_lt old) _ _
  have members : ∀ k, ∀ h ∈ update st key (g :: l) k, h = g ∨ ∃ k', h ∈ st k' := by
    intro k h inside
    by_cases here : k = key
    · rw [here, update_self] at inside
      rcases List.mem_cons.mp inside with rfl | inside
      · exact .inl rfl
      · exact .inr ⟨key, below h inside⟩
    · rw [update_of_ne here] at inside
      exact .inr ⟨k, inside⟩
  have away : ∀ k, ∀ h ∈ st k, update bufs n b h.buf ≠ b := by
    intro k h inside same
    rw [keep _ (numbered.below k h inside)] at same
    exact fresh k (atBuf bufs h) (List.mem_map_of_mem inside) same
  refine ⟨fun k h inside => ?_, fun k k' h inside h' within same => ?_⟩
  · rcases members k h inside with rfl | ⟨k', old⟩
    · omega
    · have := numbered.below k' h old
      omega
  · rcases members k h inside with rfl | ⟨i, old⟩ <;>
      rcases members k' h' within with rfl | ⟨j, old'⟩
    · rfl
    · rw [new, update_self] at same
      exact absurd same.symm (away j h' old')
    · rw [new, update_self] at same
      exact absurd same (away i h old)
    · rw [keep _ (numbered.below i h old), keep _ (numbered.below j h' old')] at same
      exact numbered.apart i j h old h' old' same

theorem placed_congr {bufs' : Nat → Nat}
    (same : ∀ i, i < n → bufs' i = bufs i) : placed bufs' st = placed bufs st := by
  funext key
  refine List.map_congr_left fun g inside => ?_
  rw [atBuf, atBuf, same _ (numbered.below key g inside)]

theorem genStep_numbered {op : Op} {st' : Stacks} {reply : Reply}
    (stepped : GenStep (placed bufs st) op st' reply) :
    ∃ bufs', (∀ i, i < n → bufs' i = bufs i) ∧ st' = placed bufs' (number st n op).1 ∧
      reply = replyAt bufs' (number st n op).2.2 ∧
      n ≤ (number st n op).2.1 ∧ Numbered bufs' (number st n op).1 (number st n op).2.1 := by
  have new : ∀ b i, i < n → update bufs n b i = bufs i :=
    fun b i old => update_of_ne (Nat.ne_of_lt old) _ _
  have pushes : ∀ b key len extents,
      update (placed bufs st) key (⟨b, len, extents⟩ :: placed bufs st key) =
        placed (update bufs n b)
          (update st key (⟨n, len, extents⟩ :: st key)) := by
    intro b key len extents
    have same : (st key).map (atBuf (update bufs n b)) = placed bufs st key :=
      congrFun (placed_congr numbered (new b)) key
    have here : atBuf (update bufs n b) ⟨n, len, extents⟩ = ⟨b, len, extents⟩ := by
      rw [atBuf, update_self]
    rw [placed_update, placed_congr numbered (new b), List.map_cons, same, here]
  cases stepped with
  | @alloc key len b fresh =>
    refine ⟨update bufs n b, new b, pushes b key len [], ?_, Nat.le_succ n,
      numbered.push fresh rfl fun h inside => inside⟩
    simp [number, replyAt]
  | @allocDims key len rank b fresh =>
    refine ⟨update bufs n b, new b, pushes b key len _, ?_, Nat.le_succ n,
      numbered.push fresh rfl fun h inside => inside⟩
    simp [number, replyAt]
  | @setDim key axis extent =>
    refine ⟨bufs, fun _ _ => rfl, ?_, rfl, Nat.le_refl n, numbered.kept fun k g inside => ?_⟩
    · simp only [number]
      rw [placed_update, ← recordExtent_placed]
      rfl
    · simp only [number] at inside
      by_cases here : k = key
      · subst here
        rw [update_self] at inside
        exact recordExtent_members inside
      · rw [update_of_ne here] at inside
        exact ⟨g, inside, rfl⟩
  | @ensureHeld key len held =>
    have some : st key ≠ [] := fun none => held (by simp [placed, none])
    simp only [number, if_neg some]
    exact ⟨bufs, fun _ _ => rfl, rfl, rfl, Nat.le_refl n, numbered⟩
  | @ensureNew key len b empty fresh =>
    have none : st key = [] := List.map_eq_nil_iff.mp empty
    simp only [number, if_pos none]
    have pushed := pushes b key len []
    rw [empty, none] at pushed
    exact ⟨update bufs n b, new b, pushed, rfl, Nat.le_succ n,
      numbered.push fresh rfl fun h inside => absurd inside List.not_mem_nil⟩
  | @free key held =>
    have some : st key ≠ [] := fun none => held (by simp [placed, none])
    simp only [number, if_neg some]
    refine ⟨bufs, fun _ _ => rfl, ?_, ?_, Nat.le_refl n, numbered.kept fun k g inside => ?_⟩
    · rw [placed_update, List.map_tail]
      rfl
    · rw [replyAt, ← topAddr_placed, List.map_tail]
      rfl
    · by_cases here : k = key
      · subst here
        rw [update_self] at inside
        exact ⟨g, List.mem_of_mem_tail inside, rfl⟩
      · rw [update_of_ne here] at inside
        exact ⟨g, inside, rfl⟩
  | @freeEmpty key empty =>
    have none : st key = [] := List.map_eq_nil_iff.mp empty
    simp only [number, if_pos none]
    exact ⟨bufs, fun _ _ => rfl, rfl, rfl, Nat.le_refl n, numbered⟩
  | addr =>
    refine ⟨bufs, fun _ _ => rfl, rfl, ?_, Nat.le_refl n, numbered⟩
    simp only [number, replyAt, placed, topAddr_placed]
  | len =>
    refine ⟨bufs, fun _ _ => rfl, rfl, ?_, Nat.le_refl n, numbered⟩
    simp only [number, replyAt, placed, topLen_placed]
  | rank =>
    refine ⟨bufs, fun _ _ => rfl, rfl, ?_, Nat.le_refl n, numbered⟩
    simp only [number, replyAt, placed, topRank_placed]
  | extent =>
    refine ⟨bufs, fun _ _ => rfl, rfl, ?_, Nat.le_refl n, numbered⟩
    simp only [number, replyAt, placed, topExtent_placed]
  | depth =>
    refine ⟨bufs, fun _ _ => rfl, rfl, ?_, Nat.le_refl n, numbered⟩
    simp only [number, replyAt, placed, List.length_map]

theorem number_reply {op : Op} {i : Nat}
    (answer : (number st n op).2.2 = .addr (some i)) : i < (number st n op).2.1 := by
  have top : ∀ {l : List Gen} {key : Int}, (∀ g ∈ l, g ∈ st key) → topAddr l = some i → i < n := by
    intro l key inside first
    cases l with
    | nil => cases first
    | cons g l =>
      cases first
      exact numbered.below key g (inside g List.mem_cons_self)
  cases op with
  | alloc key len | allocDims key len rank =>
    cases answer
    exact Nat.lt_succ_self n
  | freeAddr key =>
    by_cases none : st key = []
    · simp only [number, if_pos none] at answer
      cases answer
    · simp only [number, if_neg none, Reply.addr.injEq] at answer ⊢
      exact top (fun g => List.mem_of_mem_tail) answer
  | addr key =>
    simp only [number, Reply.addr.injEq] at answer
    exact top (fun g inside => inside) answer
  | ensure key len =>
    simp only [number] at answer
    split at answer <;> cases answer
  | setDim key axis extent | len key | rank key | extent key axis | depth key => cases answer

end

end Number

def Holds (s : Ctl) (st : Stacks) : Prop := ∃ lost, Inv (forget lost s) ∧ stacksOf s = st

theorem start_holds : Holds Ctl.start fun _ => [] := ⟨[], start_inv, rfl⟩

theorem emptied_holds {s : Ctl} {st : Stacks} (holds : Holds s st) :
    Holds { s with vars := [], last := none } fun _ => [] := by
  obtain ⟨lost, inv, -⟩ := holds
  refine ⟨lost ++ liveBufs s, ⟨List.nodup_nil, ?_, ?_, fun b => ?_⟩, rfl⟩
  · intro table i last
    cases last
  · intro v inside
    cases inside
  · refine Eq.trans ?_ (inv.owned b)
    simp only [forget, liveBufs, List.flatMap_nil, List.count_nil, List.count_append]
    omega

theorem perform_holds {s : Ctl} {st : Stacks} (holds : Holds s st) (op : Op) :
    ∃ s' st' reply, perform s op = .ok (s', reply) ∧ Holds s' st' ∧ GenStep st op st' reply := by
  obtain ⟨lost, inv, rfl⟩ := holds
  obtain ⟨t, reply, called, inv', stepped⟩ := perform_spec inv op
  rw [perform_forget] at called
  cases answer : perform s op with
  | error h =>
    rw [answer] at called
    cases called
  | ok result =>
    obtain ⟨s', reply'⟩ := result
    rw [answer] at called
    cases called
    exact ⟨s', stacksOf s', _, rfl, ⟨lost, inv', rfl⟩, stepped⟩

end PliControlled
