import PliLlvm.Lib.Linked
import PliLlvm.Lib.Run
import Mathlib.Algebra.Order.Ring.Int

/- The fiber pool (runtime/rt_sched.c: rt_pool_pop, rt_pool_push, rt_fiber_get, rt_fiber_put).
   A step is one atomic access of one worker. While a task runs on a fiber, or is queued, the
   rest of the scheduler writes the fiber's link as it likes. How often the pool has been
   updated, when a worker has last loaded the head, and what has been pushed and popped is
   kept beside the code's own state. -/
namespace PliFiberPool
open Runs Links
open Function (update update_of_ne update_self)

/-- A uintptr_t; an address is a word, and NULL is 0. -/
abbrev Word := BitVec 64

def ptrMask : Word := BitVec.ofNat 64 (2 ^ 48 - 1)

def tagOne : Word := BitVec.ofNat 64 (2 ^ 48)

def tagMask : Word := ~~~ptrMask

def ptr (h : Word) : Word := h &&& ptrMask

def pack (p h : Word) : Word := (p &&& ptrMask) ||| ((h + tagOne) &&& tagMask)

inductive Op where
  | push (f : Word)
  | pop (f : Word)
  | empty
  deriving DecidableEq

inductive Pc where
  | idle
  | popLoad
  | popNext (h : Word)
  | popCas (h next : Word)
  | fresh
  | pushLoad (f : Word)
  | pushStore (f h : Word)
  | pushCas (f h : Word)
  deriving DecidableEq

structure Pool where
  head : Word
  next : Word → Word
  spare : Nat → Option Word
  pc : Nat → Pc
  inUse : Word → Bool
  known : Word → Bool
  updates : Nat
  since : Nat → Nat
  log : List Op

def Pool.init : Pool where
  head := 0
  next := fun _ => 0
  spare := fun _ => none
  pc := fun _ => .idle
  inUse := fun _ => false
  known := fun _ => false
  updates := 0
  since := fun _ => 0
  log := []

/-- A task is begun on a fiber, and one is over; a new fiber's address comes from malloc. A
    compare-and-swap of the head may fail for no reason. -/
inductive Event where
  | get (w : Nat)
  | put (w : Nat) (f : Word)
  | malloc (w : Nat) (f : Word)
  | link (f n : Word)
  | tick (w : Nat) (fails : Bool)

def Pool.goto (s : Pool) (w : Nat) (pc : Pc) : Pool := { s with pc := update s.pc w pc }

def popLoaded (s : Pool) (w : Nat) : Pool :=
  if ptr s.head = 0 then { s with log := s.log ++ [Op.empty] }.goto w .fresh
  else { s with since := update s.since w s.updates }.goto w (.popNext s.head)

def pushLoaded (s : Pool) (w : Nat) (f : Word) : Pool :=
  { s with since := update s.since w s.updates }.goto w (.pushStore f s.head)

def tick (s : Pool) (w : Nat) (fails : Bool) : Option Pool :=
  match s.pc w with
  | .idle | .fresh => none
  | .popLoad => some (popLoaded s w)
  | .popNext h => some (s.goto w (.popCas h (s.next (ptr h))))
  | .popCas h next =>
    some (if s.head = h ∧ fails = false then
        { s with
          head := pack next h
          inUse := update s.inUse (ptr h) true
          updates := s.updates + 1
          log := s.log ++ [Op.pop (ptr h)] }.goto w .idle
      else popLoaded s w)
  | .pushLoad f => some (pushLoaded s w f)
  | .pushStore f h =>
    some ({ s with next := update s.next f (ptr h) }.goto w (.pushCas f h))
  | .pushCas f h =>
    some (if s.head = h ∧ fails = false then
        { s with
          head := pack f h
          updates := s.updates + 1
          log := s.log ++ [Op.push f] }.goto w .idle
      else pushLoaded s w f)

def step (s : Pool) : Event → Option Pool
  | .get w =>
    if s.pc w = .idle then
      some (match s.spare w with
        | some f =>
          { s with
            spare := update s.spare w none
            inUse := update s.inUse f true }
        | none => s.goto w .popLoad)
    else none
  | .put w f =>
    if s.pc w = .idle ∧ s.inUse f then
      some (match s.spare w with
        | none =>
          { s with
            spare := update s.spare w (some f)
            inUse := update s.inUse f false }
        | some _ =>
          -- A wider address is abandoned.
          if f &&& tagMask ≠ 0 then { s with inUse := update s.inUse f false }
          else { s with inUse := update s.inUse f false }.goto w (.pushLoad f))
    else none
  | .malloc w f =>
    if s.pc w = .fresh ∧ s.known f = false ∧ f ≠ 0 then
      some ({ s with
        known := update s.known f true
        inUse := update s.inUse f true }.goto w .idle)
    else none
  | .link f n => if s.inUse f then some { s with next := update s.next f n } else none
  | .tick w fails => tick s w fails

/-- Fewer than 2^16 updates of the pool lie between a load of the head and its
    compare-and-swap. -/
def Within (s : Pool) : Event → Prop
  | .tick w _ =>
    match s.pc w with
    | .popCas _ _ | .pushCas _ _ => s.updates < s.since w + 2 ^ 16
    | _ => True
  | _ => True

def apply (stack : List Word) : Op → Option (List Word)
  | .push f => some (f :: stack)
  | .pop f => if stack.head? = some f then some stack.tail else none
  | .empty => if stack = [] then some [] else none

def ptrOf (h : Word) : Option Word := if ptr h = 0 then none else some (ptr h)

def Pool.links (s : Pool) (f : Word) : Option Word := ptrOf (s.next f)

inductive Place where
  | unknown
  | pooled
  | used
  | spare (w : Nat)
  | pushing (w : Nat)
  | lost
  deriving DecidableEq

def pushed : Pc → Option Word
  | .pushLoad f | .pushStore f _ | .pushCas f _ => some f
  | _ => none

def loadedHead : Pc → Option Word
  | .popNext h | .popCas h _ | .pushStore _ h | .pushCas _ h => some h
  | _ => none

def generation (h : Word) : Nat := h.toNat / 2 ^ 48

def At (s : Pool) (stack : List Word) (f : Word) : Place → Prop
  | .unknown => s.known f = false
  | .pooled => f ∈ stack
  | .used => s.inUse f = true
  | .spare w => s.spare w = some f
  | .pushing w => pushed (s.pc w) = some f
  | .lost => f &&& tagMask ≠ 0

structure Placed (s : Pool) (stack : List Word) (place : Word → Place) : Prop where
  at_iff : ∀ f p, p ≠ .lost → (At s stack f p ↔ place f = p)
  lost : ∀ f, place f = .lost → f &&& tagMask ≠ 0
  narrow : ∀ f, place f = .pooled ∨ (∃ w, place f = .pushing w) → f &&& tagMask = 0
  null : place 0 = .unknown

structure Thread (s : Pool) (w : Nat) : Prop where
  since : s.since w ≤ s.updates
  loaded : ∀ h, loadedHead (s.pc w) = some h →
    generation h = s.since w % 2 ^ 16 ∧ (s.since w = s.updates → h = s.head)
  named : ∀ h, (s.pc w = .popNext h ∨ ∃ n, s.pc w = .popCas h n) → ptr h ≠ 0
  reads : ∀ h n, s.pc w = .popCas h n → s.since w = s.updates → n = s.next (ptr h)
  stored : ∀ f h, s.pc w = .pushCas f h → s.next f = ptr h

structure Sound (s : Pool) (stack : List Word) (place : Word → Place) : Prop where
  placed : Placed s stack place
  listed : Linked s.links (ptrOf s.head) stack
  replayed : run apply [] s.log = some stack
  tagged : generation s.head = s.updates % 2 ^ 16
  threads : ∀ w, Thread s w

theorem mask_bit (i : Nat) (inside : i < 64) : ptrMask.getLsbD i = decide (i < 48) := by
  rw [ptrMask, BitVec.getLsbD_ofNat, Nat.testBit_two_pow_sub_one, decide_eq_true inside,
    Bool.true_and]

theorem ptr_pack (p h : Word) : ptr (pack p h) = ptr p := by
  ext i inside
  simp only [ptr, pack, tagMask, BitVec.getElem_and, BitVec.getElem_or, BitVec.getElem_not]
  cases ptrMask[i] <;> simp

theorem ptrOf_pack (p h : Word) : ptrOf (pack p h) = ptrOf p := by
  rw [ptrOf, ptrOf, ptr_pack]

theorem pack_shift (p h : Word) : pack p h >>> 48 = (h + tagOne) >>> 48 := by
  ext i inside
  simp only [BitVec.getElem_ushiftRight, pack, tagMask, BitVec.getLsbD_or, BitVec.getLsbD_and,
    BitVec.getLsbD_not]
  by_cases low : 48 + i < 64
  · have high : ¬48 + i < 48 := by omega
    rw [mask_bit _ low, decide_eq_false high]
    simp [low]
  · have beyond : 64 ≤ 48 + i := by omega
    simp [BitVec.getLsbD_of_ge _ _ beyond]

theorem generation_pack (p h : Word) : generation (pack p h) = (generation h + 1) % 2 ^ 16 := by
  have shifted := congrArg BitVec.toNat (pack_shift p h)
  rw [BitVec.toNat_ushiftRight, BitVec.toNat_ushiftRight, Nat.shiftRight_eq_div_pow,
    Nat.shiftRight_eq_div_pow, BitVec.toNat_add] at shifted
  have one : tagOne.toNat = 2 ^ 48 := rfl
  have bound := h.isLt
  rw [generation, generation, shifted, one]
  omega

theorem ptr_ptr (h : Word) : ptr (ptr h) = ptr h := by
  rw [ptr, ptr, BitVec.and_assoc, BitVec.and_self]

theorem ptr_narrow {f : Word} (narrow : f &&& tagMask = 0) : ptr f = f := by
  have whole : ptr f ||| (f &&& tagMask) = f := by
    ext i inside
    simp only [ptr, tagMask, BitVec.getElem_or, BitVec.getElem_and, BitVec.getElem_not]
    cases f[i] <;> cases ptrMask[i] <;> rfl
  rw [narrow] at whole
  simpa using whole

section Steps
variable {s s' : Pool} {stack stack' : List Word} {place : Word → Place} {w : Nat} {f : Word}

section
variable (placed : Placed s stack place)
include placed

theorem Placed.elsewhere {p : Place} (here : place f = p)
    {p' : Place} (other : p ≠ p') (found : p' ≠ .lost) : ¬At s stack f p' := by
  intro there
  exact other (here.symm.trans ((placed.at_iff f p' found).mp there))

theorem Placed.move {p p' : Place} (was : place f = p) (valid : f ≠ 0) (leaves : ¬At s' stack' f p)
    (arrives : p' ≠ .lost → At s' stack' f p')
    (same : ∀ g q, (g = f → p ≠ q ∧ p' ≠ q) → (At s' stack' g q ↔ At s stack g q))
    (lost : p' = .lost → f &&& tagMask ≠ 0)
    (narrow : p' = .pooled ∨ (∃ w, p' = .pushing w) → f &&& tagMask = 0) :
    Placed s' stack' (update place f p') := by
  refine ⟨fun g q found => ?_, fun g gone => ?_, fun g kept => ?_, ?_⟩
  · by_cases own : g = f
    · subst own
      rw [update_self]
      by_cases to' : p' = q
      · subst to'
        exact iff_of_true (arrives found) rfl
      · refine iff_of_false (fun there => ?_) to'
        by_cases before : p = q
        · exact leaves (before ▸ there)
        · exact placed.elsewhere was before found ((same g q fun _ => ⟨before, to'⟩).mp there)
    · rw [update_of_ne own, same g q fun here => absurd here own]
      exact placed.at_iff g q found
  · by_cases own : g = f
    · rw [own, update_self] at gone
      exact own ▸ lost gone
    · rw [update_of_ne own] at gone
      exact placed.lost g gone
  · by_cases own : g = f
    · rw [own, update_self] at kept
      exact own ▸ narrow kept
    · rw [update_of_ne own] at kept
      exact placed.narrow g kept
  · rw [update_of_ne (Ne.symm valid)]
    exact placed.null

theorem Placed.stays (same : ∀ f q, At s' stack f q ↔ At s stack f q) : Placed s' stack place :=
  ⟨fun f q found => (same f q).trans (placed.at_iff f q found), placed.lost, placed.narrow,
    placed.null⟩

theorem Placed.known {p : Place} (here : place f = p) (some : p ≠ .unknown) : f ≠ 0 := by
  rintro rfl
  exact some (here.symm.trans placed.null)

theorem Placed.apart {p : Place} (here : place f = p) (other : p ≠ .pooled) : f ∉ stack :=
  placed.elsewhere here other nofun

end

variable {v : Nat}

theorem Thread.frame (thread : Thread s v) (pc : s'.pc v = s.pc v)
    (since : s'.since v = s.since v) (updates : s'.updates = s.updates) (head : s'.head = s.head)
    (reads : ∀ h n, s.pc v = .popCas h n → s.since v = s.updates →
      s'.next (ptr h) = s.next (ptr h))
    (stored : ∀ f h, s.pc v = .pushCas f h → s'.next f = s.next f) : Thread s' v := by
  refine ⟨?_, fun h at_ => ?_, fun h at_ => ?_, fun h n at_ fresh => ?_, fun f h at_ => ?_⟩
  · rw [since, updates]
    exact thread.since
  · rw [since, updates, head]
    exact thread.loaded h (pc ▸ at_)
  · rw [pc] at at_
    exact thread.named h at_
  · rw [pc] at at_
    rw [since, updates] at fresh
    rw [reads h n at_ fresh]
    exact thread.reads h n at_ fresh
  · rw [pc] at at_
    rw [stored f h at_]
    exact thread.stored f h at_

theorem Thread.updated (thread : Thread s v) (pc : s'.pc v = s.pc v)
    (since : s'.since v = s.since v) (updates : s'.updates = s.updates + 1)
    (next : s'.next = s.next) : Thread s' v := by
  have before := thread.since
  refine ⟨?_, fun h at_ => ?_, fun h at_ => ?_, fun h n at_ fresh => ?_, fun f h at_ => ?_⟩
  · omega
  · rw [pc] at at_
    rw [since]
    exact ⟨(thread.loaded h at_).1, fun fresh => by omega⟩
  · rw [pc] at at_
    exact thread.named h at_
  · omega
  · rw [pc] at at_
    rw [next]
    exact thread.stored f h at_

theorem Thread.idle (since : s.since v ≤ s.updates) (pc : loadedHead (s.pc v) = none) :
    Thread s v := by
  refine ⟨since, fun h at_ => ?_, fun h at_ => ?_, fun h n at_ => ?_, fun f h at_ => ?_⟩
  · rw [pc] at at_
    cases at_
  · rcases at_ with at_ | ⟨n, at_⟩ <;>
    · rw [at_] at pc
      cases pc
  · rw [at_] at pc
    cases pc
  · rw [at_] at pc
    cases pc

theorem goto_pc (s : Pool) (w : Nat) (pc : Pc) : (s.goto w pc).pc w = pc :=
  update_self ..

theorem goto_other (s : Pool) (pc : Pc) {v : Nat} (other : v ≠ w) :
    (s.goto w pc).pc v = s.pc v :=
  update_of_ne other _ _

variable {pc : Pc}

theorem at_goto {s : Pool} (same : pushed pc = pushed (s.pc w)) (f : Word) (q : Place) :
    At (s.goto w pc) stack f q ↔ At s stack f q := by
  cases q with
  | pushing v =>
    simp only [At, Pool.goto]
    by_cases own : v = w
    · rw [own, update_self, same]
    · rw [update_of_ne own]
  | _ => exact Iff.rfl

section
variable (sound : Sound s stack place)
include sound

theorem Sound.goto (same : pushed pc = pushed (s.pc w))
    (thread : Thread (s.goto w pc) w) : Sound (s.goto w pc) stack place := by
  refine ⟨sound.placed.stays (at_goto same), sound.listed, sound.replayed, sound.tagged,
    fun v => ?_⟩
  by_cases own : v = w
  · exact own ▸ thread
  · exact (sound.threads v).frame (update_of_ne own _ _) rfl rfl rfl (fun _ _ _ _ => rfl)
      fun _ _ _ => rfl

theorem Sound.load (same : pushed pc = pushed (s.pc w))
    (loads : (pc = .popNext s.head ∧ ptr s.head ≠ 0) ∨ ∃ f, pc = .pushStore f s.head) :
    Sound ({ s with since := update s.since w s.updates }.goto w pc) stack place := by
  refine ⟨sound.placed.stays (at_goto (s := { s with since := _ }) same), sound.listed,
    sound.replayed, sound.tagged, fun v => ?_⟩
  by_cases own : v = w
  · subst own
    have now : ({ s with since := update s.since v s.updates }.goto v pc).pc v = pc :=
      update_self ..
    have fresh : ({ s with since := update s.since v s.updates }.goto v pc).since v =
        s.updates := update_self ..
    refine ⟨Nat.le_of_eq fresh, fun h at_ => ?_, fun h at_ => ?_, fun h n at_ => ?_,
      fun f h at_ => ?_⟩
    · have head : h = s.head := by
        rw [now] at at_
        rcases loads with ⟨rfl, -⟩ | ⟨f, rfl⟩ <;> exact (Option.some.inj at_).symm
      rw [fresh, head]
      exact ⟨sound.tagged, fun _ => rfl⟩
    · rw [now] at at_
      rcases loads with ⟨rfl, some⟩ | ⟨f, rfl⟩
      · rcases at_ with at_ | ⟨n, at_⟩
        · cases at_
          exact some
        · cases at_
      · rcases at_ with at_ | ⟨n, at_⟩ <;> cases at_
    · rw [now] at at_
      rcases loads with ⟨rfl, -⟩ | ⟨f, rfl⟩ <;> cases at_
    · rw [now] at at_
      rcases loads with ⟨rfl, -⟩ | ⟨f, rfl⟩ <;> cases at_
  · exact (sound.threads v).frame (update_of_ne own _ _) (update_of_ne own _ _)
      rfl rfl (fun _ _ _ _ => rfl) fun _ _ _ => rfl

theorem popLoaded_sound (own : pushed (s.pc w) = none) :
    Sound (popLoaded s w) stack place := by
  unfold popLoaded
  split
  · rename_i null
    have empty : stack = [] := by
      have listed := sound.listed
      rw [ptrOf, if_pos null] at listed
      exact linked_none.mp listed
    have logged : Sound { s with log := s.log ++ [Op.empty] } stack place := by
      refine ⟨sound.placed.stays fun f q => by cases q <;> rfl, sound.listed, ?_, sound.tagged,
        fun v => (sound.threads v).frame rfl rfl rfl rfl (fun _ _ _ _ => rfl) fun _ _ _ => rfl⟩
      exact run_append_iff.mpr ⟨stack, sound.replayed, by simp [run, apply, empty]⟩
    refine logged.goto own.symm (Thread.idle (sound.threads w).since ?_)
    rw [goto_pc]
    rfl
  · rename_i some
    exact sound.load own.symm (.inl ⟨rfl, some⟩)

theorem pushLoaded_sound (own : pushed (s.pc w) = some f) :
    Sound (pushLoaded s w f) stack place :=
  sound.load own.symm (.inr ⟨f, rfl⟩)

theorem threads_kept (pc : s'.pc = s.pc) (since : s'.since = s.since)
    (updates : s'.updates = s.updates) (head : s'.head = s.head) (next : s'.next = s.next)
    (v : Nat) : Thread s' v :=
  (sound.threads v).frame (congrFun pc v) (congrFun since v) updates head
    (fun h _ _ _ => congrFun next (ptr h)) fun f _ _ => congrFun next f

theorem spareUsed_sound (held : s.spare w = some f) :
    Sound { s with
      spare := update s.spare w none
      inUse := update s.inUse f true } stack (update place f .used) := by
  have here : place f = .spare w := (sound.placed.at_iff f (.spare w) nofun).mp held
  refine ⟨sound.placed.move here (sound.placed.known here nofun)
    (by simp [At]) (by simp [At]) (fun g q other => ?_) nofun (by simp), sound.listed,
    sound.replayed, sound.tagged, threads_kept sound rfl rfl rfl rfl rfl⟩
  cases q with
  | used =>
    have apart : g ≠ f := fun same => (other same).2 rfl
    simp only [At, update_of_ne apart]
  | spare v =>
    by_cases own : v = w
    · subst own
      have apart : f ≠ g := fun same => (other same.symm).1 rfl
      simp [At, held, apart]
    · simp only [At, update_of_ne own]
  | _ => exact Iff.rfl

theorem spareKept_sound (none' : s.spare w = none) (busy : s.inUse f = true) :
    Sound { s with
      spare := update s.spare w (some f)
      inUse := update s.inUse f false } stack (update place f (.spare w)) := by
  have here : place f = .used := (sound.placed.at_iff f .used nofun).mp busy
  refine ⟨sound.placed.move here (sound.placed.known here nofun)
    (by simp [At]) (by simp [At]) (fun g q other => ?_) nofun (by simp), sound.listed,
    sound.replayed, sound.tagged, threads_kept sound rfl rfl rfl rfl rfl⟩
  cases q with
  | used =>
    have apart : g ≠ f := fun same => (other same).1 rfl
    simp only [At, update_of_ne apart]
  | spare v =>
    by_cases own : v = w
    · subst own
      have apart : f ≠ g := fun same => (other same.symm).2 rfl
      simp [At, none', apart]
    · simp only [At, update_of_ne own]
  | _ => exact Iff.rfl

theorem abandoned_sound (busy : s.inUse f = true) (wide : f &&& tagMask ≠ 0) :
    Sound { s with inUse := update s.inUse f false } stack
      (update place f .lost) := by
  have here : place f = .used := (sound.placed.at_iff f .used nofun).mp busy
  refine ⟨sound.placed.move here (sound.placed.known here nofun)
    (by simp [At]) (fun never => absurd rfl never) (fun g q other => ?_) (fun _ => wide) (by simp),
    sound.listed, sound.replayed, sound.tagged, threads_kept sound rfl rfl rfl rfl rfl⟩
  cases q with
  | used =>
    have apart : g ≠ f := fun same => (other same).1 rfl
    simp only [At, update_of_ne apart]
  | _ => exact Iff.rfl

end

theorem at_pushing {g : Word} (same : v = w → (pushed pc = some g ↔ pushed (s.pc w) = some g)) :
    pushed ((s.goto w pc).pc v) = some g ↔ pushed (s.pc v) = some g := by
  by_cases own : v = w
  · subst own
    rw [goto_pc]
    exact same rfl
  · rw [goto_other _ _ own]

theorem pushBegun_sound (sound : Sound s stack place) (free : pushed (s.pc w) = none)
    (busy : s.inUse f = true) (narrow : f &&& tagMask = 0) :
    Sound ({ s with inUse := update s.inUse f false }.goto w (.pushLoad f)) stack
      (update place f (.pushing w)) := by
  have here : place f = .used := (sound.placed.at_iff f .used nofun).mp busy
  refine ⟨sound.placed.move here (sound.placed.known here nofun)
    (by simp [At, Pool.goto]) (fun _ => ?_) (fun g q other => ?_) nofun
    (fun _ => narrow), sound.listed, sound.replayed, sound.tagged, fun v => ?_⟩
  · rw [At, goto_pc]
    rfl
  · cases q with
    | used =>
      have apart : g ≠ f := fun same => (other same).1 rfl
      simp only [At, Pool.goto, update_of_ne apart]
    | pushing v =>
      refine at_pushing (s := { s with inUse := _ }) fun own => ?_
      subst own
      have apart : f ≠ g := fun same => (other same.symm).2 rfl
      rw [free]
      simp [pushed, apart]
    | _ => exact Iff.rfl
  · by_cases own : v = w
    · subst own
      refine Thread.idle (sound.threads v).since ?_
      rw [goto_pc]
      rfl
    · exact (sound.threads v).frame (update_of_ne own _ _) rfl rfl rfl
        (fun _ _ _ _ => rfl) fun _ _ _ => rfl

theorem malloc_sound (sound : Sound s stack place) (here : s.pc w = .fresh)
    (new : s.known f = false) (valid : f ≠ 0) :
    Sound ({ s with
      known := update s.known f true
      inUse := update s.inUse f true }.goto w .idle) stack
      (update place f .used) := by
  have was : place f = .unknown := (sound.placed.at_iff f .unknown nofun).mp new
  refine ⟨sound.placed.move was valid (by simp [At, Pool.goto])
    (fun _ => by simp [At, Pool.goto]) (fun g q other => ?_) nofun (by simp),
    sound.listed, sound.replayed, sound.tagged, fun v => ?_⟩
  · cases q with
    | used =>
      have apart : g ≠ f := fun same => (other same).2 rfl
      simp only [At, Pool.goto, update_of_ne apart]
    | unknown =>
      have apart : g ≠ f := fun same => (other same).1 rfl
      simp only [At, Pool.goto, update_of_ne apart]
    | pushing v =>
      refine at_pushing (s := { s with known := _, inUse := _ }) fun own => ?_
      simp [here, pushed]
    | _ => exact Iff.rfl
  · by_cases own : v = w
    · subst own
      refine Thread.idle (sound.threads v).since ?_
      rw [goto_pc]
      rfl
    · exact (sound.threads v).frame (update_of_ne own _ _) rfl rfl rfl
        (fun _ _ _ _ => rfl) fun _ _ _ => rfl

theorem head_pooled (sound : Sound s stack place) (some' : ptr s.head ≠ 0) :
    ∃ rest, stack = ptr s.head :: rest ∧ Linked s.links (s.links (ptr s.head)) rest := by
  have listed := sound.listed
  rw [ptrOf, if_neg some'] at listed
  exact linked_some.mp listed

theorem links_update (s : Pool) (f n : Word) :
    { s with next := update s.next f n }.links = update s.links f (ptrOf n) := by
  funext g
  by_cases here : g = f
  · simp [Pool.links, here]
  · simp [Pool.links, here]

theorem Thread.written (sound : Sound s stack place) (apart : f ∉ stack)
    (other : pushed (s.pc v) ≠ some f) (n : Word) :
    Thread { s with next := update s.next f n } v := by
  refine (sound.threads v).frame rfl rfl rfl rfl (fun h m at_ fresh => ?_) fun g h at_ => ?_
  · have some' := (sound.threads v).named h (.inr ⟨m, at_⟩)
    have head := ((sound.threads v).loaded h (by rw [at_]; rfl)).2 fresh
    obtain ⟨rest, split, -⟩ := head_pooled sound (head ▸ some')
    refine update_of_ne ?_ _ _
    rintro rfl
    exact apart (split ▸ head ▸ List.mem_cons_self)
  · refine update_of_ne ?_ _ _
    rintro rfl
    exact other (by rw [at_]; rfl)

theorem link_sound (sound : Sound s stack place) (busy : s.inUse f = true) (n : Word) :
    Sound { s with next := update s.next f n } stack place := by
  have here : place f = .used := (sound.placed.at_iff f .used nofun).mp busy
  have apart := sound.placed.apart here nofun
  refine ⟨sound.placed.stays fun g q => by cases q <;> exact Iff.rfl, ?_, sound.replayed,
    sound.tagged, fun v => Thread.written sound apart (fun hand => ?_) n⟩
  · rw [links_update]
    exact sound.listed.update apart
  · have away : Place.used ≠ .pushing v := nofun
    exact sound.placed.elsewhere here away nofun hand

variable {h : Word}

section
variable (sound : Sound s stack place)
include sound

theorem pushStore_sound (at_ : s.pc w = .pushStore f h) :
    Sound ({ s with next := update s.next f (ptr h) }.goto w (.pushCas f h)) stack
      place := by
  have hand : pushed (s.pc w) = some f := by
    rw [at_]
    rfl
  have here := (sound.placed.at_iff f (.pushing w) nofun).mp hand
  have apart := sound.placed.apart here nofun
  have same : pushed (Pc.pushCas f h) = pushed (s.pc w) := hand.symm
  refine ⟨sound.placed.stays fun g q => ?_, ?_, sound.replayed, sound.tagged, fun v => ?_⟩
  · refine (at_goto (s := { s with next := _ }) same g q).trans ?_
    cases q <;> exact Iff.rfl
  · refine Eq.mpr (congrArg (Linked · _ _) (links_update s f (ptr h))) ?_
    exact sound.listed.update apart
  · by_cases own : v = w
    · subst own
      obtain ⟨tagged, current⟩ := (sound.threads v).loaded h (by rw [at_]; rfl)
      refine ⟨(sound.threads v).since, fun k loads => ?_, fun k reads => ?_, fun k m reads => ?_,
        fun g k writes => ?_⟩
      · rw [goto_pc] at loads
        cases loads
        exact ⟨tagged, current⟩
      · rw [goto_pc] at reads
        rcases reads with reads | ⟨m, reads⟩ <;> cases reads
      · rw [goto_pc] at reads
        cases reads
      · rw [goto_pc] at writes
        cases writes
        exact update_self ..
    · have other : pushed (s.pc v) ≠ some f := by
        intro also
        have there := (sound.placed.at_iff f (.pushing v) nofun).mp also
        rw [here] at there
        exact own (Place.pushing.inj there).symm
      refine (Thread.written sound apart other (ptr h)).frame (goto_other _ _ own) rfl rfl rfl
        (fun _ _ _ _ => rfl) fun _ _ _ => rfl

theorem unchanged {h : Word} (loads : loadedHead (s.pc w) = some h)
    (within : s.updates < s.since w + 2 ^ 16) (same : s.head = h) : s.since w = s.updates := by
  have tag := ((sound.threads w).loaded h loads).1
  have now := sound.tagged
  have before := (sound.threads w).since
  rw [same, tag] at now
  omega

theorem pack_tagged (p : Word) :
    generation (pack p s.head) = (s.updates + 1) % 2 ^ 16 := by
  rw [generation_pack, sound.tagged]
  omega

theorem popped_sound {n : Word} (at_ : s.pc w = .popCas h n)
    (within : s.updates < s.since w + 2 ^ 16) (same : s.head = h) :
    ∃ rest, stack = ptr h :: rest ∧
      Sound ({ s with
        head := pack n h
        inUse := update s.inUse (ptr h) true
        updates := s.updates + 1
        log := s.log ++ [Op.pop (ptr h)] }.goto w .idle) rest
        (update place (ptr h) .used) := by
  have fresh := unchanged sound (by rw [at_]; rfl) within same
  have named := (sound.threads w).named h (.inr ⟨n, at_⟩)
  have read := (sound.threads w).reads h n at_ fresh
  subst same
  obtain ⟨rest, split, after⟩ := head_pooled sound named
  have once : ptr s.head ∉ rest := (List.nodup_cons.mp (split ▸ sound.listed.nodup)).1
  have here : place (ptr s.head) = .pooled :=
    (sound.placed.at_iff _ .pooled nofun).mp (split ▸ List.mem_cons_self)
  refine ⟨rest, split, sound.placed.move here (sound.placed.known here nofun) once
    (fun _ => ?_) (fun g q other => ?_) nofun (by simp), ?_, ?_, ?_, fun v => ?_⟩
  · simp [At, Pool.goto]
  · cases q with
    | used =>
      have apart : g ≠ ptr s.head := fun same => (other same).2 rfl
      simp only [At, Pool.goto, update_of_ne apart]
    | pooled =>
      have apart : g ≠ ptr s.head := fun same => (other same).1 rfl
      simp [At, split, apart]
    | pushing v =>
      refine at_pushing (s := { s with head := _, inUse := _, updates := _, log := _ })
        fun own => ?_
      simp [at_, pushed]
    | _ => exact Iff.rfl
  · have named' : ptrOf (pack n s.head) = s.links (ptr s.head) := by
      rw [ptrOf_pack, read]
      rfl
    exact named'.symm ▸ after
  · refine run_append_iff.mpr ⟨stack, sound.replayed, ?_⟩
    simp [run, apply, split]
  · exact pack_tagged sound n
  · by_cases own : v = w
    · subst own
      refine Thread.idle (Nat.le_succ_of_le (sound.threads v).since) ?_
      rw [goto_pc]
      rfl
    · exact (sound.threads v).updated (goto_other _ _ own) rfl rfl rfl

theorem pushed_sound (at_ : s.pc w = .pushCas f h) (same : s.head = h) :
    Sound ({ s with
      head := pack f h
      updates := s.updates + 1
      log := s.log ++ [Op.push f] }.goto w .idle) (f :: stack)
      (update place f .pooled) := by
  have hand : pushed (s.pc w) = some f := by
    rw [at_]
    rfl
  have here := (sound.placed.at_iff f (.pushing w) nofun).mp hand
  have narrow := sound.placed.narrow f (.inr ⟨w, here⟩)
  have valid := sound.placed.known here nofun
  have link := (sound.threads w).stored f h at_
  subst same
  refine ⟨sound.placed.move here valid (by simp [At, goto_pc, pushed]) (fun _ => ?_)
    (fun g q other => ?_) nofun (fun _ => narrow), ?_, ?_, ?_, fun v => ?_⟩
  · exact List.mem_cons_self
  · cases q with
    | pooled =>
      have apart : g ≠ f := fun same => (other same).2 rfl
      simp [At, apart]
    | pushing v =>
      refine at_pushing (s := { s with head := _, updates := _, log := _ }) fun own => ?_
      subst own
      have apart : f ≠ g := fun same => (other same.symm).1 rfl
      rw [hand]
      simp [pushed, apart]
    | _ => exact Iff.rfl
  · refine ⟨?_, ?_⟩
    · refine (ptrOf_pack f s.head).trans ?_
      rw [ptrOf, ptr_narrow narrow, if_neg valid]
    · have named : s.links f = ptrOf s.head := by
        rw [Pool.links, link, ptrOf, ptrOf, ptr_ptr]
      exact named.symm ▸ sound.listed
  · exact run_append_iff.mpr ⟨stack, sound.replayed, rfl⟩
  · exact pack_tagged sound f
  · by_cases own : v = w
    · subst own
      refine Thread.idle (Nat.le_succ_of_le (sound.threads v).since) ?_
      rw [goto_pc]
      rfl
    · exact (sound.threads v).updated (goto_other _ _ own) rfl rfl rfl

theorem step_sound {e : Event} (within : Within s e)
    (stepped : step s e = some s') : ∃ stack' place', Sound s' stack' place' := by
  cases e with
  | get w =>
    obtain ⟨idle, ⟨⟩⟩ := Option.ite_none_right_eq_some.mp stepped
    split
    · rename_i f held
      exact ⟨_, _, spareUsed_sound sound held⟩
    · refine ⟨_, _, sound.goto (by rw [idle]; rfl) (Thread.idle (sound.threads w).since ?_)⟩
      rw [goto_pc]
      rfl
  | put w f =>
    obtain ⟨free, ⟨⟩⟩ := Option.ite_none_right_eq_some.mp stepped
    split
    · rename_i none'
      exact ⟨_, _, spareKept_sound sound none' free.2⟩
    · split
      · rename_i wide
        exact ⟨_, _, abandoned_sound sound free.2 wide⟩
      · rename_i narrow
        exact ⟨_, _, pushBegun_sound sound (by rw [free.1]; rfl) free.2 (not_not.mp narrow)⟩
  | malloc w f =>
    obtain ⟨new, ⟨⟩⟩ := Option.ite_none_right_eq_some.mp stepped
    exact ⟨_, _, malloc_sound sound new.1 new.2.1 new.2.2⟩
  | link f n =>
    obtain ⟨busy, ⟨⟩⟩ := Option.ite_none_right_eq_some.mp stepped
    exact ⟨_, _, link_sound sound busy n⟩
  | tick w fails =>
    simp only [step, tick] at stepped
    split at stepped
    · cases stepped
    · cases stepped
    · rename_i at_
      cases stepped
      exact ⟨_, _, popLoaded_sound sound (by rw [at_]; rfl)⟩
    · rename_i h at_
      cases stepped
      obtain ⟨tagged, current⟩ := (sound.threads w).loaded h (by rw [at_]; rfl)
      have named := (sound.threads w).named h (.inl at_)
      refine ⟨_, _, sound.goto (by rw [at_]; rfl) ⟨(sound.threads w).since, fun k loads => ?_,
        fun k reads => ?_, fun k m reads _ => ?_, fun g k writes => ?_⟩⟩
      · rw [goto_pc] at loads
        cases loads
        exact ⟨tagged, current⟩
      · rw [goto_pc] at reads
        rcases reads with reads | ⟨m, reads⟩ <;> cases reads
        exact named
      · rw [goto_pc] at reads
        cases reads
        rfl
      · rw [goto_pc] at writes
        cases writes
    · rename_i h n at_
      cases stepped
      simp only [Within, at_] at within
      split
      · rename_i swaps
        obtain ⟨rest, -, popped⟩ := popped_sound sound at_ within swaps.1
        exact ⟨_, _, popped⟩
      · exact ⟨_, _, popLoaded_sound sound (by rw [at_]; rfl)⟩
    · rename_i f at_
      cases stepped
      exact ⟨_, _, pushLoaded_sound sound (by rw [at_]; rfl)⟩
    · rename_i f h at_
      cases stepped
      exact ⟨_, _, pushStore_sound sound at_⟩
    · rename_i f h at_
      cases stepped
      split
      · rename_i swaps
        exact ⟨_, _, pushed_sound sound at_ swaps.1⟩
      · exact ⟨_, _, pushLoaded_sound sound (by rw [at_]; rfl)⟩

end

end Steps

theorem init_sound : Sound Pool.init [] fun _ => .unknown := by
  refine ⟨⟨fun f q found => ?_, fun f => nofun, fun f kept => ?_, rfl⟩,
    linked_none.mpr rfl, rfl, rfl, fun w => Thread.idle (Nat.le_refl 0) rfl⟩
  · cases q <;> simp_all [At, Pool.init, pushed]
  · rcases kept with kept | ⟨w, kept⟩ <;> cases kept

def Coherent (s : Pool) : Prop := ∃ stack place, Sound s stack place

theorem run_sound {es : List Event} {s : Pool} (ran : run step Pool.init es = some s)
    (within : AllSteps step Within Pool.init es) : Coherent s := by
  have keep : ∀ s e s', Coherent s → Within s e → step s e = some s' → Coherent s' := by
    rintro s e s' ⟨stack, place, sound⟩ fewer stepped
    exact step_sound sound fewer stepped
  exact run_invariant_where keep ⟨[], _, init_sound⟩ within ran

variable {stack : List Word}

theorem apply_count {stack' : List Word} {op : Op} (f : Word)
    (applied : apply stack op = some stack') :
    (if op = .push f then 1 else 0) + stack.count f =
      (if op = .pop f then 1 else 0) + stack'.count f := by
  cases op with
  | push g =>
    cases applied
    rw [List.count_cons, Nat.add_comm]
    simp
  | pop g =>
    simp only [apply] at applied
    obtain ⟨head, ⟨⟩⟩ := Option.ite_none_right_eq_some.mp applied
    obtain ⟨rest, rfl⟩ := List.head?_eq_some_iff.mp head
    rw [List.count_cons, List.tail_cons, Nat.add_comm (List.count f rest)]
    simp
  | empty =>
    simp only [apply] at applied
    split at applied
    · rename_i none'
      cases applied
      simp [none']
    · cases applied

theorem replay_count {log : List Op} {stack' : List Word} (f : Word)
    (replayed : run apply stack log = some stack') :
    log.count (.push f) + stack.count f = log.count (.pop f) + stack'.count f := by
  induction log generalizing stack with
  | nil =>
    cases replayed
    simp
  | cons op log ih =>
    obtain ⟨mid, applied, rest⟩ := run_cons_iff.mp replayed
    have later := ih rest
    have first := apply_count f applied
    rw [List.count_cons, List.count_cons]
    simp only [beq_iff_eq]
    omega

def hands (s : Pool) : Event → Option Word
  | .get w => s.spare w
  | .malloc _ f => some f
  | .tick w fails =>
    match s.pc w with
    | .popCas h _ => if s.head = h ∧ fails = false then some (ptr h) else none
    | _ => none
  | _ => none

theorem handed_free {s s' : Pool} {place : Word → Place} {e : Event} {f : Word}
    (sound : Sound s stack place) (within : Within s e) (stepped : step s e = some s')
    (handed : hands s e = some f) : s.inUse f = false ∧ s'.inUse f = true := by
  have free : place f ≠ .used → s.inUse f = false := by
    intro other
    cases busy : s.inUse f with
    | true => exact absurd ((sound.placed.at_iff f .used nofun).mp busy) other
    | false => rfl
  cases e with
  | get w =>
    have here := (sound.placed.at_iff f (.spare w) nofun).mp handed
    refine ⟨free (by rw [here]; exact nofun), ?_⟩
    simp only [hands] at handed
    simp only [step, handed] at stepped
    split at stepped
    · cases stepped
      exact update_self ..
    · cases stepped
  | malloc w g =>
    cases handed
    simp only [step] at stepped
    split at stepped
    · rename_i new
      have here := (sound.placed.at_iff f .unknown nofun).mp new.2.1
      cases stepped
      exact ⟨free (by rw [here]; exact nofun), update_self ..⟩
    · cases stepped
  | tick w fails =>
    simp only [hands] at handed
    split at handed
    · rename_i h n at_
      obtain ⟨swaps, ⟨⟩⟩ := Option.ite_none_right_eq_some.mp handed
      simp only [Within, at_] at within
      obtain ⟨rest, split, -⟩ := popped_sound sound at_ within swaps.1
      have here : place (ptr h) = .pooled :=
        (sound.placed.at_iff _ .pooled nofun).mp (split ▸ List.mem_cons_self)
      simp only [step, tick, at_, if_pos swaps] at stepped
      cases stepped
      exact ⟨free (by rw [here]; exact nofun), update_self ..⟩
    · cases handed
  | put w g | link g n => cases handed

/-- The pool is an atomic stack: what has been pushed and popped is a run of one, whose fibers
    are those that the head leads to; a fiber is in one place, and only one that is not in use
    is handed out. -/
theorem pool_is_atomic_stack {es : List Event} {s : Pool}
    (ran : run step Pool.init es = some s) (within : AllSteps step Within Pool.init es) :
    ∃ stack place, run apply [] s.log = some stack ∧ Linked s.links (ptrOf s.head) stack ∧
      Placed s stack place ∧
      (∀ f, s.log.count (.push f) = s.log.count (.pop f) + if f ∈ stack then 1 else 0) ∧
      ∀ e s' f, Within s e → step s e = some s' → hands s e = some f →
        s.inUse f = false ∧ s'.inUse f = true := by
  obtain ⟨stack, place, sound⟩ := run_sound ran within
  refine ⟨stack, place, sound.replayed, sound.listed, sound.placed, fun f => ?_,
    fun e s' f fewer stepped handed => handed_free sound fewer stepped handed⟩
  have counted := replay_count f sound.replayed
  rw [List.count_nil, Nat.add_zero] at counted
  rw [counted]
  split
  · rename_i there
    rw [List.count_eq_one_of_mem sound.listed.nodup there]
  · rename_i away
    rw [List.count_eq_zero_of_not_mem away]

instance decidableWithin (s : Pool) (e : Event) : Decidable (Within s e) := by
  cases e with
  | tick w fails =>
    simp only [Within]
    split <;> infer_instance
  | _ => exact instDecidableTrue

/-- Two new fibers, 16 and 32; the first is the worker's spare and the second is pushed. Worker 1
    loads the head and 32's link; worker 0 pops 32 meanwhile, runs a task on it, and pushes it
    again. -/
def takenAndReturned : List Event :=
  [.get 0, .tick 0 false, .malloc 0 16, .get 0, .tick 0 false, .malloc 0 32, .put 0 16, .put 0 32,
    .tick 0 false, .tick 0 false, .tick 0 false, .get 1, .tick 1 false, .tick 1 false, .get 0,
    .get 0, .tick 0 false, .tick 0 false, .tick 0 false, .link 32 48, .put 0 16, .put 0 32,
    .tick 0 false, .tick 0 false, .tick 0 false]

/-- Worker 1's compare-and-swap fails, though the head is fiber 32 again. -/
theorem returned_not_taken :
    ∃ s stack place, run step Pool.init (takenAndReturned ++ [.tick 1 false]) = some s ∧
      run apply [] s.log = some stack ∧ Linked s.links (ptrOf s.head) stack ∧
      Placed s stack place ∧ s.pc 1 = .popNext s.head ∧ ptr s.head = 32 := by
  have whole : (run step Pool.init (takenAndReturned ++ [.tick 1 false])).isSome := by
    decide +kernel
  obtain ⟨s, ran⟩ := Option.isSome_iff_exists.mp whole
  obtain ⟨stack, place, replayed, listed, placed, -, -⟩ :=
    pool_is_atomic_stack ran (by decide +kernel)
  have reached : (run step Pool.init (takenAndReturned ++ [.tick 1 false])).map
      (fun s => decide (s.pc 1 = .popNext s.head ∧ ptr s.head = 32)) = some true := by
    decide +kernel
  rw [ran, Option.map_some, Option.some.injEq, decide_eq_true_eq] at reached
  exact ⟨s, stack, place, ran, replayed, listed, placed, reached⟩

end PliFiberPool
