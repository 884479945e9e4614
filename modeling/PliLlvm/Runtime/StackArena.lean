import PliLlvm.Lib.Run
import Mathlib.Data.List.Nodup
import Mathlib.Data.List.Count
import Mathlib.Data.Nat.Bitwise

/- The stacks of fibers on POSIX (runtime/rt_plat_default.c: rt_arena_of, rt_arena_new,
   rt_arena_take, rt_arena_give, rt_stack_fault, pli_plat_stack_alloc, pli_plat_stack_free). A
   size_t wraps at 2^64, and a page is 2^k bytes. Which pages are accessible is one table for the
   whole process; mprotect succeeds. An arena's free list is found by where the arena begins. -/
namespace PliStackArena
open Runs

def sizeT (n : Nat) : Nat := n % 2 ^ 64

def rtStackChunk : Nat := 64 * 1024

def rtArenaSlots : Nat := 64

structure Arena where
  base : Nat
  bytes : Nat
  slot : Nat
  usable : Nat
  deriving DecidableEq

/-- What pli_plat_stack_alloc hands out: the usable region, and how large it is. -/
structure Stack where
  base : Nat
  size : Nat
  deriving DecidableEq

structure Sys where
  acc : Nat → Bool
  arenas : List Arena
  free : Nat → List Nat
  live : List Stack

def Sys.start (acc : Nat → Bool) : Sys := ⟨acc, [], fun _ => [], []⟩

def Arena.holds (a : Arena) (x : Nat) : Prop := a.base ≤ x ∧ x < a.base + a.bytes

instance (a : Arena) (x : Nat) : Decidable (a.holds x) := inferInstanceAs (Decidable (_ ∧ _))

inductive Event where
  | alloc (request : Nat) (mapped : Option Nat)
  | free (base : Nat)
  | fault (stack : Stack) (x : Nat)

section Model
variable (k : Nat)

def page : Nat := 2 ^ k

/-- mprotect(lo, len, PROT_READ | PROT_WRITE). -/
def protect (acc : Nat → Bool) (lo len : Nat) : Nat → Bool := fun p =>
  if lo ≤ p * page k ∧ p * page k < lo + len then true else acc p

/-- mmap(NULL, len, PROT_NONE). -/
def reserve (acc : Nat → Bool) (lo len : Nat) : Nat → Bool := fun p =>
  if lo ≤ p * page k ∧ p * page k < lo + len then false else acc p

def rtStackChunkBytes : Nat := if rtStackChunk < 2 * page k then 2 * page k else rtStackChunk

def rtArenaOf (arenas : List Arena) (addr : Nat) : Option Arena :=
  arenas.find? fun a => decide (a.holds addr)

def arenaAt (usable region : Nat) : Arena :=
  ⟨region, sizeT (sizeT (usable + page k) * rtArenaSlots), sizeT (usable + page k), usable⟩

def rtArenaNew (s : Sys) (usable region : Nat) : Sys × Arena :=
  let a := arenaAt k usable region
  ({ s with
    acc := reserve k s.acc region a.bytes
    arenas := a :: s.arenas
    free := Function.update s.free region (List.range rtArenaSlots).reverse }, a)

/-- `mapped` is mmap's answer where an arena is made; none where the arena cannot be. -/
def rtArenaTake (s : Sys) (usable : Nat) (mapped : Option Nat) : Option (Sys × Arena × Nat) :=
  let found := s.arenas.find? fun a => a.usable == usable && !(s.free a.base).isEmpty
  (match found with
    | some a => some (s, a)
    | none => mapped.map (rtArenaNew k s usable)).bind fun (s, a) =>
      match s.free a.base with
      | index :: rest =>
        some ({ s with free := Function.update s.free a.base rest }, a, sizeT (index * a.slot))
      | [] => none

def rtArenaGive (s : Sys) (a : Arena) (off : Nat) : Sys :=
  if (s.free a.base).length < rtArenaSlots then
    { s with free := Function.update s.free a.base (off / a.slot :: s.free a.base) }
  else s

def roundSize (request : Nat) : Nat :=
  let chunk := rtStackChunkBytes k
  let size := sizeT (request + chunk - 1) &&& (2 ^ 64 - chunk)
  if size < chunk then chunk else size

def stackAlloc (s : Sys) (request : Nat) (mapped : Option Nat) : Sys × Option Stack :=
  let size := roundSize k request
  match rtArenaTake k s size mapped with
  | none => (s, none)
  | some (s, a, off) =>
    let usable := sizeT (a.base + off + page k)
    let top := sizeT (usable + size)
    ({ s with acc := protect k s.acc (top - page k) (page k) }, some ⟨usable, size⟩)

def stackFree (s : Sys) (base : Nat) : Sys :=
  match rtArenaOf s.arenas base with
  | some a => rtArenaGive s a (base - a.base)
  | none => s

def rtStackFault (s : Sys) (fault : Nat) : Nat × (Nat → Bool) :=
  match rtArenaOf s.arenas fault with
  | none => (0, s.acc)
  | some a =>
    let index := (fault - a.base) / a.slot
    let usable := sizeT (a.base + index * a.slot + page k)
    let top := sizeT (usable + a.usable)
    if top ≤ fault then (0, s.acc)
    else
      let chunk := rtStackChunkBytes k
      let floor := usable + page k
      if fault < floor then (2, s.acc)
      else
        let n := (top - fault - 1) / chunk
        let lo := top - (n + 1) * chunk
        let lo := if lo < floor then floor else lo
        (1, protect k s.acc lo (top - lo))

def freshFor (s : Sys) (a : Arena) : Prop :=
  page k ∣ a.base ∧ a.base + a.bytes < 2 ^ 64 ∧
    ∀ b ∈ s.arenas, a.base + a.bytes ≤ b.base ∨ b.base + b.bytes ≤ a.base

instance (s : Sys) (a : Arena) : Decidable (freshFor k s a) := inferInstanceAs (Decidable (_ ∧ _))

def Raised (s : Sys) (stack : Stack) (x : Nat) : Prop :=
  stack ∈ s.live ∧ x < stack.base + stack.size ∧ s.acc (x / page k) = false

instance (s : Sys) (stack : Stack) (x : Nat) : Decidable (Raised k s stack x) :=
  inferInstanceAs (Decidable (_ ∧ _))

def step (s : Sys) : Event → Option Sys
  | .alloc request mapped =>
    if ∀ region ∈ mapped, freshFor k s (arenaAt k (roundSize k request) region) then
      let (s, stack) := stackAlloc k s request mapped
      some { s with live := stack.toList ++ s.live }
    else none
  | .free base =>
    match s.live.find? (·.base == base) with
    | some stack => some { stackFree s base with live := s.live.erase stack }
    | none => none
  | .fault stack x =>
    if Raised k s stack x then
      let (what, acc) := rtStackFault k s x
      if what = 1 then some { s with acc := acc } else none
    else none

def slotBase (a : Arena) (i : Nat) : Nat := a.base + i * a.slot

def slotTop (a : Arena) (i : Nat) : Nat := slotBase a i + a.slot

def stackAt (a : Arena) (i : Nat) : Stack := ⟨slotBase a i + page k, a.usable⟩

/-- Each slot is free once or one live stack's, each live stack is a slot, and a slot's
    accessible pages are those from an address on, which is above its guard page and the bottom
    page of its usable region. -/
structure Sound (s : Sys) : Prop where
  slots : ∀ a ∈ s.arenas, ∀ i, i < rtArenaSlots →
    ((s.free a.base).count i = 1 ∧ stackAt k a i ∉ s.live) ∨
      ((s.free a.base).count i = 0 ∧ s.live.count (stackAt k a i) = 1)
  given : ∀ stack ∈ s.live, ∃ a ∈ s.arenas, ∃ i, i < rtArenaSlots ∧ stack = stackAt k a i
  apart : ∀ a ∈ s.arenas, ∀ b ∈ s.arenas, ∀ i j, i < rtArenaSlots → j < rtArenaSlots →
    (a = b ∧ i = j) ∨ slotTop a i ≤ slotBase b j ∨ slotTop b j ≤ slotBase a i
  pages : ∀ a ∈ s.arenas, ∀ i, i < rtArenaSlots →
    ∃ lo, slotBase a i + 2 * page k ≤ lo ∧ lo ≤ slotTop a i ∧
      ∀ p, slotBase a i ≤ p * page k → p * page k < slotTop a i →
        (s.acc p = true ↔ lo ≤ p * page k)

/-- What a fault of a stack is to do: change no page outside the stack's slot; and make the
    address accessible where it is in the usable region above its bottom page, or else say that
    the stack has run out. -/
def FaultRight (s : Sys) (stack : Stack) (x : Nat) : Prop :=
  (∀ p, p * page k + page k < stack.base ∨ stack.base + stack.size ≤ p * page k →
    (rtStackFault k s x).2 p = s.acc p) ∧
  if stack.base + page k ≤ x then
    (rtStackFault k s x).1 = 1 ∧ (rtStackFault k s x).2 (x / page k) = true
  else (rtStackFault k s x).1 = 2

def Right (s : Sys) : Event → Prop
  | .fault stack x => Raised k s stack x → FaultRight k s stack x
  | _ => True

def Fits (_ : Sys) : Event → Prop
  | .alloc request _ => (roundSize k request + page k) * rtArenaSlots < 2 ^ 64
  | _ => True

def Lands (s : Sys) : Event → Prop
  | .fault stack x => Raised k s stack x →
    stack.base ≤ x + page k ∨ ∃ a ∈ s.arenas, ∃ i, i < rtArenaSlots ∧
      slotBase a i ≤ x ∧ x < slotBase a i + 2 * page k
  | _ => True

end Model

end PliStackArena
