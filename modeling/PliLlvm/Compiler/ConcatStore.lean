import PliLlvm.Lib.BigEndian
import PliLlvm.Lib.InPlace
import PliLlvm.Runtime.Substr

/- Assignments of a concatenation (src/irgen.cpp, src/irgen_decisions.cpp): the general path,
   which builds the text in a fresh buffer and assigns it (runtime/rt_string.c), and the two
   short cuts that write the operands straight into the target. Memory is flat; a VARYING
   variable is a length of four bytes, the low one first, and its data. Lengths are far below
   2^63, so they are natural numbers. -/
namespace PliConcat
open CellWrites InPlace
open PliSubstr (blank)

abbrev Memory := Int → UInt8

structure Symbol where
  num : Nat
  isChar : Bool := true
  isArray : Bool := false
  varying : Bool := false
  starLen : Bool := false
  len : Nat
  small : len < 2 ^ 31
  isBased : Bool := false
  controlled : Bool := false
  isStatic : Bool := false
  definedBase : Bool := false
  deriving DecidableEq

inductive HExpr where
  | charLit (sval : List UInt8)
  | varRef (sym : Option Symbol) (memberPath locPtr : Bool)
  | concat (a b : HExpr)
  | other

structure HStmt where
  extraTargets : Bool := false
  target : HExpr
  value : HExpr

/-- What the current procedure gives: the parameters of it and of each enclosing one, those
    that go by value, and the address of a symbol's storage, if it has one. -/
structure Scope where
  paramSyms : List (List Nat)
  byValueParam : Nat → Bool
  addressOf : Nat → Option Int

def Scope.isParamOfScope (sc : Scope) (s : Symbol) : Bool := sc.paramSyms.any (s.num ∈ ·)

def Scope.isByValueParam (sc : Scope) (s : Symbol) : Bool := sc.byValueParam s.num

def HExpr.nodes : HExpr → Nat
  | .concat a b => a.nodes + b.nodes + 1
  | _ => 1

theorem nodes_pos (ex : HExpr) : 0 < ex.nodes := by
  cases ex <;> simp [HExpr.nodes]

def flattenLoop : List HExpr → List HExpr → List HExpr
  | [], order => order
  | .concat a b :: stack, order => flattenLoop (a :: b :: stack) order
  | ex :: stack, order => flattenLoop stack (order ++ [ex])
termination_by stack => (stack.map HExpr.nodes).sum
decreasing_by
  · simp [HExpr.nodes]
    omega
  · simp [nodes_pos]

def flatten (rhs : HExpr) : List HExpr := flattenLoop [rhs] []

inductive LeafSrc where
  | lit (bytes : List UInt8)
  | fixed (ptr : Int) (len : Nat)
  | varying (ptr : Int)

def loadLen (m : Memory) (ptr : Int) : Nat :=
  BigEndian.ofBytes ((read m ptr 4).reverse.map UInt8.toBitVec)

def storeLen (m : Memory) (ptr : Int) (len : Nat) : Memory :=
  write m ptr ((BigEndian.toBytes 4 len).map UInt8.ofBitVec).reverse

-- The general path.

/-- pli_assign_char, from a buffer of its own. -/
def assignChar (m : Memory) (dst : Int) (cap : Nat) (temp : List UInt8) : Memory :=
  let n := if temp.length < cap then temp.length else cap
  let m := write m dst (temp.take n)
  if n < cap then write m (dst + n) (List.replicate (cap - n) blank) else m

/-- pli_assign_varying and the store of the length it returns. -/
def assignVarying (m : Memory) (ptr : Int) (cap : Nat) (temp : List UInt8) : Memory :=
  let n := if temp.length < cap then temp.length else cap
  storeLen (assignChar m (ptr + 4) cap temp) ptr n

def leafText (m : Memory) : LeafSrc → List UInt8
  | .lit bytes => bytes
  | .fixed ptr len => read m ptr len
  | .varying ptr => read m (ptr + 4) (loadLen m ptr)

def exprText (sc : Scope) (m : Memory) : HExpr → Option (List UInt8)
  | .charLit sval => some sval
  | .varRef (some s) false false =>
    (sc.addressOf s.num).map fun ptr =>
      leafText m (if s.varying then .varying ptr else .fixed ptr s.len)
  | .concat a b => (exprText sc m a).bind fun x => (exprText sc m b).map fun y => x ++ y
  | _ => none

def assignGeneric (sc : Scope) (s : HStmt) (m : Memory) : Option Memory :=
  match s.target with
  | .varRef (some t) false false =>
    (sc.addressOf t.num).bind fun ptr => (exprText sc m s.value).map fun temp =>
      if t.varying then assignVarying m ptr t.len temp else assignChar m ptr t.len temp
  | _ => none

-- X = X || L1 || ... || Ln in place.

def plainVarying (s : Symbol) : Bool := s.isChar && !s.isArray && s.varying && !s.starLen

def ownStorage (s : Symbol) : Bool :=
  !(s.isBased || s.controlled || s.isStatic || s.definedBase)

def varTailOk (sc : Scope) : HExpr → Bool
  | .varRef (some ls) false false =>
    plainVarying ls && ownStorage ls && (sc.isByValueParam ls || !sc.isParamOfScope ls)
  | _ => false

def appendLeaf (sc : Scope) : HExpr → Option LeafSrc
  | .charLit sval => some (.lit sval)
  | .varRef (some ls) false false =>
    if varTailOk sc (.varRef (some ls) false false) then
      (sc.addressOf ls.num).map .varying else none
  | _ => none

structure Append where
  stor : Int
  cap : Nat
  tail : List LeafSrc

def emitSelfAppend (sc : Scope) (s : HStmt) : Option Append :=
  if s.extraTargets then none
  else
    match s.target, s.value with
    | .varRef (some t) false false, .concat a b =>
      if plainVarying t && ownStorage t then
        match flatten (.concat a b) with
        | .varRef (some x) false false :: tail =>
          if x = t then
            (sc.addressOf t.num).bind fun stor =>
              (tail.mapM (appendLeaf sc)).map fun leaves => ⟨stor, t.len, leaves⟩
          else none
        | _ => none
      else none
    | _, _ => none

def leafLen (m : Memory) : LeafSrc → Nat
  | .lit bytes => bytes.length
  | .fixed _ len => len
  | .varying ptr => loadLen m ptr

def leafFront (m : Memory) (take : Nat) : LeafSrc → List UInt8
  | .lit bytes => bytes.take take
  | .fixed ptr _ => read m ptr take
  | .varying ptr => read m (ptr + 4) take

def appendLoop (dp : Int) (cap : Nat) : List LeafSrc → Memory → Nat → Memory × Nat
  | [], m, off => (m, off)
  | .lit [] :: rest, m, off => appendLoop dp cap rest m off
  | leaf :: rest, m, off =>
    let srclen := leafLen m leaf
    let rem := cap - off
    let take := if srclen < rem then srclen else rem
    appendLoop dp cap rest (write m (dp + off) (leafFront m take leaf)) (off + take)

def Append.run (code : Append) (m : Memory) : Memory :=
  let off := loadLen m code.stor
  let off := if off < code.cap then off else code.cap
  let (m, off) := appendLoop (code.stor + 4) code.cap code.tail m off
  storeLen m code.stor off

-- A = B || C at constant offsets.

structure ConcatStorePlan where
  ok : Bool
  sizes : List Int
  used : Int
  pad : Int

def planSizes (cap : Int) : List Int → Int → List Int × Int
  | [], used => ([], used)
  | l :: rest, used =>
    let room := cap - used
    let take := if l < room then l else room
    let (sizes, last) := planSizes cap rest (used + take)
    (take :: sizes, last)

def planConcatStore (leafLen : List Int) (cap : Int) : ConcatStorePlan :=
  if cap ≤ 0 then ⟨false, [], 0, 0⟩
  else if leafLen.any (· < 0) then ⟨false, [], 0, 0⟩
  else
    let (sizes, used) := planSizes cap leafLen 0
    ⟨true, sizes, used, cap - used⟩

def storeLeaf (sc : Scope) (dst : Symbol) : HExpr → Option LeafSrc
  | .charLit sval => some (.lit sval)
  | .varRef (some ls) false false =>
    if !ls.isChar || ls.varying || ls.starLen || ls.isArray then none
    else if ls = dst then none
    else if ls.isBased || ls.controlled || ls.definedBase then none
    else if sc.isParamOfScope ls && !sc.isByValueParam ls then none
    else (sc.addressOf ls.num).map fun addr => .fixed addr ls.len
  | _ => none

def notEmpty : LeafSrc → Bool
  | .lit [] => false
  | _ => true

def constLens (srcs : List LeafSrc) : List Int :=
  srcs.map fun leaf => (leafLen (fun _ => 0) leaf : Int)

structure ConstStore where
  dstAddr : Int
  cap : Nat
  srcs : List LeafSrc
  plan : ConcatStorePlan

def emitConcatConstStore (sc : Scope) (runtimePath : Bool) (s : HStmt) : Option ConstStore :=
  if s.extraTargets then none
  else
    match s.target, s.value with
    | .varRef (some dst) false false, .concat a b =>
      if !dst.isChar || dst.varying || dst.starLen || dst.isArray then none
      else if dst.len = 0 then none
      else if dst.isBased || dst.controlled || dst.definedBase then none
      else if sc.isParamOfScope dst && !sc.isByValueParam dst then none
      else
        ((flatten (.concat a b)).mapM (storeLeaf sc dst)).bind fun leaves =>
          (sc.addressOf dst.num).bind fun dstAddr =>
            if runtimePath then none
            else
              let srcs := leaves.filter notEmpty
              let plan := planConcatStore (constLens srcs) dst.len
              if plan.ok then some ⟨dstAddr, dst.len, srcs, plan⟩ else none
    | _, _ => none

def Copyable (place src : Int) (n : Nat) : Prop :=
    n = 0 ∨ src = place ∨ src + n ≤ place ∨ place + n ≤ src

instance (place src : Int) (n : Nat) : Decidable (Copyable place src n) :=
  inferInstanceAs (Decidable (_ ∨ _))

def copyLeaf (m : Memory) (place : Int) (take : Nat) : LeafSrc → Option Memory
  | .lit bytes => some (write m place (bytes.take take))
  | .fixed ptr _ => if Copyable place ptr take then some (write m place (read m ptr take)) else none
  | .varying _ => none

def storeLeaves (dst : Int) : List (LeafSrc × Int) → Int → Memory → Option (Memory × Int)
  | [], off, m => some (m, off)
  | (leaf, take) :: rest, off, m =>
    if 0 < take then
      (copyLeaf m (dst + off) take.toNat leaf).bind fun m => storeLeaves dst rest (off + take) m
    else storeLeaves dst rest off m

def ConstStore.run (code : ConstStore) (m : Memory) : Option Memory :=
  (storeLeaves code.dstAddr (code.srcs.zip code.plan.sizes) 0 m).map fun (m, off) =>
    if 0 < code.plan.pad then
      write m (code.dstAddr + off) (List.replicate code.plan.pad.toNat blank)
    else m

-- The operands in order.

def HExpr.leaves : HExpr → List HExpr
  | .concat a b => a.leaves ++ b.leaves
  | ex => [ex]

theorem flattenLoop_eq (stack order : List HExpr) :
    flattenLoop stack order = order ++ stack.flatMap HExpr.leaves := by
  fun_induction flattenLoop stack order with
  | case1 order => simp
  | case2 order a b stack ih => simp [ih, HExpr.leaves]
  | case3 ex stack order leaf ih =>
    have single : ex.leaves = [ex] := by
      cases ex with
      | concat a b => exact absurd rfl (leaf a b)
      | _ => rfl
    simp [ih, single]

theorem flatten_eq (rhs : HExpr) : flatten rhs = rhs.leaves := by
  simp [flatten, flattenLoop_eq]

theorem exprText_leaves (sc : Scope) (m : Memory) (e : HExpr) :
    exprText sc m e = (e.leaves.mapM (exprText sc m)).map List.flatten := by
  induction e with
  | concat a b first second =>
    rw [exprText, HExpr.leaves, List.mapM_append, first, second]
    cases a.leaves.mapM (exprText sc m) with
    | none => rfl
    | some xs => cases b.leaves.mapM (exprText sc m) <;> simp
  | charLit sval | other => simp [HExpr.leaves, exprText]
  | varRef sym memberPath locPtr =>
    cases value : exprText sc m (.varRef sym memberPath locPtr) <;> simp [HExpr.leaves, value]

-- What the two paths read from memory that has not changed.

/-- The operand at its turn, when `done` stands in the target: its length and the bytes to be
    copied are what they were, and a memcpy may copy them. -/
def Readable (m : Memory) (dst : Int) (cap : Nat) (done : List UInt8) : LeafSrc → Prop
  | .lit _ => True
  | .fixed ptr len =>
    Copyable (dst + done.length) ptr (min len (cap - done.length)) ∧
      Kept m dst done ptr (min len (cap - done.length))
  | .varying ptr =>
    Kept m dst done ptr 4 ∧ Kept m dst done (ptr + 4) (min (loadLen m ptr) (cap - done.length))

def Undisturbed (m : Memory) (dst : Int) (cap : Nat) : List UInt8 → List LeafSrc → Prop
  | _, [] => True
  | done, leaf :: rest =>
    Readable m dst cap done leaf ∧
      Undisturbed m dst cap
        (done ++ leafFront m (min (leafLen m leaf) (cap - done.length)) leaf) rest

theorem leafText_length (m : Memory) (leaf : LeafSrc) :
    (leafText m leaf).length = leafLen m leaf := by
  cases leaf <;> simp [leafText, leafLen, read_length]

theorem read_take (m : Memory) (a : Int) {n k : Nat} (less : k ≤ n) :
    (read m a n).take k = read m a k := by
  unfold CellWrites.read
  rw [← List.map_take, List.take_range, Nat.min_eq_left less]

theorem leafFront_eq (m : Memory) (leaf : LeafSrc) (room : Nat) :
    leafFront m (min (leafLen m leaf) room) leaf = (leafText m leaf).take room := by
  have parts : (leafText m leaf).take room =
    (leafText m leaf).take (min (leafLen m leaf) room) := by
    rw [← leafText_length, List.take_eq_take_min, Nat.min_comm]
  rw [parts]
  cases leaf with
  | lit bytes => rfl
  | fixed ptr len => exact (read_take m ptr (Nat.min_le_left len room)).symm
  | varying ptr => exact (read_take m (ptr + 4) (Nat.min_le_left _ room)).symm

theorem leafFront_length (m : Memory) (leaf : LeafSrc) (room : Nat) :
    (leafFront m (min (leafLen m leaf) room) leaf).length = min (leafLen m leaf) room := by
  rw [leafFront_eq, List.length_take, leafText_length, Nat.min_comm]

def field (cap : Nat) (temp : List UInt8) : List UInt8 :=
  temp.take cap ++ List.replicate (cap - temp.length) blank

theorem field_length (cap : Nat) (temp : List UInt8) : (field cap temp).length = cap := by
  simp [field]
  omega

theorem assignChar_eq (m : Memory) (dst : Int) (cap : Nat) (temp : List UInt8) :
    assignChar m dst cap temp = write m dst (field cap temp) := by
  unfold assignChar field
  by_cases less : temp.length < cap
  · have pad := write_append m dst temp (List.replicate (cap - temp.length) blank)
    simp only [less, if_true, List.take_length]
    rw [pad, List.take_of_length_le (by omega)]
  · simp only [less, if_false, Nat.lt_irrefl]
    rw [Nat.sub_eq_zero_of_le (by omega), List.replicate_zero, List.append_nil]

-- The constant offsets.

def constPiece (dst : Int) (cap : Nat) (leaf : LeafSrc) : Piece UInt8 := fun m filled =>
  match leaf with
  | .lit bytes => some (bytes.take (cap - filled))
  | .fixed ptr len =>
    if Copyable (dst + filled) ptr (min len (cap - filled)) then
      some (read m ptr (min len (cap - filled)))
    else none
  | .varying _ => none

theorem constPiece_sized (dst : Int) (cap : Nat) (leaf : LeafSrc) :
    Sized (constPiece dst cap leaf) := by
  intro m m' filled
  cases leaf with
  | lit bytes | varying ptr => rfl
  | fixed ptr len =>
    unfold constPiece
    dsimp only
    split
    · simp [read_length]
    · rfl

def Constant : LeafSrc → Prop
  | .varying _ => False
  | _ => True

variable {dst : Int} {cap : Nat} {leaf : LeafSrc} {m : Memory}

theorem constPiece_front {filled : Nat} {more : List UInt8}
    (piece : constPiece dst cap leaf m filled = some more) :
    more = leafFront m (min (leafLen m leaf) (cap - filled)) leaf := by
  cases leaf with
  | lit bytes =>
    rw [leafFront_eq]
    exact (Option.some.inj piece).symm
  | varying ptr => cases piece
  | fixed ptr len =>
    unfold constPiece at piece
    dsimp only at piece
    split at piece
    · exact (Option.some.inj piece).symm
    · cases piece

theorem planSizes_cons (cap l : Int) (rest : List Int) (used : Int) :
    planSizes cap (l :: rest) used =
      ((if l < cap - used then l else cap - used) ::
        (planSizes cap rest (used + if l < cap - used then l else cap - used)).1,
        (planSizes cap rest (used + if l < cap - used then l else cap - used)).2) := rfl

theorem constLens_cons (leaf : LeafSrc) (rest : List LeafSrc) :
    constLens (leaf :: rest) = (leafLen (fun _ => 0) leaf : Int) :: constLens rest := rfl

theorem constant_len (constant : Constant leaf) (m m' : Memory) :
    leafLen m leaf = leafLen m' leaf := by
  cases leaf with
  | varying ptr => cases constant
  | _ => rfl

theorem copyLeaf_piece (constant : Constant leaf) (m : Memory) (dst : Int) (cap filled : Nat) :
    copyLeaf m (dst + filled) (min (leafLen m leaf) (cap - filled)) leaf =
      (constPiece dst cap leaf m filled).map (write m (dst + filled)) := by
  cases leaf with
  | varying ptr => cases constant
  | lit bytes =>
    have front := leafFront_eq m (.lit bytes) (cap - filled)
    exact congrArg (fun taken => some (write m (dst + filled) taken)) front
  | fixed ptr len =>
    change (if Copyable (dst + filled) ptr (min len (cap - filled)) then _ else none) =
      (if Copyable (dst + filled) ptr (min len (cap - filled)) then _ else none : Option _).map _
    by_cases copyable : Copyable (dst + filled) ptr (min len (cap - filled))
    · rw [if_pos copyable, if_pos copyable, Option.map_some]
      rfl
    · rw [if_neg copyable, if_neg copyable, Option.map_none]

theorem constPiece_nothing (constant : Constant leaf) {m : Memory} {dst : Int}
    {cap filled : Nat} (none_fits : min (leafLen m leaf) (cap - filled) = 0) :
    constPiece dst cap leaf m filled = some [] := by
  cases leaf with
  | varying ptr => cases constant
  | lit bytes =>
    have front := leafFront_eq m (.lit bytes) (cap - filled)
    rw [none_fits] at front
    exact congrArg some front.symm
  | fixed ptr len =>
    have nothing : min len (cap - filled) = 0 := none_fits
    have copyable : Copyable (dst + filled) ptr 0 := Or.inl rfl
    unfold constPiece
    dsimp only
    rw [nothing, if_pos copyable]
    rfl

theorem storeLeaves_gather (m : Memory) {dst : Int} {cap : Nat} {srcs : List LeafSrc}
    (constant : ∀ leaf ∈ srcs, Constant leaf) {done : List UInt8} (room : done.length ≤ cap) :
    storeLeaves dst (srcs.zip (planSizes cap (constLens srcs) done.length).1) done.length
        (write m dst done) =
      (gather m dst done (srcs.map (constPiece dst cap))).map fun text =>
        (write m dst text, (text.length : Int)) := by
  induction srcs generalizing done with
  | nil => rfl
  | cons leaf rest ih =>
    obtain ⟨here, later⟩ := List.forall_mem_cons.mp constant
    have len := constant_len here (fun _ => 0) (write m dst done)
    have size : (if (leafLen (fun _ => 0) leaf : Int) < cap - done.length then
        (leafLen (fun _ => 0) leaf : Int) else cap - done.length) =
        ((min (leafLen (write m dst done) leaf) (cap - done.length) : Nat) : Int) := by
      rw [len]
      split <;> omega
    rw [constLens_cons, planSizes_cons, size, List.zip_cons_cons, storeLeaves,
      List.map_cons, gather]
    have follow {more : List UInt8}
        (count : more.length = min (leafLen (write m dst done) leaf) (cap - done.length)) :
        storeLeaves dst (rest.zip (planSizes cap (constLens rest)
            (done.length +
              ((min (leafLen (write m dst done) leaf) (cap - done.length) : Nat) : Int))).1)
            (done.length + ((min (leafLen (write m dst done) leaf)
              (cap - done.length) : Nat) : Int))
            (write (write m dst done) (dst + done.length) more) =
          (gather m dst (done ++ more) (rest.map (constPiece dst cap))).map fun text =>
            (write m dst text, (text.length : Int)) := by
      have whole : (done.length : Int) + (more.length : Int) = ((done ++ more).length : Int) := by
        simp
      rw [write_append, ← count, whole]
      exact ih later (by rw [List.length_append, count]; omega)
    have stored := copyLeaf_piece here (write m dst done) dst cap done.length
    by_cases some_byte : 0 < min (leafLen (write m dst done) leaf) (cap - done.length)
    · rw [if_pos (by omega), Int.toNat_natCast, stored]
      cases piece : constPiece dst cap leaf (write m dst done) done.length with
      | none => rfl
      | some more =>
        rw [Option.map_some, Option.bind_some, Option.bind_some]
        refine follow ?_
        rw [constPiece_front piece, leafFront_length]
    · have nothing : min (leafLen (write m dst done) leaf) (cap - done.length) = 0 := by omega
      have empty := @follow [] nothing.symm
      rw [if_neg (by omega), constPiece_nothing here nothing, Option.bind_some, ← empty,
        write_nothing, nothing]
      simp

variable {srcs : List LeafSrc} {done text : List UInt8}

theorem gather_used (constant : ∀ leaf ∈ srcs, Constant leaf) (room : done.length ≤ cap)
    (gathered : gather m dst done (srcs.map (constPiece dst cap)) = some text) :
    (planSizes cap (constLens srcs) done.length).2 = text.length ∧ text.length ≤ cap := by
  induction srcs generalizing done with
  | nil =>
    cases gathered
    exact ⟨rfl, room⟩
  | cons leaf rest ih =>
    obtain ⟨here, later⟩ := List.forall_mem_cons.mp constant
    obtain ⟨more, piece, behind⟩ := Option.bind_eq_some_iff.mp gathered
    have len := constant_len here (fun _ => 0) (write m dst done)
    have count : more.length = min (leafLen (write m dst done) leaf) (cap - done.length) := by
      rw [constPiece_front piece, leafFront_length]
    have step := @ih (done ++ more) later (by rw [List.length_append, count]; omega) behind
    rw [constLens_cons, planSizes_cons]
    have size : (done.length : Int) + (if (leafLen (fun _ => 0) leaf : Int) < cap - done.length
        then (leafLen (fun _ => 0) leaf : Int) else cap - done.length) =
        ((done ++ more).length : Int) := by
      rw [List.length_append, count, len]
      split <;> omega
    rw [size]
    exact step

theorem take_filled {done : List UInt8} {cap : Nat} (next rest : List UInt8)
    (room : done.length ≤ cap) :
    (done ++ next.take (cap - done.length) ++ rest).take cap =
      (done ++ (next ++ rest)).take cap := by
  by_cases fits : next.length ≤ cap - done.length
  · rw [List.take_of_length_le fits, List.append_assoc]
  · have full : (done ++ next.take (cap - done.length)).length = cap := by simp; omega
    rw [List.take_left' full, List.take_append, List.take_of_length_le room,
      List.take_append_of_le_length (by omega)]

theorem snapshot_text (room : done.length ≤ cap)
    (meant : snapshot m done (srcs.map (constPiece dst cap)) = some text) :
    text = (done ++ (srcs.map (leafText m)).flatten).take cap := by
  induction srcs generalizing done with
  | nil =>
    cases meant
    simp [List.take_of_length_le room]
  | cons leaf rest ih =>
    obtain ⟨more, piece, behind⟩ := Option.bind_eq_some_iff.mp meant
    have front := constPiece_front piece
    rw [leafFront_eq] at front
    have size : more.length ≤ cap - done.length := by
      rw [front]
      exact List.length_take_le _ _
    rw [ih (by rw [List.length_append]; omega) behind, List.map_cons, List.flatten_cons, front]
    exact take_filled _ _ room

theorem steady_iff_undisturbed (constant : ∀ leaf ∈ srcs, Constant leaf) {done : List UInt8} :
    Steady m dst done (srcs.map (constPiece dst cap)) ↔ Undisturbed m dst cap done srcs := by
  induction srcs generalizing done with
  | nil => exact Iff.rfl
  | cons leaf rest ih =>
    obtain ⟨here, later⟩ := List.forall_mem_cons.mp constant
    rw [List.map_cons, Steady, Undisturbed]
    cases leaf with
    | varying ptr => cases here
    | lit bytes =>
      have front := leafFront_eq m (.lit bytes) (cap - done.length)
      constructor
      · rintro ⟨more, now, -, behind⟩
        obtain rfl := Option.some.inj now
        rw [front]
        exact ⟨trivial, (ih later).mp behind⟩
      · rintro ⟨-, behind⟩
        rw [front] at behind
        exact ⟨_, rfl, rfl, (ih later).mpr behind⟩
    | fixed ptr len =>
      constructor
      · rintro ⟨more, now, before, behind⟩
        unfold constPiece at now before
        dsimp only at now before
        by_cases copyable : Copyable (dst + done.length) ptr (min len (cap - done.length))
        · rw [if_pos copyable] at now before
          obtain rfl := Option.some.inj before
          exact ⟨⟨copyable, kept_iff_read.mpr (Option.some.inj now)⟩, (ih later).mp behind⟩
        · rw [if_neg copyable] at now
          cases now
      · rintro ⟨⟨copyable, kept⟩, behind⟩
        refine ⟨read m ptr (min len (cap - done.length)), ?_, ?_, (ih later).mpr behind⟩
        · unfold constPiece
          dsimp only
          rw [if_pos copyable, kept_iff_read.mp kept]
        · unfold constPiece
          dsimp only
          rw [if_pos copyable]

theorem pad_text (m : Memory) (dst : Int) {cap : Nat} {text : List UInt8}
    (room : text.length ≤ cap) :
    (if (0 : Int) < cap - text.length then
      write (write m dst text) (dst + text.length)
        (List.replicate ((cap : Int) - text.length).toNat blank)
    else write m dst text) = write m dst (text ++ List.replicate (cap - text.length) blank) := by
  have count : ((cap : Int) - text.length).toNat = cap - text.length := by omega
  split
  · rw [write_append, count]
  · have full : cap - text.length = 0 := by omega
    rw [full, List.replicate_zero, List.append_nil]

theorem planConcatStore_eq (srcs : List LeafSrc) {cap : Nat} (some_room : 0 < cap) :
    planConcatStore (constLens srcs) cap =
      ⟨true, (planSizes cap (constLens srcs) 0).1, (planSizes cap (constLens srcs) 0).2,
        cap - (planSizes cap (constLens srcs) 0).2⟩ := by
  have none_negative : (constLens srcs).any (· < 0) = false := by
    simp [constLens]
  unfold planConcatStore
  rw [if_neg (by omega), none_negative, if_neg (by simp)]

theorem constStore_run (m : Memory) (dst : Int) {cap : Nat} {srcs : List LeafSrc}
    (constant : ∀ leaf ∈ srcs, Constant leaf) (some_room : 0 < cap) :
    ConstStore.run ⟨dst, cap, srcs, planConcatStore (constLens srcs) cap⟩ m =
      (gather m dst [] (srcs.map (constPiece dst cap))).map fun text =>
        write m dst (text ++ List.replicate (cap - text.length) blank) := by
  have stored := @storeLeaves_gather m dst cap srcs constant [] (Nat.zero_le cap)
  rw [write_nothing, List.length_nil, Int.natCast_zero] at stored
  rw [planConcatStore_eq srcs some_room, ConstStore.run]
  dsimp only
  rw [stored]
  cases gathered : gather m dst [] (srcs.map (constPiece dst cap)) with
  | none => rfl
  | some text =>
    obtain ⟨used, room⟩ := gather_used constant (Nat.zero_le cap) gathered
    rw [List.length_nil, Int.natCast_zero] at used
    simp only [Option.map_some, used]
    rw [pad_text m dst room]

theorem constStore_run_iff (constant : ∀ leaf ∈ srcs, Constant leaf) (some_room : 0 < cap) :
    ConstStore.run ⟨dst, cap, srcs, planConcatStore (constLens srcs) cap⟩ m =
        some (assignChar m dst cap (srcs.map (leafText m)).flatten) ↔
      Undisturbed m dst cap [] srcs := by
  have sized : ∀ p ∈ srcs.map (constPiece dst cap), Sized p := by
    intro p member
    obtain ⟨leaf, -, rfl⟩ := List.mem_map.mp member
    exact constPiece_sized dst cap leaf
  have lengths := @sized_length _ m dst [] _ sized [] rfl
  rw [← steady_iff_undisturbed constant, ← steady_iff_gather sized, assignChar_eq,
    constStore_run m dst constant some_room, Option.map_eq_some_iff]
  have meant_text {text : List UInt8}
      (meant : snapshot m [] (srcs.map (constPiece dst cap)) = some text) :
      text = (srcs.map (leafText m)).flatten.take cap := snapshot_text (Nat.zero_le cap) meant
  have whole (temp : List UInt8) :
      temp.take cap ++ List.replicate (cap - (temp.take cap).length) blank = field cap temp := by
    have size : cap - (temp.take cap).length = cap - temp.length := by
      rw [List.length_take]
      omega
    rw [field, size]
  constructor
  · rintro ⟨text, gathered, same⟩
    rw [gathered] at lengths
    obtain ⟨text', meant, size⟩ := Option.map_eq_some_iff.mp lengths.symm
    obtain rfl := meant_text meant
    have room := (gather_used constant (Nat.zero_le cap) gathered).2
    rw [← whole] at same
    have fields := write_inj (by simp at size; simp; omega) same
    have equal := List.append_inj_left fields size.symm
    exact ⟨text, gathered, by rw [meant, equal]⟩
  · rintro ⟨text, gathered, meant⟩
    refine ⟨text, gathered, ?_⟩
    rw [meant_text meant, whole]

-- The append in place.

def appendPiece (cap : Nat) (leaf : LeafSrc) : Piece UInt8 := fun m filled =>
  some (leafFront m (min (leafLen m leaf) (cap - filled)) leaf)

theorem appendLoop_cons (dp : Int) (cap : Nat) (leaf : LeafSrc) (rest : List LeafSrc) (m : Memory)
    (off : Nat) :
    appendLoop dp cap (leaf :: rest) m off =
      appendLoop dp cap rest
        (write m (dp + off) (leafFront m (min (leafLen m leaf) (cap - off)) leaf))
        (off + min (leafLen m leaf) (cap - off)) := by
  have take : (if leafLen m leaf < cap - off then leafLen m leaf else cap - off) =
      min (leafLen m leaf) (cap - off) := by
    split <;> omega
  match leaf with
  | .lit [] =>
    have empty : leafFront m (min (leafLen m (.lit [])) (cap - off)) (.lit []) = [] := List.take_nil
    have none_taken : min (leafLen m (.lit [])) (cap - off) = 0 := Nat.zero_min _
    rw [appendLoop, empty, none_taken, write_nothing, Nat.add_zero]
  | .lit (c :: cs) | .fixed ptr len | .varying ptr =>
    rw [appendLoop]
    · rw [take]
    · simp

theorem appendLoop_gather (m : Memory) (dp : Int) {cap : Nat} (leaves : List LeafSrc)
    {done : List UInt8} (room : done.length ≤ cap) :
    ∃ text, gather m dp done (leaves.map (appendPiece cap)) = some text ∧ text.length ≤ cap ∧
      appendLoop dp cap leaves (write m dp done) done.length = (write m dp text, text.length) := by
  induction leaves generalizing done with
  | nil => exact ⟨done, rfl, room, rfl⟩
  | cons leaf rest ih =>
    have size := leafFront_length (write m dp done) leaf (cap - done.length)
    obtain ⟨text, gathered, within, loop⟩ := @ih (done ++
      leafFront (write m dp done) (min (leafLen (write m dp done) leaf) (cap - done.length)) leaf)
      (by rw [List.length_append, size]; omega)
    refine ⟨text, gathered, within, ?_⟩
    rw [appendLoop_cons, write_append, ← loop, List.length_append, size]

variable {dp : Int}

theorem loadLen_kept {ptr : Int}
    (kept : Kept m dp done ptr 4) : loadLen (write m dp done) ptr = loadLen m ptr := by
  rw [loadLen, kept_iff_read.mp kept, loadLen]

theorem steady_of_undisturbed {leaves : List LeafSrc}
    (undisturbed : Undisturbed m dp cap done leaves) :
    Steady m dp done (leaves.map (appendPiece cap)) := by
  induction leaves generalizing done with
  | nil => trivial
  | cons leaf rest ih =>
    obtain ⟨readable, later⟩ := undisturbed
    refine ⟨leafFront m (min (leafLen m leaf) (cap - done.length)) leaf, ?_, rfl, ih later⟩
    cases leaf with
    | lit bytes => rfl
    | fixed ptr len => exact congrArg some (kept_iff_read.mp readable.2)
    | varying ptr =>
      have len : leafLen (write m dp done) (.varying ptr) = leafLen m (.varying ptr) :=
        loadLen_kept readable.1
      unfold appendPiece
      rw [len]
      exact congrArg some (kept_iff_read.mp readable.2)

theorem snapshot_append {leaves : List LeafSrc}
    (room : done.length ≤ cap)
    (meant : snapshot m done (leaves.map (appendPiece cap)) = some text) :
    text = (done ++ (leaves.map (leafText m)).flatten).take cap := by
  induction leaves generalizing done with
  | nil =>
    cases meant
    simp [List.take_of_length_le room]
  | cons leaf rest ih =>
    obtain ⟨more, piece, behind⟩ := Option.bind_eq_some_iff.mp meant
    have front := (Option.some.inj piece).symm
    rw [leafFront_eq] at front
    have size : more.length ≤ cap - done.length := by
      rw [front]
      exact List.length_take_le _ _
    rw [ih (by rw [List.length_append]; omega) behind, List.map_cons, List.flatten_cons, front]
    exact take_filled _ _ room

theorem loadLen_storeLen (m : Memory) (ptr : Int) {len : Nat} (small : len < 2 ^ 32) :
    loadLen (storeLen m ptr len) ptr = len := by
  have size : ((BigEndian.toBytes 4 len).map UInt8.ofBitVec).reverse.length = 4 := by
    simp [BigEndian.toBytes_length]
  have bytes := read_write m ptr ((BigEndian.toBytes 4 len).map UInt8.ofBitVec).reverse
  rw [size] at bytes
  rw [loadLen, storeLen, bytes, List.reverse_reverse, List.map_map]
  have same : UInt8.toBitVec ∘ UInt8.ofBitVec = id := rfl
  rw [same, List.map_id, BigEndian.ofBytes_toBytes, Nat.mod_eq_of_lt (by omega)]

theorem storeLen_data (m : Memory) (ptr : Int) (len k : Nat) :
    storeLen m ptr len (ptr + 4 + k) = m (ptr + 4 + k) := by
  refine write_outside ?_
  simp [BigEndian.toBytes_length]

/-- The bytes of the target from `n` on are blank. -/
def TailBlank (m : Memory) (dp : Int) (cap n : Nat) : Prop :=
  ∀ k, n ≤ k → k < cap → m (dp + k) = blank

theorem write_blanks (tail : TailBlank m dp cap text.length) :
    write m dp (text ++ List.replicate (cap - text.length) blank) = write m dp text := by
  rw [← write_append]
  funext b
  rcases write_at (write m dp text) (dp + text.length)
    (List.replicate (cap - text.length) blank) b with ⟨j, rfl, inside, value⟩ | ⟨-, value⟩
  · have within : j < cap - text.length := by simpa using inside
    have place : dp + (text.length : Int) + j = dp + ((text.length + j : Nat) : Int) := by
      push_cast
      omega
    rw [value, List.getElem_replicate, place, write_outside (by omega)]
    exact (tail _ (by omega) (by omega)).symm
  · exact value

def newLen (m : Memory) (code : Append) : Nat :=
  min code.cap (loadLen m code.stor + (code.tail.map (leafLen m)).sum)

def wholeText (m : Memory) (code : Append) : List UInt8 :=
  read m (code.stor + 4) (loadLen m code.stor) ++ (code.tail.map (leafText m)).flatten

theorem wholeText_length (m : Memory) (code : Append) :
    (wholeText m code).length = loadLen m code.stor + (code.tail.map (leafLen m)).sum := by
  rw [wholeText, List.length_append, read_length, List.length_flatten, List.map_map]
  congr 3
  funext leaf
  exact leafText_length m leaf

def ownFront (m : Memory) (code : Append) : List UInt8 :=
  read m (code.stor + 4) (min (loadLen m code.stor) code.cap)

theorem append_run (m : Memory) (code : Append) :
    ∃ text, gather m (code.stor + 4) (ownFront m code) (code.tail.map (appendPiece code.cap)) =
        some text ∧
      text.length ≤ code.cap ∧
      code.run m = storeLen (write m (code.stor + 4) text) code.stor text.length := by
  have off : (if loadLen m code.stor < code.cap then loadLen m code.stor else code.cap) =
      min (loadLen m code.stor) code.cap := by
    split <;> omega
  have size : (ownFront m code).length = min (loadLen m code.stor) code.cap := read_length _ _ _
  obtain ⟨text, gathered, room, loop⟩ :=
    @appendLoop_gather m (code.stor + 4) code.cap code.tail (ownFront m code) (by omega)
  refine ⟨text, gathered, room, ?_⟩
  rw [ownFront, write_own, read_length] at loop
  unfold Append.run
  dsimp only
  rw [off, loop]

theorem assignVarying_eq (m : Memory) (code : Append) :
    assignVarying m code.stor code.cap (wholeText m code) =
      storeLen (write m (code.stor + 4) (field code.cap (wholeText m code))) code.stor
        (newLen m code) := by
  have len : (if (wholeText m code).length < code.cap then
    (wholeText m code).length else code.cap) =
      newLen m code := by
    rw [newLen, ← wholeText_length]
    split <;> omega
  unfold assignVarying
  dsimp only
  rw [len, assignChar_eq]

variable {code : Append}

theorem append_needs_blanks (small : code.cap < 2 ^ 31)
    (agree : code.run m = assignVarying m code.stor code.cap (wholeText m code)) :
    TailBlank m (code.stor + 4) code.cap (newLen m code) := by
  obtain ⟨text, -, room, run⟩ := append_run m code
  have fits : newLen m code ≤ code.cap := Nat.min_le_left _ _
  rw [run, assignVarying_eq] at agree
  have len := congrArg (loadLen · code.stor) agree
  rw [loadLen_storeLen _ _ (by omega), loadLen_storeLen _ _ (by omega)] at len
  intro k from_len below
  have byte := congrFun agree (code.stor + 4 + k)
  have size := field_length code.cap (wholeText m code)
  have temp := wholeText_length m code
  have total : newLen m code = min code.cap (wholeText m code).length := by
    rw [temp, newLen]
  rw [storeLen_data, storeLen_data, write_outside (by omega), write_inside (by omega)] at byte
  rw [byte]
  unfold field
  rw [List.getElem_append_right (by simp; omega), List.getElem_replicate]

theorem append_agrees
    (undisturbed : Undisturbed m (code.stor + 4) code.cap (ownFront m code) code.tail)
    (tail : TailBlank m (code.stor + 4) code.cap (newLen m code)) :
    code.run m = assignVarying m code.stor code.cap (wholeText m code) := by
  obtain ⟨text, gathered, room, run⟩ := append_run m code
  obtain ⟨text', gathered', meant⟩ := gather_steady (steady_of_undisturbed undisturbed)
  rw [gathered] at gathered'
  cases gathered'
  have own : (ownFront m code).length = min (loadLen m code.stor) code.cap := read_length _ _ _
  have front := snapshot_append (by omega) meant
  have cut : text = (wholeText m code).take code.cap := by
    have part : ownFront m code =
        (read m (code.stor + 4) (loadLen m code.stor)).take (code.cap - 0) := by
      rw [ownFront, Nat.sub_zero, ← read_take m _ (Nat.min_le_left _ _), Nat.min_comm]
      nth_rewrite 1 [← read_length m (code.stor + 4) (loadLen m code.stor)]
      rw [← List.take_eq_take_min]
    have filled := @take_filled [] code.cap (read m (code.stor + 4) (loadLen m code.stor))
      (code.tail.map (leafText m)).flatten (Nat.zero_le code.cap)
    rw [front, part]
    exact filled
  have total := wholeText_length m code
  have len : text.length = newLen m code := by
    rw [cut, List.length_take, total, newLen]
  rw [run, assignVarying_eq, len, ← write_blanks (len ▸ tail), field, cut, List.length_take]
  congr 4
  omega

-- What an accepted statement is.

theorem mapM_of_forall {α γ δ : Type} {f : α → Option γ} {g : α → Option δ}
    {h : γ → δ} {xs : List α}
    {ys : List γ} (each : ∀ x y, f x = some y → g x = some (h y)) (mapped : xs.mapM f = some ys) :
    xs.mapM g = some (ys.map h) := by
  induction xs generalizing ys with
  | nil =>
    cases mapped
    rfl
  | cons x xs ih =>
    rw [List.mapM_cons] at mapped ⊢
    obtain ⟨y, first, rest⟩ := Option.bind_eq_some_iff.mp mapped
    obtain ⟨ys', others, whole⟩ := Option.bind_eq_some_iff.mp rest
    cases whole
    have later := ih others
    simp [each x y first, later]

theorem mapM_forall {α γ : Type} {f : α → Option γ} {good : γ → Prop} {xs : List α} {ys : List γ}
    (each : ∀ x y, f x = some y → good y) (mapped : xs.mapM f = some ys) : ∀ y ∈ ys, good y := by
  induction xs generalizing ys with
  | nil =>
    cases mapped
    simp
  | cons x xs ih =>
    rw [List.mapM_cons] at mapped
    obtain ⟨y, first, rest⟩ := Option.bind_eq_some_iff.mp mapped
    obtain ⟨ys', others, whole⟩ := Option.bind_eq_some_iff.mp rest
    cases whole
    exact List.forall_mem_cons.mpr ⟨each x y first, ih others⟩

variable {sc : Scope} {e : HExpr}

theorem appendLeaf_text
    (accepted : appendLeaf sc e = some leaf) : exprText sc m e = some (leafText m leaf) := by
  unfold appendLeaf at accepted
  split at accepted
  · cases accepted
    rfl
  · rename_i ls
    split at accepted
    · rename_i tail
      obtain ⟨ptr, address, rfl⟩ := Option.map_eq_some_iff.mp accepted
      have varying : ls.varying = true := by
        simp only [varTailOk, plainVarying, Bool.and_eq_true] at tail
        exact tail.1.1.1.2
      rw [exprText, address, varying]
      rfl
    · cases accepted
  · cases accepted

theorem storeLeaf_text {dst : Symbol}
    (accepted : storeLeaf sc dst e = some leaf) : exprText sc m e = some (leafText m leaf) := by
  unfold storeLeaf at accepted
  split at accepted
  · cases accepted
    rfl
  · rename_i ls
    split at accepted
    · cases accepted
    · rename_i plain
      have fixed : ls.varying = false := by
        simp only [Bool.or_eq_true, not_or, Bool.not_eq_true] at plain
        exact plain.1.1.2
      split at accepted
      · cases accepted
      · split at accepted
        · cases accepted
        · split at accepted
          · cases accepted
          · obtain ⟨ptr, address, rfl⟩ := Option.map_eq_some_iff.mp accepted
            rw [exprText, address, fixed]
            rfl
  · cases accepted

theorem storeLeaf_constant {dst : Symbol}
    (accepted : storeLeaf sc dst e = some leaf) : Constant leaf := by
  unfold storeLeaf at accepted
  split at accepted
  · cases accepted
    trivial
  · split at accepted
    · cases accepted
    · split at accepted
      · cases accepted
      · split at accepted
        · cases accepted
        · split at accepted
          · cases accepted
          · obtain ⟨ptr, -, rfl⟩ := Option.map_eq_some_iff.mp accepted
            trivial
  · cases accepted

theorem emitSelfAppend_generic {s : HStmt} (emitted : emitSelfAppend sc s = some code) :
    code.cap < 2 ^ 31 ∧
      ∀ m, assignGeneric sc s m = some (assignVarying m code.stor code.cap (wholeText m code)) := by
  unfold emitSelfAppend at emitted
  split at emitted
  · cases emitted
  split at emitted
  · rename_i t a b target value
    split at emitted
    · rename_i plain
      split at emitted
      · rename_i x tail order
        split at emitted
        · rename_i same
          subst same
          obtain ⟨stor, address, mapped⟩ := Option.bind_eq_some_iff.mp emitted
          obtain ⟨leaves, tails, rfl⟩ := Option.map_eq_some_iff.mp mapped
          refine ⟨x.small, fun m => ?_⟩
          have varying : x.varying = true := by
            simp only [plainVarying, Bool.and_eq_true] at plain
            exact plain.1.1.2
          have own : exprText sc m (.varRef (some x) false false) =
              some (read m (stor + 4) (loadLen m stor)) := by
            rw [exprText, address, varying]
            rfl
          have texts := mapM_of_forall (g := exprText sc m) (fun e leaf => appendLeaf_text) tails
          have whole : exprText sc m (.concat a b) = some (read m (stor + 4) (loadLen m stor) ++
              (leaves.map (leafText m)).flatten) := by
            rw [exprText_leaves, ← flatten_eq, order, List.mapM_cons, own, texts]
            rfl
          rw [assignGeneric, target, value]
          dsimp only
          rw [address, Option.bind_some, whole, varying]
          rfl
        · cases emitted
      · cases emitted
    · cases emitted
  · cases emitted

theorem flatten_notEmpty (m : Memory) (leaves : List LeafSrc) :
    ((leaves.filter notEmpty).map (leafText m)).flatten = (leaves.map (leafText m)).flatten := by
  induction leaves with
  | nil => rfl
  | cons leaf rest ih =>
    rw [List.filter_cons]
    split
    · rw [List.map_cons, List.map_cons, List.flatten_cons, List.flatten_cons, ih]
    · rename_i empty
      have nothing : leafText m leaf = [] := by
        cases leaf with
        | lit bytes =>
          cases bytes with
          | nil => rfl
          | cons c cs => exact absurd rfl empty
        | _ => exact absurd rfl empty
      rw [List.map_cons, List.flatten_cons, nothing, List.nil_append, ih]

theorem emitConcatConstStore_generic {runtimePath : Bool} {s : HStmt} {code : ConstStore}
    (emitted : emitConcatConstStore sc runtimePath s = some code) :
    0 < code.cap ∧ (∀ leaf ∈ code.srcs, Constant leaf) ∧
      code.plan = planConcatStore (constLens code.srcs) code.cap ∧
      ∀ m, assignGeneric sc s m =
        some (assignChar m code.dstAddr code.cap (code.srcs.map (leafText m)).flatten) := by
  unfold emitConcatConstStore at emitted
  split at emitted
  · cases emitted
  split at emitted
  · rename_i dst a b target value
    split at emitted
    · cases emitted
    rename_i plain
    split at emitted
    · cases emitted
    rename_i positive
    split at emitted
    · cases emitted
    split at emitted
    · cases emitted
    obtain ⟨leaves, accepted, rest⟩ := Option.bind_eq_some_iff.mp emitted
    obtain ⟨dstAddr, address, rest⟩ := Option.bind_eq_some_iff.mp rest
    split at rest
    · cases rest
    dsimp only at rest
    split at rest
    · cases rest
      have constant := mapM_forall (fun e leaf => storeLeaf_constant) accepted
      refine ⟨by simp only; omega, fun leaf member => ?_, rfl, fun m => ?_⟩
      · exact constant leaf (List.mem_of_mem_filter member)
      · have fixed : dst.varying = false := by
          simp only [Bool.or_eq_true, not_or, Bool.not_eq_true] at plain
          exact plain.1.1.2
        have texts := mapM_of_forall (g := exprText sc m) (fun e leaf => storeLeaf_text) accepted
        have whole : exprText sc m (.concat a b) = some (leaves.map (leafText m)).flatten := by
          rw [exprText_leaves, ← flatten_eq, texts]
          rfl
        rw [assignGeneric, target, value]
        dsimp only
        rw [address, Option.bind_some, whole, fixed, flatten_notEmpty]
        rfl
    · cases rest
  · cases emitted

/-- Where the two short cuts leave what the assignment of the whole text leaves. -/
theorem peepholes_agree_iff (sc : Scope) (s : HStmt) (m : Memory) :
    (∀ runtimePath code, emitConcatConstStore sc runtimePath s = some code →
      (code.run m = assignGeneric sc s m ↔ Undisturbed m code.dstAddr code.cap [] code.srcs)) ∧
    ∀ code, emitSelfAppend sc s = some code →
      (some (code.run m) = assignGeneric sc s m →
        TailBlank m (code.stor + 4) code.cap (newLen m code)) ∧
      (Undisturbed m (code.stor + 4) code.cap (ownFront m code) code.tail →
        (some (code.run m) = assignGeneric sc s m ↔
          TailBlank m (code.stor + 4) code.cap (newLen m code))) := by
  constructor
  · intro runtimePath code emitted
    obtain ⟨positive, constant, plan, generic⟩ := emitConcatConstStore_generic emitted
    obtain ⟨dstAddr, cap, srcs, stored⟩ := code
    dsimp only at positive constant plan generic ⊢
    rw [generic m, plan]
    exact constStore_run_iff constant positive
  · intro code emitted
    obtain ⟨small, generic⟩ := emitSelfAppend_generic emitted
    rw [generic m, Option.some.injEq]
    refine ⟨append_needs_blanks small, fun undisturbed => ⟨append_needs_blanks small, ?_⟩⟩
    exact append_agrees undisturbed

section Examples

def pair (num : Nat) : Symbol := { num := num, len := 2, small := by decide }

def storePair : HStmt :=
  { target := .varRef (some (pair 1)) false false,
    value := .concat (.charLit [88]) (.varRef (some (pair 2)) false false) }

def pairScope (first second : Int) : Scope :=
  { paramSyms := [[9]], byValueParam := fun _ => false,
    addressOf := fun num => if num = 1 then some first else if num = 2 then some second else none }

def pairStore (first second : Int) : ConstStore :=
  ⟨first, 2, [.lit [88], .fixed second 2], planConcatStore [1, 2] 2⟩

theorem pair_emitted (first second : Int) :
    emitConcatConstStore (pairScope first second) false storePair =
      some (pairStore first second) := by
  simp [emitConcatConstStore, storePair, flatten_eq, HExpr.leaves, storeLeaf, pairScope, pair,
    Scope.isParamOfScope, pairStore]
  exact ⟨rfl, ⟨rfl, rfl⟩, rfl⟩

def digitsMemory : Memory := fun a => UInt8.ofNat (49 + a.toNat)

def growing : Symbol := { num := 1, varying := true, len := 2, small := by decide }

def growX : HStmt :=
  { target := .varRef (some growing) false false,
    value := .concat (.varRef (some growing) false false) (.charLit [65]) }

theorem grow_emitted :
    emitSelfAppend (pairScope 0 2) growX = some ⟨0, 2, [.lit [65]]⟩ := by
  simp [emitSelfAppend, growX, plainVarying, ownStorage, growing, flatten_eq, HExpr.leaves,
    appendLeaf, pairScope]

/-- The live length 0 and two blanks behind it. -/
def blankTail : Memory := fun a => if a = 4 ∨ a = 5 then blank else 0

/-- With A and B apart, and with blanks behind the text, the short cuts are right. -/
theorem pair_apart_agrees :
    (pairStore 0 2).run digitsMemory = assignGeneric (pairScope 0 2) storePair digitsMemory ∧
    some ((⟨0, 2, [.lit [65]]⟩ : Append).run blankTail) =
      assignGeneric (pairScope 0 2) growX blankTail := by
  constructor
  · refine ((peepholes_agree_iff (pairScope 0 2) storePair digitsMemory).1 false _
      (pair_emitted 0 2)).mpr ?_
    refine ⟨trivial, ⟨?_, kept_apart ?_⟩, trivial⟩
    · exact Or.inr (Or.inr (Or.inr (by decide)))
    · exact Or.inr (by decide)
  · refine (((peepholes_agree_iff (pairScope 0 2) growX blankTail).2 _ grow_emitted).2
      ⟨trivial, trivial⟩).mpr ?_
    intro k _ within
    have place : k = 0 ∨ k = 1 := by
      change k < 2 at within
      omega
    rcases place with rfl | rfl <;> decide

/-- A and B are parameters of an ENTRY and stand for one variable: the X that is stored
    first is read as B. X stands for a member of a structure, which starts as zeros: the byte
    behind the text stays zero. -/
theorem short_cuts_differ :
    (∃ code, emitConcatConstStore (pairScope 0 0) false storePair = some code ∧
      code.run digitsMemory ≠ assignGeneric (pairScope 0 0) storePair digitsMemory) ∧
    ∃ code, emitSelfAppend (pairScope 0 2) growX = some code ∧
      some (code.run fun _ => 0) ≠ assignGeneric (pairScope 0 2) growX fun _ => 0 := by
  refine ⟨⟨_, pair_emitted 0 0, fun same => ?_⟩, ⟨_, grow_emitted, fun same => ?_⟩⟩
  · have byte := congrArg (Option.map fun m : Memory => m 1) same
    exact absurd byte (by decide)
  · have byte := congrArg (Option.map fun m : Memory => m 5) same
    exact absurd byte (by decide)

end Examples

end PliConcat
