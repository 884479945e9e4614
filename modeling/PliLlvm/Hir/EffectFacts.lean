import PliLlvm.Hir.Effects

/- The analysis seen as facts: what holds of a procedure's bits, what a call carries to the
   caller, and that the rounds bring along what short chains of calls derive. -/
namespace PliEffects
open PliHir Rounds

inductive Fact where
  | access (r : Reach) (isWrite : Bool)
  | unknown
  | unwinds
  | endless
  | raises (k : Int)
  deriving DecidableEq

def Bits.has (b : Bits) : Fact → Prop
  | .access .frame _ => True
  | .access .arg true => b.writesArg = true
  | .access .arg false => b.readsArg = true
  | .access .other true => b.writesOther = true
  | .access .other false => b.readsOther = true
  | .unknown => b.isOpaque = true
  | .unwinds => b.mayUnwind = true
  | .endless => b.mayNotReturn = true
  | .raises k => k ∈ b.raiseKeys

def carry (reach : Reach) : Fact → Fact
  | .access .arg isWrite => .access reach isWrite
  | f => f

def factOf : Note → Option Fact
  | .access r isWrite => some (.access r isWrite)
  | .opaqueB => some .unknown
  | .mayUnwind => some .unwinds
  | .mayNotReturn => some .endless
  | .raiseKey k => some (.raises k)
  | _ => none

theorem turnOn_has (b : Bits) (n : Note) (f : Fact) :
    (turnOn b n).has f ↔ b.has f ∨ factOf n = some f := by
  rcases n with ⟨r, wr⟩ | _ | _ | _ | _ | _ | k | k | i | ⟨i, r⟩
  case access =>
    rcases f with ⟨r', wr'⟩ | _ | _ | _ | k'
    case access =>
      cases r <;> cases wr <;> cases r' <;> cases wr' <;> simp [turnOn, noteReach, Bits.has, factOf]
    all_goals cases r <;> cases wr <;> simp [turnOn, noteReach, Bits.has, factOf]
  all_goals
    rcases f with ⟨r', wr'⟩ | _ | _ | _ | k'
    case access => cases r' <;> cases wr' <;> simp [turnOn, Bits.has, factOf]
    all_goals simp [turnOn, Bits.has, factOf]
  case raiseKey.raises => rw [or_comm, eq_comm]

theorem turnOn_all_has (notes : List Note) (b : Bits) (f : Fact) :
    (notes.foldl turnOn b).has f ↔ b.has f ∨ ∃ n ∈ notes, factOf n = some f := by
  induction notes generalizing b with
  | nil => simp
  | cons n rest ih =>
    rw [List.foldl_cons, ih, turnOn_has]
    simp [or_assoc]

theorem has_if (c : Bool) (b : Bits) (n : Note) (f : Fact) :
    (if c = true then turnOn b n else b).has f ↔ b.has f ∨ (c = true ∧ factOf n = some f) := by
  cases c <;> simp [turnOn_has]

theorem join_raises_has (b : Bits) (keys : Finset Int) (f : Fact) :
    ({ b with raiseKeys := b.raiseKeys ∪ keys } : Bits).has f ↔
      b.has f ∨ ∃ k ∈ keys, f = .raises k := by
  rcases f with ⟨r, wr⟩ | _ | _ | _ | k
  case access => cases r <;> cases wr <;> simp [Bits.has]
  all_goals simp [Bits.has]

theorem absorb_has (next cb : Bits) (reach : Reach) (f : Fact) :
    (absorb next cb reach).has f ↔ next.has f ∨ ∃ g, cb.has g ∧ carry reach g = f := by
  have turned : absorb next cb reach =
      (let b := if cb.isOpaque = true then turnOn next .opaqueB else next
       let b := if cb.readsOther = true then turnOn b (.access .other false) else b
       let b := if cb.writesOther = true then turnOn b (.access .other true) else b
       let b := if cb.readsArg = true then turnOn b (.access reach false) else b
       let b := if cb.writesArg = true then turnOn b (.access reach true) else b
       let b := { b with raiseKeys := b.raiseKeys ∪ cb.raiseKeys }
       let b := if cb.mayUnwind = true then turnOn b .mayUnwind else b
       if cb.mayNotReturn = true then turnOn b .mayNotReturn else b) := rfl
  rw [turned]
  simp only [has_if, join_raises_has, factOf, Option.some.injEq]
  constructor
  · rintro ((((((((h | ⟨c, rfl⟩) | ⟨c, rfl⟩) | ⟨c, rfl⟩) | ⟨c, rfl⟩) | ⟨c, rfl⟩) | ⟨k, mem, rfl⟩) |
      ⟨c, rfl⟩) | ⟨c, rfl⟩)
    · exact Or.inl h
    · exact Or.inr ⟨.unknown, c, rfl⟩
    · exact Or.inr ⟨.access .other false, c, rfl⟩
    · exact Or.inr ⟨.access .other true, c, rfl⟩
    · exact Or.inr ⟨.access .arg false, c, rfl⟩
    · exact Or.inr ⟨.access .arg true, c, rfl⟩
    · exact Or.inr ⟨.raises k, mem, rfl⟩
    · exact Or.inr ⟨.unwinds, c, rfl⟩
    · exact Or.inr ⟨.endless, c, rfl⟩
  · rintro (h | ⟨g, held, rfl⟩)
    · exact .inl (.inl (.inl (.inl (.inl (.inl (.inl (.inl h)))))))
    · match g, held with
      | .access .frame _, _ => exact .inl (.inl (.inl (.inl (.inl (.inl (.inl (.inl trivial)))))))
      | .unknown, held => exact .inl (.inl (.inl (.inl (.inl (.inl (.inl (.inr ⟨held, rfl⟩)))))))
      | .access .other false, held =>
        exact .inl (.inl (.inl (.inl (.inl (.inl (.inr ⟨held, rfl⟩))))))
      | .access .other true, held => exact .inl (.inl (.inl (.inl (.inl (.inr ⟨held, rfl⟩)))))
      | .access .arg false, held => exact .inl (.inl (.inl (.inl (.inr ⟨held, rfl⟩))))
      | .access .arg true, held => exact .inl (.inl (.inl (.inr ⟨held, rfl⟩)))
      | .raises k, held => exact .inl (.inl (.inr ⟨k, held, rfl⟩))
      | .unwinds, held => exact .inl (.inr ⟨held, rfl⟩)
      | .endless, held => exact .inr ⟨held, rfl⟩

theorem absorbCalls_has (calls : Nat → List (Nat × Reach)) (bits : Nat → Bits) (self : Nat)
    (f : Fact) :
    (absorbCalls calls bits self).has f ↔
      (bits self).has f ∨
        ∃ call ∈ calls self, ∃ g, (bits call.1).has g ∧ carry call.2 g = f := by
  have step : ∀ (list : List (Nat × Reach)) (next : Bits),
      (list.foldl (fun next call => absorb next (bits call.1) call.2) next).has f ↔
        next.has f ∨ ∃ call ∈ list, ∃ g, (bits call.1).has g ∧ carry call.2 g = f := by
    intro list
    induction list with
    | nil => simp
    | cons call rest ih =>
      intro next
      rw [List.foldl_cons, ih, absorb_has]
      simp [or_assoc]
  exact step (calls self) (bits self)

theorem dispatch_grows (keys : Finset Int) {b : Bits} {f : Fact} (h : b.has f) :
    (dispatch keys b).has f := by
  unfold dispatch
  split
  · rcases f with ⟨r, wr⟩ | _ | _ | _ | k
    case access => cases r <;> cases wr <;> simp_all [Bits.has]
    all_goals simp_all [Bits.has]
  · exact h

section Analysis
variable {calls : Nat → List (Nat × Reach)} {keys : Finset Int} {n : Nat}

theorem absorbCalls_grows (bits : Nat → Bits) (p : Nat) (f : Fact) (h : (bits p).has f) :
    (absorbCalls calls bits p).has f := (absorbCalls_has calls bits p f).mpr (Or.inl h)

theorem round_grows (bits : Nat → Bits) : Below Bits.has bits (round calls keys n bits).1 := by
  have called := sweep_grows (f := absorbCalls calls) absorbCalls_grows (List.range n) (bits, false)
  have handled := sweep_grows (f := fun bits p => dispatch keys (bits p))
    (fun s p f h => dispatch_grows keys h) (List.range n)
    (sweep (absorbCalls calls) (List.range n) (bits, false))
  exact called.trans handled

theorem round_takes (inside : ∀ p call, call ∈ calls p → p < n) (bits : Nat → Bits) (p q : Nat)
    (reach : Reach) (f : Fact) (edge : (q, reach) ∈ calls p) (h : (bits q).has f) :
    ((round calls keys n bits).1 p).has (carry reach f) := by
  have monotone : ∀ (s t : Nat → Bits) p f, Below Bits.has s t → (absorbCalls calls s p).has f →
      (absorbCalls calls t p).has f := by
    intro s t p f below held
    rw [absorbCalls_has] at held ⊢
    rcases held with here | ⟨call, mem, g, there, same⟩
    · exact Or.inl (below p f here)
    · exact Or.inr ⟨call, mem, g, below _ g there, same⟩
  have member : p ∈ List.range n := List.mem_range.mpr (inside p _ edge)
  have taken : (absorbCalls calls bits p).has (carry reach f) :=
    (absorbCalls_has calls bits p _).mpr (Or.inr ⟨(q, reach), edge, f, h, rfl⟩)
  exact sweep_grows (fun s p f h => dispatch_grows keys h) (List.range n) _ p _
    (sweep_takes absorbCalls_grows monotone member taken)

theorem round_still (bits : Nat → Bits) (still : (round calls keys n bits).2 = false) :
    (round calls keys n bits).1 = bits := by
  have second := sweep_unchanged still
  have first : (sweep (absorbCalls calls) (List.range n) (bits, false)).2 = false := by
    unfold round at still
    rw [second] at still
    exact still
  unfold round
  rw [second, sweep_unchanged first]

end Analysis

section Program
variable (prog : HProgram) (byValue : Symbol → Bool) (opts : EffectOptions)

def SeenWithin (k p : Nat) (f : Fact) : Prop :=
  Derived (callsOf prog byValue opts) carry (fun p f =>
    (walkedBits prog byValue opts p).has f) k p f

def Seen (p : Nat) (f : Fact) : Prop := ∃ k, SeenWithin prog byValue opts k p f

variable {prog byValue opts}

variable {p : Nat}

theorem mem_callsOf {q : Nat} {reach : Reach} :
    (q, reach) ∈ callsOf prog byValue opts p ↔ Note.call q reach ∈ notesOf prog byValue opts p := by
  unfold callsOf
  rw [List.mem_filterMap]
  constructor
  · rintro ⟨note, mem, same⟩
    cases note <;> simp_all
  · intro mem
    exact ⟨_, mem, rfl⟩

theorem callsOf_inside (p : Nat) (call : Nat × Reach) (h : call ∈ callsOf prog byValue opts p) :
    p < prog.procs.length := by
  by_contra outside
  have none : prog.procs[p]? = none := List.getElem?_eq_none (by omega)
  simp [callsOf, notesOf, none] at h

variable {f : Fact}

theorem walkedBits_has {note : Note} (noted : note ∈ notesOf prog byValue opts p)
    (fact : factOf note = some f) : (walkedBits prog byValue opts p).has f := by
  have walked : ((notesOf prog byValue opts p).foldl turnOn {}).has f :=
    (turnOn_all_has _ _ f).mpr (Or.inr ⟨note, noted, fact⟩)
  have marked : ∀ (c : Bool) (b : Bits), b.has f →
      (if c = true then { b with mayNotReturn := true } else b).has f := fun c b h =>
    (has_if c b .mayNotReturn f).mpr (Or.inl h)
  have escaped : ∀ (c : Bool) (b : Bits), b.has f →
      (if c = true then { b with isOpaque := true, nameEscapes := true } else b).has f := by
    intro c b h
    cases c with
    | false => exact h
    | true =>
      rcases f with ⟨r, wr⟩ | _ | _ | _ | k
      case access => cases r <;> cases wr <;> simp_all [Bits.has]
      all_goals simp_all [Bits.has]
  have := escaped (decide (p ∈ escapedOf prog byValue opts)) _
    (marked (decide (p ∈ cyclesOf prog byValue opts)) _ walked)
  simpa [walkedBits] using this

theorem walkedBits_access {r : Reach} {isWrite : Bool} (visible : r ≠ .frame)
    (held : (walkedBits prog byValue opts p).has (.access r isWrite)) :
    Note.access r isWrite ∈ notesOf prog byValue opts p := by
  have walked : ((notesOf prog byValue opts p).foldl turnOn {}).has (.access r isWrite) := by
    unfold walkedBits at held
    dsimp only at held
    split at held <;> split at held <;> cases r <;> cases isWrite <;> exact held
  rcases (turnOn_all_has _ _ _).mp walked with start | ⟨note, noted, fact⟩
  · cases r <;> cases isWrite <;> contradiction
  · cases note <;> simp only [factOf, Option.some.injEq, Fact.access.injEq, reduceCtorEq] at fact
    obtain ⟨rfl, rfl⟩ := fact
    exact noted

theorem seen_noted {note : Note} (noted : note ∈ notesOf prog byValue opts p)
    (fact : factOf note = some f) : Seen prog byValue opts p f :=
      ⟨0, .here (walkedBits_has noted fact)⟩

theorem Seen.carried {q : Nat} {reach : Reach} (seen : Seen prog byValue opts q f)
    (call : Note.call q reach ∈ notesOf prog byValue opts p) :
    Seen prog byValue opts p (carry reach f) := by
  obtain ⟨k, derived⟩ := seen
  exact ⟨k + 1, .along (mem_callsOf.mpr call) derived⟩

theorem finalBits_has {k : Nat} (within : k ≤ prog.procs.length + 2)
    (seen : SeenWithin prog byValue opts k p f) : (finalBits prog byValue opts p).has f :=
  repeatRounds_derives round_grows (round_takes callsOf_inside) round_still within seen

end Program

end PliEffects
