import PliLlvm.Runtime.Strings

/- The three lowerings of INDEX (src/irgen.cpp), as the code they emit runs. A vector is
   the list of its sixteen lanes and an i16 the list of its bits, lane 0 the lowest. The
   bytes of a string constant carry no terminator; an empty constant is stored as one
   blank. A result of none is a read outside the two strings. -/
namespace PliIndexLowering
open Searches PliStrings

def load16 (s : List UInt8) (pos : Nat) : Option (List UInt8) :=
  if pos + 16 ≤ s.length then some ((s.drop pos).take 16) else none

def emitIndexLLVM (hay needle : List UInt8) : Option Nat :=
  if needle.length = 0 then some 1
  else if hay.length < needle.length then some 0
  else
    match loadByte needle 0 with
    | none => none
    | some b0 =>
      let found := memchr hay b0
      let pos := found.getD 0
      let shouldExit := found.isNone || hay.length < pos + needle.length
      let safePos := if shouldExit then 0 else pos
      let safeLen := if shouldExit then 0 else needle.length
      match memcmpEq hay safePos needle safeLen with
      | none => none
      | some eq =>
        if shouldExit then some 0
        else if eq then some (pos + 1)
        else pliIndex hay needle

inductive Turn where
  | next (pos : Nat)
  | verify (cand : Nat)
  | done

def cttz (bits : List Bool) : Nat := bits.findIdx id

def sseScan (hay : List UInt8) (first : UInt8) (pos : Nat) : Option Turn :=
  let rem := hay.length - pos
  if 16 ≤ rem then
    (load16 hay pos).map fun block =>
      let bits := block.map (· == first)
      if bits.any id then .verify (pos + cttz bits) else .next (pos + 16)
  else if rem = 0 then some .done
  else (loadByte hay pos).map fun x => if x = first then .verify pos else .next (pos + 1)

def sseVerify (hay needle : List UInt8) (cand : Nat) : Option (Option Nat) :=
  if cand + needle.length ≤ hay.length then
    (memcmpEq hay cand needle needle.length).map fun eq => if eq then some (cand + 1) else none
  else some (some 0)

theorem cttz_first {block : List UInt8} {first : UInt8}
    (any : (block.map (· == first)).any id = true) :
    block[cttz (block.map (· == first))]? = some first ∧
      ∀ i, i < cttz (block.map (· == first)) → block[i]? ≠ some first := by
  have place : cttz (block.map (· == first)) = block.findIdx (· == first) := by
    rw [cttz, List.findIdx_map]
    rfl
  have inside : block.findIdx (· == first) < block.length := by
    rw [List.findIdx_lt_length]
    simpa using any
  rw [place]
  constructor
  · rw [List.getElem?_eq_getElem inside]
    have := List.findIdx_getElem (w := inside)
    simpa using this
  · intro i lt here
    have other := List.not_of_lt_findIdx lt
    rw [List.getElem?_eq_getElem (by omega)] at here
    simp [Option.some.inj here] at other

theorem sseScan_cases (hay : List UInt8) (first : UInt8) (pos : Nat) :
    (hay.length ≤ pos ∧ sseScan hay first pos = some .done) ∨
      (pos < hay.length ∧ ∃ p, sseScan hay first pos = some (.next p) ∧ pos < p ∧
        ∀ i, pos ≤ i → i < p → hay[i]? ≠ some first) ∨
      (pos < hay.length ∧ ∃ p, sseScan hay first pos = some (.verify p) ∧ pos ≤ p ∧
        hay[p]? = some first ∧ ∀ i, pos ≤ i → i < p → hay[i]? ≠ some first) := by
  by_cases wide : 16 ≤ hay.length - pos
  · have fits : pos + 16 ≤ hay.length := by omega
    have block : load16 hay pos = some ((hay.drop pos).take 16) := if_pos fits
    have lane : ∀ i, i < 16 → ((hay.drop pos).take 16)[i]? = hay[pos + i]? := by
      intro i lt
      rw [List.getElem?_take_of_lt lt, List.getElem?_drop]
    by_cases any : (((hay.drop pos).take 16).map (· == first)).any id = true
    · obtain ⟨here, before⟩ := cttz_first any
      obtain ⟨k, lowest⟩ : ∃ k, k = cttz (((hay.drop pos).take 16).map (· == first)) := ⟨_, rfl⟩
      rw [← lowest] at here before
      have near : k < 16 := by
        have := (List.getElem?_eq_some_iff.mp here).1
        rw [List.length_take] at this
        omega
      refine Or.inr (Or.inr ⟨by omega, pos + k, ?_, by omega, ?_, ?_⟩)
      · simp only [sseScan, wide, ↓reduceIte, block, Option.map_some, any, lowest]
      · rw [← lane k near]
        exact here
      · intro i le lt same
        refine before (i - pos) (by omega) ?_
        rw [lane _ (by omega), Nat.add_sub_cancel' le]
        exact same
    · refine Or.inr (Or.inl ⟨by omega, pos + 16, ?_, by omega, ?_⟩)
      · simp only [sseScan, wide, ↓reduceIte, block, Option.map_some, any]
        rfl
      · intro i le lt same
        refine any ?_
        have member : first ∈ (hay.drop pos).take 16 := by
          refine List.mem_of_getElem? (i := i - pos) ?_
          rw [lane _ (by omega), Nat.add_sub_cancel' le]
          exact same
        exact List.any_eq_true.mpr ⟨true, List.mem_map.mpr ⟨first, member, by simp⟩, rfl⟩
  · by_cases ended : hay.length - pos = 0
    · exact Or.inl ⟨by omega, by simp [sseScan, ended]⟩
    · have bound : pos < hay.length := by omega
      have byte : loadByte hay pos = some hay[pos] := List.getElem?_eq_getElem bound
      by_cases same : hay[pos] = first
      · exact Or.inr (Or.inr ⟨bound, pos, by simp [sseScan, wide, ended, byte, same], by omega,
          by rw [List.getElem?_eq_getElem bound, same], by omega⟩)
      · refine Or.inr (Or.inl ⟨bound, pos + 1,
          by simp [sseScan, wide, ended, byte, same], by omega, ?_⟩)
        intro i le lt
        have here : i = pos := by omega
        subst here
        rw [List.getElem?_eq_getElem bound]
        simpa using same

def sseLoop (hay needle : List UInt8) (first : UInt8) (pos : Nat) : Option Nat :=
  match _turn : sseScan hay first pos with
  | none => none
  | some .done => some 0
  | some (.next p) => sseLoop hay needle first p
  | some (.verify cand) =>
    match sseVerify hay needle cand with
    | none => none
    | some (some r) => some r
    | some none => sseLoop hay needle first (cand + 1)
termination_by hay.length - pos
decreasing_by
  all_goals
    rcases sseScan_cases hay first pos with ⟨_, h⟩ | ⟨_, q, h, _, _⟩ | ⟨_, q, h, _, _⟩ <;>
      (rw [h] at _turn; cases _turn <;> omega)

def emitIndexConstantSSE2 (hay needle : List UInt8) (first : UInt8) : Option Nat :=
  if needle.length = 0 then some 1
  else if hay.length < needle.length then some 0
  else sseLoop hay needle first 0

def neonLanes (str block : List UInt8) : List Bool :=
  (List.range 16).map fun i =>
    let needleElem : UInt8 := if i < str.length then str.getD i 0 else 0
    let maskElem : UInt8 := if i < str.length then 0xFF else 0
    decide ((block.getD i 0 ^^^ needleElem) &&& maskElem = 0)

def matchMask (needleLen : Nat) : List Bool := (List.range 16).map fun i => i < needleLen

def allMatch (str block : List UInt8) : Bool :=
  List.zipWith (· && ·) (neonLanes str block) (matchMask str.length) = matchMask str.length

def neonSearch (hay str : List UInt8) (start : Nat) : Option Nat :=
  match _found : memchr (hay.drop start) (str.getD 0 0) with
  | none => some 0
  | some k =>
    match load16 hay (start + k) with
    | none => none
    | some block =>
      if allMatch str block then some (start + k + 1) else neonSearch hay str (start + k + 1)
termination_by hay.length - start
decreasing_by
  have bound := (List.getElem?_eq_some_iff.mp (memchr_some _found).1).1
  rw [List.length_drop] at bound
  omega

/-- The NEON lowering; `str` is the needle's constant, whose size it takes for the
    needle's length. -/
def emitIndexConstantNEON (hay : List UInt8) (bLen : Nat) (str : List UInt8) : Option Nat :=
  if bLen = 0 then some 1 else neonSearch hay str 0

inductive Arch where
  | x86_64
  | aarch64
  | other
  deriving DecidableEq

def globalString (s : List UInt8) : List UInt8 := if s = [] then [32] else s

/-- A constant of nothing but zero bytes is no ConstantDataArray. -/
def extractConstantNeedle (literal : Bool) (needle : List UInt8) : Option (List UInt8) :=
  let str := globalString needle
  if literal && str.any (· != 0) then some str else none

def lowerIndex (arch : Arch) (literal : Bool) (hay needle : List UInt8) : Option Nat :=
  match extractConstantNeedle literal needle with
  | some str =>
    if 1 ≤ needle.length && needle.length ≤ 16 && arch = .x86_64 then
      emitIndexConstantSSE2 hay needle (str.getD 0 0)
    else if 2 ≤ str.length && str.length ≤ 17 && arch = .aarch64 then
      emitIndexConstantNEON hay needle.length str
    else emitIndexLLVM hay needle
  | none => emitIndexLLVM hay needle

theorem emitIndexLLVM_finds (hay needle : List UInt8) :
    emitIndexLLVM hay needle = some (firstPosition hay needle) := by
  unfold emitIndexLLVM
  cases needle with
  | nil => simp [firstPosition_nil]
  | cons c rest =>
    rw [if_neg (by simp)]
    split
    · rename_i longer
      rw [firstPosition_exhausted (by simp) (noneBefore_zero hay _) (by omega)]
    · have byte : loadByte (c :: rest) 0 = some c := rfl
      simp only [byte]
      cases found : memchr hay c with
      | none =>
        have absent := firstPosition_no_head (noneBefore_zero hay (c :: rest))
          fun i _ => memchr_none found i
        simp [memcmpEq, absent]
      | some k =>
        obtain ⟨-, other⟩ := memchr_some found
        have before : NoneBefore hay (c :: rest) k :=
          noneBefore_skip (noneBefore_zero hay _) fun i _ lt => other i lt
        by_cases short : hay.length < k + (c :: rest).length
        · rw [firstPosition_exhausted (by simp) before short]
          simp only [Option.getD_some, Option.isNone_some, Bool.false_or, short, decide_true,
            ↓reduceIte]
          simp [memcmpEq]
        · simp only [Option.getD_some, Option.isNone_some, Bool.false_or, short, decide_false,
            Bool.false_eq_true, ↓reduceIte]
          rw [memcmpEq_occurs (by omega)]
          cases here : occursAt hay (c :: rest) k with
          | true => simp [firstPosition_found before here]
          | false => simp [pliIndex_finds]

variable {hay rest : List UInt8} {c : UInt8}

theorem sseLoop_finds {pos : Nat} (before : NoneBefore hay (c :: rest) pos) :
    sseLoop hay (c :: rest) c pos = some (firstPosition hay (c :: rest)) := by
  induction left : hay.length - pos using Nat.strongRecOn generalizing pos with
  | ind n ih =>
    rw [sseLoop]
    rcases sseScan_cases hay c pos with ⟨ended, turn⟩ | ⟨_, p, turn, lt, other⟩ |
      ⟨_, p, turn, le, here, other⟩
    · rw [firstPosition_exhausted (by simp) before (by simp; omega)]
      split <;> simp_all
    · have step := ih (hay.length - p) (by omega) (noneBefore_skip before other) rfl
      split <;> simp_all
    · have reached := noneBefore_skip before other
      have inside := (List.getElem?_eq_some_iff.mp here).1
      have verified : (match sseVerify hay (c :: rest) p with
          | none => none
          | some (some r) => some r
          | some none => sseLoop hay (c :: rest) c (p + 1)) =
            some (firstPosition hay (c :: rest)) := by
        unfold sseVerify
        by_cases fits : p + (c :: rest).length ≤ hay.length
        · rw [if_pos fits, memcmpEq_occurs fits]
          cases found : occursAt hay (c :: rest) p with
          | true => simp [firstPosition_found reached found]
          | false =>
            have step := ih (hay.length - (p + 1)) (by omega) (noneBefore_next reached found) rfl
            simpa using step
        · rw [if_neg fits, firstPosition_exhausted (by simp) reached (by omega)]
      split <;> simp_all

theorem emitIndexConstantSSE2_finds (hay rest : List UInt8) (c : UInt8) :
    emitIndexConstantSSE2 hay (c :: rest) c = some (firstPosition hay (c :: rest)) := by
  unfold emitIndexConstantSSE2
  rw [if_neg (by simp)]
  split
  · rename_i longer
    rw [firstPosition_exhausted (by simp) (noneBefore_zero hay _) (by omega)]
  · exact sseLoop_finds (noneBefore_zero hay _)

theorem neon_lane (x c : UInt8) : (x ^^^ c) &&& 0xFF = 0 ↔ x = c := by
  have all : (0xFF : UInt8) = -1 := rfl
  rw [all, UInt8.and_neg_one, UInt8.xor_eq_zero_iff]

theorem allMatch_occurs {str : List UInt8} {pos : Nat} (fits : pos + 16 ≤ hay.length) :
    allMatch str ((hay.drop pos).take 16) = occursAt hay (str.take 16) pos := by
  rw [Bool.eq_iff_iff, occursAt_iff]
  simp only [allMatch, neonLanes, matchMask, List.zipWith_map, List.zipWith_self, decide_eq_true_eq,
    List.map_inj_left, List.mem_range]
  have lane : ∀ i, i < 16 → i < str.length →
      (((((hay.drop pos).take 16).getD i 0 ^^^ (if i < str.length then str.getD i 0 else 0)) &&&
        (if i < str.length then 0xFF else 0) = 0) ↔ hay[pos + i]? = (str.take 16)[i]?) := by
    intro i lt inside
    rw [if_pos inside, if_pos inside, neon_lane, List.getElem?_take_of_lt lt,
      List.getElem?_eq_getElem inside, List.getElem?_eq_getElem
        (show pos + i < hay.length by omega)]
    simp [List.getD_eq_getElem?_getD, List.getElem?_take_of_lt lt, inside,
      List.getElem?_eq_getElem (show pos + i < hay.length by omega)]
  constructor
  · intro lanes j lt
    rw [List.length_take] at lt
    have := lanes j (by omega)
    have inside : j < str.length := by omega
    rw [← lane j (by omega) inside]
    simpa [inside] using this
  · intro bytes i lt
    by_cases inside : i < str.length
    · have := (lane i lt inside).mpr (bytes i (by rw [List.length_take]; omega))
      simpa [inside] using this
    · simp [inside]

/-- A place where the NEON scan looks: it holds the needle's first byte and the needle's
    first sixteen bytes occur at no earlier place. -/
def Candidate (hay str : List UInt8) (p : Nat) : Prop :=
  hay[p]? = str[0]? ∧ NoneBefore hay (str.take 16) p

variable {start : Nat}

section
variable (before : NoneBefore hay ((c :: rest).take 16) start)
include before

theorem neonSearch_cases :
    ((∀ i, start ≤ i → hay[i]? ≠ some c) ∧ neonSearch hay (c :: rest) start = some 0) ∨
      ∃ p, start ≤ p ∧ (∀ i, start ≤ i → i < p → hay[i]? ≠ some c) ∧ Candidate hay (c :: rest) p ∧
        neonSearch hay (c :: rest) start =
          if p + 16 ≤ hay.length then
            if occursAt hay ((c :: rest).take 16) p then some (p + 1)
            else neonSearch hay (c :: rest) (p + 1)
          else none := by
  cases found : memchr (hay.drop start) c with
  | none =>
    refine Or.inl ⟨fun i le same => ?_, ?_⟩
    · refine memchr_none found (i - start) ?_
      rw [List.getElem?_drop, Nat.add_sub_cancel' le]
      exact same
    · rw [neonSearch]
      split <;> simp_all
  | some k =>
    obtain ⟨here, other⟩ := memchr_some found
    rw [List.getElem?_drop] at here
    have skipped : ∀ i, start ≤ i → i < start + k → hay[i]? ≠ some c := by
      intro i le lt same
      refine other (i - start) (by omega) ?_
      rw [List.getElem?_drop, Nat.add_sub_cancel' le]
      exact same
    refine Or.inr ⟨start + k, by omega, skipped, ⟨here, noneBefore_skip before skipped⟩, ?_⟩
    rw [neonSearch]
    split
    · simp_all
    · rename_i j found'
      have same : j = k := by simpa [found] using found'.symm
      subst same
      by_cases fits : start + j + 16 ≤ hay.length
      · simp only [load16, fits, ↓reduceIte, allMatch_occurs fits]
      · simp only [load16, fits, ↓reduceIte]

theorem neonSearch_finds (inside : ∀ p, Candidate hay (c :: rest) p → p + 16 ≤ hay.length) :
    neonSearch hay (c :: rest) start = some (firstPosition hay ((c :: rest).take 16)) := by
  induction left : hay.length - start using Nat.strongRecOn generalizing start with
  | ind n ih =>
    rcases neonSearch_cases before with ⟨other, run⟩ | ⟨p, le, other, candidate, run⟩
    · rw [run, List.take_succ_cons, firstPosition_no_head before other]
    · rw [run, if_pos (inside p candidate)]
      have fits := inside p candidate
      cases found : occursAt hay ((c :: rest).take 16) p with
      | true => rw [if_pos rfl, firstPosition_found candidate.2 found]
      | false =>
        simp only [Bool.false_eq_true, ↓reduceIte]
        exact ih (hay.length - (p + 1)) (by omega) (noneBefore_next candidate.2 found) rfl

theorem neonSearch_outside {p : Nat} (le : start ≤ p)
    (candidate : Candidate hay (c :: rest) p) (outside : hay.length < p + 16) :
    neonSearch hay (c :: rest) start = none := by
  induction left : hay.length - start using Nat.strongRecOn generalizing start with
  | ind n ih =>
    have last := (List.getElem?_eq_some_iff.mp candidate.1).1
    rcases neonSearch_cases before with ⟨other, _⟩ | ⟨q, from_start, other, reached, run⟩
    · exact absurd candidate.1 (other p le)
    · have upto : q ≤ p := by
        by_contra later
        exact other p le (by omega) candidate.1
      rw [run]
      by_cases fits : q + 16 ≤ hay.length
      · have miss : occursAt hay ((c :: rest).take 16) q = false := candidate.2 q (by omega)
        rw [if_pos fits, miss]
        exact ih (hay.length - (q + 1)) (by omega) (noneBefore_next reached.2 miss) (by omega) rfl
      · rw [if_neg fits]

end

/-- The haystacks on which the NEON scan stays inside and its sixteen lanes decide: every
    candidate has sixteen bytes from it on, and where the needle's first sixteen bytes
    first occur the whole needle does. -/
structure NeonInside (hay needle : List UInt8) : Prop where
  loads : ∀ p, Candidate hay needle p → p + 16 ≤ hay.length
  decides : ∀ p, NoneBefore hay (needle.take 16) p → occursAt hay (needle.take 16) p = true →
    occursAt hay needle p = true

theorem firstPosition_taken {needle : List UInt8} :
    firstPosition hay (needle.take 16) = firstPosition hay needle ↔
      ∀ p, NoneBefore hay (needle.take 16) p → occursAt hay (needle.take 16) p = true →
        occursAt hay needle p = true := by
  constructor
  · intro same p before here
    rw [firstPosition_found before here] at same
    rcases firstPosition_cases hay needle with ⟨q, _, there, first⟩ | ⟨_, absent⟩
    · have place : p = q := by omega
      rw [place]
      exact there
    · omega
  · intro decides
    rcases firstPosition_cases hay (needle.take 16) with ⟨p, before, here, first⟩ | ⟨absent, zero⟩
    · have earlier : NoneBefore hay needle p := by
        intro i lt
        cases found : occursAt hay needle i with
        | false => rfl
        | true =>
          rw [← before i lt]
          exact (occursAt_taken 16 found).symm
      rw [first, firstPosition_found earlier (decides p before here)]
    · rcases firstPosition_cases hay needle with ⟨q, _, there, _⟩ | ⟨_, none_either⟩
      · have := occursAt_taken 16 there
        rw [absent q] at this
        cases this
      · rw [zero, none_either]

theorem neonSearch_iff : neonSearch hay (c :: rest) 0 = some (firstPosition hay (c :: rest)) ↔
      NeonInside hay (c :: rest) := by
  have start := noneBefore_zero hay ((c :: rest).take 16)
  constructor
  · intro agrees
    have loads : ∀ p, Candidate hay (c :: rest) p → p + 16 ≤ hay.length := by
      intro p candidate
      by_contra outside
      rw [neonSearch_outside start (Nat.zero_le p) candidate (by omega)] at agrees
      cases agrees
    rw [neonSearch_finds start loads] at agrees
    exact ⟨loads, firstPosition_taken.mp (Option.some.inj agrees)⟩
  · intro inside
    rw [neonSearch_finds start inside.loads, firstPosition_taken.mpr inside.decides]

/-- INDEX is lowered to the runtime's function of the two strings, except that the NEON
    code, taken for constants of 2 to 17 bytes, needs every candidate to have sixteen
    bytes behind it and cannot tell needles apart after their sixteenth byte. -/
theorem index_lowering_agrees_iff (arch : Arch) (literal : Bool) (hay needle : List UInt8) :
    pliIndex hay needle = some (firstPosition hay needle) ∧
      (lowerIndex arch literal hay needle = pliIndex hay needle ↔
        (literal = true → arch = .aarch64 → 2 ≤ needle.length → needle.length ≤ 17 →
          (∃ c ∈ needle, c ≠ 0) → NeonInside hay needle)) := by
  refine ⟨pliIndex_finds hay needle, ?_⟩
  rw [pliIndex_finds]
  cases needle with
  | nil =>
    cases literal <;> simp [lowerIndex, extractConstantNeedle, globalString, emitIndexLLVM_finds]
  | cons c rest =>
    have stored : globalString (c :: rest) = c :: rest := by simp [globalString]
    by_cases constant : literal = true ∧ ∃ c' ∈ c :: rest, c' ≠ 0
    · obtain ⟨constant, plain⟩ := constant
      have found : extractConstantNeedle literal (c :: rest) = some (c :: rest) := by
        rw [extractConstantNeedle, stored]
        exact if_pos (by simpa [constant] using plain)
      by_cases neon : arch = .aarch64 ∧ 2 ≤ (c :: rest).length ∧ (c :: rest).length ≤ 17
      · obtain ⟨target, at_least, at_most⟩ := neon
        have chosen : lowerIndex arch literal hay (c :: rest) = neonSearch hay (c :: rest) 0 := by
          simp only [lowerIndex, found, target, at_least, at_most, emitIndexConstantNEON]
          simp
        rw [chosen, neonSearch_iff]
        exact ⟨fun inside _ _ _ _ _ => inside, fun h => h constant target at_least at_most plain⟩
      · have safe : lowerIndex arch literal hay (c :: rest) =
            some (firstPosition hay (c :: rest)) := by
          simp only [lowerIndex, found]
          split
          · exact emitIndexConstantSSE2_finds hay rest c
          · split
            · rename_i taken
              simp only [Bool.and_eq_true, decide_eq_true_eq] at taken
              exact absurd ⟨taken.2, taken.1.1, taken.1.2⟩ neon
            · exact emitIndexLLVM_finds hay (c :: rest)
        rw [safe]
        exact ⟨fun _ _ target at_least at_most _ => absurd ⟨target, at_least, at_most⟩ neon,
          fun _ => rfl⟩
    · have missed : extractConstantNeedle literal (c :: rest) = none := by
        rw [extractConstantNeedle, stored]
        refine if_neg fun taken => constant ?_
        simpa using taken
      have safe : lowerIndex arch literal hay (c :: rest) =
          some (firstPosition hay (c :: rest)) := by
        simp only [lowerIndex, missed]
        exact emitIndexLLVM_finds hay (c :: rest)
      rw [safe]
      exact ⟨fun _ literal _ _ _ plain => absurd ⟨literal, plain⟩ constant, fun _ => rfl⟩

/-- "ab" in "ab": the vector load runs past the two bytes. -/
theorem neon_reads_past_two_bytes :
    pliIndex [97, 98] [97, 98] = some 1 ∧ lowerIndex .aarch64 true [97, 98] [97, 98] = none := by
  refine ⟨by rw [pliIndex_finds]; decide, ?_⟩
  have chosen : lowerIndex .aarch64 true [97, 98] [97, 98] = neonSearch [97, 98] [97, 98] 0 := rfl
  rw [chosen]
  exact neonSearch_outside (noneBefore_zero _ _) (Nat.zero_le 0)
    ⟨rfl, noneBefore_zero _ _⟩ (by decide)

end PliIndexLowering
