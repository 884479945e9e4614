import PliLlvm.Compiler.FixedConvert

/- The assignment of a FIXED value to a FIXED variable (src/irgen.cpp, storeTo) with SIZE
   enabled or disabled, and with an ON-unit for SIZE that comes back or without one. -/
namespace PliStoreFixed
open FixedPoint PliConstFold PliFixedConvert

/-- `convert` where SIZE is disabled: no check is emitted, so the words stand. -/
def convertNoSize (src dst : Ty) (raw : Int) : Option Int :=
  if throughFloat src dst then none
  else match src.k, dst.k with
    | .fixedBin, .fixedBin =>
      let dq := dst.scale - src.scale
      if dq = 0 then some (fitFixed dst raw)
      else if 0 < dq then some (fitFixed dst (word 128 (raw * oneShl dq)))
      else some (fitFixed dst (word 128 (raw.tdiv (oneShl (-dq)))))
    | .fixedDec, .fixedBin =>
      some (fitFixed dst (if src.intBits =
        128 then decToBinWide src dst raw else decToBinNarrow src dst raw))
    | .fixedBin, .fixedDec => some (binToDec src dst raw).raw
    | .fixedDec, .fixedDec => some (decToDec src dst raw).raw
    | _, _ => none

def storeFixed (sizeChecks resumes : Bool) (src dst : Ty) (raw : Int) : Option Int :=
  if sizeChecks then
    (convert src dst raw).bind fun c => if c.size && !resumes then none else some c.raw
  else convertNoSize src dst raw

variable {ty : Ty}

theorem inRange_binary (binary : ty.k = .fixedBin) (v : Int) :
    InRange ty v ↔ Fits (ty.prec.toNat + 1) v := by
  rw [InRange, if_pos binary]
  rfl

variable {dst : Ty}

theorem required_scale_zero (whole : dst.scale = 0) (v : Int) : required dst v = v :=
  required_whole (by rw [whole, zpow_zero, mul_one])

variable {src : Ty} {raw v : Int}

theorem whole_exact (from_declared : Declared src)
    (declared : Declared dst) (whole : dst.scale = 0) (stored : Stored src raw)
    (holds : WordsHold src dst raw) (denotes : value src raw = v) (kept : Stored dst v) :
    Exact src dst raw := by
  have due : required dst (value src raw) = v := by rw [denotes, required_scale_zero whole]
  refine (convert_exact_iff from_declared declared stored holds).mpr ⟨fun _ => due ▸ kept.2, ?_⟩
  unfold BranchRight
  split
  · trivial
  · exact fun negative => absurd negative (by omega)
  · exact fun negative => absurd negative (by omega)
  · exact fun _ => Or.inl (due ▸ kept.1)

theorem exact_arrives (converts : Exact src dst raw)
    (whole : dst.scale = 0) (denotes : value src raw = v) (inside : InRange dst v) :
    convert src dst raw = some ⟨v, false⟩ := by
  obtain ⟨c, done, size, kept⟩ := converts
  rw [denotes, required_scale_zero whole] at size kept
  rw [done, ← kept inside]
  have quiet : c.size = false := by
    rw [← Bool.not_eq_true]
    exact fun raised => size.1 raised inside
  rw [← quiet]

theorem checkBin_quiet {bits : Nat} {r : Int} (quiet : (checkBin bits dst r).size = false) :
    (checkBin bits dst r).raw = fitFixed dst r := by
  unfold checkBin fixedBinPrecTrap at *
  split
  · rfl
  · rename_i narrow
    rw [if_neg narrow] at quiet
    dsimp only at quiet ⊢
    split
    · rename_i outside
      rw [if_pos outside] at quiet
      cases quiet
    · rfl

theorem convert_kinds (direct : ¬ throughFloat src dst = true) {c : Converted}
    (done : convert src dst raw = some c) :
    (src.k = .fixedBin ∧ dst.k = .fixedBin ∧ c = binToBin src dst raw) ∨
      (src.k = .fixedDec ∧ dst.k = .fixedBin ∧ c = decToBin src dst raw) ∨
      (src.k = .fixedBin ∧ dst.k = .fixedDec ∧ c = binToDec src dst raw) ∨
      (src.k = .fixedDec ∧ dst.k = .fixedDec ∧ c = decToDec src dst raw) := by
  unfold convert at done
  rw [if_neg direct] at done
  split at done
  · rename_i source target
    exact Or.inl ⟨source, target, (Option.some.inj done).symm⟩
  · rename_i source target
    exact Or.inr (Or.inl ⟨source, target, (Option.some.inj done).symm⟩)
  · rename_i source target
    exact Or.inr (Or.inr (Or.inl ⟨source, target, (Option.some.inj done).symm⟩))
  · rename_i source target
    exact Or.inr (Or.inr (Or.inr ⟨source, target, (Option.some.inj done).symm⟩))
  · cases done

theorem convertNoSize_quiet (done : convert src dst raw = some ⟨v, false⟩) :
    convertNoSize src dst raw = some v := by
  by_cases float : throughFloat src dst = true
  · rw [convert, if_pos float] at done
    cases done
  have parts : ∀ c : Converted, ⟨v, false⟩ = c → c.raw = v ∧ c.size = false := by
    rintro c rfl
    exact ⟨rfl, rfl⟩
  unfold convertNoSize
  rw [if_neg float]
  rcases convert_kinds float done with ⟨source, target, same⟩ | ⟨source, target, same⟩ |
    ⟨source, target, same⟩ | ⟨source, target, same⟩
  · obtain ⟨raw_eq, quiet⟩ := parts _ same
    simp only [source, target]
    unfold binToBin at raw_eq quiet
    dsimp only at raw_eq quiet
    split at quiet
    · rename_i level
      rw [if_pos level] at raw_eq ⊢
      rw [← checkBin_quiet quiet, raw_eq]
    · rename_i scaled
      rw [if_neg scaled] at raw_eq ⊢
      split at quiet
      · rename_i up
        rw [if_pos up] at raw_eq ⊢
        rw [← checkBin_quiet quiet, raw_eq]
      · rename_i down
        rw [if_neg down] at raw_eq ⊢
        rw [← checkBin_quiet quiet, raw_eq]
  · obtain ⟨raw_eq, quiet⟩ := parts _ same
    simp only [source, target]
    unfold decToBin at raw_eq quiet
    split at quiet
    · rename_i wide
      rw [if_pos wide] at raw_eq ⊢
      rw [← checkBin_quiet quiet, raw_eq]
    · rename_i narrow
      rw [if_neg narrow] at raw_eq ⊢
      rw [← checkBin_quiet quiet, raw_eq]
  · simp only [source, target]
    exact congrArg some (parts _ same).1
  · simp only [source, target]
    exact congrArg some (parts _ same).1

theorem storeFixed_quiet (done : convert src dst raw = some ⟨v, false⟩)
    (sizeChecks resumes : Bool) : storeFixed sizeChecks resumes src dst raw = some v := by
  unfold storeFixed
  split
  · rw [done]
    rfl
  · exact convertNoSize_quiet done

theorem convert_self_decimal (decimal : ty.k = .fixedDec) (raw : Int) :
    convert ty ty raw = some ⟨word ty.intBits raw, false⟩ := by
  have unneeded : needDec ty ty = false := by
    simp [needDec, decimal]
  simp [convert, throughFloat, decimal, decToDec, checkDec, unneeded, fitFixed]

theorem convert_self_binary (binary : ty.k = .fixedBin) (raw : Int) :
    convert ty ty raw = some (checkBin ty.intBits ty raw) := by
  simp [convert, throughFloat, binary, binToBin]

theorem convert_stored (fixed : ty.k = .fixedBin ∨ ty.k = .fixedDec)
    (fits : Fits ty.intBits v) (inside : ty.k = .fixedBin → InRange ty v) :
    convert ty ty v = some ⟨v, false⟩ := by
  have slot : word ty.intBits v = v := word_of_fits (intBits_pos ty) fits
  rcases fixed with binary | decimal
  · have range := inside binary
    rw [convert_self_binary binary]
    rw [InRange, if_pos binary] at range
    unfold checkBin fixedBinPrecTrap
    split
    · simp [fitFixed, slot]
    · dsimp only
      rw [if_neg (by omega)]
      simp [fitFixed, slot]
  · rw [convert_self_decimal decimal, slot]

end PliStoreFixed
