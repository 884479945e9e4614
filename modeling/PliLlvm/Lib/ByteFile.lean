import Mathlib.Data.List.Basic
import Mathlib.Algebra.Order.Ring.Int

/- A seekable byte stream: its bytes and one position, as C's stdio presents a
   regular file opened for reading and writing. Every transfer succeeds; a read
   is short only at the end of the bytes. -/
namespace ByteFiles

structure CFile where
  bytes : List UInt8
  pos : Nat
  deriving DecidableEq

/-- Bytes written at `pos` replace what stands there; a gap fills with zeros. -/
def splice (bytes : List UInt8) (pos : Nat) (data : List UInt8) : List UInt8 :=
  bytes.take pos ++ List.replicate (pos - bytes.length) 0 ++ data ++ bytes.drop (pos + data.length)

def CFile.seekSet (f : CFile) (off : Nat) : CFile := { f with pos := off }
def CFile.seekEnd (f : CFile) : CFile := { f with pos := f.bytes.length }
def CFile.tell (f : CFile) : Nat := f.pos

def CFile.write (f : CFile) (data : List UInt8) : CFile :=
  ⟨splice f.bytes f.pos data, f.pos + data.length⟩

def CFile.read (f : CFile) (n : Nat) : List UInt8 × CFile :=
  let got := (f.bytes.drop f.pos).take n
  (got, { f with pos := f.pos + got.length })

def CFile.truncate (f : CFile) (size : Nat) : CFile :=
  { f with bytes := f.bytes.take size ++ List.replicate (size - f.bytes.length) 0 }

theorem splice_inside {bytes data : List UInt8} {pos : Nat} (inside : pos ≤ bytes.length) :
    splice bytes pos data = bytes.take pos ++ data ++ bytes.drop (pos + data.length) := by
  simp [splice, Nat.sub_eq_zero_of_le inside]

theorem splice_end (bytes data : List UInt8) : splice bytes bytes.length data = bytes ++ data := by
  rw [splice_inside (Nat.le_refl _)]
  simp

theorem splice_length {bytes data : List UInt8} {pos : Nat}
    (inside : pos + data.length ≤ bytes.length) :
    (splice bytes pos data).length = bytes.length := by
  rw [splice_inside (by omega)]
  simp
  omega

theorem splice_take {bytes data : List UInt8} {pos : Nat} (inside : pos ≤ bytes.length) :
    (splice bytes pos data).take (pos + data.length) = bytes.take pos ++ data := by
  rw [splice_inside inside]
  exact List.take_left' (by simp [inside])

theorem splice_drop {bytes data : List UInt8} {pos at' : Nat} (inside : pos ≤ bytes.length)
    (past : pos + data.length ≤ at') : (splice bytes pos data).drop at' = bytes.drop at' := by
  have headLength : (bytes.take pos ++ data).length = pos + data.length := by simp [inside]
  rw [splice_inside inside, List.drop_append, headLength, List.drop_eq_nil_of_le (by omega),
    List.nil_append, List.drop_drop]
  congr 1
  omega

/-- Replacing a middle part by data of the same length. -/
theorem splice_middle (before old after data : List UInt8) (same : data.length = old.length) :
    splice (before ++ old ++ after) before.length data = before ++ data ++ after := by
  have inside : before.length ≤ (before ++ old ++ after).length := by simp
  have tail : (before ++ old ++ after).drop (before.length + data.length) = after := by
    rw [same, ← List.length_append]
    exact List.drop_left
  rw [splice_inside inside, tail, List.append_assoc before old after, List.take_left]

theorem read_middle (before part after : List UInt8) :
    ((before ++ part ++ after).drop before.length).take part.length = part := by
  rw [List.append_assoc, List.drop_left, List.take_left]

/-- Move the bytes from `src` up to `stop` down to `dst`, at most `chunk` of them at
    a time: the loop of a record deletion. Its second result is where the moved
    bytes end, none after a short transfer. -/
def moveDown (chunk stop : Nat) : Nat → CFile → Nat → Nat → CFile × Option Nat
  | 0, f, src, dst => if src < stop then (f, none) else (f, some dst)
  | fuel + 1, f, src, dst =>
    if src < stop then
      let n := if chunk < stop - src then chunk else stop - src
      let (got, f) := (f.seekSet src).read n
      if got.length = n then
        let f := (f.seekSet dst).write got
        moveDown chunk stop fuel f (src + n) (dst + n)
      else (f, none)
    else (f, some dst)

/-- Enough fuel and a positive chunk: the loop ends, and up to the place it ends at
    the file reads as if the gap between `dst` and `src` had been cut out. -/
theorem moveDown_moves {chunk fuel : Nat} {f : CFile} {src dst : Nat} (positive : 0 < chunk)
    (down : dst ≤ src) (inside : src ≤ f.bytes.length) (enough : f.bytes.length - src ≤ fuel) :
    ∃ g, moveDown chunk f.bytes.length fuel f src dst =
        (g, some (dst + (f.bytes.length - src))) ∧ g.bytes.length = f.bytes.length ∧
      g.bytes.take (dst + (f.bytes.length - src)) = f.bytes.take dst ++ f.bytes.drop src := by
  generalize hstop : f.bytes.length = stop at *
  induction fuel generalizing f src dst with
  | zero =>
    have done : src = stop := by omega
    subst done
    refine ⟨f, by simp [moveDown], hstop, ?_⟩
    simp [← hstop]
  | succ fuel ih =>
    by_cases more : src < stop
    · obtain ⟨n, hn⟩ : ∃ n, n = if chunk < stop - src then chunk else stop - src := ⟨_, rfl⟩
      have small : 0 < n ∧ n ≤ stop - src := by
        rw [hn]
        split <;> omega
      have full : ((f.bytes.drop src).take n).length = n := by
        simp [hstop]
        omega
      have written : (splice f.bytes dst ((f.bytes.drop src).take n)).length = stop := by
        rw [splice_length (by omega), hstop]
      obtain ⟨g, hrun, hlen, htake⟩ :=
        @ih ⟨splice f.bytes dst ((f.bytes.drop src).take n), dst + n⟩ (src + n) (dst + n)
          (by omega) written (by omega) (by omega)
      refine ⟨g, ?_, hlen, ?_⟩
      · rw [moveDown, if_pos more, ← hn]
        simp only [CFile.read, CFile.seekSet, full, ↓reduceIte, CFile.write]
        rw [hrun]
        congr 2
        omega
      · have same : dst + n + (stop - (src + n)) = dst + (stop - src) := by omega
        rw [same] at htake
        rw [htake]
        have head : (splice f.bytes dst ((f.bytes.drop src).take n)).take (dst + n) =
            f.bytes.take dst ++ (f.bytes.drop src).take n := by
          conv => lhs; arg 1; rw [← full]
          exact splice_take (by omega)
        rw [head, splice_drop (by omega) (by omega), List.append_assoc]
        congr 1
        rw [← List.drop_drop, List.take_append_drop]
    · have done : src = stop := by omega
      subst done
      refine ⟨f, by simp [moveDown], hstop, ?_⟩
      simp [← hstop]

/-- The `k` lowest bytes of a number, the lowest first. -/
def leBytes : Nat → Nat → List UInt8
  | 0, _ => []
  | k + 1, n => UInt8.ofNat (n % 256) :: leBytes k (n / 256)

def leValue : List UInt8 → Nat
  | [] => 0
  | b :: bs => b.toNat + 256 * leValue bs

theorem leBytes_length (k n : Nat) : (leBytes k n).length = k := by
  induction k generalizing n with
  | zero => rfl
  | succ k ih => simp [leBytes, ih]

theorem leValue_leBytes {k n : Nat} (fits : n < 256 ^ k) : leValue (leBytes k n) = n := by
  induction k generalizing n with
  | zero =>
    rw [Nat.pow_zero] at fits
    simp only [leBytes, leValue]
    omega
  | succ k ih =>
    rw [Nat.pow_succ] at fits
    have high := @ih (n / 256) (by omega)
    have low : (UInt8.ofNat (n % 256)).toNat = n % 256 := by
      rw [UInt8.toNat_ofNat']
      omega
    rw [leBytes, leValue, high, low]
    omega

/-- A signed 64-bit word read from the front of what is left of a stream. -/
def readI64 (bytes : List UInt8) : Option (Int × List UInt8) :=
  if bytes.length < 8 then none
  else
    let u := leValue (bytes.take 8)
    some (if u < 2 ^ 63 then u else u - 2 ^ 64, bytes.drop 8)

theorem readI64_written {n : Nat} (fits : n < 2 ^ 63) (rest : List UInt8) :
    readI64 (leBytes 8 n ++ rest) = some ((n : Int), rest) := by
  have length := leBytes_length 8 n
  have value := leValue_leBytes (by omega : n < 256 ^ 8)
  rw [readI64, if_neg (by simp [length]), List.take_left' length, List.drop_left' length, value]
  simp only [if_pos fits]

end ByteFiles
