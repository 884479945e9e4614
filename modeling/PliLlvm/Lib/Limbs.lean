import Mathlib.Data.Nat.Digits.Lemmas

/- Natural numbers kept as limbs, the least significant first and valued by Nat.ofDigits:
   the schoolbook product that drops what runs past its last limb, and restoring
   division, which takes the dividend one bit at a time. -/
namespace Limbs

/-- Add `x * ys` into the limbs `rs`. Each product is split at the base, its low half goes
    into the limb with the carry, and its high half joins the next carry. -/
def productRow (base x : Nat) : List Nat → List Nat → Nat → List Nat
  | y :: ys, r :: rs, carry =>
    let t := r + x * y % base + carry
    t % base :: productRow base x ys rs (t / base + x * y / base)
  | _, rs, _ => rs

/-- Row by row: a row leaves its lowest limb final and the later rows add above it. -/
def productRows (base : Nat) : List Nat → List Nat → List Nat → List Nat
  | x :: xs, ys, rs =>
    match productRow base x ys rs 0 with
    | r :: rest => r :: productRows base xs ys rest
    | [] => []
  | [], _, rs => rs

theorem productRow_length (base x : Nat) (ys rs : List Nat) (carry : Nat) :
    (productRow base x ys rs carry).length = rs.length := by
  induction rs generalizing ys carry with
  | nil => cases ys <;> simp [productRow]
  | cons r rs ih => cases ys <;> simp [productRow, ih]

theorem column (base r p carry high : Nat) :
    (r + p % base + carry) % base +
        base * (high + ((r + p % base + carry) / base + p / base)) =
      r + p + carry + base * high := by
  have low := Nat.mod_add_div (r + p % base + carry) base
  have product := Nat.mod_add_div p base
  calc _ = (r + p % base + carry) % base + base * ((r + p % base + carry) / base) +
        base * (p / base) + base * high := by ring
    _ = r + (p % base + base * (p / base)) + carry + base * high := by rw [low]; ring
    _ = _ := by rw [product]

theorem productRow_value (base x : Nat) {ys rs : List Nat} (enough : rs.length ≤ ys.length)
    (carry : Nat) :
    Nat.ofDigits base (productRow base x ys rs carry) ≡
      Nat.ofDigits base rs + x * Nat.ofDigits base ys + carry [MOD base ^ rs.length] := by
  induction rs generalizing ys carry with
  | nil => exact Nat.modEq_one
  | cons r rs ih =>
    cases ys with
    | nil => simp at enough
    | cons y ys =>
      have later := ih (by simpa using enough) ((r + x * y % base + carry) / base + x * y / base)
      have lifted := (later.mul_left' base).add_left ((r + x * y % base + carry) % base)
      rw [← Nat.pow_succ'] at lifted
      simp only [productRow, Nat.ofDigits_cons, List.length_cons]
      refine lifted.trans ?_
      rw [column]
      have same : r + x * y + carry + base * (Nat.ofDigits base rs + x * Nat.ofDigits base ys) =
          r + base * Nat.ofDigits base rs + x * (y + base * Nat.ofDigits base ys) + carry := by ring
      rw [same]

/-- The product of the limbs is added in, modulo the room there is. -/
theorem productRows_value (base : Nat) {xs ys rs : List Nat} (enough : rs.length ≤ ys.length) :
    Nat.ofDigits base (productRows base xs ys rs) ≡
      Nat.ofDigits base rs + Nat.ofDigits base xs * Nat.ofDigits base ys
        [MOD base ^ rs.length] := by
  induction xs generalizing rs with
  | nil => simp [productRows, Nat.ModEq.refl]
  | cons x xs ih =>
    have row := productRow_value base x enough 0
    have length := productRow_length base x ys rs 0
    simp only [productRows]
    cases result : productRow base x ys rs 0 with
    | nil =>
      rw [result, List.length_nil] at length
      rw [← length]
      exact Nat.modEq_one
    | cons r rest =>
      rw [result] at row length
      have later := @ih rest (by simp at length; omega)
      have lifted := (later.mul_left' base).add_left r
      have room : base * base ^ rest.length = base ^ rs.length := by
        rw [← length, List.length_cons, Nat.pow_succ']
      rw [room] at lifted
      simp only [Nat.ofDigits_cons] at row ⊢
      refine lifted.trans ?_
      have moved := row.add_right (base * (Nat.ofDigits base xs * Nat.ofDigits base ys))
      calc r + base * (Nat.ofDigits base rest + Nat.ofDigits base xs * Nat.ofDigits base ys)
          = r + base * Nat.ofDigits base rest +
            base * (Nat.ofDigits base xs * Nat.ofDigits base ys) := by ring
        _ ≡ _ [MOD base ^ rs.length] := moved
        _ = _ := by ring

/-- Restoring division over the bits of `n` below `i`, from a quotient and a remainder. -/
def divide (n d : Nat) : Nat → Nat → Nat → Nat × Nat
  | 0, q, r => (q, r)
  | i + 1, q, r =>
    let t := 2 * r + n / 2 ^ i % 2
    if d ≤ t then divide n d i (q + 2 ^ i) (t - d) else divide n d i q t

theorem next_bit (n i : Nat) : n / 2 ^ i = 2 * (n / 2 ^ (i + 1)) + n / 2 ^ i % 2 := by
  rw [Nat.pow_succ, ← Nat.div_div_eq_div_mul]
  omega

/-- What is left of the dividend's front, `k * d` apart, is the remainder; `k` shifted past
    the bits to come is the quotient so far. -/
theorem divide_exact {n d i k r : Nat} (below : r < d) (front : n / 2 ^ i = k * d + r) :
    divide n d i (k * 2 ^ i) r = (n / d, n % d) := by
  induction i generalizing k r with
  | zero =>
    simp only [divide, pow_zero, Nat.mul_one]
    have whole : n = k * d + r := by simpa using front
    have pos : 0 < d := by omega
    rw [Prod.mk.injEq]
    constructor
    · rw [whole, Nat.mul_comm, Nat.mul_add_div pos, Nat.div_eq_of_lt below, Nat.add_zero]
    · rw [whole, Nat.mul_comm, Nat.mul_add_mod, Nat.mod_eq_of_lt below]
  | succ i ih =>
    have bit : n / 2 ^ i % 2 < 2 := Nat.mod_lt _ (by decide)
    have step := next_bit n i
    rw [front] at step
    simp only [divide]
    split
    · rename_i reached
      have shifted : k * 2 ^ (i + 1) + 2 ^ i = (2 * k + 1) * 2 ^ i := by ring
      rw [shifted]
      apply ih
      · omega
      · have expand : (2 * k + 1) * d = 2 * (k * d) + d := by ring
        omega
    · rename_i short
      have shifted : k * 2 ^ (i + 1) = 2 * k * 2 ^ i := by ring
      rw [shifted]
      apply ih
      · omega
      · have expand : 2 * k * d = 2 * (k * d) := by ring
        omega

end Limbs
