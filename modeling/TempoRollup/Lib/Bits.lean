import Mathlib.Data.Nat.Log
import Mathlib.Tactic.Ring
import Mathlib.Tactic.Linarith

set_option relaxedAutoImplicit false
set_option autoImplicit false

/-!
# Binary digits

Numbers as lists of binary digits, the least or the most significant digit first.

## Main definitions

* `Bits.ofLE`, `Bits.ofBE` — the number with given digits.
* `Bits.toLE` — the low digits of a number.

## Main results

* `Bits.ofLE_toLE`, `Bits.toLE_ofLE` — the two directions are inverse on lists of a length.
* `Bits.ofLE_lt_two_pow_iff` — when a number is below a power of two.
* `Bits.ofLE_reverse` — reversing the digits exchanges the two readings.
-/

namespace Bits

/-- The number with the given digits, the least significant first. -/
def ofLE : List Bool → ℕ
  | [] => 0
  | b :: bs => b.toNat + 2 * ofLE bs

/-- The number with the given digits, the most significant first. -/
def ofBE : List Bool → ℕ
  | [] => 0
  | b :: bs => b.toNat * 2 ^ bs.length + ofBE bs

/-- The `n` low digits of `i`, the least significant first. -/
def toLE : ℕ → ℕ → List Bool
  | 0, _ => []
  | n + 1, i => decide (i % 2 = 1) :: toLE n (i / 2)

/-- As many bits as are asked for. -/
@[simp] lemma length_toLE (n i : ℕ) : (toLE n i).length = n := by
  induction n generalizing i with
  | zero => rfl
  | succ n ih => simp [toLE, ih]

/-- A list of digits spells a number of its length. -/
lemma ofLE_lt (bs : List Bool) : ofLE bs < 2 ^ bs.length := by
  induction bs with
  | nil => simp [ofLE]
  | cons b bs ih =>
    have := Bool.toNat_le b
    simp only [ofLE, List.length_cons, pow_succ]
    omega

/-- The low digits of a number spell its residue. -/
theorem ofLE_toLE (n i : ℕ) : ofLE (toLE n i) = i % 2 ^ n := by
  induction n generalizing i with
  | zero => simp [toLE, ofLE, Nat.mod_one]
  | succ n ih =>
    rw [toLE, ofLE, ih, pow_succ', Nat.mod_mul]
    rcases Nat.mod_two_eq_zero_or_one i with h0 | h0 <;> simp [h0]

/-- The number spelled by a list of digits has these digits. -/
theorem toLE_ofLE (bs : List Bool) : toLE bs.length (ofLE bs) = bs := by
  induction bs with
  | nil => rfl
  | cons b bs ih =>
    have hdiv : ofLE (b :: bs) / 2 = ofLE bs := by
      have := Bool.toNat_le b
      simp only [ofLE]
      omega
    rw [List.length_cons, toLE, hdiv, ih]
    cases b <;> simp [ofLE, Nat.add_mod]

/-- The digits of a number depend on its residue only. -/
lemma toLE_mod (n i : ℕ) : toLE n (i % 2 ^ n) = toLE n i := by
  have := toLE_ofLE (toLE n i)
  rwa [length_toLE, ofLE_toLE] at this

/-- Digit `j` of a number. -/
lemma getElem?_toLE (n i j : ℕ) (hj : j < n) : (toLE n i)[j]? = some (i.testBit j) := by
  induction n generalizing i j with
  | zero => omega
  | succ n ih =>
    rw [toLE]
    rcases j with _ | j
    · simp [Nat.testBit_zero]
    · rw [List.getElem?_cons_succ, ih _ _ (by omega), Nat.testBit_succ]

/-- The first digits of a number are its low digits. -/
lemma take_toLE (m n i : ℕ) (hmn : m ≤ n) : (toLE n i).take m = toLE m i := by
  induction m generalizing n i with
  | zero => simp [toLE]
  | succ m ih =>
    obtain ⟨n, rfl⟩ : ∃ k, n = k + 1 := ⟨n - 1, by omega⟩
    rw [toLE, toLE, List.take_succ_cons, ih n _ (by omega)]

/-- The digits of a concatenation: the second part is shifted by the length of the first. -/
lemma ofLE_append (bs cs : List Bool) : ofLE (bs ++ cs) = ofLE bs + 2 ^ bs.length * ofLE cs := by
  induction bs with
  | nil => simp [ofLE]
  | cons b bs ih =>
    simp only [List.cons_append, ofLE, ih, List.length_cons, pow_succ]
    ring

/-- A number is zero when all its digits are. -/
lemma ofLE_eq_zero_iff (bs : List Bool) : ofLE bs = 0 ↔ ∀ b ∈ bs, b = false := by
  induction bs with
  | nil => simp [ofLE]
  | cons b bs ih => cases b <;> simp [ofLE, ih]

/-- A number is below a power of two when the digits from there on are zero. -/
theorem ofLE_lt_two_pow_iff (n : ℕ) (bs : List Bool) (hn : n ≤ bs.length) :
    ofLE bs < 2 ^ n ↔ ∀ b ∈ bs.drop n, b = false := by
  have hlen : (bs.take n).length = n := List.length_take_of_le hn
  have hlow : ofLE (bs.take n) < 2 ^ n := by simpa [hlen] using ofLE_lt (bs.take n)
  rw [← ofLE_eq_zero_iff]
  conv_lhs => rw [← List.take_append_drop n bs, ofLE_append, hlen]
  constructor
  · intro h
    by_contra hne
    have : 2 ^ n * 1 ≤ 2 ^ n * ofLE (bs.drop n) := Nat.mul_le_mul_left _ (by omega)
    omega
  · intro h
    simpa [h] using hlow

/-- Read backwards, digits with the most significant first spell the same number. -/
theorem ofLE_reverse (bs : List Bool) : ofLE bs.reverse = ofBE bs := by
  induction bs with
  | nil => rfl
  | cons b bs ih =>
    rw [List.reverse_cons, ofLE_append, ih, List.length_reverse, ofBE, ofLE, ofLE]
    ring

/-- A number of so many bits is in range. -/
lemma ofBE_lt (bs : List Bool) : ofBE bs < 2 ^ bs.length := by
  rw [← ofLE_reverse, ← List.length_reverse]
  exact ofLE_lt _

end Bits
