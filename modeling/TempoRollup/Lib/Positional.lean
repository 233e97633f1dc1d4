import Mathlib.Data.List.TakeWhile
import Mathlib.Data.Nat.Digits.Lemmas

set_option relaxedAutoImplicit false
set_option autoImplicit false

/-!
# Numbers in a base

Digits with the most significant one first, and the number that they stand for.

## Main definitions

* `Positional.value` — the number that digits stand for.
* `Positional.digits` — the digits of a number.
* `Positional.rebase` — the change from one base to another, which keeps the zeros in front.

## Main results

* `Positional.value_append` — the digits of two parts.
* `Positional.value_toDigits` — the decimal digits of a number stand for it.
* `Positional.digits_value` — digits without zeros in front are determined by their number.
* `Positional.rebase_rebase` — a change of base can be undone.
-/

namespace Positional

variable {base : ℕ}

/-- The number that digits stand for. -/
def value (base : ℕ) (digits : List ℕ) : ℕ := digits.foldl (fun n digit => n * base + digit) 0

/-- No digits are worth zero. -/
@[simp] lemma value_nil : value base [] = 0 := rfl

/-- One more digit at the end is the lowest one. -/
lemma value_concat (digits : List ℕ) (digit : ℕ) :
    value base (digits ++ [digit]) = value base digits * base + digit := by
  rw [value, List.foldl_append]
  rfl

/-- In Mathlib the digits stand the other way around. -/
lemma value_eq_ofDigits (digits : List ℕ) :
    value base digits = Nat.ofDigits base digits.reverse := by
  induction digits using List.reverseRecOn with
  | nil => rfl
  | append_singleton digits digit ih =>
    rw [value_concat, ih, List.reverse_append, List.reverse_singleton, List.singleton_append,
      Nat.ofDigits_cons]
    ring

/-- **The digits of two parts.** -/
theorem value_append (as bs : List ℕ) :
    value base (as ++ bs) = value base as * base ^ bs.length + value base bs := by
  rw [value_eq_ofDigits, value_eq_ofDigits, value_eq_ofDigits, List.reverse_append,
    Nat.ofDigits_append, List.length_reverse]
  ring

/-- A single digit is worth itself. -/
lemma value_singleton (digit : ℕ) : value base [digit] = digit := by
  rw [value_eq_ofDigits, List.reverse_singleton, Nat.ofDigits_singleton]

/-- Zeros are worth zero. -/
lemma value_replicate_zero (n : ℕ) : value base (List.replicate n 0) = 0 := by
  rw [value_eq_ofDigits, List.reverse_replicate, Nat.ofDigits_replicate_zero]

/-- A part of the digits stands for no larger number. -/
lemma value_le_append (hbase : 0 < base) (as bs : List ℕ) :
    value base as ≤ value base (as ++ bs) := by
  rw [value_append]
  exact (Nat.le_mul_of_pos_right _ (Nat.pow_pos hbase)).trans (Nat.le_add_right _ _)

/-- Digits in range are worth less than the power of the base. -/
lemma value_lt (hbase : 1 < base) {digits : List ℕ} (h : ∀ digit ∈ digits, digit < base) :
    value base digits < base ^ digits.length := by
  rw [value_eq_ofDigits, ← List.length_reverse]
  exact Nat.ofDigits_lt_base_pow_length hbase fun digit hmem => h digit (List.mem_reverse.1 hmem)

/-! ## Decimal digits -/

/-- The number that a decimal digit stands for. -/
def digitOf (c : Char) : ℕ := c.toNat - 48

/-- **The decimal digits of a number** stand for it. By induction on the number. -/
theorem value_toDigits (n : ℕ) : value 10 ((Nat.toDigits 10 n).map digitOf) = n := by
  induction n using Nat.strong_induction_on with
  | _ n ih =>
    have hdigit : ∀ d, d < 10 → digitOf d.digitChar = d :=
      fun d hd => Nat.toNat_digitChar_sub_48_of_lt_ten hd
    rw [Nat.toDigits_eq_if (by decide)]
    split_ifs with hlt
    · rw [List.map_singleton, value_singleton, hdigit n hlt]
    · rw [List.map_append, List.map_singleton, value_concat, ih (n / 10) (by omega),
        hdigit _ (Nat.mod_lt n (by decide))]
      omega

/-! ## Digits of a number -/

/-- The digits of a number, the most significant one first. -/
def digits (base n : ℕ) : List ℕ := (Nat.digits base n).reverse

/-- The digits of a number are worth it. -/
lemma value_digits (n : ℕ) : value base (digits base n) = n := by
  rw [value_eq_ofDigits, digits, List.reverse_reverse, Nat.ofDigits_digits]

/-- The digits of a number are in range. -/
lemma digits_lt (hbase : 1 < base) {n digit : ℕ} (h : digit ∈ digits base n) : digit < base :=
  Nat.digits_lt_base hbase (List.mem_reverse.1 h)

/-- A number has no zeros in front. -/
lemma head?_digits (base n : ℕ) : (digits base n).head? ≠ some 0 := by
  rw [digits, List.head?_reverse]
  intro h
  have hne : n ≠ 0 := by
    rintro rfl
    rw [Nat.digits_zero] at h
    cases h
  rw [List.getLast?_eq_some_getLast (Nat.digits_ne_nil_iff_ne_zero.2 hne), Option.some.injEq] at h
  exact Nat.getLast_digit_ne_zero base hne h

/-- **Digits without zeros in front** are determined by their number. -/
theorem digits_value (hbase : 1 < base) {ds : List ℕ} (hlt : ∀ digit ∈ ds, digit < base)
    (hhead : ds.head? ≠ some 0) : digits base (value base ds) = ds := by
  rw [value_eq_ofDigits, digits, Nat.digits_ofDigits base hbase _
    (fun digit hmem => hlt digit (List.mem_reverse.1 hmem)), List.reverse_reverse]
  intro hne hlast
  refine hhead ?_
  rw [← List.reverse_reverse ds, List.head?_reverse, List.getLast?_eq_some_getLast hne, hlast]

/-! ## Change of base -/

/-- Equal elements in front are given by their number. -/
lemma takeWhile_eq_replicate {α : Type} [DecidableEq α] (a : α) (l : List α) :
    l.takeWhile (fun b => b = a) = List.replicate (l.takeWhile fun b => b = a).length a := by
  refine List.eq_replicate_iff.2 ⟨rfl, fun b hmem => ?_⟩
  have heq : decide (b = a) = true :=
    @List.mem_takeWhile_imp α (fun b => decide (b = a)) l b hmem
  exact of_decide_eq_true heq

/-- They are restored from their number. -/
lemma replicate_append_dropWhile {α : Type} [DecidableEq α] (a : α) (l : List α) :
    List.replicate (l.takeWhile fun b => b = a).length a ++ l.dropWhile (fun b => b = a) = l := by
  rw [← takeWhile_eq_replicate, List.takeWhile_append_dropWhile]

/-- The zeros in front. -/
def zeros (ds : List ℕ) : ℕ := (ds.takeWhile fun digit => digit = 0).length

/-- The zeros in front of digits that start otherwise. -/
lemma zeros_replicate_append (n : ℕ) {ds : List ℕ} (hhead : ds.head? ≠ some 0) :
    zeros (List.replicate n 0 ++ ds) = n := by
  have hnone : ds.takeWhile (fun digit => digit = 0) = [] := by
    cases ds with
    | nil => rfl
    | cons digit ds =>
      refine List.takeWhile_cons_of_neg fun h => hhead ?_
      rw [List.head?_cons, of_decide_eq_true h]
  rw [zeros, List.takeWhile_append_of_pos, hnone, List.append_nil, List.length_replicate]
  intro digit hmem
  exact decide_eq_true (List.eq_of_mem_replicate hmem)

/-- Digits are zeros in front and digits without. -/
lemma exists_eq_replicate_append (ds : List ℕ) :
    ∃ rest, ds = List.replicate (zeros ds) 0 ++ rest ∧ rest.head? ≠ some 0 := by
  refine ⟨ds.dropWhile fun digit => digit = 0, ?_, fun hhead => ?_⟩
  · exact (replicate_append_dropWhile 0 ds).symm
  · have h := List.head?_dropWhile_not (fun digit : ℕ => decide (digit = 0)) ds
    rw [hhead] at h
    cases h

/-- The same number in another base, with the same number of zeros in front. -/
def rebase (base base' : ℕ) (ds : List ℕ) : List ℕ :=
  List.replicate (zeros ds) 0 ++ digits base' (value base ds)

/-- **There and back.** A change of base is undone by the change to the first base. -/
theorem rebase_rebase {base' : ℕ} (hbase : 1 < base) {ds : List ℕ}
    (hlt : ∀ digit ∈ ds, digit < base) : rebase base' base (rebase base base' ds) = ds := by
  have hvalue : ∀ (b n : ℕ) (rest : List ℕ),
      value b (List.replicate n 0 ++ rest) = value b rest := by
    intro b n rest
    rw [value_append, value_replicate_zero, zero_mul, zero_add]
  obtain ⟨rest, hrest, hhead⟩ := exists_eq_replicate_append ds
  have hrestlt : ∀ digit ∈ rest, digit < base := by
    intro digit hmem
    refine hlt digit ?_
    rw [hrest]
    exact List.mem_append_right _ hmem
  rw [rebase, rebase, zeros_replicate_append _ (head?_digits _ _), hvalue, value_digits]
  conv_rhs => rw [hrest]
  rw [hrest, hvalue, zeros_replicate_append _ hhead, digits_value hbase hrestlt hhead]

end Positional
