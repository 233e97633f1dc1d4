import TempoRollup.Lib.Codec

set_option relaxedAutoImplicit false
set_option autoImplicit false

/-!
# The order of byte strings

Byte strings are ordered like words in a dictionary. Numbers that are written with a fixed number of
bytes, the most significant first, are in the order of the numbers; a byte string has an immediate
successor, which is one byte longer.

## Main results

* `ByteOrder.compare_append` — strings of one length are compared before what follows them.
* `ByteOrder.compare_toBE` — big-endian numbers are ordered as numbers.
* `ByteOrder.compare_successor_lt_iff` — nothing is between a string and its successor.
-/

namespace ByteOrder

/-- Strings that start with parts of one length: the parts are compared first. By induction on the
parts. -/
theorem compare_append {as bs : List UInt8} (hlen : as.length = bs.length) (cs ds : List UInt8) :
    compare (as ++ cs) (bs ++ ds) = (compare as bs).then (compare cs ds) := by
  induction as generalizing bs with
  | nil =>
    rw [List.eq_nil_of_length_eq_zero hlen.symm]
    rfl
  | cons a as ih =>
    cases bs with
    | nil => cases hlen
    | cons b bs =>
      rw [List.cons_append, List.cons_append, List.compare_cons_cons, List.compare_cons_cons,
        ih (Nat.succ.inj hlen), Ordering.then_assoc]

/-- The order of single bytes is that of their numbers. -/
lemma compare_ofNat (m n : ℕ) :
    compare (UInt8.ofNat m) (UInt8.ofNat n) = compare (m % 256) (n % 256) := by
  have hlt : ∀ a b : ℕ, UInt8.ofNat a < UInt8.ofNat b ↔ a % 256 < b % 256 := by
    intro a b
    rw [UInt8.lt_iff_toNat_lt, UInt8.toNat_ofNat', UInt8.toNat_ofNat']
  rcases lt_trichotomy (m % 256) (n % 256) with h | h | h
  · rw [Nat.compare_eq_lt.2 h]
    exact Std.compare_eq_lt.2 ((hlt m n).2 h)
  · have heq : UInt8.ofNat m = UInt8.ofNat n := by
      apply UInt8.toNat.inj
      rw [UInt8.toNat_ofNat', UInt8.toNat_ofNat']
      exact h
    rw [heq, h, Std.ReflOrd.compare_self, Std.ReflOrd.compare_self]
  · rw [Nat.compare_eq_gt.2 h]
    exact Std.compare_eq_gt.2 ((hlt n m).2 h)

/-- The order of numbers is that of their quotients, and then of their remainders. -/
lemma compare_div_mod (m n : ℕ) :
    (compare (m / 256) (n / 256)).then (compare (m % 256) (n % 256)) = compare m n := by
  rcases lt_trichotomy (m / 256) (n / 256) with h | h | h
  · rw [Nat.compare_eq_lt.2 h, Nat.compare_eq_lt.2 (show m < n by omega)]
    rfl
  · rw [h, Std.ReflOrd.compare_self]
    rcases lt_trichotomy (m % 256) (n % 256) with h' | h' | h'
    · rw [Nat.compare_eq_lt.2 h', Nat.compare_eq_lt.2 (show m < n by omega)]
      rfl
    · rw [h', show m = n by omega, Std.ReflOrd.compare_self, Std.ReflOrd.compare_self]
      rfl
    · rw [Nat.compare_eq_gt.2 h', Nat.compare_eq_gt.2 (show n < m by omega)]
      rfl
  · rw [Nat.compare_eq_gt.2 h, Nat.compare_eq_gt.2 (show n < m by omega)]
    rfl

/-- **Big-endian numbers are ordered as numbers.** By induction on the width. -/
theorem compare_toBE {width m n : ℕ} (hm : m < 256 ^ width) (hn : n < 256 ^ width) :
    compare (Codec.toBE width m) (Codec.toBE width n) = compare m n := by
  induction width generalizing m n with
  | zero =>
    rw [pow_zero, Nat.lt_one_iff] at hm hn
    rw [hm, hn]
    rfl
  | succ width ih =>
    have hlen : (Codec.toBE width (m / 256)).length = (Codec.toBE width (n / 256)).length := by
      rw [Codec.length_toBE, Codec.length_toBE]
    have hm' : m / 256 < 256 ^ width := Nat.div_lt_of_lt_mul (by rwa [← pow_succ'])
    have hn' : n / 256 < 256 ^ width := Nat.div_lt_of_lt_mul (by rwa [← pow_succ'])
    rw [Codec.toBE, Codec.toBE, compare_append hlen, ih hm' hn', List.compare_cons_cons,
      compare_ofNat, ← compare_div_mod m n]
    rw [show compare ([] : List UInt8) [] = .eq from rfl, Ordering.then_eq]

/-- **The immediate successor**: below it are the string itself and what is below the string. By
induction on the two strings. -/
theorem compare_successor_lt_iff (k bytes : List UInt8) :
    (compare k (bytes ++ [0])).isLT = (compare k bytes).isLE := by
  induction bytes generalizing k with
  | nil =>
    cases k with
    | nil => rfl
    | cons a k =>
      -- no byte is below zero, and nothing is below the empty string
      have hzero : compare a 0 = .eq ∨ compare a 0 = .gt := by
        rcases h : compare a 0 with _ | _ | _
        · exact absurd (Std.compare_eq_lt.1 h) (by simp)
        · exact .inl rfl
        · exact .inr rfl
      rw [List.nil_append, List.compare_cons_cons, List.compare_cons_nil]
      rcases hzero with h | h
      · rw [h]
        cases k <;> rfl
      · rw [h]
        rfl
  | cons b bytes ih =>
    cases k with
    | nil => rfl
    | cons a k =>
      rw [List.cons_append, List.compare_cons_cons, List.compare_cons_cons]
      rcases compare a b with _ | _ | _
      · rfl
      · exact ih k
      · rfl

end ByteOrder
