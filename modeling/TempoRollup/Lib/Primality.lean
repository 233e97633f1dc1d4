import Mathlib.NumberTheory.LucasPrimality
import Mathlib.Tactic.Linarith

set_option relaxedAutoImplicit false
set_option autoImplicit false

/-!
# Primality certificates

A natural number is prime as soon as some residue has full order modulo it; the factors of
`p - 1` and that residue are a certificate which the kernel checks by modular
exponentiation. Numbers of a few hundred bits need this: trial division is out of reach for
them.

## Main definitions

* `Primality.powMod` — modular exponentiation by repeated squaring.
* `Primality.Step`, `Primality.checks` — chains of certificates, each resting on the primes
  before it.

## Main results

* `Primality.powMod_eq` — `powMod` computes `a ^ n % m`.
* `Primality.prime_of_certificate` — the certificate criterion.
* `Primality.prime_of_checks` — every number of a chain that passes its check is prime.
-/

namespace Primality

/-- `a ^ n % m` by repeated squaring; `fuel` bounds the number of binary digits of `n`. -/
def powMod (m : ℕ) : ℕ → ℕ → ℕ → ℕ
  | 0, _, _ => 1 % m
  | fuel + 1, a, n =>
    if n = 0 then 1 % m
    else if n % 2 = 1 then a * powMod m fuel (a * a % m) (n / 2) % m
    else powMod m fuel (a * a % m) (n / 2)

/-- With enough fuel, `powMod` is the power reduced modulo `m`. -/
theorem powMod_eq (m fuel a n : ℕ) (hn : n < 2 ^ fuel) : powMod m fuel a n = a ^ n % m := by
  induction fuel generalizing a n with
  | zero =>
    obtain rfl : n = 0 := by simpa using hn
    simp [powMod]
  | succ fuel ih =>
    have hhalf : n / 2 < 2 ^ fuel := by rw [pow_succ] at hn; omega
    have hsq : (a * a % m) ^ (n / 2) % m = a ^ (2 * (n / 2)) % m := by
      rw [Nat.pow_mod, Nat.mod_mod, ← Nat.pow_mod, ← pow_two, ← pow_mul]
    rw [powMod]
    split_ifs with h0 h1
    · simp [h0]
    · rw [ih _ _ hhalf, hsq, Nat.mul_mod, Nat.mod_mod, ← Nat.mul_mod, ← pow_succ',
        show 2 * (n / 2) + 1 = n by omega]
    · rw [ih _ _ hhalf, hsq, show 2 * (n / 2) = n by omega]

/-- **The certificate criterion**: if `p - 1` is the product of the primes `qs` and `a` has
order exactly `p - 1` modulo `p`, then `p` is prime.

**Proof sketch.** This is Lucas' criterion (`lucas_primality`), with the powers computed by
`powMod` and the prime divisors of `p - 1` read off the list `qs`. -/
theorem prime_of_certificate (p a fuel : ℕ) (qs : List ℕ) (hp : 1 < p) (hfuel : p < 2 ^ fuel)
    (hqs : ∀ q ∈ qs, q.Prime) (hprod : qs.prod = p - 1)
    (hone : powMod p fuel a (p - 1) = 1)
    (hne : ∀ q ∈ qs, powMod p fuel a ((p - 1) / q) ≠ 1) : p.Prime := by
  have hcast : ∀ n, n ≤ p - 1 → ((a : ZMod p) ^ n = 1 ↔ powMod p fuel a n = 1) := by
    intro n hn
    rw [powMod_eq p fuel a n (by omega), ← Nat.cast_pow,
      show (1 : ZMod p) = ((1 : ℕ) : ZMod p) by simp, ZMod.natCast_eq_natCast_iff']
    rw [Nat.mod_eq_of_lt hp]
  refine lucas_primality p (a : ZMod p) ((hcast _ le_rfl).2 hone) fun q hq hdvd h => ?_
  obtain ⟨q', hq', hdiv⟩ := (Prime.dvd_prod_iff hq.prime).1 (hprod ▸ hdvd)
  obtain rfl : q = q' := (Nat.prime_dvd_prime_iff_eq hq (hqs q' hq')).1 hdiv
  exact hne q hq' ((hcast _ (Nat.div_le_self _ _)).1 h)

/-! ## Chains of certificates -/

/-- A link of a chain: a number, the residue of full order modulo it and the factors of the
number before it. -/
structure Step where
  /-- The number certified. -/
  prime : ℕ
  /-- The residue of order `prime - 1`. -/
  base : ℕ
  /-- The prime factors of `prime - 1`, with multiplicity. -/
  factors : List ℕ

/-- The check of one link against the primes known so far. -/
def Step.checks (known : List ℕ) (s : Step) : Bool :=
  decide (1 < s.prime) && s.factors.all (known.contains ·) &&
    s.factors.prod == s.prime - 1 &&
    powMod s.prime (s.prime.log2 + 1) s.base (s.prime - 1) == 1 &&
    s.factors.all fun q => powMod s.prime (s.prime.log2 + 1) s.base ((s.prime - 1) / q) != 1

/-- The check of a chain: each link may use the numbers of the links before it. -/
def checks : List ℕ → List Step → Bool
  | _, [] => true
  | known, s :: steps => s.checks known && checks (s.prime :: known) steps

/-- A link that passes its check certifies a prime, once the known numbers are primes. -/
lemma Step.prime_of_checks {known : List ℕ} {s : Step} (hknown : ∀ q ∈ known, q.Prime)
    (h : s.checks known = true) : s.prime.Prime := by
  simp only [Step.checks, Bool.and_eq_true, decide_eq_true_eq, List.all_eq_true,
    List.contains_iff_mem, beq_iff_eq, bne_iff_ne] at h
  obtain ⟨⟨⟨⟨hp, hmem⟩, hprod⟩, hone⟩, hne⟩ := h
  exact prime_of_certificate s.prime s.base (s.prime.log2 + 1) s.factors hp Nat.lt_log2_self
    (fun q hq => hknown q (hmem q hq)) hprod hone hne

/-- **Every number of a chain that passes its check is prime.** -/
theorem prime_of_checks {known : List ℕ} {steps : List Step} (hknown : ∀ q ∈ known, q.Prime)
    (h : checks known steps = true) : ∀ s ∈ steps, s.prime.Prime := by
  induction steps generalizing known with
  | nil => simp
  | cons s steps ih =>
    obtain ⟨hs, hsteps⟩ := Bool.and_eq_true_iff.1 h
    have hprime : s.prime.Prime := Step.prime_of_checks hknown hs
    have hrest := ih (List.forall_mem_cons.2 ⟨hprime, hknown⟩) hsteps
    exact List.forall_mem_cons.2 ⟨hprime, hrest⟩

end Primality
