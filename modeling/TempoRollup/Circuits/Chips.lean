import TempoRollup.Element
import TempoRollup.Lib.Constraint
import Mathlib.Tactic.LinearCombination

set_option relaxedAutoImplicit false
set_option autoImplicit false

/-!
# The chips of the circuits

The chips under `zk-circuits/src/chips`, as fragments of a constraint system: each one
assigns its advice cells with the values the prover's code computes, and enables its gates.

## Main definitions

* `CondSwapChip.swapAssigned`, `CondSwapChip.swap` — `swap.rs`.
* `IsConstantChip.assign` — `is_constant.rs` over `is_zero.rs`.
* `AddCulmChip.assign` — `add.rs`.
* `BinaryDecomposition.copyDecompose` — `binary_decomposition.rs`.
* `IsLessThanChip.assign` — `is_less_than.rs`.
* `merkleRoot`, `merkleRootValue` — `merkle_path.rs`.

## Main results

Each chip has one lemma, `…_iff`, that says exactly which outputs the satisfying assignments
give, for an adversary as well as for the prover's own code:

* `CondSwapChip.swapAssigned_iff` — the pair, in the order a boolean selector says.
* `IsConstantChip.assign_iff` — one on the constant, zero elsewhere.
* `AddCulmChip.assign_iff` — the sum.
* `BinaryDecomposition.copyDecompose_iff` — digits that spell the cell *modulo the field's
  order*; only the prover's own code is bound to the canonical ones.
* `IsLessThanChip.assign_iff` — satisfiable exactly when the second number is smaller.
* `merkleRoot_iff`, `merkleRootValue_iff` — the Merkle fold.
-/

open ConstraintSystem

namespace TempoRollup.Circuits

/-- A digit as a field element. -/
def bit (b : Bool) : Fr := if b then 1 else 0

/-- The bit `false` is zero. -/
@[simp] lemma bit_false : bit false = 0 := rfl

/-- The bit `true` is one. -/
@[simp] lemma bit_true : bit true = 1 := rfl

/-- Bits are told apart in the field. -/
lemma bit_injective : Function.Injective bit := by
  intro a b h
  cases a <;> cases b <;> simp_all [bit]

/-- A bit as a number of the field. -/
lemma bit_eq_toNat (b : Bool) : bit b = (b.toNat : Fr) := by
  cases b <;> simp

/-- `range_check`: a polynomial that vanishes exactly on the numbers below `range`. -/
def rangeCheck (word : Fr) (range : ℕ) : Fr :=
  (List.range' 1 (range - 1)).foldl (fun acc i => acc * ((i : Fr) - word)) word

/-- On the range of a single digit the polynomial vanishes on the digits. -/
lemma rangeCheck_two_eq_zero_iff (word : Fr) : rangeCheck word 2 = 0 ↔ ∃ b, word = bit b := by
  have hpoly : rangeCheck word 2 = word * (1 - word) := by simp [rangeCheck]
  rw [hpoly, mul_eq_zero, sub_eq_zero]
  constructor
  · rintro (h | h)
    · exact ⟨false, h⟩
    · exact ⟨true, h.symm⟩
  · rintro ⟨_ | _, rfl⟩
    · exact .inl rfl
    · exact .inr rfl

/-! ## The conditional swap -/

namespace CondSwapChip

/-- `ternary(a, b, c)`: `b` where `a` is one, `c` where it is zero. -/
def ternary (a b c : Fr) : Fr := a * b + (1 - a) * c

/-- `bool_check`: vanishes on zero and one. -/
def boolCheck (value : Fr) : Fr := rangeCheck value 2

/-- `CondSwapChip::swap_in_region`. -/
def swapInRegion (a b swap : Fr) : Circuit Fr (Fr × Fr) := do
  let aSwapped ← assignAdvice (if swap = 1 then b else a)
  let bSwapped ← assignAdvice (if swap = 1 then a else b)
  gate (aSwapped - ternary swap b a)
  gate (bSwapped - ternary swap a b)
  gate (boolCheck swap)
  pure (aSwapped, bSwapped)

/-- `CondSwapChip::swap_assigned`: all three inputs are existing cells. -/
def swapAssigned (pair : Fr × Fr) (swap : Fr) : Circuit Fr (Fr × Fr) := do
  let a ← copyAdvice pair.1
  let b ← copyAdvice pair.2
  let swap ← copyAdvice swap
  swapInRegion a b swap

/-- `CondSwapChip::swap`: only the first input is an existing cell. -/
def swap (pair : Fr × Fr) (swap : Fr) : Circuit Fr (Fr × Fr) := do
  let a ← copyAdvice pair.1
  let b ← assignAdvice pair.2
  let swap ← assignAdvice swap
  swapInRegion a b swap

/-- The selector is a digit, and the pair comes out in the order it says. -/
lemma swapInRegion_iff (a b s : Fr) (env : Env Fr) (r : Fr × Fr) :
    swapInRegion a b s env r ↔ ∃ d, s = bit d ∧ r = if d then (b, a) else (a, b) := by
  simp only [swapInRegion, boolCheck, bind_iff, assignAdvice_iff, gate_iff, pure_iff,
    exists_const, sub_eq_zero, rangeCheck_two_eq_zero_iff]
  constructor
  · rintro ⟨x, -, y, -, hx, hy, ⟨d, rfl⟩, rfl⟩
    refine ⟨d, rfl, ?_⟩
    cases d <;> simp [hx, hy, ternary]
  · rintro ⟨d, rfl, rfl⟩
    cases d
    · exact ⟨a, by simp, b, by simp, by simp [ternary], by simp [ternary], ⟨false, rfl⟩, rfl⟩
    · exact ⟨b, by simp, a, by simp, by simp [ternary], by simp [ternary], ⟨true, rfl⟩, rfl⟩

/-- What a swap of assigned cells allows. -/
theorem swapAssigned_iff (pair : Fr × Fr) (s : Fr) (env : Env Fr) (r : Fr × Fr) :
    swapAssigned pair s env r ↔
      ∃ d, s = bit d ∧ r = if d then (pair.2, pair.1) else (pair.1, pair.2) := by
  simp [swapAssigned, swapInRegion_iff]

/-- With a digit as the selector, the swap is a choice. -/
lemma swapAssigned_bit_iff (pair : Fr × Fr) (d : Bool) (env : Env Fr) (r : Fr × Fr) :
    swapAssigned pair (bit d) env r ↔ r = if d then (pair.2, pair.1) else (pair.1, pair.2) := by
  rw [swapAssigned_iff]
  constructor
  · rintro ⟨d', hd, rfl⟩
    rw [bit_injective hd]
  · rintro rfl
    exact ⟨d, rfl, rfl⟩

/-- What a swap allows. -/
lemma swap_iff (pair : Fr × Fr) (s : Fr) (env : Env Fr) (r : Fr × Fr) :
    swap pair s env r ↔
      ∃ x d, (env.prover = .honest → x = pair.2 ∧ bit d = s) ∧
        r = if d then (x, pair.1) else (pair.1, x) := by
  simp only [swap, bind_iff, copyAdvice_iff, assignAdvice_iff, exists_eq_left,
    swapInRegion_iff]
  constructor
  · rintro ⟨x, hx, _, hs, d, rfl, rfl⟩
    exact ⟨x, d, fun h => ⟨hx h, hs h⟩, rfl⟩
  · rintro ⟨x, d, h, rfl⟩
    exact ⟨x, fun e => (h e).1, bit d, fun e => (h e).2, d, rfl, rfl⟩

end CondSwapChip

/-! ## Comparison with a constant -/

namespace IsConstantChip

/-- `IsConstantChip::assign` for the configured constant, with the gates of `IsZeroChip` on
the difference. -/
def assign (constant comparison : Fr) : Circuit Fr Fr := do
  let comparison ← copyAdvice comparison
  let value := comparison - constant
  let valueInv ← assignAdvice value⁻¹
  let isZeroExpr := 1 - value * valueInv
  gate (value * isZeroExpr)
  let output ← assignAdvice (if value = 0 then 1 else 0)
  gate (output - isZeroExpr)
  pure output

/-- The output says whether the cell is the constant. -/
theorem assign_iff (constant comparison : Fr) (env : Env Fr) (r : Fr) :
    assign constant comparison env r ↔ r = bit (decide (comparison = constant)) := by
  simp only [assign, bind_iff, copyAdvice_iff, assignAdvice_iff, gate_iff, pure_iff,
    exists_eq_left, exists_const]
  constructor
  · rintro ⟨inv, -, hgate, out, -, hout, rfl⟩
    rw [sub_eq_zero] at hout
    by_cases h : comparison = constant
    · simp [h, hout]
    · have hne : comparison - constant ≠ 0 := sub_ne_zero.2 h
      rw [hout, (mul_eq_zero.1 hgate).resolve_left hne]
      simp [h]
  · rintro rfl
    refine ⟨(comparison - constant)⁻¹, fun _ => rfl, ?_⟩
    by_cases h : comparison = constant
    · exact ⟨by simp [h], 1, by simp [h], by simp [h], by simp [h]⟩
    · have hne : comparison - constant ≠ 0 := sub_ne_zero.2 h
      exact ⟨by simp [hne], 0, by simp [hne], by simp [hne], by simp [h]⟩

end IsConstantChip

/-! ## Sums -/

namespace AddCulmChip

/-- The rows of `AddCulmChip::assign` below the first one. -/
def rows : Fr → List Fr → Circuit Fr Fr
  | culm, [] => pure culm
  | culm, cell :: cells => do
    let b ← copyAdvice cell
    let next ← assignAdvice (culm + b)
    gate (culm + b - next)
    rows next cells

/-- `AddCulmChip::assign`, which reads `cells[0]` first. -/
def assign : List Fr → Circuit Fr Fr
  | [] => do
    assertC False
    pure 0
  | first :: cells => do
    let culm ← copyAdvice first
    rows culm cells

/-- Rows add their cells up. -/
lemma rows_iff (culm : Fr) (cells : List Fr) (env : Env Fr) (r : Fr) :
    rows culm cells env r ↔ r = culm + cells.sum := by
  induction cells generalizing culm with
  | nil => simp [rows]
  | cons cell cells ih =>
    simp only [rows, bind_iff, copyAdvice_iff, assignAdvice_iff, gate_iff, exists_eq_left,
      exists_const, ih, List.sum_cons]
    constructor
    · rintro ⟨next, -, hnext, rfl⟩
      rw [← sub_eq_zero.1 hnext, add_assoc]
    · rintro rfl
      exact ⟨culm + cell, fun _ => rfl, sub_self _, by rw [add_assoc]⟩

/-- The output is the sum of the cells. -/
lemma assign_cons_iff (first : Fr) (cells : List Fr) (env : Env Fr) (r : Fr) :
    assign (first :: cells) env r ↔ r = (first :: cells).sum := by
  simp [assign, rows_iff]

end AddCulmChip

/-! ## Binary decomposition -/

namespace BinaryDecomposition

/-- `PrimeFieldBits::to_le_bits`. -/
def toLeBits (x : Fr) : List Bool := Bits.toLE 256 x.val

/-- `decompose_word`: the words of `windowNumBits` bits each, least significant first. -/
def decomposeWord (word : Fr) (wordNumBits windowNumBits : ℕ) : List ℕ :=
  let padding := (windowNumBits - wordNumBits % windowNumBits) % windowNumBits
  let bits := (toLeBits word).take wordNumBits ++ List.replicate padding false
  let chunk i := (bits.drop (i * windowNumBits)).take windowNumBits
  (List.range (bits.length / windowNumBits)).map fun i =>
    (chunk i).reverse.foldl (fun acc b => acc * 2 + b.toNat) 0

/-- The rows of `decompose`: from the running sum `z` each one splits off a word, and the
last running sum is zero. -/
def rows (windowNumBits : ℕ) : Fr → List Fr → Circuit Fr (List Fr)
  | z, [] => do
    constrainConstant z 0
    pure []
  | z, word :: words => do
    let zNext ← assignAdvice ((z - word) * (2 ^ windowNumBits)⁻¹)
    let b ← assignAdvice word
    let wordExpr := z - zNext * 2 ^ windowNumBits
    gate (rangeCheck wordExpr (2 ^ windowNumBits))
    gate (b - wordExpr)
    let zs ← rows windowNumBits zNext words
    pure (b :: zs)

/-- `BinaryDecompositionConfig::copy_decompose`. -/
def copyDecompose (windowNumBits : ℕ) (alpha : Fr) (wordNumBits numWindows : ℕ) :
    Circuit Fr (List Fr) := do
  assertC (windowNumBits ≤ 3)
  assertC (windowNumBits * numWindows < wordNumBits + windowNumBits)
  let z ← copyAdvice alpha
  let words := decomposeWord z wordNumBits windowNumBits
  rows windowNumBits z ((List.range numWindows).map fun i => (words.getD i 0 : Fr))

/-- With single digits as words, the rows split the running sum into digits. -/
lemma rows_one_iff (z : Fr) (words : List Fr) (env : Env Fr) (bs : List Fr) :
    rows 1 z words env bs ↔
      ∃ ds : List Bool, ds.length = words.length ∧ bs = ds.map bit ∧ z = (Bits.ofLE ds : Fr) ∧
        (env.prover = .honest → ds.map bit = words) := by
  have htwo : (2 : Fr) ≠ 0 := by decide
  induction words generalizing z bs with
  | nil => simp [rows, Bits.ofLE, and_comm]
  | cons word words ih =>
    simp only [rows, bind_iff, assignAdvice_iff, gate_iff, pure_iff, exists_const, pow_one,
      rangeCheck_two_eq_zero_iff, ih, sub_eq_zero, List.length_cons]
    constructor
    · rintro ⟨zNext, -, b, hb, ⟨d, hd⟩, rfl, _, ⟨ds, hlen, rfl, rfl, hhonest⟩, rfl⟩
      refine ⟨d :: ds, by simp [hlen], by simp [hd], ?_, fun h => ?_⟩
      · rw [Bits.ofLE, Nat.cast_add, Nat.cast_mul, ← bit_eq_toNat, ← hd]
        push_cast
        ring
      · rw [List.map_cons, hhonest h, ← hd, hb h]
    · rintro ⟨_ | ⟨d, ds⟩, hlen, rfl, rfl, hhonest⟩
      · simp at hlen
      · have hz : ((Bits.ofLE (d :: ds) : ℕ) : Fr) = bit d + (Bits.ofLE ds : Fr) * 2 := by
          rw [Bits.ofLE, Nat.cast_add, Nat.cast_mul, ← bit_eq_toNat]
          push_cast
          ring
        refine ⟨(Bits.ofLE ds : Fr), fun h => ?_, bit d, fun h => ?_, ⟨d, ?_⟩, ?_, ds.map bit,
          ⟨ds, by simpa using hlen, rfl, rfl, fun h => ?_⟩, rfl⟩
        · rw [hz, ← (List.cons.inj (hhonest h)).1]
          field_simp
          ring
        · exact (List.cons.inj (hhonest h)).1
        · rw [hz]; ring
        · rw [hz]; ring
        · exact (List.cons.inj (hhonest h)).2

/-- The words of one digit each are the digits of the representative. -/
lemma decomposeWord_one (x : Fr) : decomposeWord x 256 1 = (toLeBits x).map Bool.toNat := by
  have hlen : (toLeBits x).length = 256 := Bits.length_toLE _ _
  have htake : (toLeBits x).take 256 = toLeBits x := List.take_of_length_le hlen.le
  apply List.ext_getElem
  · simp [decomposeWord, hlen]
  · intro i hi _
    have hi' : i < (toLeBits x).length := by simpa [decomposeWord, hlen] using hi
    simp [decomposeWord, htake, List.take_one, List.head?_drop, List.getElem?_eq_getElem hi']

/-- **The decomposition into 256 digits**: the digits spell the cell modulo the order of the
field. They need not be the canonical ones unless the prover's own code chose them. -/
theorem copyDecompose_iff (alpha : Fr) (env : Env Fr) (bs : List Fr) :
    copyDecompose 1 alpha 256 256 env bs ↔
      ∃ ds : List Bool, ds.length = 256 ∧ bs = ds.map bit ∧ alpha = (Bits.ofLE ds : Fr) ∧
        (env.prover = .honest → ds = toLeBits alpha) := by
  have hlen : (toLeBits alpha).length = 256 := Bits.length_toLE _ _
  have hwords : (List.range 256).map (fun i => ((decomposeWord alpha 256 1).getD i 0 : Fr)) =
      (toLeBits alpha).map bit := by
    rw [decomposeWord_one]
    apply List.ext_getElem
    · simp [hlen]
    · intro i hi _
      have hi' : i < (toLeBits alpha).length := by simpa [hlen] using hi
      simp [List.getD_eq_getElem?_getD, List.getElem?_eq_getElem hi', bit_eq_toNat]
  have hbits : ∀ ds : List Bool, ds.map bit = (toLeBits alpha).map bit ↔ ds = toLeBits alpha :=
    fun ds => (List.map_injective_iff.2 bit_injective).eq_iff
  simp only [copyDecompose, bind_iff, assertC_iff, copyAdvice_iff, exists_eq_left, hwords,
    rows_one_iff, hbits, List.length_map]
  simp

end BinaryDecomposition

/-! ## Comparison of digit strings -/

namespace IsLessThanChip

/-- The rows of `IsLessThanChip::assign`: `isLess` drops to zero at the first place where the
digit of the maximum is set and the other is not, as long as `canSet` says that the digits
agreed so far. -/
def rows : Fr → Fr → List (Fr × Fr) → Circuit Fr Unit
  | isLess, _, [] => constrainConstant isLess 0
  | lastIsLess, lastCanSet, (max, alpha) :: bits => do
    let max ← copyAdvice max
    let alpha ← copyAdvice alpha
    let isLess ← assignAdvice (lastIsLess - max * (1 - alpha) * lastCanSet)
    let canSet ← assignAdvice ((max * alpha + (1 - max) * (1 - alpha)) * lastCanSet)
    gate (lastIsLess - (max * (1 - alpha)) * lastCanSet - isLess)
    gate ((max * alpha + (1 - max) * (1 - alpha)) * lastCanSet - canSet)
    rows isLess canSet bits

/-- `IsLessThanChip::assign`. -/
def assign (maxBits alphaBits : List Fr) : Circuit Fr Unit := do
  assertC (maxBits.length = alphaBits.length)
  let isLess ← assignAdviceFromConstant 1
  let canSet ← assignAdviceFromConstant 1
  rows isLess canSet (maxBits.zip alphaBits)

/-- Each row is determined by the one before it. -/
lemma rows_cons_iff (isLess canSet : Fr) (m a : Fr) (bits : List (Fr × Fr)) (env : Env Fr)
    (u : Unit) :
    rows isLess canSet ((m, a) :: bits) env u ↔
      rows (isLess - m * (1 - a) * canSet) ((m * a + (1 - m) * (1 - a)) * canSet) bits env u := by
  simp only [rows, bind_iff, copyAdvice_iff, assignAdvice_iff, gate_iff, exists_eq_left,
    exists_const]
  constructor
  · rintro ⟨x, -, y, -, hx, hy, h⟩
    rwa [sub_eq_zero.1 hx, sub_eq_zero.1 hy]
  · intro h
    exact ⟨_, fun _ => rfl, _, fun _ => rfl, sub_self _, sub_self _, h⟩

/-- Once the digits differ, the remaining rows keep `isLess`. -/
lemma rows_zero_iff (isLess : Fr) (ms as : List Bool) (env : Env Fr) (u : Unit) :
    rows isLess 0 ((ms.map bit).zip (as.map bit)) env u ↔ isLess = 0 := by
  induction ms generalizing as with
  | nil => simp [rows]
  | cons m ms ih =>
    cases as with
    | nil => simp [rows]
    | cons a as => simp [rows_cons_iff, ih]

/-- While the digits agree, the remaining rows decide by the remaining digits. -/
lemma rows_one_iff (ms as : List Bool) (hlen : ms.length = as.length) (env : Env Fr)
    (u : Unit) :
    rows 1 1 ((ms.map bit).zip (as.map bit)) env u ↔ Bits.ofBE as < Bits.ofBE ms := by
  induction ms generalizing as with
  | nil =>
    obtain rfl : as = [] := List.length_eq_zero_iff.1 hlen.symm
    simp [rows]
  | cons m ms ih =>
    obtain ⟨a, as, rfl⟩ := List.exists_cons_of_length_eq_add_one hlen.symm
    have hlen' : ms.length = as.length := by simpa using hlen
    have hms := Bits.ofBE_lt ms
    have has := Bits.ofBE_lt as
    simp only [List.map_cons, List.zip_cons_cons, rows_cons_iff, Bits.ofBE]
    rw [← hlen'] at has ⊢
    -- equal digits leave the decision to the rest, different ones decide
    cases m <;> cases a
    · simp [ih as hlen']
    · simp [rows_zero_iff]
      omega
    · simp [rows_zero_iff]
      omega
    · simp [ih as hlen']

/-- **The comparison**: on digit strings of one length, most significant first, the
constraints are satisfiable exactly when `alpha` is below the maximum. -/
theorem assign_iff (ms as : List Bool) (hlen : ms.length = as.length) (env : Env Fr)
    (u : Unit) :
    assign (ms.map bit) (as.map bit) env u ↔ Bits.ofBE as < Bits.ofBE ms := by
  simp [assign, rows_one_iff ms as hlen, hlen]

end IsLessThanChip

/-! ## Merkle paths -/

/-- The hash of two nodes. -/
def hash2 (env : Env Fr) (l r : Fr) : Fr := env.hash [l, r]

/-- The pairs hashed along a path are among the messages of the assignment. -/
def PathHashed (env : Env Fr) (leaf : Fr) (p : List (Fr × Bool)) : Prop :=
  ∀ q ∈ SparseMerkle.pathPairs (hash2 env) leaf p, [q.1, q.2] ∈ env.hashed

/-- `merkle_root`: the siblings and their sides are existing cells. -/
def merkleRoot (leaf : Fr) : List (Fr × Fr) → Circuit Fr Fr
  | [] => pure leaf
  | (sibling, swap) :: siblings => do
    let pair ← CondSwapChip.swapAssigned (leaf, sibling) swap
    let cur ← hashGadget [pair.1, pair.2]
    merkleRoot cur siblings

/-- `merkle_root_value`: the siblings and their sides are witnessed. -/
def merkleRootValue (leaf : Fr) : List (Fr × Fr) → Circuit Fr Fr
  | [] => pure leaf
  | (sibling, swap) :: siblings => do
    let pair ← CondSwapChip.swap (leaf, sibling) swap
    let cur ← hashGadget [pair.1, pair.2]
    merkleRootValue cur siblings

section Paths

variable (env : Env Fr) (leaf s : Fr) (d : Bool) (p : List (Fr × Bool))

/-- The pair hashed first along a path, in the order the swap chip gives. -/
def firstPair : Fr × Fr := if d then (s, leaf) else (leaf, s)

/-- What a path hashes is the pair of its first level and what the rest hashes. -/
lemma pathHashed_cons :
    PathHashed env leaf ((s, d) :: p) ↔
      [(firstPair leaf s d).1, (firstPair leaf s d).2] ∈ env.hashed ∧
        PathHashed env (env.hash [(firstPair leaf s d).1, (firstPair leaf s d).2]) p := by
  cases d <;> simp [PathHashed, SparseMerkle.pathPairs, firstPair, hash2]

/-- Folding a path starts with its first level. -/
lemma foldPath_cons :
    SparseMerkle.foldPath (hash2 env) leaf ((s, d) :: p) =
      SparseMerkle.foldPath (hash2 env)
        (env.hash [(firstPair leaf s d).1, (firstPair leaf s d).2]) p := by
  cases d <;> rfl

end Paths

/-- The sides are digits, and the root is the fold along the path. -/
theorem merkleRoot_iff (leaf : Fr) (siblings : List (Fr × Fr)) (env : Env Fr) (r : Fr) :
    merkleRoot leaf siblings env r ↔
      ∃ p : List (Fr × Bool), siblings = p.map (Prod.map id bit) ∧ PathHashed env leaf p ∧
        r = SparseMerkle.foldPath (hash2 env) leaf p := by
  induction siblings generalizing leaf with
  | nil =>
    simp [merkleRoot, PathHashed, SparseMerkle.pathPairs, SparseMerkle.foldPath]
  | cons entry siblings ih =>
    obtain ⟨s, x⟩ := entry
    simp only [merkleRoot, bind_iff, CondSwapChip.swapAssigned_iff, hashGadget_iff, ih]
    constructor
    · rintro ⟨_, ⟨d, rfl, rfl⟩, _, ⟨hmem, rfl⟩, p, rfl, hp, rfl⟩
      exact ⟨(s, d) :: p, rfl, (pathHashed_cons env leaf s d p).2 ⟨hmem, hp⟩,
        (foldPath_cons env leaf s d p).symm⟩
    · rintro ⟨_ | ⟨⟨s', d⟩, p⟩, hs, hp, rfl⟩
      · simp at hs
      · obtain ⟨⟨rfl, rfl⟩, rfl⟩ := by simpa using hs
        obtain ⟨hmem, hp⟩ := (pathHashed_cons env leaf s d p).1 hp
        exact ⟨_, ⟨d, rfl, rfl⟩, _, ⟨hmem, rfl⟩, p, rfl, hp, foldPath_cons env leaf s d p⟩

/-- Some path of the given length leads from the leaf to the root; it is the witnessed one
when the prover's own code fills in the cells. -/
theorem merkleRootValue_iff (leaf : Fr) (siblings : List (Fr × Fr)) (env : Env Fr) (r : Fr) :
    merkleRootValue leaf siblings env r ↔
      ∃ p : List (Fr × Bool), p.length = siblings.length ∧ PathHashed env leaf p ∧
        r = SparseMerkle.foldPath (hash2 env) leaf p ∧
        (env.prover = .honest → siblings = p.map (Prod.map id bit)) := by
  induction siblings generalizing leaf with
  | nil =>
    simp [merkleRootValue, PathHashed, SparseMerkle.pathPairs, SparseMerkle.foldPath]
  | cons entry siblings ih =>
    obtain ⟨s, x⟩ := entry
    simp only [merkleRootValue, bind_iff, CondSwapChip.swap_iff, hashGadget_iff, ih]
    constructor
    · rintro ⟨_, ⟨y, d, hyd, rfl⟩, _, ⟨hmem, rfl⟩, p, hlen, hp, rfl, hhonest⟩
      refine ⟨(y, d) :: p, by simp [hlen], (pathHashed_cons env leaf y d p).2 ⟨hmem, hp⟩,
        (foldPath_cons env leaf y d p).symm, fun h => ?_⟩
      rw [hhonest h, List.map_cons, ← (hyd h).2, ← (hyd h).1]
      rfl
    · rintro ⟨_ | ⟨⟨y, d⟩, p⟩, hlen, hp, rfl, hhonest⟩
      · simp at hlen
      · obtain ⟨hmem, hp⟩ := (pathHashed_cons env leaf y d p).1 hp
        refine ⟨_, ⟨y, d, fun h => ?_, rfl⟩, _, ⟨hmem, rfl⟩, p, by simpa using hlen, hp,
          foldPath_cons env leaf y d p, fun h => (List.cons.inj (hhonest h)).2⟩
        have hentry := Prod.ext_iff.1 (List.cons.inj (hhonest h)).1
        exact ⟨hentry.1.symm, hentry.2.symm⟩

end TempoRollup.Circuits
