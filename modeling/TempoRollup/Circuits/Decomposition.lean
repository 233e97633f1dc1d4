import TempoRollup.Circuits.Insert

set_option relaxedAutoImplicit false
set_option autoImplicit false

/-!
# The gates of the comparison and of the decomposition

The gates of `is_less_than.rs` and `binary_decomposition.rs` on the cells of their regions: a
column is a function of the row, and an assignment is any choice of the auxiliary columns.

## Main definitions

* `IsLessThanChip.Satisfied` — the columns `is_less` and `can_set` satisfy the constraints.
* `BinaryDecomposition.Satisfied` — the columns `z` and `b` satisfy the constraints.
* `Insert.Decomposes` — the two together, as `Insert` uses them.

## Main results

* `IsLessThanChip.assign_iff_columns`, `BinaryDecomposition.copyDecompose_iff_columns` — the
  fragments of the chips are satisfied exactly by the columns that satisfy the gates.
* `IsLessThanChip.exists_columns_iff` — some columns satisfy the comparison exactly if the second
  number is smaller than the first one.
* `Insert.decomposes_iff` — exactly the canonical digits of an element pass both.
-/

open ConstraintSystem

namespace TempoRollup.Circuits

/-- A column with a row before it. -/
def consRow (x : Fr) (column : ℕ → Fr) : ℕ → Fr
  | 0 => x
  | row + 1 => column row

/-! ## The comparison -/

namespace IsLessThanChip

/-- The gate `Is Less` on the cells of a row and of the row before it. -/
structure Gate (lastIsLess lastCanSet max alpha isLess canSet : Fr) : Prop where
  isLess_eq : lastIsLess - (max * (1 - alpha)) * lastCanSet - isLess = 0
  canSet_eq : (max * alpha + (1 - max) * (1 - alpha)) * lastCanSet - canSet = 0

/-- **The constraints of the chip** on the digits and the two auxiliary columns: both start with
one, the gate is enabled on each row of digits, and the last `is_less` is zero. -/
structure Satisfied (maxBits alphaBits : List Fr) (isLess canSet : ℕ → Fr) : Prop where
  init_isLess : isLess 0 = 1
  init_canSet : canSet 0 = 1
  gate : ∀ row m a, (maxBits.zip alphaBits)[row]? = some (m, a) →
    Gate (isLess row) (canSet row) m a (isLess (row + 1)) (canSet (row + 1))
  last : isLess (maxBits.zip alphaBits).length = 0

/-- The rows are satisfied exactly by columns that satisfy the gates. By induction on the rows. -/
lemma rows_iff_columns (lastIsLess lastCanSet : Fr) (bits : List (Fr × Fr)) (env : Env Fr) :
    rows lastIsLess lastCanSet bits env () ↔
      ∃ isLess canSet : ℕ → Fr, isLess 0 = lastIsLess ∧ canSet 0 = lastCanSet ∧
        (∀ row m a, bits[row]? = some (m, a) →
          Gate (isLess row) (canSet row) m a (isLess (row + 1)) (canSet (row + 1))) ∧
        isLess bits.length = 0 := by
  induction bits generalizing lastIsLess lastCanSet with
  | nil =>
    constructor
    · intro h
      exact ⟨fun _ => lastIsLess, fun _ => lastCanSet, rfl, rfl, by simp, h⟩
    · rintro ⟨isLess, canSet, rfl, rfl, -, hlast⟩
      exact hlast
  | cons entry bits ih =>
    obtain ⟨m, a⟩ := entry
    rw [rows_cons_iff, ih]
    constructor
    · rintro ⟨isLess, canSet, hisLess, hcanSet, hgate, hlast⟩
      refine ⟨consRow lastIsLess isLess, consRow lastCanSet canSet, rfl, rfl, ?_, hlast⟩
      rintro (_ | row) m' a' hrow
      · obtain ⟨rfl, rfl⟩ := Prod.mk.inj (Option.some.inj hrow)
        refine ⟨?_, ?_⟩
        · simp only [consRow, hisLess, sub_self]
        · simp only [consRow, hcanSet, sub_self]
      · exact hgate row m' a' hrow
    · rintro ⟨isLess, canSet, rfl, rfl, hgate, hlast⟩
      obtain ⟨hisLess, hcanSet⟩ := hgate 0 m a rfl
      refine ⟨fun row => isLess (row + 1), fun row => canSet (row + 1),
        (sub_eq_zero.1 hisLess).symm, (sub_eq_zero.1 hcanSet).symm, ?_, hlast⟩
      intro row m' a' hrow
      exact hgate (row + 1) m' a' hrow

/-- The fragment of the chip is satisfied exactly by columns that satisfy its constraints. -/
theorem assign_iff_columns (maxBits alphaBits : List Fr) (env : Env Fr) :
    assign maxBits alphaBits env () ↔
      maxBits.length = alphaBits.length ∧
        ∃ isLess canSet, Satisfied maxBits alphaBits isLess canSet := by
  simp only [assign, bind_iff, assertC_iff, assignAdviceFromConstant_iff, exists_eq_left,
    exists_const, rows_iff_columns]
  constructor
  · rintro ⟨hlen, isLess, canSet, hisLess, hcanSet, hgate, hlast⟩
    exact ⟨hlen, isLess, canSet, hisLess, hcanSet, hgate, hlast⟩
  · rintro ⟨hlen, isLess, canSet, hisLess, hcanSet, hgate, hlast⟩
    exact ⟨hlen, isLess, canSet, hisLess, hcanSet, hgate, hlast⟩

/-- **The comparison.** Some auxiliary columns satisfy the constraints on two lists of digits of
one length, most significant first, exactly if the second number is smaller than the first one. -/
theorem exists_columns_iff (maxBits alphaBits : List Bool)
    (hlen : maxBits.length = alphaBits.length) :
    (∃ isLess canSet, Satisfied (maxBits.map bit) (alphaBits.map bit) isLess canSet) ↔
      Bits.ofBE alphaBits < Bits.ofBE maxBits := by
  have henv := assign_iff maxBits alphaBits hlen ⟨.malicious, [], fun _ => 0, ∅⟩ ()
  rw [← henv, assign_iff_columns]
  simp [hlen]

/-- Columns for the numbers two and one. -/
theorem exists_columns_two_one :
    ∃ isLess canSet, Satisfied ([true, false].map bit) ([false, true].map bit) isLess canSet :=
  (exists_columns_iff [true, false] [false, true] rfl).2 (by decide)

/-- The first number need not be the smaller one: there are columns for the numbers one and
zero. -/
theorem exists_columns_one_zero :
    (∃ isLess canSet, Satisfied ([true].map bit) ([false].map bit) isLess canSet) ∧
      ¬ Bits.ofBE [true] < Bits.ofBE [false] := by
  refine ⟨⟨consRow 1 fun _ => 0, consRow 1 fun _ => 0, rfl, rfl, ?_, rfl⟩, by decide⟩
  rintro (_ | row) m a hrow
  · obtain ⟨rfl, rfl⟩ := Prod.mk.inj (Option.some.inj hrow)
    exact ⟨by decide, by decide⟩
  · simp at hrow

end IsLessThanChip

/-! ## The decomposition -/

namespace BinaryDecomposition

/-- The gate `range check` on the cells of a row and the running sum of the next one. -/
structure Gate (windowNumBits : ℕ) (zCur zNext b : Fr) : Prop where
  range : rangeCheck (zCur - zNext * 2 ^ windowNumBits) (2 ^ windowNumBits) = 0
  word_eq : b - (zCur - zNext * 2 ^ windowNumBits) = 0

/-- **The constraints of the decomposition** of a cell into words: the running sum starts with the
cell, the gate is enabled on each window, and the last running sum is zero. -/
structure Satisfied (windowNumBits numWindows : ℕ) (alpha : Fr) (z b : ℕ → Fr) : Prop where
  init : z 0 = alpha
  gate : ∀ row < numWindows, Gate windowNumBits (z row) (z (row + 1)) (b row)
  last : z numWindows = 0

/-- Whoever fills in the cells, the rows are satisfied exactly by columns that satisfy the gates.
By induction on the rows. -/
lemma rows_iff_columns (windowNumBits : ℕ) (alpha : Fr) (words : List Fr) {env : Env Fr}
    (henv : env.prover = .malicious) (bs : List Fr) :
    rows windowNumBits alpha words env bs ↔
      ∃ z b : ℕ → Fr, Satisfied windowNumBits words.length alpha z b ∧
        bs = (List.range words.length).map b := by
  have hprover : ¬ env.prover = .honest := by
    rw [henv]
    nofun
  induction words generalizing alpha bs with
  | nil =>
    simp only [rows, bind_iff, constrainConstant_iff, pure_iff, exists_const]
    constructor
    · rintro ⟨hz, rfl⟩
      exact ⟨fun _ => alpha, fun _ => 0, ⟨rfl, by simp, hz⟩, rfl⟩
    · rintro ⟨z, b, ⟨rfl, -, hlast⟩, rfl⟩
      exact ⟨hlast, rfl⟩
  | cons word words ih =>
    simp only [rows, bind_iff, assignAdvice_iff, gate_iff, pure_iff, exists_const, ih,
      List.length_cons, List.range_succ_eq_map, List.map_cons, List.map_map]
    constructor
    · rintro ⟨zNext, -, b₀, -, hrange, hword, _, ⟨z, b, ⟨hinit, hgate, hlast⟩, rfl⟩, rfl⟩
      refine ⟨consRow alpha z, consRow b₀ b, ⟨rfl, ?_, hlast⟩, rfl⟩
      rintro (_ | row) hrow
      · exact ⟨by simpa only [consRow, hinit] using hrange,
          by simpa only [consRow, hinit] using hword⟩
      · exact hgate row (by omega)
    · rintro ⟨z, b, ⟨rfl, hgate, hlast⟩, rfl⟩
      obtain ⟨hrange, hword⟩ := hgate 0 (by omega)
      refine ⟨z 1, fun h => absurd h hprover, b 0, fun h => absurd h hprover, hrange, hword, _,
        ⟨fun row => z (row + 1), fun row => b (row + 1), ⟨rfl, ?_, hlast⟩, rfl⟩, rfl⟩
      intro row hrow
      exact hgate (row + 1) (by omega)

/-- Whoever fills in the cells, the fragment of the chip is satisfied exactly by columns that
satisfy its constraints. -/
theorem copyDecompose_iff_columns (alpha : Fr) {env : Env Fr} (henv : env.prover = .malicious)
    (bs : List Fr) :
    copyDecompose 1 alpha 256 256 env bs ↔
      ∃ z b : ℕ → Fr, Satisfied 1 256 alpha z b ∧ bs = (List.range 256).map b := by
  simp only [copyDecompose, bind_iff, assertC_iff, copyAdvice_iff, exists_eq_left,
    rows_iff_columns 1 alpha _ henv, List.length_map, List.length_range]
  simp

end BinaryDecomposition

/-! ## The two together -/

namespace Insert

/-- The auxiliary cells of the decomposition and of the comparison. -/
structure DecompositionCells where
  z : ℕ → Fr
  b : ℕ → Fr
  isLess : ℕ → Fr
  canSet : ℕ → Fr

/-- The cells of the decomposition satisfy the constraints as `Insert` uses them: 256 windows of
one bit, compared with the modulus in the reverse order. -/
structure DecompositionCells.Satisfied (cells : DecompositionCells) (leaf : Fr) (bs : List Fr) :
    Prop where
  decomposition : BinaryDecomposition.Satisfied 1 256 leaf cells.z cells.b
  bits : bs = (List.range 256).map cells.b
  comparison : IsLessThanChip.Satisfied (modulusBits.map bit) bs.reverse cells.isLess cells.canSet

/-- Some cells decompose the leaf into these digits. -/
def Decomposes (leaf : Fr) (bs : List Fr) : Prop :=
  ∃ cells : DecompositionCells, cells.Satisfied leaf bs

/-- The two fragments of the circuit are satisfied exactly if some cells decompose the leaf. -/
lemma decomposes_iff_fragments (leaf : Fr) (bs : List Fr) {env : Env Fr}
    (henv : env.prover = .malicious) :
    Decomposes leaf bs ↔ BinaryDecomposition.copyDecompose 1 leaf 256 256 env bs ∧
      IsLessThanChip.assign (modulusBits.map bit) bs.reverse env () := by
  rw [BinaryDecomposition.copyDecompose_iff_columns leaf henv, IsLessThanChip.assign_iff_columns]
  constructor
  · rintro ⟨cells, hdec, rfl, hcmp⟩
    refine ⟨⟨cells.z, cells.b, hdec, rfl⟩, ?_, cells.isLess, cells.canSet, hcmp⟩
    simp [modulusBits]
  · rintro ⟨⟨z, b, hdec, rfl⟩, -, isLess, canSet, hcmp⟩
    exact ⟨⟨z, b, isLess, canSet⟩, hdec, rfl, hcmp⟩

/-- An environment in which anyone fills in the cells. -/
def anyCells : Env Fr := ⟨.malicious, [], fun _ => 0, ∅⟩

/-- **The decomposition with the comparison**: exactly the digits of the representative below the
modulus pass, least significant first. -/
theorem decomposes_iff (leaf : Fr) (bs : List Fr) :
    Decomposes leaf bs ↔ bs = (Bits.toLE 256 leaf.val).map bit := by
  rw [decomposes_iff_fragments leaf bs (rfl : anyCells.prover = .malicious)]
  exact copyDecompose_lt_modulus_iff leaf anyCells bs

/-- Without the comparison, all digits that spell the leaf modulo the order of the field pass. -/
lemma exists_decomposition_iff (leaf : Fr) (ds : List Bool) :
    (∃ z b : ℕ → Fr, BinaryDecomposition.Satisfied 1 256 leaf z b ∧
        ds.map bit = (List.range 256).map b) ↔
      ds.length = 256 ∧ leaf = (Bits.ofLE ds : Fr) := by
  rw [← BinaryDecomposition.copyDecompose_iff_columns leaf (rfl : anyCells.prover = .malicious),
    BinaryDecomposition.copyDecompose_iff]
  constructor
  · rintro ⟨ds', hlen, hds, hleaf, -⟩
    obtain rfl := List.map_injective_iff.2 bit_injective hds
    exact ⟨hlen, hleaf⟩
  · rintro ⟨hlen, hleaf⟩
    exact ⟨ds, hlen, rfl, hleaf, nofun⟩

/-- In every satisfying assignment of an insert the leaf is decomposed, and the sides of the two
Merkle folds are the low digits of the decomposition. -/
lemma enforceConstraints_decomposes {depth : ℕ} {self : Insert depth} {paddingConstant : Fr}
    {env : Env Fr} {c : InsertConstraintCells} (h : self.enforceConstraints paddingConstant env c) :
    ∃ bs siblings : List Fr, Decomposes c.newLeaf bs ∧
      merkleRoot 0 (siblings.zip (bs.take (depth - 1))) env c.oldRoot ∧
      merkleRoot c.newLeaf (siblings.zip (bs.take (depth - 1))) env c.newRoot := by
  have hmodulus : (modulusBits.map fun b => if b = true then (1 : Fr) else 0) =
      modulusBits.map bit := rfl
  simp only [enforceConstraints, bind_iff, assignAdvice_iff, assignAdviceFromConstant_iff,
    pure_iff, exists_eq_left, hmodulus] at h
  obtain ⟨leaf, -, bs, hbs, ⟨⟩, hlt, siblings, -, oldRoot, hold, newRoot, hnew, _, -, rfl⟩ := h
  exact ⟨bs, siblings, (decomposes_iff leaf bs).2
    ((copyDecompose_lt_modulus_iff leaf env bs).1 ⟨hbs, hlt⟩), hold, hnew⟩

/-- **The decomposition is canonical.** The digits that pass are those of the representative of the
leaf below the modulus, whatever the other cells are. A second list of digits for the leaf passes
the decomposition alone, but not with the comparison.

**Proof sketch.** The gates allow any digits whose number is the leaf modulo the prime. The
comparison leaves those below the prime (`decomposes_iff`), and adding a multiple of it leads
beyond. -/
theorem decomposition_canonical (leaf : Fr) :
    (∀ bs, Decomposes leaf bs ↔ bs = (Bits.toLE 256 leaf.val).map bit) ∧
      Bits.ofLE (Bits.toLE 256 leaf.val) = leaf.val ∧ leaf.val < Element.MODULUS ∧
      ∀ (ds : List Bool) (k : ℕ), ds.length = 256 → 0 < k →
        Bits.ofLE ds = leaf.val + k * Element.MODULUS →
        (∃ z b : ℕ → Fr, BinaryDecomposition.Satisfied 1 256 leaf z b ∧
          ds.map bit = (List.range 256).map b) ∧ ¬ Decomposes leaf (ds.map bit) := by
  have hM := Element.MODULUS_lt
  have hlt : leaf.val < Element.MODULUS := ZMod.val_lt leaf
  have hval : Bits.ofLE (Bits.toLE 256 leaf.val) = leaf.val := by
    rw [Bits.ofLE_toLE]
    exact Nat.mod_eq_of_lt (by omega)
  refine ⟨decomposes_iff leaf, hval, hlt, fun ds k hlen hk hds => ⟨?_, fun hdec => ?_⟩⟩
  · rw [exists_decomposition_iff]
    refine ⟨hlen, ?_⟩
    rw [hds, Nat.cast_add, Nat.cast_mul, ZMod.natCast_zmod_val, ZMod.natCast_self, mul_zero,
      add_zero]
  · have heq := List.map_injective_iff.2 bit_injective ((decomposes_iff leaf _).1 hdec)
    rw [heq, hval] at hds
    have hpos : 0 < k * Element.MODULUS := Nat.mul_pos hk Element.prime_MODULUS.pos
    omega

/-- The digits of the modulus are a second decomposition of zero, which the comparison rejects. -/
theorem decomposition_canonical_zero :
    (∃ z b : ℕ → Fr, BinaryDecomposition.Satisfied 1 256 0 z b ∧
      (Bits.toLE 256 Element.MODULUS).map bit = (List.range 256).map b) ∧
      ¬ Decomposes 0 ((Bits.toLE 256 Element.MODULUS).map bit) := by
  have hM := Element.MODULUS_lt
  refine (decomposition_canonical 0).2.2.2 _ 1 (Bits.length_toLE _ _) Nat.one_pos ?_
  rw [Bits.ofLE_toLE, ZMod.val_zero, Nat.zero_add, Nat.one_mul]
  exact Nat.mod_eq_of_lt (by omega)

end Insert

end TempoRollup.Circuits
