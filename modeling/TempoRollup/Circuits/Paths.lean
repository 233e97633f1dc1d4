import TempoRollup.Circuits.Insert
import TempoRollup.Smirk.Tree

set_option relaxedAutoImplicit false
set_option autoImplicit false

/-!
# The folds of a Merkle path

A root is computed from a leaf and its siblings in four places: by `compute_merkle_root` of
`zk-primitives`, by `Path::compute_root_hash` of `smirk`, by `MerklePath::compute_root` of the
circuits crate, and by the constraints of `merkle_root`, over the digits that the circuit of an
insert takes from the leaf's cell. They differ in the order of the bits and in the type that they
compute with.

## Main definitions

* `CircuitRoot` — a cell that the circuit allows as the root, over digits that it allows.

## Main results

* `MerklePath.computeRootFromLeaf_eq` — the native fold over field elements is that over elements.
* `circuitRoot_iff` — the circuit allows the native root, and no other value.
* `roots_agree` — the four roots are the same, with the leaf and with the null leaf.
-/

open ConstraintSystem

namespace TempoRollup.Circuits

variable {depth : ℕ}

/-- **The native fold** computes with field elements; for a canonical leaf it is the fold of
`zk-primitives` over elements. By induction on the path. -/
theorem MerklePath.computeRootFromLeaf_eq (H : List Fr → Fr) (self : MerklePath depth)
    (hashPath : Element) {leaf : Element} (hleaf : leaf.isCanonical = true) :
    self.computeRootFromLeaf H hashPath leaf =
      computeMerkleRoot H leaf (self.siblings.zip (leastSignificantBits depth hashPath)) := by
  have hentries : self.entries hashPath =
      (self.siblings.zip (leastSignificantBits depth hashPath)).map
        (Prod.map Element.toBase id) := by
    rw [entries, List.map_zip_eq_zipWith, List.zip_map_left, List.map_zip_eq_zipWith]
  rw [computeRootFromLeaf, hentries]
  generalize self.siblings.zip (leastSignificantBits depth hashPath) = p
  induction p generalizing leaf with
  | nil => exact Element.fromBase_toBase hleaf
  | cons entry p ih =>
    obtain ⟨sibling, side⟩ := entry
    have hnext : ∀ l : List Element, (hashMerge H l).toBase = H (l.map Element.toBase) :=
      fun l => Element.toBase_fromBase _
    cases side with
    | false =>
      have hrest := ih (isCanonical_hashMerge H [leaf, sibling])
      rw [hnext] at hrest
      exact hrest
    | true =>
      have hrest := ih (isCanonical_hashMerge H [sibling, leaf])
      rw [hnext] at hrest
      exact hrest

/-- The constraints allow a cell as the root over a leaf: the digits are those that the circuit of
an insert allows for the cell of the element, and the siblings are cells. -/
def CircuitRoot (env : Env Fr) (path : MerklePath depth) (element : Element) (leaf cell : Fr) :
    Prop :=
  ∃ digits, BinaryDecomposition.copyDecompose 1 element.toBase 256 256 env digits ∧
    IsLessThanChip.assign (Insert.modulusBits.map bit) digits.reverse env () ∧
    merkleRoot leaf ((path.siblings.map Element.toBase).zip (digits.take (depth - 1))) env cell

/-- **The root in the circuit**: whoever fills in the cells, the root over a canonical element is
the native one. -/
theorem circuitRoot_iff (env : Env Fr) (path : MerklePath depth) {element : Element}
    (hcanon : element.isCanonical = true) (leaf : Element) (cell : Fr) :
    CircuitRoot env path element leaf.toBase cell ↔
      PathHashed env leaf.toBase (path.entries element) ∧
        cell = (path.computeRootFromLeaf env.hash element leaf).toBase := by
  have hdepth : depth - 1 ≤ 256 := by have := path.depth_le; omega
  have hzip : (path.siblings.map Element.toBase).zip
      (((Bits.toLE 256 element.toBase.val).map bit).take (depth - 1)) =
      (path.entries element).map (Prod.map id bit) := by
    rw [← List.map_take, Bits.take_toLE _ _ _ hdepth, zip_map_bit, MerklePath.entries,
      MerklePath.leastSignificantBits, Element.reverse_lsb _ hdepth, Element.val_toBase hcanon]
  rw [MerklePath.toBase_computeRootFromLeaf]
  unfold CircuitRoot
  constructor
  · rintro ⟨digits, hdigits, hless, hroot⟩
    -- the digits are the canonical ones
    obtain rfl := (copyDecompose_lt_modulus_iff element.toBase env digits).1 ⟨hdigits, hless⟩
    obtain ⟨p, hp, hhashed, rfl⟩ := (merkleRoot_iff _ _ env cell).1 hroot
    rw [hzip] at hp
    obtain rfl := map_bit_injective hp
    exact ⟨hhashed, rfl⟩
  · rintro ⟨hhashed, rfl⟩
    obtain ⟨hdigits, hless⟩ := (copyDecompose_lt_modulus_iff element.toBase env _).2 rfl
    refine ⟨_, hdigits, hless, (merkleRoot_iff _ _ env _).2 ⟨_, hzip, hhashed, rfl⟩⟩

/-- **The four roots agree.** For a canonical element and any siblings, at every depth: the native
root, the root of `smirk`'s path with these siblings, the fold of `zk-primitives` over the low bits
of the element, least significant first, and the only value that the circuit allows are the same;
and so they are with the null leaf in the place of the element.

**Proof sketch.** The path of `smirk` folds the same siblings along the same bits. For the native
root see `MerklePath.computeRootFromLeaf_eq`, for the circuit `circuitRoot_iff`; both hold with the
null leaf as well. -/
theorem roots_agree (env : Env Fr) (path : MerklePath depth) (element : Element)
    (hcanon : element.isCanonical = true) (treePath : Smirk.Path depth)
    (hsiblings : treePath.siblingsDeepestFirst = path.siblings)
    (helement : treePath.element = element) :
    (treePath.computeRootHash env.hash element = path.computeRoot env.hash element ∧
        computeMerkleRoot env.hash element
            (path.siblings.zip (MerklePath.leastSignificantBits depth element)) =
          path.computeRoot env.hash element ∧
        ∀ cell, CircuitRoot env path element element.toBase cell ↔
          PathHashed env element.toBase (path.entries element) ∧
            cell = (path.computeRoot env.hash element).toBase) ∧
      treePath.computeRootHash env.hash Element.NULL_HASH = path.computeNullRoot env.hash element ∧
        computeMerkleRoot env.hash Element.NULL_HASH
            (path.siblings.zip (MerklePath.leastSignificantBits depth element)) =
          path.computeNullRoot env.hash element ∧
        ∀ cell, CircuitRoot env path element 0 cell ↔
          PathHashed env 0 (path.entries element) ∧
            cell = (path.computeNullRoot env.hash element).toBase := by
  have hnull : Element.NULL_HASH.isCanonical = true := by decide
  have htree : ∀ x, treePath.computeRootHash env.hash x = computeMerkleRoot env.hash x
      (path.siblings.zip (MerklePath.leastSignificantBits depth element)) := by
    intro x
    rw [Smirk.Path.computeRootHash, hsiblings, Smirk.Path.lsb, helement]
    rfl
  have hroot := path.computeRootFromLeaf_eq env.hash element hcanon
  have hnullRoot := path.computeRootFromLeaf_eq env.hash element hnull
  refine ⟨⟨?_, hroot.symm, fun cell => circuitRoot_iff env path hcanon element cell⟩, ?_,
    hnullRoot.symm, fun cell => ?_⟩
  · rw [htree]
    exact hroot.symm
  · rw [htree]
    exact hnullRoot.symm
  · have hcell := circuitRoot_iff env path hcanon 0 cell
    rwa [Element.toBase_zero] at hcell

/-- An honest assignment with a hash that tells the two sides of a pair apart. -/
def sampleEnv : Env Fr := ⟨.honest, [], Smirk.Tree.sampleHash, Set.univ⟩

/-- A path of three siblings, the deepest first. -/
def samplePath : MerklePath 4 := ⟨[5, 7, 9], rfl, by decide⟩

/-- The same path in the tree, with the element 6 at its end. -/
def sampleTreePath : Smirk.Path 4 := ⟨[5, 7, 9, 6], 0, rfl⟩

/-- The element 6 stands on the left of its sibling, and then on the right twice: all four roots are
the same, and so they are over the null leaf; no other cell is allowed. -/
theorem roots_agree_of_three :
    (sampleTreePath.computeRootHash sampleEnv.hash 6 = 5790 ∧
        samplePath.computeRoot sampleEnv.hash 6 = 5790 ∧
        ∀ cell, CircuitRoot sampleEnv samplePath 6 (Element.toBase 6) cell ↔
          cell = Element.toBase 5790) ∧
      sampleTreePath.computeRootHash sampleEnv.hash Element.NULL_HASH = 5190 ∧
        samplePath.computeNullRoot sampleEnv.hash 6 = 5190 ∧
        ∀ cell, CircuitRoot sampleEnv samplePath 6 0 cell ↔ cell = Element.toBase 5190 := by
  obtain ⟨⟨htree, hfold, hcell⟩, htreeNull, hfoldNull, hcellNull⟩ :=
    roots_agree sampleEnv samplePath 6 (by decide) sampleTreePath rfl rfl
  have hleaf : computeMerkleRoot sampleEnv.hash 6
      (samplePath.siblings.zip (MerklePath.leastSignificantBits 4 6)) = 5790 := by
    decide +kernel
  have hnull : computeMerkleRoot sampleEnv.hash Element.NULL_HASH
      (samplePath.siblings.zip (MerklePath.leastSignificantBits 4 6)) = 5190 := by
    decide +kernel
  have hall : ∀ (leaf : Fr), PathHashed sampleEnv leaf (samplePath.entries 6) := fun leaf q _ =>
    Set.mem_univ _
  rw [hleaf] at hfold
  rw [hnull] at hfoldNull
  rw [← hfold] at htree hcell
  rw [← hfoldNull] at htreeNull hcellNull
  exact ⟨⟨htree, hfold.symm, fun cell => (hcell cell).trans (and_iff_right (hall _))⟩, htreeNull,
    hfoldNull.symm, fun cell => (hcellNull cell).trans (and_iff_right (hall _))⟩

end TempoRollup.Circuits
