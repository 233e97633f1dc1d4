import TempoRollup.Circuits.Note

set_option relaxedAutoImplicit false
set_option autoImplicit false

/-!
# The batch insert circuit

`zk-circuits/src/insert`: the constraints that insert one leaf in an empty slot of a sparse
Merkle tree, and the chain of such inserts from an old root to a new root.

## Main definitions

* `Insert`, `Insert.enforceConstraints` — `insert.rs`.
* `Batch`, `Batch.enforceConstraints`, `Batch.enforceInstances`, `Batch.publicInputs` —
  `batch.rs`.
* `Batch.Links` — the inserts of a batch link to each other.
* `insertLeaf`, `insertLeaves` — what the circuit is for: filling slots of a tree.

## Main results

* `Insert.enforceConstraints_iff` — the sides of the two Merkle folds are the low digits of
  the leaf's canonical representative.
* `Batch.synthesize_of_links` — a batch of linked inserts satisfies the circuit.
* `Batch.enforceConstraints_sound` — without collisions every satisfying assignment inserts
  the leaves in order, each non-zero one in a slot that was empty.
-/

open ConstraintSystem

namespace TempoRollup.Circuits

/-! ## The circuit of an insert -/

/-- `Insert`. -/
structure Insert (depth : ℕ) where
  leaf : Element
  path : MerklePath depth

/-- `InsertConstraintCells`. -/
structure InsertConstraintCells where
  newLeaf : Fr
  oldRoot : Fr
  newRoot : Fr
  isPadding : Fr
  deriving DecidableEq

namespace Insert

variable {depth : ℕ}

/-- `Insert::compute_null_root`. -/
def computeNullRoot (H : List Fr → Fr) (self : Insert depth) : Fr :=
  (self.path.computeNullRoot H self.leaf).toBase

/-- `Insert::compute_leaf_root`. -/
def computeLeafRoot (H : List Fr → Fr) (self : Insert depth) : Fr :=
  (self.path.computeRoot H self.leaf).toBase

/-- `Insert::is_padding`. -/
def isPadding (H : List Fr → Fr) (self : Insert depth) : Bool :=
  self.leaf == (Note.paddingNote H).commitment H

/-- `Element::MODULUS.to_be_bits()`. -/
def modulusBits : List Bool := Element.toBeBits (BitVec.ofNat 256 Element.MODULUS)

/-- `Insert::enforce_constraints`, with the constant its padding chip is configured with. -/
def enforceConstraints (self : Insert depth) (paddingConstant : Fr) :
    Circuit Fr InsertConstraintCells := do
  let newLeaf ← assignAdvice self.leaf.toBase
  let nullLeaf ← assignAdviceFromConstant 0
  let decomposedBits ← BinaryDecomposition.copyDecompose 1 newLeaf 256 256
  let zero ← assignAdviceFromConstant 0
  let one ← assignAdviceFromConstant 1
  -- the digits are those of a number within the modulus
  IsLessThanChip.assign (modulusBits.map fun b => if b then one else zero) decomposedBits.reverse
  let siblingWitnesses ← self.path.siblings.mapM fun w => assignAdvice w.toBase
  let siblings := siblingWitnesses.zip (decomposedBits.take (depth - 1))
  -- the old root is over the null leaf, the new root over the new leaf
  let oldRoot ← merkleRoot nullLeaf siblings
  let newRoot ← merkleRoot newLeaf siblings
  let isPadding ← IsConstantChip.assign paddingConstant newLeaf
  pure { newLeaf, oldRoot, newRoot, isPadding }

end Insert

/-- The digits of the modulus, most significant first. -/
lemma ofBE_modulusBits : Bits.ofBE Insert.modulusBits = Element.MODULUS := by
  have hM := Element.MODULUS_lt
  have hlsb : Insert.modulusBits = Element.lsb (BitVec.ofNat 256 Element.MODULUS) 256 := rfl
  rw [← Bits.ofLE_reverse, hlsb, Element.reverse_lsb _ le_rfl, Bits.ofLE_toLE,
    BitVec.toNat_ofNat, Nat.mod_mod]
  exact Nat.mod_eq_of_lt (by omega)

/-- **The canonical decomposition**: with the comparison against the modulus, the digits of
the 256-digit decomposition are those of the canonical representative, whoever chose them. -/
lemma copyDecompose_lt_modulus_iff (x : Fr) (env : Env Fr) (bs : List Fr) :
    (BinaryDecomposition.copyDecompose 1 x 256 256 env bs ∧
        IsLessThanChip.assign (Insert.modulusBits.map bit) bs.reverse env ()) ↔
      bs = (Bits.toLE 256 x.val).map bit := by
  have hM := Element.MODULUS_lt
  have hx : x.val < Element.MODULUS := ZMod.val_lt x
  have hmod : Insert.modulusBits.length = 256 := Element.length_toBeBits _
  -- the comparison reads the digits as a number below the modulus
  have hless : ∀ ds : List Bool, ds.length = 256 →
      (IsLessThanChip.assign (Insert.modulusBits.map bit) (ds.map bit).reverse env () ↔
        Bits.ofLE ds < Element.MODULUS) := by
    intro ds hlen
    rw [← List.map_reverse, IsLessThanChip.assign_iff _ _ (by simp [hmod, hlen]),
      ofBE_modulusBits, ← Bits.ofLE_reverse, List.reverse_reverse]
  rw [BinaryDecomposition.copyDecompose_iff]
  constructor
  · rintro ⟨⟨ds, hlen, rfl, rfl, -⟩, hlt⟩
    have hds := (hless ds hlen).1 hlt
    rw [ZMod.val_natCast, Nat.mod_eq_of_lt hds, ← hlen, Bits.toLE_ofLE]
  · rintro rfl
    have hval : Bits.ofLE (Bits.toLE 256 x.val) = x.val := by
      rw [Bits.ofLE_toLE]
      exact Nat.mod_eq_of_lt (by omega)
    refine ⟨⟨_, Bits.length_toLE _ _, rfl, ?_, fun _ => rfl⟩, ?_⟩
    · rw [hval, ZMod.natCast_zmod_val]
    · rw [hless _ (Bits.length_toLE _ _), hval]
      exact hx

/-- The values that a satisfying assignment gives to the witnessed cells of an insert. -/
structure InsertWitness where
  leaf : Fr
  siblings : List Fr

namespace InsertWitness

variable (env : Env Fr) (depth : ℕ) (w : InsertWitness)

/-- The path: the sides are the low digits of the leaf's representative. -/
def path : List (Fr × Bool) := w.siblings.zip (Bits.toLE (depth - 1) w.leaf.val)

/-- What the constraints ask of the witnessed cells. -/
structure Valid : Prop where
  length_siblings : w.siblings.length = depth - 1
  null_hashed : PathHashed env 0 (w.path depth)
  leaf_hashed : PathHashed env w.leaf (w.path depth)

/-- The cells of a witness. -/
def cells : InsertConstraintCells where
  newLeaf := w.leaf
  oldRoot := SparseMerkle.foldPath (hash2 env) 0 (w.path depth)
  newRoot := SparseMerkle.foldPath (hash2 env) w.leaf (w.path depth)
  isPadding := bit (decide (w.leaf = 0))

/-- The witness of the prover's own code. -/
def ofInsert {depth : ℕ} (i : Insert depth) : InsertWitness where
  leaf := i.leaf.toBase
  siblings := i.path.siblings.map Element.toBase

end InsertWitness

/-- **The constraints of an insert**: satisfied exactly by the cells of a valid witness.

**Proof sketch.** The bits of the leaf are its canonical ones, by the comparison with the modulus
(`copyDecompose_lt_modulus_iff`). So the sides of the path are determined, and the two roots are the
folds of the null leaf and of the leaf along one and the same path. -/
theorem Insert.enforceConstraints_iff {depth : ℕ} (self : Insert depth) (env : Env Fr)
    (c : InsertConstraintCells) :
    self.enforceConstraints 0 env c ↔
      ∃ w : InsertWitness, w.Valid env depth ∧ c = w.cells env depth ∧
        (env.prover = .honest → w = InsertWitness.ofInsert self) := by
  have hdepth := self.path.depth_le
  have hmodulus : (modulusBits.map fun b => if b = true then (1 : Fr) else 0) =
      modulusBits.map bit := rfl
  -- a path with digits for sides is the only one with these cells
  have hzip : ∀ (leaf : Fr) (siblings : List Fr) (p : List (Fr × Bool)),
      siblings.zip (((Bits.toLE 256 leaf.val).map bit).take (depth - 1)) =
          p.map (Prod.map id bit) ↔
        InsertWitness.path depth ⟨leaf, siblings⟩ = p := by
    intro leaf siblings p
    rw [← List.map_take, Bits.take_toLE _ _ _ (by omega), zip_map_bit, map_bit_injective.eq_iff]
    rfl
  simp only [enforceConstraints, bind_iff, assignAdvice_iff, assignAdviceFromConstant_iff,
    mapM_assignAdvice_iff, merkleRoot_iff, IsConstantChip.assign_iff, pure_iff, exists_eq_left,
    hmodulus, self.path.length_siblings]
  constructor
  · rintro ⟨leaf, hleaf, bs, hbs, ⟨⟩, hlt, siblings, ⟨hlen, hsib⟩, _, ⟨p, hp, hnull, rfl⟩, _,
      ⟨q, hq, hnew, rfl⟩, rfl⟩
    obtain rfl := (copyDecompose_lt_modulus_iff leaf env bs).1 ⟨hbs, hlt⟩
    obtain rfl := (hzip leaf siblings p).1 hp
    obtain rfl := (hzip leaf siblings q).1 hq
    refine ⟨⟨leaf, siblings⟩, ⟨hlen, hnull, hnew⟩, rfl, fun h => ?_⟩
    rw [InsertWitness.ofInsert, hleaf h, hsib h]
  · rintro ⟨w, hw, rfl, hhonest⟩
    obtain ⟨hbs, hlt⟩ := (copyDecompose_lt_modulus_iff w.leaf env _).2 rfl
    exact ⟨w.leaf, fun h => by rw [hhonest h]; rfl, _, hbs, (), hlt, w.siblings,
      ⟨hw.length_siblings, fun h => by rw [hhonest h]; rfl⟩, _,
      ⟨_, (hzip _ _ _).2 rfl, hw.null_hashed, rfl⟩, _,
      ⟨_, (hzip _ _ _).2 rfl, hw.leaf_hashed, rfl⟩, rfl⟩

/-! ## The circuit of a batch -/

/-- `Batch`: the number of inserts is a parameter of the source's type. -/
structure Batch (depth : ℕ) where
  inserts : List (Insert depth)

/-- `BatchConstraintCells`, with the roots after each insert that the source drops. -/
structure BatchConstraintCells where
  oldRoot : Fr
  newRoot : Fr
  leafs : List Fr
  /-- The values that `last_new_root` takes, one after each insert. -/
  roots : List Fr

namespace Batch

variable {depth : ℕ}

/-- `Batch::old_root`, the root of the first insert's path with the null leaf. -/
def oldRoot (H : List Fr → Fr) (self : Batch depth) : Fr :=
  match self.inserts with
  | [] => 0
  | insert :: _ => insert.computeNullRoot H

/-- `Batch::new_root`, the root of the last insert that is not padding. -/
def newRoot (H : List Fr → Fr) (self : Batch depth) : Fr :=
  ((self.inserts.reverse.find? fun i => !i.isPadding H).map fun i =>
    i.computeLeafRoot H).getD (self.oldRoot H)

/-- `Batch::leafs`. -/
def leafs (self : Batch depth) : List Fr := self.inserts.map fun insert => insert.leaf.toBase

/-- `Batch::public_inputs`. -/
def publicInputs (H : List Fr → Fr) (self : Batch depth) : List Fr :=
  [self.oldRoot H, self.newRoot H] ++ self.leafs

/-- One round of the loop over the inserts, from the last new root to the next. -/
def enforceInsert (paddingConstant lastNewRoot : Fr) (insert : Insert depth) :
    Circuit Fr InsertConstraintCells := do
  let cells ← insert.enforceConstraints paddingConstant
  let oldRoot ← CondSwapChip.swapAssigned (cells.oldRoot, lastNewRoot) cells.isPadding
  let newRoot ← CondSwapChip.swapAssigned (cells.newRoot, oldRoot.1) cells.isPadding
  constrainEqual lastNewRoot oldRoot.1
  pure { cells with oldRoot := oldRoot.1, newRoot := newRoot.1 }

/-- The loop over the inserts; it collects the leaves and the roots. -/
def enforceInserts (paddingConstant : Fr) :
    Fr → List (Insert depth) → Circuit Fr (List InsertConstraintCells)
  | _, [] => pure []
  | lastNewRoot, insert :: inserts => do
    let cells ← enforceInsert paddingConstant lastNewRoot insert
    let rest ← enforceInserts paddingConstant cells.newRoot inserts
    pure (cells :: rest)

/-- `Batch::enforce_constraints`, with the constant its padding chip is configured with. -/
def enforceConstraints (H : List Fr → Fr) (self : Batch depth) (paddingConstant : Fr) :
    Circuit Fr BatchConstraintCells := do
  assertC (self.inserts ≠ [])
  let oldRoot ← assignAdvice (self.oldRoot H)
  let cells ← enforceInserts paddingConstant oldRoot self.inserts
  let leafs := cells.map InsertConstraintCells.newLeaf
  let roots := cells.map InsertConstraintCells.newRoot
  pure { oldRoot, newRoot := roots.getLastD oldRoot, leafs, roots }

/-- `Batch::enforce_instances`. -/
def enforceInstances (cells : BatchConstraintCells) : Circuit Fr Unit := do
  constrainInstance cells.oldRoot 0
  constrainInstance cells.newRoot 1
  cells.leafs.zipIdx.forM fun entry => constrainInstance entry.1 (entry.2 + 2)

/-- The circuit as `insert/circuit.rs` configures and synthesizes it. -/
def synthesize (H : List Fr → Fr) (self : Batch depth) : Circuit Fr BatchConstraintCells := do
  let cells ← self.enforceConstraints H ((Note.paddingNote H).commitment H).toBase
  enforceInstances cells
  pure cells

/-- One round: a zero leaf keeps the root; a non-zero leaf leads from the last root, over the
null leaf, to the root over the leaf. -/
lemma enforceInsert_iff (lastNewRoot : Fr) (insert : Insert depth) (env : Env Fr)
    (c : InsertConstraintCells) :
    enforceInsert 0 lastNewRoot insert env c ↔
      ∃ w : InsertWitness, w.Valid env depth ∧
        (w.leaf ≠ 0 → lastNewRoot = (w.cells env depth).oldRoot) ∧
        c = { newLeaf := w.leaf, oldRoot := lastNewRoot,
              newRoot := if w.leaf = 0 then lastNewRoot else (w.cells env depth).newRoot,
              isPadding := bit (decide (w.leaf = 0)) } ∧
        (env.prover = .honest → w = InsertWitness.ofInsert insert) := by
  have hpad : ∀ w : InsertWitness, (w.cells env depth).isPadding = bit (decide (w.leaf = 0)) :=
    fun w => rfl
  simp only [enforceInsert, bind_iff, Insert.enforceConstraints_iff, constrainEqual_iff,
    pure_iff, exists_const]
  constructor
  · rintro ⟨_, ⟨w, hw, rfl, hhonest⟩, old, hold, new, hnew, heq, rfl⟩
    rw [hpad, CondSwapChip.swapAssigned_bit_iff] at hold hnew
    refine ⟨w, hw, fun h0 => ?_, ?_, hhonest⟩
    · rw [heq, hold]
      simp [h0]
    · by_cases h0 : w.leaf = 0
      · simp [hold, hnew, h0, InsertWitness.cells]
      · simp [hnew, h0, heq, InsertWitness.cells]
  · rintro ⟨w, hw, hroot, rfl, hhonest⟩
    refine ⟨_, ⟨w, hw, rfl, hhonest⟩, _, (CondSwapChip.swapAssigned_bit_iff _ _ _ _).2 rfl, _,
      (CondSwapChip.swapAssigned_bit_iff _ _ _ _).2 rfl, ?_, ?_⟩
    · by_cases h0 : w.leaf = 0
      · simp [h0]
      · simp [h0, hroot h0]
    · by_cases h0 : w.leaf = 0
      · simp [h0, InsertWitness.cells]
      · simp [h0, hroot h0, InsertWitness.cells]

end Batch

/-! ## Inserts that link to each other -/

section Completeness

variable {depth : ℕ}

/-- The root that a path computes is the fold along its entries. -/
lemma MerklePath.toBase_computeRootFromLeaf (env : Env Fr) (self : MerklePath depth)
    (hashPath leaf : Element) :
    (self.computeRootFromLeaf env.hash hashPath leaf).toBase =
      SparseMerkle.foldPath (hash2 env) leaf.toBase (self.entries hashPath) := by
  rw [computeRootFromLeaf, Element.toBase_fromBase]
  generalize self.entries hashPath = p
  generalize leaf.toBase = x
  induction p generalizing x with
  | nil => rfl
  | cons entry p ih =>
    obtain ⟨sibling, side⟩ := entry
    cases side <;> exact ih _

/-- The sides that the circuit takes from a canonical leaf are those of the native path. -/
lemma InsertWitness.path_ofInsert (i : Insert depth) (hcanon : i.leaf.isCanonical = true) :
    (ofInsert i).path depth = i.path.entries i.leaf := by
  have hdepth : depth - 1 ≤ 256 := by have := i.path.depth_le; omega
  rw [path, MerklePath.entries, MerklePath.leastSignificantBits, Element.reverse_lsb _ hdepth]
  simp only [ofInsert, Element.val_toBase hcanon]

/-- Where every message may be hashed, the prover's own code gives every insert a valid
witness. -/
lemma InsertWitness.valid_ofInsert (env : Env Fr) (hall : env.hashed = Set.univ)
    (i : Insert depth) : (ofInsert i).Valid env depth where
  length_siblings := by simp [ofInsert, i.path.length_siblings]
  null_hashed := by simp [PathHashed, hall]
  leaf_hashed := by simp [PathHashed, hall]

/-- The root after an insert: padding keeps the root. -/
def Insert.rootAfter (H : List Fr → Fr) (root : Fr) (insert : Insert depth) : Fr :=
  if insert.isPadding H then root else insert.computeLeafRoot H

namespace Batch

/-- The inserts link to each other: each one that is not padding starts at the root that the
inserts before it lead to. -/
def Links (H : List Fr → Fr) : Fr → List (Insert depth) → Prop
  | _, [] => True
  | root, insert :: inserts =>
    (insert.isPadding H = false → insert.computeNullRoot H = root) ∧
      Links H (insert.rootAfter H root) inserts

/-- The root of the last insert that is not padding is the root after all inserts. -/
lemma getD_find?_reverse (H : List Fr → Fr) (root : Fr) (inserts : List (Insert depth)) :
    ((inserts.reverse.find? fun i => !i.isPadding H).map fun i => i.computeLeafRoot H).getD root =
      inserts.foldl (Insert.rootAfter H) root := by
  induction inserts generalizing root with
  | nil => rfl
  | cons insert inserts ih =>
    rw [List.foldl_cons, ← ih, List.reverse_cons, List.find?_append]
    cases inserts.reverse.find? fun i => !i.isPadding H with
    | some last => rfl
    | none =>
      rw [Insert.rootAfter]
      cases hpad : insert.isPadding H <;> simp [hpad]

/-- The new root is that of the insertions one after the other. -/
lemma newRoot_eq_foldl (H : List Fr → Fr) (self : Batch depth) :
    self.newRoot H = self.inserts.foldl (Insert.rootAfter H) (self.oldRoot H) :=
  getD_find?_reverse H _ _

variable {env : Env Fr} (hall : env.hashed = Set.univ)
include hall

/-- The round of an insert that starts at the last root, or is padding, is satisfied. -/
lemma enforceInsert_of_links (root : Fr) (insert : Insert depth)
    (hcanon : insert.leaf.isCanonical = true)
    (hlink : insert.isPadding env.hash = false → insert.computeNullRoot env.hash = root) :
    ∃ c, enforceInsert 0 root insert env c ∧ c.newLeaf = insert.leaf.toBase ∧
      c.newRoot = insert.rootAfter env.hash root := by
  have hzero : insert.leaf.toBase = 0 ↔ insert.isPadding env.hash = true := by
    rw [Element.toBase_eq_zero_iff hcanon, Insert.isPadding, Note.commitment_paddingNote,
      beq_iff_eq]
  have hpath := InsertWitness.path_ofInsert insert hcanon
  refine ⟨_, (enforceInsert_iff root insert env _).2 ⟨InsertWitness.ofInsert insert,
    InsertWitness.valid_ofInsert env hall insert, fun hne => ?_, rfl, fun _ => rfl⟩, rfl, ?_⟩
  · rw [InsertWitness.cells, hpath, ← hlink (by rwa [← Bool.not_eq_true, ← hzero]),
      Insert.computeNullRoot, MerklePath.computeNullRoot, MerklePath.toBase_computeRootFromLeaf,
      Element.toBase_zero]
  · rw [Insert.rootAfter, InsertWitness.cells, hpath, Insert.computeLeafRoot,
      MerklePath.computeRoot, MerklePath.toBase_computeRootFromLeaf]
    exact if_congr hzero rfl rfl

/-- **The loop over linked inserts** is satisfied, by induction on the inserts. -/
lemma enforceInserts_of_links (root : Fr) (inserts : List (Insert depth))
    (hcanon : ∀ i ∈ inserts, i.leaf.isCanonical = true) (hlinks : Links env.hash root inserts) :
    ∃ cells, enforceInserts 0 root inserts env cells ∧
      cells.map InsertConstraintCells.newLeaf = inserts.map (fun i => i.leaf.toBase) ∧
      (cells.map InsertConstraintCells.newRoot).getLastD root =
        inserts.foldl (Insert.rootAfter env.hash) root := by
  induction inserts generalizing root with
  | nil => exact ⟨[], rfl, rfl, rfl⟩
  | cons insert inserts ih =>
    obtain ⟨c, hc, hleaf, hroot⟩ := enforceInsert_of_links hall root insert
      (hcanon insert List.mem_cons_self) hlinks.1
    obtain ⟨cells, hcells, hleafs, hlast⟩ := ih (insert.rootAfter env.hash root)
      (fun i hi => hcanon i (List.mem_cons_of_mem _ hi)) hlinks.2
    rw [← hroot] at hcells
    refine ⟨c :: cells, ⟨c, hc, cells, hcells, rfl⟩, ?_, ?_⟩
    · rw [List.map_cons, List.map_cons, hleaf, hleafs]
    · rw [List.map_cons, List.getLastD_cons, hroot, hlast, List.foldl_cons]

/-- **Completeness of the batch insert circuit**: a batch whose inserts link to each other, from
the old root on, satisfies the circuit on its own public inputs. -/
theorem synthesize_of_links (self : Batch depth)
    (hinst : env.instances = self.publicInputs env.hash)
    (hne : self.inserts ≠ []) (hcanon : ∀ i ∈ self.inserts, i.leaf.isCanonical = true)
    (hlinks : Links env.hash (self.oldRoot env.hash) self.inserts) :
    ∃ cells, self.synthesize env.hash env cells ∧ cells.oldRoot = self.oldRoot env.hash ∧
      cells.newRoot = self.newRoot env.hash ∧ cells.leafs = self.leafs := by
  obtain ⟨cells, hcells, hleafs, hlast⟩ := enforceInserts_of_links hall _ _ hcanon hlinks
  have hnew : (cells.map InsertConstraintCells.newRoot).getLastD (self.oldRoot env.hash) =
      self.newRoot env.hash := by
    rw [hlast, newRoot_eq_foldl]
  refine ⟨{ oldRoot := self.oldRoot env.hash, newRoot := self.newRoot env.hash,
            leafs := self.leafs, roots := cells.map InsertConstraintCells.newRoot },
    ?_, rfl, rfl, rfl⟩
  simp only [synthesize, enforceConstraints, Note.commitment_paddingNote, Element.toBase_zero,
    bind_iff, assertC_iff, assignAdvice_iff, pure_iff, exists_const]
  refine ⟨_, ⟨hne, _, fun _ => rfl, cells, hcells, rfl⟩, (), ?_, ?_⟩
  · simp only [enforceInstances, bind_iff, constrainInstance_iff, exists_const, forM_iff, hinst,
      publicInputs, hnew, hleafs]
    refine ⟨rfl, rfl, fun entry hentry => ?_⟩
    obtain ⟨leaf, k⟩ := entry
    rw [List.mem_zipIdx_iff_getElem?] at hentry
    have hget : self.leafs[k]? = some leaf := hentry
    simp [List.getD_eq_getElem?_getD, hget]
  · rw [hnew, hleafs]
    rfl

end Batch

end Completeness

/-! ## What a batch does to a tree -/

/-- The slot of a leaf: the low digits of its canonical representative. -/
def slotOf (depth : ℕ) (leaf : Fr) : ℕ := (Element.fromBase leaf).slot (depth - 1)

/-- Insert a leaf in its slot; a zero leaf is padding. -/
def insertLeaf (depth : ℕ) (T : ℕ → Fr) (leaf : Fr) : ℕ → Fr :=
  if leaf = 0 then T else Function.update T (slotOf depth leaf) leaf

/-- Insert leaves in order. -/
def insertLeaves (depth : ℕ) (T : ℕ → Fr) (leafs : List Fr) : ℕ → Fr :=
  leafs.foldl (insertLeaf depth) T

/-- The pairs of nodes that the assignment may hash. -/
def hashedPairs (env : Env Fr) : Set (Fr × Fr) := {q | [q.1, q.2] ∈ env.hashed}

/-- The root of a tree of the circuit's depth. -/
def treeRoot (env : Env Fr) (depth : ℕ) (T : ℕ → Fr) : Fr :=
  SparseMerkle.root (hash2 env) T (depth - 1)

/-- The pairs hashed in a tree of the circuit's depth are among those of the assignment. -/
def TreeHashed (env : Env Fr) (depth : ℕ) (T : ℕ → Fr) : Prop :=
  SparseMerkle.nodePairs (hash2 env) T (depth - 1) ⊆ hashedPairs env

/-- A slot is one of the tree. -/
lemma slotOf_lt (depth : ℕ) (leaf : Fr) : slotOf depth leaf < 2 ^ (depth - 1) :=
  Element.slot_lt _ _

section Soundness

variable {env : Env Fr} {depth : ℕ}

/-- Without collisions of messages there is none between pairs of nodes. -/
lemma injOn_hash2 (hinj : Set.InjOn env.hash env.hashed) :
    Set.InjOn (Function.uncurry (hash2 env)) (hashedPairs env) := by
  rintro ⟨a, b⟩ hab ⟨c, d⟩ hcd h
  have := hinj hab hcd h
  simpa using this

/-- A path that leads from a leaf to the root of a tree proves that the tree has the leaf in
the slot its sides spell. -/
lemma eq_of_foldPath_eq_treeRoot (hinj : Set.InjOn env.hash env.hashed) {T : ℕ → Fr}
    (hT : TreeHashed env depth T) {leaf : Fr} {p : List (Fr × Bool)}
    (hlen : p.length = depth - 1) (hp : PathHashed env leaf p)
    (hroot : SparseMerkle.foldPath (hash2 env) leaf p = treeRoot env depth T) :
    leaf = T (Bits.ofLE (p.map Prod.snd)) ∧
      p = SparseMerkle.path (hash2 env) T 0 (Bits.ofLE (p.map Prod.snd)) (depth - 1) := by
  have := SparseMerkle.eq_path_of_foldPath_eq_root (hash2 env) (injOn_hash2 hinj) T (depth - 1)
    hT p 0 (by omega) leaf hp hroot
  rwa [hlen] at this

namespace InsertWitness

variable {w : InsertWitness}

/-- The sides of the path of an insert spell the slot of its leaf. -/
lemma ofLE_map_snd_path (hw : w.Valid env depth) :
    Bits.ofLE ((w.path depth).map Prod.snd) = slotOf depth w.leaf := by
  rw [path, List.map_snd_zip (by rw [hw.length_siblings, Bits.length_toLE]), Bits.ofLE_toLE,
    slotOf, Element.slot, Element.toNat_fromBase]

/-- A valid path has a level less than the tree. -/
lemma length_path (hw : w.Valid env depth) : (w.path depth).length = depth - 1 := by
  rw [path, List.length_zip, hw.length_siblings, Bits.length_toLE, min_self]

/-- **One insert**: the null leaf at the old root shows that the leaf's slot is empty, and
the same siblings lead from the leaf to the root of the tree with the slot filled. -/
lemma sound (hinj : Set.InjOn env.hash env.hashed) (hw : w.Valid env depth) {T : ℕ → Fr}
    (hT : TreeHashed env depth T) (hroot : treeRoot env depth T = (w.cells env depth).oldRoot) :
    T (slotOf depth w.leaf) = 0 ∧
      (w.cells env depth).newRoot =
        treeRoot env depth (Function.update T (slotOf depth w.leaf) w.leaf) ∧
      TreeHashed env depth (Function.update T (slotOf depth w.leaf) w.leaf) := by
  obtain ⟨hempty, hpath⟩ := eq_of_foldPath_eq_treeRoot hinj hT (length_path hw) hw.null_hashed
    hroot.symm
  rw [ofLE_map_snd_path hw] at hempty hpath
  refine ⟨hempty.symm, ?_, ?_⟩
  · rw [cells, hpath]
    exact SparseMerkle.foldPath_path_update _ T _ _ (slotOf_lt _ _) _
  · intro q hq
    rcases SparseMerkle.nodePairs_update_subset _ T (depth - 1) _ _ hq with hold | hnew
    · exact hT hold
    · refine hw.leaf_hashed q ?_
      rw [hpath]
      exact hnew

/-- The witness of a leaf in a tree: the siblings of its slot. -/
def ofTree (env : Env Fr) (depth : ℕ) (T : ℕ → Fr) (leaf : Fr) : InsertWitness where
  leaf := leaf
  siblings := (SparseMerkle.path (hash2 env) T 0 (slotOf depth leaf) (depth - 1)).map Prod.fst

/-- The path of an insertion into a tree is the path of the tree. -/
lemma path_ofTree (T : ℕ → Fr) (leaf : Fr) : (ofTree env depth T leaf).path depth =
    SparseMerkle.path (hash2 env) T 0 (slotOf depth leaf) (depth - 1) := by
  have hsides : (SparseMerkle.path (hash2 env) T 0 (slotOf depth leaf) (depth - 1)).map Prod.snd =
      Bits.toLE (depth - 1) leaf.val := by
    rw [SparseMerkle.map_snd_path, slotOf, Element.slot, Element.toNat_fromBase, Bits.toLE_mod]
  rw [path, ofTree, ← hsides, List.zip_map', List.map_id']

/-- **Any leaf can be inserted** in a tree whose slot for it is empty, from the root of the tree to
the root of the tree with the leaf, if the messages of both trees are hashed. -/
lemma valid_ofTree {T : ℕ → Fr} {leaf : Fr} (hT : TreeHashed env depth T)
    (hT' : TreeHashed env depth (Function.update T (slotOf depth leaf) leaf))
    (hempty : T (slotOf depth leaf) = 0) :
    (ofTree env depth T leaf).Valid env depth ∧
      ((ofTree env depth T leaf).cells env depth).oldRoot = treeRoot env depth T ∧
      ((ofTree env depth T leaf).cells env depth).newRoot =
        treeRoot env depth (Function.update T (slotOf depth leaf) leaf) := by
  have hslot := slotOf_lt depth leaf
  refine ⟨⟨?_, fun q hq => hT ?_, fun q hq => hT' ?_⟩, ?_, ?_⟩
  · rw [ofTree, List.length_map, SparseMerkle.length_path]
  · rw [path_ofTree] at hq
    have hmem := SparseMerkle.mem_nodePairs_of_mem_pathPairs (hash2 env) T (depth - 1) 0 _ hslot q
    rw [SparseMerkle.node, hempty, Nat.zero_add] at hmem
    exact hmem hq
  · rw [path_ofTree] at hq
    exact SparseMerkle.mem_nodePairs_update_of_mem_pathPairs _ T _ _ hslot _ hq
  · rw [cells, path_ofTree, treeRoot, ← SparseMerkle.foldPath_path _ T _ _ hslot, hempty]
  · rw [cells, path_ofTree]
    exact SparseMerkle.foldPath_path_update _ T _ _ hslot _

end InsertWitness

/-- What the cells of the inserts say about the tree `T` before them: the leaves go in order
into empty slots, and each root is that of the tree so far. -/
structure Inserted (env : Env Fr) (depth : ℕ) (T : ℕ → Fr) (leafs roots : List Fr) : Prop where
  length_eq : leafs.length = roots.length
  slot_empty : ∀ k leaf, leafs[k]? = some leaf → leaf ≠ 0 →
    insertLeaves depth T (leafs.take k) (slotOf depth leaf) = 0
  root_eq : ∀ k root, roots[k]? = some root →
    root = treeRoot env depth (insertLeaves depth T (leafs.take (k + 1)))
  tree_hashed : TreeHashed env depth (insertLeaves depth T leafs)

/-- A leaf in front: the rest is inserted in the tree with that leaf. -/
lemma Inserted.cons {T : ℕ → Fr} {leaf root : Fr} {leafs roots : List Fr}
    (hslot : leaf ≠ 0 → T (slotOf depth leaf) = 0)
    (hroot : root = treeRoot env depth (insertLeaf depth T leaf))
    (hrest : Inserted env depth (insertLeaf depth T leaf) leafs roots) :
    Inserted env depth T (leaf :: leafs) (root :: roots) where
  length_eq := by simp [hrest.length_eq]
  slot_empty k l hl hne := by
    rcases k with _ | k
    · obtain rfl : leaf = l := by simpa using hl
      exact hslot hne
    · exact hrest.slot_empty k l hl hne
  root_eq k r hr := by
    rcases k with _ | k
    · obtain rfl : root = r := by simpa using hr
      exact hroot
    · exact hrest.root_eq k r hr
  tree_hashed := hrest.tree_hashed

/-- The roots, with the one before the inserts in front: after `k` leaves the root is that of
the tree with these leaves. -/
lemma Inserted.getElem?_cons_roots {T : ℕ → Fr} {leafs roots : List Fr}
    (h : Inserted env depth T leafs roots) (k : ℕ) (hk : k ≤ leafs.length) :
    (treeRoot env depth T :: roots)[k]? =
      some (treeRoot env depth (insertLeaves depth T (leafs.take k))) := by
  rcases k with _ | k
  · rfl
  · have hk' : k < roots.length := by rw [← h.length_eq]; omega
    rw [List.getElem?_cons_succ, List.getElem?_eq_getElem hk',
      ← h.root_eq k _ (List.getElem?_eq_getElem hk')]

/-- A zero leaf leaves the tree as it is. -/
lemma insertLeaves_take_succ_of_zero (depth : ℕ) (T : ℕ → Fr) (leafs : List Fr) (k : ℕ)
    (hk : leafs[k]? = some 0) :
    insertLeaves depth T (leafs.take (k + 1)) = insertLeaves depth T (leafs.take k) := by
  rw [List.take_add_one, hk, insertLeaves, insertLeaves, List.foldl_append]
  simp [insertLeaf]

/-- The last root is that of the tree with all leaves. -/
lemma Inserted.getLastD_roots {T : ℕ → Fr} {leafs roots : List Fr}
    (h : Inserted env depth T leafs roots) :
    roots.getLastD (treeRoot env depth T) =
      treeRoot env depth (insertLeaves depth T leafs) := by
  rcases List.eq_nil_or_concat roots with rfl | ⟨rs, r, rfl⟩
  · obtain rfl := List.length_eq_zero_iff.1 h.length_eq
    rfl
  · have hr := h.root_eq rs.length r (by simp)
    rw [List.take_of_length_le (by rw [h.length_eq]; simp)] at hr
    simpa using hr

namespace Batch

/-- **The loop over the inserts**, by induction on the inserts: each round takes a tree with
the last root to the tree with the round's leaf. -/
lemma enforceInserts_sound (hinj : Set.InjOn env.hash env.hashed)
    (inserts : List (Insert depth)) (T : ℕ → Fr) (hT : TreeHashed env depth T)
    (cells : List InsertConstraintCells)
    (h : enforceInserts 0 (treeRoot env depth T) inserts env cells) :
    Inserted env depth T (cells.map InsertConstraintCells.newLeaf)
      (cells.map InsertConstraintCells.newRoot) := by
  induction inserts generalizing T cells with
  | nil =>
    obtain rfl : cells = [] := h
    exact ⟨rfl, by simp, by simp, hT⟩
  | cons insert inserts ih =>
    simp only [enforceInserts, bind_iff, enforceInsert_iff, pure_iff] at h
    obtain ⟨_, ⟨w, hw, hroot, rfl, -⟩, rest, hrest, rfl⟩ := h
    by_cases h0 : w.leaf = 0
    · -- padding: the root and the tree stay
      have htree : insertLeaf depth T w.leaf = T := if_pos h0
      simp only [h0, if_true] at hrest
      refine Inserted.cons (fun hne => absurd h0 hne) ?_ ?_
      · rw [htree]
        exact if_pos h0
      · rw [htree]
        exact ih T hT rest hrest
    · have htree : insertLeaf depth T w.leaf = Function.update T (slotOf depth w.leaf) w.leaf :=
        if_neg h0
      obtain ⟨hempty, hnew, hT'⟩ := w.sound hinj hw hT (hroot h0)
      simp only [h0, if_false, hnew] at hrest
      refine Inserted.cons (fun _ => hempty) ?_ ?_
      · rw [htree, ← hnew]
        exact if_neg h0
      · rw [htree]
        exact ih _ hT' rest hrest

/-- Each insertion has its cells. -/
lemma length_of_enforceInserts (paddingConstant root : Fr) (inserts : List (Insert depth))
    (cells : List InsertConstraintCells)
    (h : enforceInserts paddingConstant root inserts env cells) :
    cells.length = inserts.length := by
  induction inserts generalizing root cells with
  | nil => rw [show cells = [] from h]; rfl
  | cons insert inserts ih =>
    simp only [enforceInserts, bind_iff, pure_iff] at h
    obtain ⟨c, -, rest, hrest, rfl⟩ := h
    simp [ih _ _ hrest]

/-- A satisfying assignment of the batch circuit is a chain of inserts from the old root. -/
lemma inserted_of_enforceConstraints (env : Env Fr) (self : Batch depth) (T : ℕ → Fr)
    (hinj : Set.InjOn env.hash env.hashed) (hT : TreeHashed env depth T)
    (c : BatchConstraintCells)
    (h : self.enforceConstraints env.hash ((Note.paddingNote env.hash).commitment env.hash).toBase
      env c)
    (hold : c.oldRoot = treeRoot env depth T) :
    c.leafs.length = self.inserts.length ∧ Inserted env depth T c.leafs c.roots ∧
      c.newRoot = treeRoot env depth (insertLeaves depth T c.leafs) := by
  simp only [enforceConstraints, Note.commitment_paddingNote, Element.toBase_zero, bind_iff,
    assertC_iff, assignAdvice_iff, pure_iff, exists_const] at h
  obtain ⟨-, root, -, cells, hcells, rfl⟩ := h
  obtain rfl : root = treeRoot env depth T := hold
  have hins := enforceInserts_sound hinj self.inserts T hT cells hcells
  refine ⟨?_, hins, hins.getLastD_roots⟩
  rw [List.length_map]
  exact length_of_enforceInserts 0 _ _ _ hcells

/-- **Soundness of the batch insert circuit**: whatever witness the prover chooses, if the old
root is that of a tree `T` and no messages collide, then the leaves are inserted in `T` in
order, each non-zero leaf in the slot of the low digits of its representative, which was
empty when it was reached; the new root is that of `T` with all of them, and the root after
a zero leaf is the root before it.

**Proof sketch.** Each insert takes the null leaf to the root before it along its own path, so that
the slot was empty, and the leaf to the root after it (`inserted_of_enforceConstraints`, by
induction on the inserts). -/
theorem enforceConstraints_sound (self : Batch depth) (T : ℕ → Fr)
    (hinj : Set.InjOn env.hash env.hashed) (hT : TreeHashed env depth T)
    (c : BatchConstraintCells)
    (h : self.enforceConstraints env.hash ((Note.paddingNote env.hash).commitment env.hash).toBase
      env c)
    (hold : c.oldRoot = treeRoot env depth T) :
    c.leafs.length = self.inserts.length ∧ c.roots.length = self.inserts.length ∧
      (∀ k leaf, c.leafs[k]? = some leaf → leaf ≠ 0 →
        insertLeaves depth T (c.leafs.take k) (slotOf depth leaf) = 0) ∧
      (∀ k root, c.roots[k]? = some root →
        root = treeRoot env depth (insertLeaves depth T (c.leafs.take (k + 1)))) ∧
      (∀ k, c.leafs[k]? = some (0 : Fr) →
        (c.oldRoot :: c.roots)[k + 1]? = (c.oldRoot :: c.roots)[k]?) ∧
      c.newRoot = treeRoot env depth (insertLeaves depth T c.leafs) := by
  obtain ⟨hlen, hins, hnew⟩ := inserted_of_enforceConstraints env self T hinj hT c h hold
  refine ⟨hlen, hins.length_eq ▸ hlen, hins.slot_empty, hins.root_eq, fun k hk => ?_, hnew⟩
  have hk' : k < c.leafs.length := (List.getElem?_eq_some_iff.1 hk).1
  rw [hold, hins.getElem?_cons_roots (k + 1) hk', hins.getElem?_cons_roots k hk'.le,
    insertLeaves_take_succ_of_zero depth T c.leafs k hk]

/-- **A round for a leaf of a tree**: a prover who need not run the circuit's own code satisfies it
with the siblings of the leaf's slot, if the slot is empty. -/
lemma enforceInsert_ofTree (hprover : env.prover = .malicious) {T : ℕ → Fr} {leaf : Fr}
    (hT : TreeHashed env depth T) (hT' : TreeHashed env depth (insertLeaf depth T leaf))
    (hempty : T (slotOf depth leaf) = 0) (insert : Insert depth) :
    enforceInsert 0 (treeRoot env depth T) insert env
      { newLeaf := leaf, oldRoot := treeRoot env depth T,
        newRoot := treeRoot env depth (insertLeaf depth T leaf),
        isPadding := bit (decide (leaf = 0)) } := by
  have hsame : leaf = 0 → Function.update T (slotOf depth leaf) leaf = T := fun h0 =>
    Function.update_eq_self_iff.2 (h0.trans hempty.symm)
  have hupdate : insertLeaf depth T leaf = Function.update T (slotOf depth leaf) leaf := by
    by_cases h0 : leaf = 0
    · rw [insertLeaf, if_pos h0, hsame h0]
    · exact if_neg h0
  rw [hupdate] at hT' ⊢
  obtain ⟨hw, hold, hnew⟩ := InsertWitness.valid_ofTree hT hT' hempty
  refine (enforceInsert_iff _ _ _ _).2 ⟨InsertWitness.ofTree env depth T leaf, hw,
    fun _ => hold.symm, ?_, fun hhonest => ?_⟩
  · rw [hnew, InsertConstraintCells.mk.injEq]
    refine ⟨rfl, rfl, ?_, rfl⟩
    by_cases h0 : leaf = 0
    · rw [hsame h0]
      exact (if_pos h0).symm
    · exact (if_neg h0).symm
  · rw [hprover] at hhonest
    cases hhonest

/-- A path in a tree with two slots. -/
def samplePath : MerklePath 2 where
  siblings := [0]
  length_siblings := rfl
  depth_le := by decide

/-- A hash that tells the two sides apart. -/
def sampleHash (l : List Fr) : Fr := l.getD 0 0 + 10 * l.getD 1 0 + 1

/-- The messages of the trees without leaves, with the leaf 3, and with the leaves 3 and 10. -/
def sampleMessages : List (List Fr) :=
  [[0, 0], [1, 1], [0, 3], [1, sampleHash [0, 3]], [10, 3], [1, sampleHash [10, 3]]]

/-- What they are hashed with. -/
def sampleEnv : Env Fr where
  prover := .malicious
  instances := []
  hash := sampleHash
  hashed := {message | message ∈ sampleMessages}

/-- An insert into a tree with four slots; the prover chooses other values for its cells. -/
def sampleInsert : Insert 3 where
  leaf := 3
  path := ⟨[0, 0], rfl, by decide⟩

/-- The batch of three inserts. -/
def sampleBatch : Batch 3 where
  inserts := List.replicate 3 sampleInsert

/-- The tree with leaves, on an empty one. -/
def sampleTree (leafs : List Fr) : ℕ → Fr := insertLeaves 3 (fun _ => 0) leafs

/-- Two leaves, with padding between them. -/
def sampleCells : BatchConstraintCells where
  oldRoot := sampleHash [1, 1]
  newRoot := sampleHash [1, sampleHash [10, 3]]
  leafs := [3, 0, 10]
  roots := [sampleHash [1, sampleHash [0, 3]], sampleHash [1, sampleHash [0, 3]],
    sampleHash [1, sampleHash [10, 3]]]

/-- The messages of the sample do not collide. -/
lemma injOn_sampleMessages : Set.InjOn sampleEnv.hash sampleEnv.hashed := by
  have hpairwise : sampleMessages.Pairwise fun m m' => sampleEnv.hash m ≠ sampleEnv.hash m' := by
    decide +kernel
  have : Std.Symm fun m m' => sampleEnv.hash m ≠ sampleEnv.hash m' := ⟨fun _ _ => Ne.symm⟩
  intro m hm m' hm' h
  by_contra hne
  exact hpairwise.forall hm hm' hne h

/-- A tree is hashed if its pairs are among the messages, level by level. -/
lemma treeHashed_sampleTree {leafs : List Fr} (hlow : ∀ i < 2,
      [sampleTree leafs (2 * i), sampleTree leafs (2 * i + 1)] ∈ sampleMessages)
    (hhigh : [SparseMerkle.node (hash2 sampleEnv) (sampleTree leafs) 1 0,
      SparseMerkle.node (hash2 sampleEnv) (sampleTree leafs) 1 1] ∈ sampleMessages) :
    TreeHashed sampleEnv 3 (sampleTree leafs) := by
  rintro q ⟨k, i, hk, hi, rfl⟩
  rcases k with _ | _ | k
  · exact hlow i hi
  · obtain rfl : i = 0 := Nat.lt_one_iff.1 hi
    exact hhigh
  · omega

/-- The empty tree is hashed. -/
lemma treeHashed_nil : TreeHashed sampleEnv 3 (sampleTree []) :=
  treeHashed_sampleTree (by decide +kernel) (by decide +kernel)

/-- The tree with the first leaf is hashed. -/
lemma treeHashed_first : TreeHashed sampleEnv 3 (sampleTree [3]) :=
  treeHashed_sampleTree (by decide +kernel) (by decide +kernel)

/-- The tree with all leaves is hashed. -/
lemma treeHashed_second : TreeHashed sampleEnv 3 (sampleTree [3, 0, 10]) :=
  treeHashed_sampleTree (by decide +kernel) (by decide +kernel)

/-- The two leaves and the padding satisfy the circuit, one round after the other. -/
lemma enforceConstraints_sampleBatch :
    sampleBatch.enforceConstraints sampleEnv.hash
      ((Note.paddingNote sampleEnv.hash).commitment sampleEnv.hash).toBase sampleEnv
      sampleCells := by
  have hroots : treeRoot sampleEnv 3 (sampleTree []) = sampleHash [1, 1] ∧
      treeRoot sampleEnv 3 (sampleTree [3]) = sampleHash [1, sampleHash [0, 3]] ∧
      treeRoot sampleEnv 3 (sampleTree [3, 0, 10]) = sampleHash [1, sampleHash [10, 3]] := by
    decide +kernel
  have hround : ∀ (leafs : List Fr) (leaf : Fr), TreeHashed sampleEnv 3 (sampleTree leafs) →
      TreeHashed sampleEnv 3 (sampleTree (leafs ++ [leaf])) →
      sampleTree leafs (slotOf 3 leaf) = 0 →
      enforceInsert 0 (treeRoot sampleEnv 3 (sampleTree leafs)) sampleInsert sampleEnv
        { newLeaf := leaf, oldRoot := treeRoot sampleEnv 3 (sampleTree leafs),
          newRoot := treeRoot sampleEnv 3 (sampleTree (leafs ++ [leaf])),
          isPadding := bit (decide (leaf = 0)) } := by
    intro leafs leaf hT hT' hempty
    have happend : sampleTree (leafs ++ [leaf]) = insertLeaf 3 (sampleTree leafs) leaf := by
      rw [sampleTree, insertLeaves, List.foldl_append]
      rfl
    rw [happend] at hT' ⊢
    exact enforceInsert_ofTree rfl hT hT' hempty sampleInsert
  -- the padding leaves the tree as it is
  have hpadding : sampleTree ([3] ++ [0]) = sampleTree [3] := by
    rw [sampleTree, insertLeaves, List.foldl_append]
    change insertLeaf 3 (sampleTree [3]) 0 = sampleTree [3]
    exact if_pos rfl
  have hfirst := hround [] 3 treeHashed_nil treeHashed_first rfl
  have hmiddle := hround [3] 0 treeHashed_first (hpadding ▸ treeHashed_first) (by decide +kernel)
  have hlast := hround [3, 0] 10 (hpadding ▸ treeHashed_first) treeHashed_second (by decide +kernel)
  rw [show sampleTree [3, 0] = sampleTree [3] from hpadding] at hlast
  rw [hpadding] at hmiddle
  simp only [List.nil_append, List.cons_append, hroots] at hfirst hmiddle hlast
  exact ⟨(), by simp [sampleBatch], sampleHash [1, 1], (fun h => by cases h),
    _, ⟨_, hfirst, _, ⟨_, hmiddle, _, ⟨_, hlast, [], rfl, rfl⟩, rfl⟩, rfl⟩, rfl⟩

/-- Both leaves are inserted, each into an empty slot, and the padding between them keeps the
root. -/
theorem enforceConstraints_sound_sampleBatch :
    sampleTree [3, 0] (slotOf 3 10) = 0 ∧
      sampleHash [1, sampleHash [0, 3]] = treeRoot sampleEnv 3 (sampleTree [3]) ∧
      sampleCells.roots[1]? = sampleCells.roots[0]? ∧
      sampleHash [1, sampleHash [10, 3]] = treeRoot sampleEnv 3 (sampleTree [3, 0, 10]) := by
  obtain ⟨-, -, hempty, hroots, hpadding, hnew⟩ := enforceConstraints_sound sampleBatch
    (fun _ => 0) injOn_sampleMessages treeHashed_nil sampleCells enforceConstraints_sampleBatch
    (by decide +kernel)
  exact ⟨hempty 2 10 rfl (by decide), hroots 0 _ rfl, hpadding 1 rfl, hnew⟩

end Batch

end Soundness

end TempoRollup.Circuits
