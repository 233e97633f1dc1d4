import TempoRollup.Node.Commit

set_option relaxedAutoImplicit false
set_option autoImplicit false
set_option maxRecDepth 20000

/-!
# The chain of committed blocks

The blocks that the nodes of the network agree on, and the notes tree after each of them. A node
that commits every block has the trees of the chain. A node that takes elements over from another
one has the same elements, but records other heights for them.

## Main definitions

* `Chain` — the blocks, and the tree of a node that commits all of them.
* `Chain.elements`, `Chain.leaves` — the elements after a block, and those that it inserts.
* `Chain.At` — a tree has the elements of the chain after a block.

## Main results

* `applyBlockToTree_recorded` — the heights that are recorded when a block is applied.
* `Chain.mem_elements_succ`, `Chain.elements_mono` — how the elements of the chain grow.
* `Chain.At.apply` — the next block is applied to every tree of the chain.
* `Chain.sound_of_good` — what validation guarantees of the blocks that are not bad.
-/

open Exec

namespace TempoRollup.Node

/-! ## Recorded heights -/

section Recorded

variable {P : Primitives} {notesTree notesTree' : PersistentMerkleTree} {state : BlockState}
  {treeWrites ignoreCollisions : Bool} {currentHeight : ℕ}

/-- An application that returned was one of leaves that the tree takes. -/
lemma takes_of_applyBlockToTree (hinv : notesTree.Inv P.poseidon)
    (hrun : applyBlockToTree P treeWrites state currentHeight ignoreCollisions notesTree =
      (.ok (), notesTree')) :
    Takes notesTree state ignoreCollisions treeWrites := by
  by_contra hnot
  exact (applyBlockToTree_of_not_takes hinv hnot currentHeight).1 (congrArg Prod.fst hrun)

/-- The elements of a tree are those with a height. -/
lemma mem_keys_iff {e : Element} :
    e ∈ notesTree.tree.entries.keys ↔ ∃ k, notesTree.tree.entries[e]? = some k := by
  rw [Std.TreeMap.mem_keys, Std.TreeMap.mem_iff_isSome_getElem?, Option.isSome_iff_exists]

/-- An element is in the tree when it is a key of its entries. -/
lemma containsElement_iff {e : Element} :
    notesTree.tree.containsElement e = true ↔ e ∈ notesTree.tree.entries.keys := by
  rw [Std.TreeMap.mem_keys]
  exact Std.TreeMap.contains_iff_mem

/-- **The heights after a block was applied**: elements of the tree keep theirs, and the leaves
that were not in it have the height of the block.

**Proof sketch.** What is inserted are the leaves that are new, each with the height of the block,
and the insertion keeps what the tree recorded for other elements (`getElem?_insertEntries`). -/
theorem applyBlockToTree_recorded (hinv : notesTree.Inv P.poseidon)
    (hrun : applyBlockToTree P treeWrites state currentHeight ignoreCollisions notesTree =
      (.ok (), notesTree')) :
    notesTree'.Inv P.poseidon ∧
      (∀ e, e ∈ notesTree'.tree.entries.keys ↔
        e ∈ notesTree.tree.entries.keys ∨ e ∈ state.leavesNonNull) ∧
      ∀ e k, notesTree'.tree.entries[e]? = some k ↔
        notesTree.tree.entries[e]? = some k ∨
          (e ∉ notesTree.tree.entries.keys ∧ e ∈ state.leavesNonNull ∧ k = currentHeight) := by
  have htakes := takes_of_applyBlockToTree hinv hrun
  obtain ⟨applied, hrun', hinv', hkeys⟩ := applyBlockToTree_of_takes hinv htakes currentHeight
  obtain rfl : applied = notesTree' := congrArg Prod.snd (hrun'.symm.trans hrun)
  refine ⟨hinv', hkeys, fun e k => ?_⟩
  rw [applyBlockToTree_eq htakes.unspent] at hrun
  obtain ⟨batch, mid, hbatch, hinsert⟩ := Program.bind_eq_ok.1 hrun
  obtain ⟨hbatch, rfl⟩ : _ ∧ notesTree = mid :=
    ⟨congrArg Prod.fst hbatch, congrArg Prod.snd hbatch⟩
  have hentries := Smirk.Batch.entries_of_fromEntries (Outcome.mapErr_eq_ok.1 hbatch)
  have hinsert' : Smirk.Persistent.insertBatch P.poseidon treeWrites batch notesTree =
      (.ok (), applied) := Program.mapErr_eq_ok.1 hinsert
  have hmap : ((newLeaves notesTree state ignoreCollisions).map fun leaf =>
      (leaf, currentHeight)).map Prod.fst = newLeaves notesTree state ignoreCollisions := by
    rw [List.map_map]
    exact List.map_id _
  have hnodup : (batch.entries.map Prod.fst).Nodup := by
    rw [hentries, hmap]
    exact htakes.fresh.distinct.imp fun hne heq => hne (by rw [heq])
  rw [(Smirk.Persistent.insertBatch_eq_ok MERKLE_TREE_DEPTH_pos MERKLE_TREE_DEPTH_le hinv
    hinsert').2, Smirk.Tree.getElem?_insertEntries hnodup, hentries, hmap]
  simp only [List.mem_map, Prod.mk.injEq]
  constructor
  · rintro (⟨leaf, hleaf, rfl, rfl⟩ | ⟨-, hold⟩)
    · obtain ⟨hmem, hnew⟩ := not_containsElement_of_mem_newLeaves htakes.unspent hleaf
      refine .inr ⟨fun hkey => ?_, hmem, rfl⟩
      exact htakes.fresh.free leaf hkey leaf hleaf rfl
    · exact .inl hold
  · rintro (hold | ⟨hnew, hleaf, rfl⟩)
    · exact .inr ⟨fun hin => htakes.fresh.free e (mem_keys_iff.2 ⟨k, hold⟩) e hin rfl, hold⟩
    · exact .inl ⟨e, ((mem_newLeaves e).2 (.inr hleaf)).resolve_left hnew, rfl, rfl⟩

end Recorded

/-- **After a commit**: the block was applied to the tree, and it is stored. -/
lemma commitProposal_eq_ok {P : Primitives} {world : World} {self self' : NodeShared}
    {block : Block} (hinv : self.notesTree.Inv P.poseidon)
    (hrun : commitProposal P world block self = (.ok (), self')) :
    applyBlockToTree P world.treeWrites block.content.state block.height
        (self.config.badBlocks.contains block.height) self.notesTree = (.ok (), self'.notesTree) ∧
      self'.blockStore = self.blockStore.set block ∧ self'.config = self.config := by
  have hcommittable : Committable world self block := by
    by_contra hnot
    exact (commitProposal_of_not_committable hinv hnot).1 (congrArg Prod.fst hrun)
  obtain ⟨notesTree, happlied, -, -⟩ :=
    applyBlockToTree_of_takes hinv hcommittable.takes block.height
  rw [commitProposal_run hcommittable.storeWrites hcommittable.takes.unspent, happlied] at hrun
  obtain rfl := congrArg Prod.snd hrun
  exact ⟨happlied, rfl, rfl⟩

/-- A block that can be applied is valid, when its transactions are and it has the root of the tree
after it. -/
lemma validate_of_applied {P : Primitives} {storeReads treeWrites : Bool} {mode : Mode}
    {blockStore : BlockStore} {notesTree notesTree' : PersistentMerkleTree}
    {content : BlockContent} {currentHeight : ℕ} (hinv : notesTree.Inv P.poseidon)
    (hvalid : ∀ txn ∈ content.state.txns,
      validateTxn P storeReads mode txn content.header.height blockStore notesTree = .ok ())
    (hrun : applyBlockToTree P treeWrites content.state currentHeight false notesTree =
      (.ok (), notesTree'))
    (hroot : content.state.rootHash = notesTree'.tree.rootHash P.poseidon) :
    content.validate P storeReads mode blockStore notesTree = .ok () := by
  have hfresh : notesTree.tree.Fresh content.state.leavesNonNull :=
    (takes_of_applyBlockToTree hinv hrun).fresh
  obtain ⟨hinv', hkeys, -⟩ := applyBlockToTree_recorded hinv hrun
  refine validate_eq_ok_iff.2 ⟨hvalid, ?_, ?_⟩
  · exact hfresh.distinct.imp fun hne heq => hne (by rw [heq])
  · rw [hroot]
    exact newRootHash_eq hinv hinv' hfresh hkeys

/-- A tree with the same elements takes the same blocks. -/
lemma Takes.congr {notesTree notesTree' : PersistentMerkleTree}
    {state : BlockState} {ignoreCollisions treeWrites : Bool}
    (h : Takes notesTree state ignoreCollisions treeWrites)
    (hkeys : ∀ e, e ∈ notesTree'.tree.entries.keys ↔ e ∈ notesTree.tree.entries.keys) :
    Takes notesTree' state ignoreCollisions treeWrites := by
  have hcontains : notesTree'.tree.containsElement = notesTree.tree.containsElement := by
    funext e
    rw [Bool.eq_iff_iff, containsElement_iff, containsElement_iff, hkeys]
  have hnew : newLeaves notesTree' state ignoreCollisions =
      newLeaves notesTree state ignoreCollisions := by
    rw [newLeaves, hcontains]
    rfl
  refine ⟨?_, ?_, ?_⟩
  · rw [hcontains]
    exact h.unspent
  · rw [hnew]
    exact ⟨h.fresh.ne_null, h.fresh.distinct, fun e he => h.fresh.free e ((hkeys e).1 he)⟩
  · rw [hnew]
    exact h.writes

/-! ## The chain -/

/-- **The chain**: the blocks up to the tip, and the notes tree of a node that commits all of them.
Blocks that are not listed as bad were validated on the tree before them. -/
structure Chain (P : Primitives) where
  badBlocks : List ℕ
  tip : ℕ
  tip_lt : tip < U64
  block : ℕ → Block
  tree : ℕ → PersistentMerkleTree
  height_eq : ∀ h < tip, (block (h + 1)).height = h + 1
  tree_zero : tree 0 = .new
  valid : ∀ h < tip, badBlocks.contains (h + 1) = true ∨
    ∃ storeReads mode blockStore, (block (h + 1)).content.validate P storeReads mode blockStore
      (tree h) = .ok ()
  applied : ∀ h < tip, applyBlockToTree P true (block (h + 1)).content.state (h + 1)
    (badBlocks.contains (h + 1)) (tree h) = (.ok (), tree (h + 1))

namespace Chain

variable {P : Primitives} (chain : Chain P)

/-- The elements of the tree after a block. -/
def elements (h : ℕ) : List Element := (chain.tree h).tree.entries.keys

/-- The leaves of a block that are not zero. -/
def leaves (h : ℕ) : List Element := (chain.block h).content.state.leavesNonNull

/-- The root of the tree after a block. -/
def root (h : ℕ) : Element := (chain.tree h).tree.rootHash P.poseidon

/-- A tree has the elements of the chain after a block. -/
structure At (h : ℕ) (notesTree : PersistentMerkleTree) : Prop where
  inv : notesTree.Inv P.poseidon
  keys : ∀ e, e ∈ notesTree.tree.entries.keys ↔ e ∈ chain.elements h

variable {chain} {h h' : ℕ} {notesTree : PersistentMerkleTree}

/-- The trees of the chain are well formed. By induction on the height. -/
lemma tree_inv (hh : h ≤ chain.tip) : (chain.tree h).Inv P.poseidon := by
  induction h with
  | zero =>
    rw [chain.tree_zero]
    exact Smirk.Persistent.inv_new MERKLE_TREE_DEPTH_pos
  | succ h ih =>
    have hlt : h < chain.tip := hh
    exact (applyBlockToTree_recorded (ih hlt.le) (chain.applied h hlt)).1

/-- A chain starts without elements. -/
lemma elements_zero : chain.elements 0 = [] := by
  rw [elements, chain.tree_zero]
  rfl

/-- A block adds its leaves. -/
theorem mem_elements_succ (hh : h < chain.tip) (e : Element) :
    e ∈ chain.elements (h + 1) ↔ e ∈ chain.elements h ∨ e ∈ chain.leaves (h + 1) :=
  (applyBlockToTree_recorded (tree_inv hh.le) (chain.applied h hh)).2.1 e

/-- The elements at a height are those below it and the leaves of its block. -/
lemma mem_elements_iff (hpos : 0 < h) (hh : h ≤ chain.tip) (e : Element) :
    e ∈ chain.elements h ↔ e ∈ chain.elements (h - 1) ∨ e ∈ chain.leaves h := by
  obtain ⟨h, rfl⟩ := Nat.exists_eq_succ_of_ne_zero hpos.ne'
  exact mem_elements_succ hh e

/-- The elements of the chain stay. -/
theorem elements_mono (hle : h ≤ h') (htip : h' ≤ chain.tip) {e : Element}
    (he : e ∈ chain.elements h) : e ∈ chain.elements h' := by
  induction h', hle using Nat.le_induction with
  | base => exact he
  | succ h' hle ih => exact (mem_elements_succ htip e).2 (.inl (ih (Nat.le_of_succ_le htip)))

/-- The tree of the chain takes the next block. -/
lemma takes (hh : h < chain.tip) :
    Takes (chain.tree h) (chain.block (h + 1)).content.state (chain.badBlocks.contains (h + 1))
      true :=
  takes_of_applyBlockToTree (tree_inv hh.le) (chain.applied h hh)

/-- A tree of the chain has its root. -/
lemma At.rootHash_eq (hat : chain.At h notesTree) (hh : h ≤ chain.tip) :
    notesTree.tree.rootHash P.poseidon = chain.root h := by
  rw [root, hat.inv.tree.rootHash_eq, (tree_inv hh).tree.rootHash_eq,
    Smirk.occupant_congr (tree_inv hh).tree.distinct hat.keys]

/-- What validation guarantees of a block: it has the root of the tree after it, and its leaves
differ from each other and from the elements of the tree before it. -/
structure Sound (chain : Chain P) (h : ℕ) : Prop where
  root : (chain.block h).rootHash = chain.root h
  nodup : (chain.leaves h).Nodup
  unspent : ∀ leaf ∈ chain.leaves h, leaf ∉ chain.elements (h - 1)

/-- **Blocks that are not bad are sound.** -/
theorem sound_of_good (hh : h < chain.tip) (hgood : chain.badBlocks.contains (h + 1) = false) :
    chain.Sound (h + 1) := by
  rcases chain.valid h hh with hbad | ⟨storeReads, mode, blockStore, hok⟩
  · rw [hbad] at hgood
    cases hgood
  · obtain ⟨-, hnodup, hroot⟩ := validate_eq_ok_iff.1 hok
    have htakes := takes hh
    rw [hgood] at htakes
    have hfresh : (chain.tree h).tree.Fresh (chain.leaves (h + 1)) := htakes.fresh
    have hdry : newRootHash P (chain.tree h) (chain.leaves (h + 1)) = .ok (chain.root (h + 1)) :=
      newRootHash_eq (tree_inv hh.le) (tree_inv hh) hfresh (mem_elements_succ hh)
    refine ⟨Outcome.ok.inj (hroot.symm.trans hdry), hnodup, fun leaf hleaf hkey => ?_⟩
    exact hfresh.free leaf hkey leaf hleaf rfl

/-- **The next block is applied to every tree of the chain.** -/
theorem At.apply (hat : chain.At h notesTree) (hh : h < chain.tip) :
    ∃ notesTree', applyBlockToTree P true (chain.block (h + 1)).content.state (h + 1)
        (chain.badBlocks.contains (h + 1)) notesTree = (.ok (), notesTree') ∧
      chain.At (h + 1) notesTree' := by
  obtain ⟨notesTree', hrun, hinv, hkeys⟩ :=
    applyBlockToTree_of_takes hat.inv ((takes hh).congr hat.keys) (h + 1)
  refine ⟨notesTree', hrun, hinv, fun e => ?_⟩
  rw [hkeys, hat.keys, mem_elements_succ hh]
  rfl

end Chain

/-! ### A chain with two mints -/

namespace TwoMints

/-- A hash function that is easy to compute. -/
def sumHash (l : List Fr) : Fr := l.sum

/-- The mint of a note with commitment 14. -/
def firstTxn : UtxoProof := mintProof sumHash (⟨2, 0, 10, 0⟩, ⟨2, 0, 0, 0⟩)

/-- The mint of a note with commitment 15. -/
def secondTxn : UtxoProof := mintProof sumHash (⟨2, 1, 10, 0⟩, ⟨2, 0, 0, 0⟩)

/-- The verifier accepts the public inputs of the two mints. -/
def primitives : Primitives where
  poseidon := sumHash
  keccak256 _ := 0
  verifyProof _ instances :=
    some (decide (instances = firstTxn.instances.map Element.toBase ∨
      instances = secondTxn.instances.map Element.toBase))
  fromCompact _ := true
  recoverEcdsa _ _ := some 0
  signEcdsa _ := .default

/-- A block of the given height, root and transactions. -/
def blockOf (height : ℕ) (rootHash : Element) (txns : List UtxoProof) : Block where
  content :=
    { header := { height := height, lastBlockHash := 0, epochId := 0, lastFinalBlockHash := 0,
                  approvals := [] }
      state := { rootHash := rootHash, txns := txns } }
  signature := .default

/-- The tree with the first note. -/
def firstTree : PersistentMerkleTree :=
  (applyBlockToTree primitives true ⟨0, [firstTxn]⟩ 1 false .new).2

/-- The tree with both notes. -/
def secondTree : PersistentMerkleTree :=
  (applyBlockToTree primitives true ⟨0, [secondTxn]⟩ 2 false firstTree).2

/-- The trees: the notes are minted in the first two blocks. -/
def tree : ℕ → PersistentMerkleTree
  | 0 => .new
  | 1 => firstTree
  | _ + 2 => secondTree

/-- The blocks: the third one is empty. -/
def block : ℕ → Block
  | 0 => .genesis
  | 1 => blockOf 1 (firstTree.tree.rootHash sumHash) [firstTxn]
  | 2 => blockOf 2 (secondTree.tree.rootHash sumHash) [secondTxn]
  | h + 3 => blockOf (h + 3) (secondTree.tree.rootHash sumHash) []

/-- The only leaf of a block of the first mint. -/
lemma leaves_firstTxn (root : Element) :
    BlockState.leavesNonNull ⟨root, [firstTxn]⟩ = [14] := by
  show ([firstTxn].flatMap UtxoProof.leaves).filter (fun e => e != Element.NULL_HASH) = [14]
  decide

/-- The only leaf of a block of the second mint. -/
lemma leaves_secondTxn (root : Element) :
    BlockState.leavesNonNull ⟨root, [secondTxn]⟩ = [15] := by
  show ([secondTxn].flatMap UtxoProof.leaves).filter (fun e => e != Element.NULL_HASH) = [15]
  decide

/-- The empty tree has the invariant. -/
lemma inv_new : (Smirk.Persistent.new : PersistentMerkleTree).Inv primitives.poseidon :=
  Smirk.Persistent.inv_new MERKLE_TREE_DEPTH_pos

/-- The first note is inserted in the empty tree. -/
lemma apply_first (root : Element) :
    applyBlockToTree primitives true ⟨root, [firstTxn]⟩ 1 false .new = (.ok (), firstTree) ∧
      firstTree.Inv primitives.poseidon ∧
      ∀ e, e ∈ firstTree.tree.entries.keys ↔ e = 14 := by
  have hfresh : (Smirk.Persistent.new : PersistentMerkleTree).tree.Fresh
      (BlockState.leavesNonNull ⟨root, [firstTxn]⟩) := by
    rw [leaves_firstTxn]
    refine ⟨?_, List.pairwise_singleton _ _, fun e he => absurd he List.not_mem_nil⟩
    intro e he
    rw [List.mem_singleton.1 he]
    decide
  obtain ⟨notesTree, hrun, hinv, hkeys⟩ := applyBlockToTree_of_fresh inv_new hfresh 1 false
  have heq : firstTree = notesTree := congrArg Prod.snd hrun
  rw [heq]
  refine ⟨hrun, hinv, fun e => ?_⟩
  rw [hkeys, leaves_firstTxn, List.mem_singleton]
  exact ⟨fun h => h.resolve_left List.not_mem_nil, .inr⟩

/-- The second note is inserted after it. -/
lemma apply_second (root : Element) :
    applyBlockToTree primitives true ⟨root, [secondTxn]⟩ 2 false firstTree =
        (.ok (), secondTree) ∧
      secondTree.Inv primitives.poseidon ∧
      ∀ e, e ∈ secondTree.tree.entries.keys ↔ e = 14 ∨ e = 15 := by
  obtain ⟨-, hinv, hkeys⟩ := apply_first 0
  have hfresh : firstTree.tree.Fresh (BlockState.leavesNonNull ⟨root, [secondTxn]⟩) := by
    rw [leaves_secondTxn]
    refine ⟨?_, List.pairwise_singleton _ _, ?_⟩
    · intro e he
      rw [List.mem_singleton.1 he]
      decide
    · intro e he b hb
      rw [(hkeys e).1 he, List.mem_singleton.1 hb]
      decide
  obtain ⟨notesTree, hrun, hinv', hkeys'⟩ := applyBlockToTree_of_fresh hinv hfresh 2 false
  have heq : secondTree = notesTree := congrArg Prod.snd hrun
  rw [heq]
  refine ⟨hrun, hinv', fun e => ?_⟩
  rw [hkeys', hkeys, leaves_secondTxn, List.mem_singleton]

/-- The first block is valid for the empty tree. -/
lemma validate_first :
    (block 1).content.validate primitives true .validator .empty .new = .ok () := by
  refine validate_of_applied inv_new ?_ (apply_first _).1 rfl
  intro txn htxn
  rw [List.mem_singleton.1 htxn]
  exact show validateTxn primitives true .validator firstTxn 1 .empty .new = .ok () by decide

/-- The second block is valid for the tree with the first note. -/
lemma validate_second :
    (block 2).content.validate primitives true .validator .empty firstTree = .ok () := by
  obtain ⟨-, hinv, hkeys⟩ := apply_first 0
  refine validate_of_applied hinv ?_ (apply_second _).1 rfl
  intro txn htxn
  rw [List.mem_singleton.1 htxn, validateTxn_eq_ok_iff]
  have hleaves : secondTxn.leaves = [0, 0, 15, 0] := by decide
  have hnew : firstTree.tree.containsElement 15 = false := by
    rw [← Bool.not_eq_true, containsElement_iff, hkeys]
    decide
  refine ⟨⟨by decide, ?_, ?_⟩, rfl⟩
  · rw [hleaves]
    simp only [List.forall_mem_cons]
    exact ⟨by decide, by decide, by decide, by decide, fun _ h => absurd h List.not_mem_nil⟩
  · rw [hleaves]
    simp only [List.forall_mem_cons]
    exact ⟨absurd rfl, absurd rfl, fun _ => hnew, absurd rfl, fun _ h => absurd h List.not_mem_nil⟩

/-- Without leaves nothing is inserted. -/
lemma apply_empty (root : Element) (height : ℕ) (notesTree : PersistentMerkleTree) :
    applyBlockToTree primitives true ⟨root, []⟩ height false notesTree = (.ok (), notesTree) :=
  rfl

/-- The third block is valid for the tree with both notes. -/
lemma validate_third :
    (block 3).content.validate primitives true .validator .empty secondTree = .ok () :=
  validate_of_applied (apply_second 0).2.1 (fun _ h => absurd h List.not_mem_nil)
    (apply_empty _ 3 _) rfl

/-- The heights of the sample fit in 64 bits. -/
lemma tip_lt : 3 < U64 := by decide

/-- The blocks of the sample have the heights of their places. -/
lemma height_block : ∀ h < 3, (block (h + 1)).height = h + 1
  | 0, _ => rfl
  | 1, _ => rfl
  | 2, _ => rfl

/-- Each block of the sample is valid on the tree before it. -/
lemma validate_block : ∀ h < 3, ([] : List ℕ).contains (h + 1) = true ∨
    ∃ storeReads mode blockStore, (block (h + 1)).content.validate primitives storeReads mode
      blockStore (tree h) = .ok ()
  | 0, _ => .inr ⟨true, .validator, .empty, validate_first⟩
  | 1, _ => .inr ⟨true, .validator, .empty, validate_second⟩
  | 2, _ => .inr ⟨true, .validator, .empty, validate_third⟩

/-- Each block of the sample takes its tree to the next. -/
lemma apply_block : ∀ h < 3, applyBlockToTree primitives true (block (h + 1)).content.state
    (h + 1) (([] : List ℕ).contains (h + 1)) (tree h) = (.ok (), tree (h + 1))
  | 0, _ => (apply_first _).1
  | 1, _ => (apply_second _).1
  | 2, _ => apply_empty _ 3 _

/-- The chain of the three blocks. -/
def chain : Chain primitives where
  badBlocks := []
  tip := 3
  tip_lt := tip_lt
  block := block
  tree := tree
  height_eq := height_block
  tree_zero := rfl
  valid := validate_block
  applied := apply_block

/-- The elements after the first block. -/
lemma mem_elements_one (e : Element) : e ∈ chain.elements 1 ↔ e = 14 := (apply_first 0).2.2 e

/-- The elements after the second block. -/
lemma mem_elements_two (e : Element) : e ∈ chain.elements 2 ↔ e = 14 ∨ e = 15 :=
  (apply_second 0).2.2 e

end TwoMints

end TempoRollup.Node
