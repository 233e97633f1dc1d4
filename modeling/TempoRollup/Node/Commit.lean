import TempoRollup.Node.Settlement

set_option relaxedAutoImplicit false
set_option autoImplicit false
set_option maxRecDepth 20000

/-!
# Validating and committing blocks

`BlockContent::validate` of `node/src/block.rs`, `node/src/node/block.rs`, and `commit_proposal`
of `node/src/node/proposal.rs`: what a node checks of a block, and how it writes it to its two
stores.

## Main definitions

* `World` — how storage and the Ethereum node answer during one step.
* `BlockContent.validate`, `NodeShared.validateBlock`.
* `applyBlockToTree`, `commitProposal`.

## Main results

* `validate_ne_panic`, `validateBlock_ne_panic` — blocks of verified transactions with new
  leaves are validated without a panic.
* `applyBlockToTree_of_fresh` — new leaves are inserted.
* `commitProposal_of_fresh` — a block of new leaves is committed.
-/

open Exec

namespace TempoRollup.Node

/-- What surrounds the node during one step: the Ethereum node while each transaction is
validated, and whether the stores can be read and written. -/
structure World where
  eth : UtxoProof → EthView
  /-- The block store can be read while transactions are validated, -/
  storeReads : Bool
  /-- while a block is validated, -/
  blockReads : Bool
  /-- and while a block that failed is validated again for each of its transactions. -/
  recheckReads : UtxoProof → Bool
  storeWrites : Bool
  treeWrites : Bool
  /-- The order in which the mempool goes over a set of keys. -/
  order : List CryptoHash → List CryptoHash
  order_perm : ∀ keys, (order keys).Perm keys

/-- Storage that works. -/
def World.reliable (eth : UtxoProof → EthView) : World where
  eth := eth
  storeReads := true
  blockReads := true
  recheckReads _ := true
  storeWrites := true
  treeWrites := true
  order keys := keys
  order_perm _ := .refl _

/-! ## Validation -/

section Validation

variable (P : Primitives)

/-- The inner loop of `BlockContent::validate`: the leaves of a transaction are recorded with its
hash; a leaf that was recorded before is an error. -/
def recordLeaves (txnHash : CryptoHash) :
    List Element → List (Element × CryptoHash) → Outcome Error (List (Element × CryptoHash))
  | [], txnLeaves => .ok txnLeaves
  | leaf :: leaves, txnLeaves =>
    if leaf = Element.NULL_HASH then recordLeaves txnHash leaves txnLeaves
    else
      match txnLeaves.lookup leaf with
      | some existing => .err (.leafAlreadyInsertedInTheSameBlock leaf existing txnHash)
      | none => recordLeaves txnHash leaves (txnLeaves ++ [(leaf, txnHash)])

/-- The outer loop of `BlockContent::validate`. -/
def validateTxns (storeReads : Bool) (mode : Mode) (height : BlockHeight)
    (blockStore : BlockStore) (notesTree : PersistentMerkleTree) :
    List UtxoProof → List (Element × CryptoHash) → Outcome Error (List (Element × CryptoHash))
  | [], txnLeaves => .ok txnLeaves
  | txn :: txns, txnLeaves => do
    let txnLeaves ← recordLeaves (txn.hash P) txn.leaves txnLeaves
    validateTxn P storeReads mode txn height blockStore notesTree
    validateTxns storeReads mode height blockStore notesTree txns txnLeaves

/-- The root after the insertion of leaves; without leaves it does not change. -/
def newRootHash (notesTree : PersistentMerkleTree) (leaves : List Element) :
    Outcome Error Element :=
  if leaves.isEmpty then .ok (notesTree.tree.rootHash P.poseidon)
  else (notesTree.tree.rootHashWith P.poseidon leaves).unwrap

/-- `BlockContent::validate`. -/
def BlockContent.validate (storeReads : Bool) (mode : Mode) (blockStore : BlockStore)
    (notesTree : PersistentMerkleTree) (self : BlockContent) : Outcome Error Unit := do
  let txnLeaves ←
    validateTxns P storeReads mode self.header.height blockStore notesTree self.state.txns []
  let root ← newRootHash P notesTree (txnLeaves.map Prod.fst)
  if root ≠ self.state.rootHash then .err (.invalidBlockRoot root self.state.rootHash)
  else .ok ()

/-- `validate_block`. -/
def NodeShared.validateBlock (storeReads : Bool) (block : Block) (self : NodeShared) :
    Outcome Error Unit :=
  if self.config.badBlocks.contains block.height then .ok ()
  else do
    let validator ← self.getLeaderForBlockHeight block.height
    match ← block.signature.verify P (block.hash P) with
    | none => .err .invalidSignature
    | some signedBy =>
      if signedBy ≠ validator then .err .invalidSignature
      else block.content.validate P storeReads self.config.mode self.blockStore self.notesTree

/-! ## Commit -/

/-- `apply_block_to_tree`. -/
def applyBlockToTree (treeWrites : Bool) (state : BlockState) (currentHeight : BlockHeight)
    (ignoreCollisions : Bool) : Program PersistentMerkleTree Error Unit := do
  let notesTree ← Program.get
  let leaves := state.leavesNonNull
  -- a double spend panics
  Program.assert (ignoreCollisions || leaves.all fun leaf => !notesTree.tree.containsElement leaf)
  let newLeaves :=
    if ignoreCollisions then leaves.filter fun leaf => !notesTree.tree.containsElement leaf
    else leaves
  let batch ← Program.lift <|
    (Smirk.Batch.fromEntries (newLeaves.map fun leaf => (leaf, currentHeight))).mapErr .collision
  (Smirk.Persistent.insertBatch P.poseidon treeWrites batch).mapErr .smirk

/-- Commit results to the mempool, with the replies to those who wait. -/
def commitMempool (order : List CryptoHash → List CryptoHash) (height : BlockHeight)
    (results : List (CryptoHash × Except Error Block)) : Call Unit :=
  Program.modify fun self =>
    let r := self.mempool.commit order height results
    { self with
      mempool := r.1
      effects := self.effects ++ r.2.map fun reply => .reply reply.1 reply.2 }

/-- `commit_proposal`. -/
def commitProposal (world : World) (block : Block) : Call Unit := do
  let self ← Program.get
  let state := block.content.state
  let height := block.height
  let skipValidation := self.config.badBlocks.contains height
  Program.assert
    (skipValidation ||
      state.leavesNonNull.all fun leaf => !self.notesTree.tree.containsElement leaf)
  Program.ensure world.storeWrites .blockStore
  Program.modify fun self => { self with blockStore := self.blockStore.set block }
  Program.zoom NodeShared.notesTree (fun notesTree self => { self with notesTree := notesTree })
    (applyBlockToTree P world.treeWrites state height skipValidation)
  commitMempool world.order height (state.txns.map fun txn => (txn.hash P, .ok block))
  emit (.committed block)

end Validation

/-! ## Validation without panics -/

section Fresh

variable {P : Primitives}

/-- The proofs of the transactions are accepted. -/
def Verified (P : Primitives) (txns : List UtxoProof) : Prop :=
  ∀ txn ∈ txns, P.verifyProof txn.proof (txn.instances.map Element.toBase) = some true

/-- The leaves that are not zero are recorded in order, or one of them was recorded before. -/
lemma recordLeaves_cases (txnHash : CryptoHash) (leaves : List Element)
    (txnLeaves : List (Element × CryptoHash)) :
    (∃ e, recordLeaves txnHash leaves txnLeaves = .err e) ∨
      ∃ txnLeaves', recordLeaves txnHash leaves txnLeaves = .ok txnLeaves' ∧
        txnLeaves'.map Prod.fst =
          txnLeaves.map Prod.fst ++ leaves.filter fun e => e != Element.NULL_HASH := by
  induction leaves generalizing txnLeaves with
  | nil => exact .inr ⟨txnLeaves, rfl, by simp⟩
  | cons leaf leaves ih =>
    unfold recordLeaves
    by_cases hzero : leaf = Element.NULL_HASH
    · rw [if_pos hzero, List.filter_cons_of_neg (by simp [hzero])]
      exact ih txnLeaves
    · rw [if_neg hzero, List.filter_cons_of_pos (by simpa using hzero)]
      split
      · exact .inl ⟨_, rfl⟩
      · rcases ih (txnLeaves ++ [(leaf, txnHash)]) with herr | ⟨txnLeaves', hok, hleaves⟩
        · exact .inl herr
        · refine .inr ⟨txnLeaves', hok, ?_⟩
          rw [hleaves, List.map_append, List.append_assoc]
          rfl

variable {storeReads : Bool} {mode : Mode} {height : BlockHeight} {blockStore : BlockStore}
  {notesTree : PersistentMerkleTree} {txns : List UtxoProof}

/-- Verified transactions fail validation with an error, or all their leaves are recorded. -/
lemma validateTxns_cases (hverified : Verified P txns)
    (txnLeaves : List (Element × CryptoHash)) :
    (∃ e, validateTxns P storeReads mode height blockStore notesTree txns txnLeaves = .err e) ∨
      ∃ txnLeaves', validateTxns P storeReads mode height blockStore notesTree txns txnLeaves =
          .ok txnLeaves' ∧
        txnLeaves'.map Prod.fst = txnLeaves.map Prod.fst ++
          (txns.flatMap UtxoProof.leaves).filter fun e => e != Element.NULL_HASH := by
  induction txns generalizing txnLeaves with
  | nil => exact .inr ⟨txnLeaves, rfl, by simp⟩
  | cons txn txns ih =>
    have hproof := hverified txn List.mem_cons_self
    have hrest := ih fun t ht => hverified t (List.mem_cons_of_mem _ ht)
    unfold validateTxns
    rcases recordLeaves_cases (txn.hash P) txn.leaves txnLeaves with ⟨e, herr⟩ | ⟨next, hok, hnext⟩
    · exact .inl ⟨e, by rw [herr]; rfl⟩
    · rw [hok, Outcome.ok_bind]
      cases hvalid : validateTxn P storeReads mode txn height blockStore notesTree with
      | ok u =>
        rw [Outcome.ok_bind, List.flatMap_cons, List.filter_append, ← List.append_assoc, ← hnext]
        exact hrest next
      | err e => exact .inl ⟨e, rfl⟩
      | panic =>
        rw [validateTxn_eq_panic_iff, hproof] at hvalid
        cases hvalid

/-- `MERKLE_TREE_DEPTH` is in the range that trees support. -/
lemma MERKLE_TREE_DEPTH_pos : 0 < MERKLE_TREE_DEPTH := by decide

/-- The depth of the tree is within the bits of an element. -/
lemma MERKLE_TREE_DEPTH_le : MERKLE_TREE_DEPTH - 1 ≤ 256 := by decide

/-- New leaves have a root. -/
lemma newRootHash_of_fresh (hinv : notesTree.Inv P.poseidon) {leaves : List Element}
    (hfresh : notesTree.tree.Fresh leaves) : ∃ root, newRootHash P notesTree leaves = .ok root := by
  unfold newRootHash
  split
  · exact ⟨_, rfl⟩
  · rw [Smirk.Tree.rootHashWith_spec MERKLE_TREE_DEPTH_le hinv.tree hfresh
      (fun e => List.mem_append)]
    exact ⟨_, rfl⟩

/-- **Validation of a block ends** when its transactions are verified and its leaves are new. -/
theorem validate_ne_panic (hinv : notesTree.Inv P.poseidon) {content : BlockContent}
    (hverified : Verified P content.state.txns)
    (hfresh : notesTree.tree.Fresh content.state.leavesNonNull) :
    content.validate P storeReads mode blockStore notesTree ≠ .panic := by
  unfold BlockContent.validate
  rcases validateTxns_cases hverified [] with ⟨e, herr⟩ | ⟨txnLeaves, hok, hleaves⟩
  · rw [herr]
    exact fun h => by cases h
  · rw [List.map_nil, List.nil_append] at hleaves
    obtain ⟨root, hroot⟩ := newRootHash_of_fresh hinv hfresh
    have hroot' : newRootHash P notesTree (txnLeaves.map Prod.fst) = .ok root := by
      rw [hleaves]
      exact hroot
    rw [hok, Outcome.ok_bind, hroot', Outcome.ok_bind]
    split <;> exact fun h => by cases h

/-- The signature of a block parses. -/
def Block.Parses (P : Primitives) (block : Block) : Prop :=
  P.fromCompact block.signature.compact = true

variable {self : NodeShared} {block : Block}

/-- **`validate_block` ends** on such blocks, when validator sets are registered. -/
theorem validateBlock_ne_panic (hinv : self.notesTree.Inv P.poseidon)
    (hsets : Registered self.validatorSets) (hparses : block.Parses P)
    (hverified : Verified P block.content.state.txns)
    (hfresh : self.notesTree.tree.Fresh block.content.state.leavesNonNull) :
    self.validateBlock P storeReads block ≠ .panic := by
  unfold NodeShared.validateBlock
  split
  · exact fun h => by cases h
  · obtain ⟨leader, hleader⟩ := getLeaderForBlockHeight_ok (ε := Error) hsets block.height
    have hverify : ∃ signer, (block.signature.verify P (block.hash P) :
        Outcome Error (Option Address)) = .ok signer := by
      unfold Signature.verify
      split
      · rw [if_pos (show P.fromCompact block.signature.compact = true from hparses)]
        exact ⟨_, rfl⟩
      · exact ⟨_, rfl⟩
    obtain ⟨signer, hsigner⟩ := hverify
    rw [hleader, Outcome.ok_bind, hsigner, Outcome.ok_bind]
    cases signer with
    | none => exact fun h => by cases h
    | some signedBy =>
      simp only
      split
      · exact fun h => by cases h
      · exact validate_ne_panic hinv hverified hfresh

/-! ## Commit of new leaves -/

/-- New leaves are not in the tree. -/
lemma not_containsElement_of_fresh {leaves : List Element} {leaf : Element}
    (hfresh : notesTree.tree.Fresh leaves) (hleaf : leaf ∈ leaves) :
    notesTree.tree.containsElement leaf = false := by
  by_contra hin
  have hkey : leaf ∈ notesTree.tree.entries.keys := by
    rw [Std.TreeMap.mem_keys]
    exact Std.TreeMap.contains_iff_mem.1 (Bool.eq_true_of_not_eq_false hin)
  exact hfresh.free leaf hkey leaf hleaf rfl

/-- The leaves of a block that go into the batch: all of them, or when collisions are ignored
those that are not in the tree. -/
def newLeaves (notesTree : PersistentMerkleTree) (state : BlockState) (ignoreCollisions : Bool) :
    List Element :=
  if ignoreCollisions then
    state.leavesNonNull.filter fun leaf => !notesTree.tree.containsElement leaf
  else state.leavesNonNull

/-- **What a tree takes**: unless collisions are ignored no leaf is in the tree, the leaves of
the batch are new, and they can be written. -/
structure Takes (notesTree : PersistentMerkleTree) (state : BlockState)
    (ignoreCollisions treeWrites : Bool) : Prop where
  unspent : ignoreCollisions = false →
    ∀ leaf ∈ state.leavesNonNull, notesTree.tree.containsElement leaf = false
  fresh : notesTree.tree.Fresh (newLeaves notesTree state ignoreCollisions)
  writes : newLeaves notesTree state ignoreCollisions ≠ [] → treeWrites = true

section Takes

variable {state : BlockState} {ignoreCollisions treeWrites : Bool}

/-- The keys and the leaves of the batch are the keys and all the leaves. -/
lemma mem_newLeaves (e : Element) :
    (e ∈ notesTree.tree.entries.keys ∨ e ∈ newLeaves notesTree state ignoreCollisions) ↔
      (e ∈ notesTree.tree.entries.keys ∨ e ∈ state.leavesNonNull) := by
  unfold newLeaves
  split_ifs
  · rw [List.mem_filter]
    constructor
    · exact Or.imp_right And.left
    · rintro (hkey | hleaf)
      · exact .inl hkey
      · cases hcontains : notesTree.tree.containsElement e with
        | false => exact .inr ⟨hleaf, rfl⟩
        | true =>
          refine .inl ?_
          rw [Std.TreeMap.mem_keys]
          exact Std.TreeMap.contains_iff_mem.1 hcontains
  · exact Iff.rfl

/-- Leaves that are not in the tree all go into the batch. -/
lemma newLeaves_eq
    (hnew : ∀ leaf ∈ state.leavesNonNull, notesTree.tree.containsElement leaf = false) :
    newLeaves notesTree state ignoreCollisions = state.leavesNonNull := by
  unfold newLeaves
  split_ifs
  · rw [List.filter_eq_self]
    intro leaf hleaf
    rw [hnew leaf hleaf]
    rfl
  · rfl

/-- The leaves of the batch are not in the tree, when the double-spend check passes. -/
lemma not_containsElement_of_mem_newLeaves
    (hunspent : ignoreCollisions = false →
      ∀ leaf ∈ state.leavesNonNull, notesTree.tree.containsElement leaf = false)
    {leaf : Element} (hleaf : leaf ∈ newLeaves notesTree state ignoreCollisions) :
    leaf ∈ state.leavesNonNull ∧ notesTree.tree.containsElement leaf = false := by
  unfold newLeaves at hleaf
  cases ignoreCollisions with
  | false => exact ⟨hleaf, hunspent rfl leaf hleaf⟩
  | true =>
    rw [if_pos rfl, List.mem_filter] at hleaf
    exact ⟨hleaf.1, by simpa using hleaf.2⟩

/-- The check for double spends. -/
lemma unspent_iff :
    (ignoreCollisions || state.leavesNonNull.all fun leaf =>
        !notesTree.tree.containsElement leaf) = true ↔
      (ignoreCollisions = false →
        ∀ leaf ∈ state.leavesNonNull, notesTree.tree.containsElement leaf = false) := by
  cases ignoreCollisions <;> simp

/-- New leaves can be taken. -/
lemma takes_of_fresh (hfresh : notesTree.tree.Fresh state.leavesNonNull) :
    Takes notesTree state ignoreCollisions true := by
  have hnew : ∀ leaf ∈ state.leavesNonNull, notesTree.tree.containsElement leaf = false :=
    fun _ => not_containsElement_of_fresh hfresh
  refine ⟨fun _ => hnew, ?_, fun _ => rfl⟩
  rw [newLeaves_eq hnew]
  exact hfresh

/-- The application of a block, after the check for double spends. -/
lemma applyBlockToTree_eq
    (hunspent : ignoreCollisions = false →
      ∀ leaf ∈ state.leavesNonNull, notesTree.tree.containsElement leaf = false)
    (currentHeight : BlockHeight) :
    applyBlockToTree P treeWrites state currentHeight ignoreCollisions notesTree =
      (do
        let batch ← Program.lift <| (Smirk.Batch.fromEntries
          ((newLeaves notesTree state ignoreCollisions).map fun leaf =>
            (leaf, currentHeight))).mapErr .collision
        (Smirk.Persistent.insertBatch P.poseidon treeWrites batch).mapErr .smirk :
        Program PersistentMerkleTree Error Unit) notesTree := by
  simp only [applyBlockToTree, Program.run_bind, Program.run_get, Program.run_assert,
    unspent_iff.2 hunspent, if_true]
  rfl

/-- **A tree takes what it can.** -/
lemma applyBlockToTree_of_takes (hinv : notesTree.Inv P.poseidon)
    (h : Takes notesTree state ignoreCollisions treeWrites) (currentHeight : BlockHeight) :
    ∃ notesTree', applyBlockToTree P treeWrites state currentHeight ignoreCollisions notesTree =
        (.ok (), notesTree') ∧ notesTree'.Inv P.poseidon ∧
      ∀ e, e ∈ notesTree'.tree.entries.keys ↔
        e ∈ notesTree.tree.entries.keys ∨ e ∈ state.leavesNonNull := by
  rw [applyBlockToTree_eq h.unspent]
  rcases Smirk.Batch.fromEntries_cases MERKLE_TREE_DEPTH_le
    (newLeaves notesTree state ignoreCollisions) currentHeight with
    ⟨-, batch, hok, helements⟩ | ⟨hdup, -⟩
  · have hfresh := h.fresh
    rw [← helements] at hfresh
    have hinsert : ∃ notesTree',
        Smirk.Persistent.insertBatch P.poseidon treeWrites batch notesTree =
        (.ok (), notesTree') ∧ notesTree'.Inv P.poseidon ∧
        ∀ e, e ∈ notesTree'.tree.entries.keys ↔
          e ∈ notesTree.tree.entries.keys ∨ e ∈ batch.elements := by
      by_cases hnil : batch.elements = []
      · have hentries : batch.entries = [] := List.map_eq_nil_iff.1 hnil
        refine ⟨notesTree, ?_, hinv, fun e => ?_⟩
        · rw [Smirk.Persistent.insertBatch, hentries]
          rfl
        · rw [hnil]
          simp
      · rw [helements] at hnil
        rw [h.writes hnil]
        exact Smirk.Persistent.insertBatch_of_fresh MERKLE_TREE_DEPTH_pos MERKLE_TREE_DEPTH_le
          hinv hfresh
    obtain ⟨notesTree', hrun, hinv', hkeys⟩ := hinsert
    refine ⟨notesTree', ?_, hinv', fun e => ?_⟩
    · simp only [Program.run_bind, hok, Outcome.mapErr, Program.run_lift, Program.mapErr, hrun]
    · rw [hkeys, helements, mem_newLeaves]
  · exact absurd h.fresh.distinct hdup

/-- **A tree refuses the rest**, and its database stays as it was. -/
lemma applyBlockToTree_of_not_takes (hinv : notesTree.Inv P.poseidon)
    (hnot : ¬ Takes notesTree state ignoreCollisions treeWrites) (currentHeight : BlockHeight) :
    (applyBlockToTree P treeWrites state currentHeight ignoreCollisions notesTree).1 ≠ .ok () ∧
      (applyBlockToTree P treeWrites state currentHeight ignoreCollisions notesTree).2.db =
        notesTree.db := by
  by_cases hunspent : ignoreCollisions = false →
      ∀ leaf ∈ state.leavesNonNull, notesTree.tree.containsElement leaf = false
  · rw [applyBlockToTree_eq hunspent]
    rcases Smirk.Batch.fromEntries_cases MERKLE_TREE_DEPTH_le
      (newLeaves notesTree state ignoreCollisions) currentHeight with
      ⟨-, batch, hok, helements⟩ | ⟨-, e, herr⟩
    · simp only [Program.run_bind, hok, Outcome.mapErr, Program.run_lift]
      have hrefused : (Smirk.Persistent.insertBatch P.poseidon treeWrites batch notesTree).1 ≠
            .ok () ∧
          (Smirk.Persistent.insertBatch P.poseidon treeWrites batch notesTree).2.db =
            notesTree.db := by
        by_cases hfresh : notesTree.tree.Fresh batch.elements
        · -- the leaves are new, so that they cannot be written
          have hwrites : treeWrites = false ∧ batch.entries ≠ [] := by
            rw [helements] at hfresh
            by_contra hcon
            refine hnot ⟨hunspent, hfresh, fun hne => ?_⟩
            rw [not_and_or, Bool.not_eq_false, not_not] at hcon
            refine hcon.resolve_right fun hnil => hne ?_
            rw [← helements, Smirk.Batch.elements, hnil]
            rfl
          rw [hwrites.1]
          exact Smirk.Persistent.insertBatch_of_not_writes MERKLE_TREE_DEPTH_pos
            MERKLE_TREE_DEPTH_le hinv.tree hwrites.2 hfresh
        · have := @Smirk.Persistent.insertBatch_of_not_fresh _ _ P.poseidon _ MERKLE_TREE_DEPTH_le
            treeWrites _ hfresh
          exact ⟨this.1, congrArg Smirk.Persistent.db this.2⟩
      rw [Ne, Program.fst_mapErr_eq_ok, Program.snd_mapErr]
      exact hrefused
    · simp only [Program.run_bind, herr, Outcome.mapErr, Program.run_lift]
      exact ⟨(fun h => by cases h), trivial⟩
  · have hspent := Bool.eq_false_iff.2 (mt unspent_iff.1 hunspent)
    simp only [applyBlockToTree, Program.run_bind, Program.run_get, Program.run_assert, hspent,
      Bool.false_eq_true, if_false]
    exact ⟨(fun h => by cases h), trivial⟩

end Takes

/-- **New leaves are inserted**, whether collisions are ignored or not. -/
theorem applyBlockToTree_of_fresh (hinv : notesTree.Inv P.poseidon) {state : BlockState}
    (hfresh : notesTree.tree.Fresh state.leavesNonNull) (currentHeight : BlockHeight)
    (ignoreCollisions : Bool) :
    ∃ notesTree', applyBlockToTree P true state currentHeight ignoreCollisions notesTree =
        (.ok (), notesTree') ∧ notesTree'.Inv P.poseidon ∧
      ∀ e, e ∈ notesTree'.tree.entries.keys ↔
        e ∈ notesTree.tree.entries.keys ∨ e ∈ state.leavesNonNull :=
  applyBlockToTree_of_takes hinv (takes_of_fresh hfresh) currentHeight

/-- **The commit of a block that can be stored**, after the check for double spends: the block is
stored whatever the tree then does, and the mempool hears of it only if the tree takes it. -/
lemma commitProposal_run {world : World} (hstore : world.storeWrites = true)
    (hunspent : self.config.badBlocks.contains block.height = false →
      ∀ leaf ∈ block.content.state.leavesNonNull,
        self.notesTree.tree.containsElement leaf = false) :
    commitProposal P world block self =
      let applied := applyBlockToTree P world.treeWrites block.content.state block.height
        (self.config.badBlocks.contains block.height) self.notesTree
      let stored := { self with
        blockStore := self.blockStore.set block
        notesTree := applied.2 }
      match applied.1 with
      | .ok () =>
        (do
          commitMempool world.order block.height
            (block.content.state.txns.map fun txn => (txn.hash P, .ok block))
          emit (.committed block) : Call Unit) stored
      | .err e => (.err e, stored)
      | .panic => (.panic, stored) := by
  simp only [commitProposal, Program.run_bind, Program.run_get, Program.run_assert,
    unspent_iff.2 hunspent, if_true, Program.run_ensure, hstore, Program.run_modify, Program.zoom]
  rcases applyBlockToTree P world.treeWrites block.content.state block.height
    (self.config.badBlocks.contains block.height) self.notesTree with ⟨⟨⟩ | _ | _, notesTree'⟩
  · rfl
  · rfl
  · rfl

/-- **What is committed**: a block that can be stored and that the tree takes. -/
structure Committable (world : World) (node : NodeShared) (block : Block) : Prop where
  storeWrites : world.storeWrites = true
  takes : Takes node.notesTree block.content.state
    (node.config.badBlocks.contains block.height) world.treeWrites

/-- **A block is committed** to both stores and to the mempool. -/
lemma commitProposal_of_committable (hinv : self.notesTree.Inv P.poseidon) {world : World}
    (h : Committable world self block) :
    ∃ notesTree effects,
      commitProposal P world block self =
        (.ok (), { self with
          blockStore := self.blockStore.set block
          notesTree := notesTree
          mempool := (self.mempool.commit world.order block.height
            (block.content.state.txns.map fun txn =>
              (txn.hash P, (.ok block : Except Error Block)))).1
          effects := effects }) ∧
      notesTree.Inv P.poseidon ∧
      ∀ e, e ∈ notesTree.tree.entries.keys ↔
        e ∈ self.notesTree.tree.entries.keys ∨ e ∈ block.content.state.leavesNonNull := by
  obtain ⟨notesTree, hrun, hinv', hkeys⟩ := applyBlockToTree_of_takes hinv h.takes block.height
  refine ⟨notesTree, (commitProposal P world block self).2.effects, ?_, hinv', hkeys⟩
  rw [commitProposal_run h.storeWrites h.takes.unspent, hrun]
  rfl

/-- **A block that is not committed**: nothing is stored, or the block is stored while one of
its leaves is neither in the tree before nor in its database afterwards. -/
lemma commitProposal_of_not_committable (hinv : self.notesTree.Inv P.poseidon) {world : World}
    (hnot : ¬ Committable world self block) :
    (commitProposal P world block self).1 ≠ .ok () ∧
      (commitProposal P world block self).2.blockCache = self.blockCache ∧
      (commitProposal P world block self).2.notesTree.db = self.notesTree.db ∧
      ((commitProposal P world block self).2.blockStore = self.blockStore ∨
        (commitProposal P world block self).2.blockStore = self.blockStore.set block ∧
          ∃ leaf ∈ block.content.state.leavesNonNull,
            leaf ∉ self.notesTree.tree.entries.keys) := by
  by_cases hunspent : self.config.badBlocks.contains block.height = false →
      ∀ leaf ∈ block.content.state.leavesNonNull,
        self.notesTree.tree.containsElement leaf = false
  · cases hstore : world.storeWrites with
    | false =>
      simp only [commitProposal, Program.run_bind, Program.run_get, Program.run_assert,
        unspent_iff.2 hunspent, if_true, Program.run_ensure, hstore, Bool.false_eq_true, if_false]
      exact ⟨(fun h => by cases h), trivial, trivial, .inl trivial⟩
    | true =>
      have hrefused : ¬ Takes self.notesTree block.content.state
          (self.config.badBlocks.contains block.height) world.treeWrites :=
        fun htakes => hnot ⟨hstore, htakes⟩
      have hleaf : ∃ leaf ∈ block.content.state.leavesNonNull,
          leaf ∉ self.notesTree.tree.entries.keys := by
        have hne : newLeaves self.notesTree block.content.state
            (self.config.badBlocks.contains block.height) ≠ [] := by
          intro hnil
          refine hrefused ⟨hunspent, ?_, fun hne => absurd hnil hne⟩
          rw [hnil]
          exact ⟨by simp, List.Pairwise.nil, by simp⟩
        obtain ⟨leaf, hleaf⟩ := List.exists_mem_of_ne_nil _ hne
        obtain ⟨hmem, hnew⟩ := not_containsElement_of_mem_newLeaves hunspent hleaf
        refine ⟨leaf, hmem, fun hkey => ?_⟩
        rw [Std.TreeMap.mem_keys, ← Std.TreeMap.contains_iff_mem] at hkey
        rw [Smirk.Tree.containsElement, hkey] at hnew
        cases hnew
      obtain ⟨hne, hdb⟩ := applyBlockToTree_of_not_takes hinv hrefused block.height
      rw [commitProposal_run hstore hunspent]
      revert hne hdb
      generalize applyBlockToTree P world.treeWrites block.content.state block.height
        (self.config.badBlocks.contains block.height) self.notesTree = applied
      rcases applied with ⟨_ | _ | _, notesTree'⟩
      · intro hne
        exact absurd rfl hne
      · exact fun _ hdb => ⟨(fun h => by cases h), rfl, hdb, .inr ⟨rfl, hleaf⟩⟩
      · exact fun _ hdb => ⟨(fun h => by cases h), rfl, hdb, .inr ⟨rfl, hleaf⟩⟩
  · have hspent := Bool.eq_false_iff.2 (mt unspent_iff.1 hunspent)
    simp only [commitProposal, Program.run_bind, Program.run_get, Program.run_assert, hspent,
      Bool.false_eq_true, if_false]
    exact ⟨(fun h => by cases h), trivial, trivial, .inl trivial⟩

/-- **A block of new leaves is committed** to both stores and to the mempool. -/
theorem commitProposal_of_fresh (hinv : self.notesTree.Inv P.poseidon)
    (hfresh : self.notesTree.tree.Fresh block.content.state.leavesNonNull) {world : World}
    (hstore : world.storeWrites = true) (htree : world.treeWrites = true) :
    ∃ notesTree effects,
      commitProposal P world block self =
        (.ok (), { self with
          blockStore := self.blockStore.set block
          notesTree := notesTree
          mempool := (self.mempool.commit world.order block.height
            (block.content.state.txns.map fun txn =>
              (txn.hash P, (.ok block : Except Error Block)))).1
          effects := effects }) ∧
      notesTree.Inv P.poseidon ∧
      ∀ e, e ∈ notesTree.tree.entries.keys ↔
        e ∈ self.notesTree.tree.entries.keys ∨ e ∈ block.content.state.leavesNonNull := by
  refine commitProposal_of_committable hinv ⟨hstore, ?_⟩
  rw [htree]
  exact takes_of_fresh hfresh

/-! ## Validation and application -/

/-- The leaves that are recorded differ. -/
lemma nodup_recordLeaves {txnHash : CryptoHash} {leaves : List Element}
    {txnLeaves txnLeaves' : List (Element × CryptoHash)}
    (hok : recordLeaves txnHash leaves txnLeaves = .ok txnLeaves')
    (hnodup : (txnLeaves.map Prod.fst).Nodup) : (txnLeaves'.map Prod.fst).Nodup := by
  induction leaves generalizing txnLeaves with
  | nil =>
    cases hok
    exact hnodup
  | cons leaf leaves ih =>
    unfold recordLeaves at hok
    split_ifs at hok with hzero
    · exact ih hok hnodup
    · split at hok
      · cases hok
      · next hnone =>
        refine ih hok ?_
        rw [List.map_append, List.nodup_append]
        refine ⟨hnodup, List.nodup_singleton _, ?_⟩
        rintro a ha b hb rfl
        rw [List.map_singleton, List.mem_singleton] at hb
        obtain ⟨entry, hentry, rfl⟩ := List.mem_map.1 ha
        have := List.lookup_eq_none_iff.1 hnone entry hentry
        simp [hb] at this

/-- Leaves that differ are recorded. -/
lemma recordLeaves_of_nodup {txnHash : CryptoHash} {leaves : List Element}
    {txnLeaves : List (Element × CryptoHash)}
    (hnodup : (txnLeaves.map Prod.fst ++
      leaves.filter fun e => e != Element.NULL_HASH).Nodup) :
    ∃ txnLeaves', recordLeaves txnHash leaves txnLeaves = .ok txnLeaves' := by
  induction leaves generalizing txnLeaves with
  | nil => exact ⟨txnLeaves, rfl⟩
  | cons leaf leaves ih =>
    unfold recordLeaves
    split_ifs with hzero
    · rw [List.filter_cons_of_neg (by simp [hzero])] at hnodup
      exact ih hnodup
    · rw [List.filter_cons_of_pos (by simpa using hzero)] at hnodup
      have hnone : txnLeaves.lookup leaf = none := by
        rw [List.lookup_eq_none_iff]
        intro entry hentry
        have hne := (List.nodup_append.1 hnodup).2.2 entry.1 (List.mem_map_of_mem hentry) leaf
          List.mem_cons_self
        simpa using hne.symm
      rw [hnone]
      apply ih
      rw [List.map_append, List.append_assoc]
      exact hnodup

/-- **Transactions that pass validation**: each of them does, and their leaves, which are all
recorded, differ. -/
lemma validateTxns_eq_ok {txnLeaves txnLeaves' : List (Element × CryptoHash)}
    (hok : validateTxns P storeReads mode height blockStore notesTree txns txnLeaves =
      .ok txnLeaves')
    (hnodup : (txnLeaves.map Prod.fst).Nodup) :
    (∀ txn ∈ txns, validateTxn P storeReads mode txn height blockStore notesTree = .ok ()) ∧
      (txnLeaves'.map Prod.fst).Nodup ∧
      txnLeaves'.map Prod.fst = txnLeaves.map Prod.fst ++
        (txns.flatMap UtxoProof.leaves).filter fun e => e != Element.NULL_HASH := by
  induction txns generalizing txnLeaves with
  | nil =>
    cases hok
    exact ⟨by simp, hnodup, by simp⟩
  | cons txn txns ih =>
    unfold validateTxns at hok
    obtain ⟨next, hrecord, hok⟩ := Outcome.bind_eq_ok.1 hok
    rw [then_eq_ok_iff] at hok
    obtain ⟨hvalid, hok⟩ := hok
    obtain ⟨hrest, hnodup', hleaves⟩ := ih hok (nodup_recordLeaves hrecord hnodup)
    rcases recordLeaves_cases (txn.hash P) txn.leaves txnLeaves with ⟨e, herr⟩ | ⟨_, hok', hnext⟩
    · rw [hrecord] at herr
      cases herr
    · rw [hrecord] at hok'
      cases hok'
      refine ⟨?_, hnodup', ?_⟩
      · rw [List.forall_mem_cons]
        exact ⟨hvalid, hrest⟩
      · rw [hleaves, hnext, List.flatMap_cons, List.filter_append, List.append_assoc]

/-- Valid transactions whose leaves differ pass validation. -/
lemma validateTxns_of_nodup {txnLeaves : List (Element × CryptoHash)}
    (hvalid : ∀ txn ∈ txns, validateTxn P storeReads mode txn height blockStore notesTree = .ok ())
    (hnodup : (txnLeaves.map Prod.fst ++
      (txns.flatMap UtxoProof.leaves).filter fun e => e != Element.NULL_HASH).Nodup) :
    ∃ txnLeaves', validateTxns P storeReads mode height blockStore notesTree txns txnLeaves =
      .ok txnLeaves' := by
  induction txns generalizing txnLeaves with
  | nil => exact ⟨txnLeaves, rfl⟩
  | cons txn txns ih =>
    rw [List.forall_mem_cons] at hvalid
    rw [List.flatMap_cons, List.filter_append, ← List.append_assoc] at hnodup
    obtain ⟨next, hrecord⟩ := @recordLeaves_of_nodup (txn.hash P) _ _
      (List.Nodup.of_append_left hnodup)
    unfold validateTxns
    rw [hrecord, Outcome.ok_bind, hvalid.1, Outcome.ok_bind]
    rcases recordLeaves_cases (txn.hash P) txn.leaves txnLeaves with ⟨e, herr⟩ | ⟨_, hok', hnext⟩
    · rw [hrecord] at herr
      cases herr
    · rw [hrecord] at hok'
      cases hok'
      rw [← hnext] at hnodup
      exact ih hvalid.2 hnodup

/-- **What validation of a block says**: each transaction passes, their leaves differ, and the
root is the one that the dry run finds. -/
lemma validate_eq_ok_iff {content : BlockContent} :
    content.validate P storeReads mode blockStore notesTree = .ok () ↔
      (∀ txn ∈ content.state.txns,
        validateTxn P storeReads mode txn content.header.height blockStore notesTree = .ok ()) ∧
      content.state.leavesNonNull.Nodup ∧
      newRootHash P notesTree content.state.leavesNonNull = .ok content.state.rootHash := by
  unfold BlockContent.validate
  constructor
  · intro hok
    obtain ⟨txnLeaves, htxns, hok⟩ := Outcome.bind_eq_ok.1 hok
    obtain ⟨root, hroot, hok⟩ := Outcome.bind_eq_ok.1 hok
    obtain ⟨hvalid, hnodup, hleaves⟩ := validateTxns_eq_ok htxns List.nodup_nil
    split_ifs at hok with hne
    rw [not_not] at hne
    rw [hleaves] at hroot hnodup
    refine ⟨hvalid, hnodup, ?_⟩
    rw [← hne]
    exact hroot
  · rintro ⟨hvalid, hnodup, hroot⟩
    obtain ⟨txnLeaves, htxns⟩ :=
      @validateTxns_of_nodup P storeReads mode _ blockStore notesTree _ []
      hvalid hnodup
    obtain ⟨-, -, hleaves⟩ := validateTxns_eq_ok htxns List.nodup_nil
    have hroot' : newRootHash P notesTree (txnLeaves.map Prod.fst) =
        .ok content.state.rootHash := by
      rw [hleaves]
      exact hroot
    rw [htxns, Outcome.ok_bind, hroot', Outcome.ok_bind, if_neg (not_not.2 rfl)]

/-- The leaves of valid transactions are not in the tree. -/
lemma not_containsElement_of_validate {content : BlockContent}
    (hok : content.validate P storeReads mode blockStore notesTree = .ok ()) {leaf : Element}
    (hleaf : leaf ∈ content.state.leavesNonNull) :
    notesTree.tree.containsElement leaf = false := by
  rw [BlockState.leavesNonNull, List.mem_filter, List.mem_flatMap] at hleaf
  obtain ⟨⟨txn, htxn, hmem⟩, hne⟩ := hleaf
  have hacceptable := (validateTxn_eq_ok_iff.1 ((validate_eq_ok_iff.1 hok).1 txn htxn)).1
  exact hacceptable.new leaf hmem (by simpa using hne)

/-- The leaves that are not zero are not zero. -/
lemma ne_null_of_mem_leavesNonNull {state : BlockState} {leaf : Element}
    (hleaf : leaf ∈ state.leavesNonNull) : leaf ≠ Element.NULL_HASH := by
  rw [BlockState.leavesNonNull, List.mem_filter] at hleaf
  simpa using hleaf.2

/-- No leaf shares its low bits with an element of the tree. -/
def Uncontested (notesTree : PersistentMerkleTree) (leaves : List Element) : Prop :=
  ∀ key ∈ notesTree.tree.entries.keys, ∀ leaf ∈ leaves,
    leaf.slot (MERKLE_TREE_DEPTH - 1) ≠ key.slot (MERKLE_TREE_DEPTH - 1)

/-- The leaves of a validated block are new, when they are uncontested: that they differ from
each other in their low bits is what the dry run asserts. -/
lemma fresh_of_validate (hinv : notesTree.Inv P.poseidon) {content : BlockContent}
    (hok : content.validate P storeReads mode blockStore notesTree = .ok ())
    (hfree : Uncontested notesTree content.state.leavesNonNull) :
    notesTree.tree.Fresh content.state.leavesNonNull := by
  obtain ⟨-, -, hroot⟩ := validate_eq_ok_iff.1 hok
  unfold newRootHash at hroot
  split_ifs at hroot with hempty
  · rw [List.isEmpty_iff] at hempty
    rw [hempty]
    exact ⟨by simp, List.Pairwise.nil, by simp⟩
  · cases hdry : notesTree.tree.rootHashWith P.poseidon content.state.leavesNonNull with
    | ok root =>
      exact Smirk.Tree.fresh_of_rootHashWith MERKLE_TREE_DEPTH_le hinv.tree
        (fun _ => ne_null_of_mem_leavesNonNull) hfree hdry
    | err e => exact e.elim
    | panic =>
      rw [hdry] at hroot
      cases hroot

/-- The dry run finds the root of every tree that has the new leaves. -/
lemma newRootHash_eq {notesTree' : PersistentMerkleTree} {leaves : List Element}
    (hinv : notesTree.Inv P.poseidon) (hinv' : notesTree'.Inv P.poseidon)
    (hfresh : notesTree.tree.Fresh leaves)
    (hkeys : ∀ e, e ∈ notesTree'.tree.entries.keys ↔
      e ∈ notesTree.tree.entries.keys ∨ e ∈ leaves) :
    newRootHash P notesTree leaves = .ok (notesTree'.tree.rootHash P.poseidon) := by
  unfold newRootHash
  rw [hinv'.tree.rootHash_eq]
  split_ifs with hempty
  · rw [List.isEmpty_iff] at hempty
    have hoccupant := Smirk.occupant_congr hinv.tree.distinct fun e => show
      e ∈ notesTree'.tree.entries.keys ↔ e ∈ notesTree.tree.entries.keys by
        rw [hkeys, hempty]
        simp
    rw [hinv.tree.rootHash_eq, hoccupant]
  · rw [Smirk.Tree.rootHashWith_spec MERKLE_TREE_DEPTH_le hinv.tree hfresh hkeys]
    rfl

/-- Leaves that are not in the tree are inserted only if they are new. -/
lemma fresh_of_applyBlockToTree (hinv : notesTree.Inv P.poseidon) {state : BlockState}
    {treeWrites ignoreCollisions : Bool} {currentHeight : BlockHeight}
    (hnew : ∀ leaf ∈ state.leavesNonNull, notesTree.tree.containsElement leaf = false)
    (hok : (applyBlockToTree P treeWrites state currentHeight ignoreCollisions notesTree).1 =
      .ok ()) : notesTree.tree.Fresh state.leavesNonNull := by
  by_contra hnot
  refine (applyBlockToTree_of_not_takes hinv (fun htakes => hnot ?_) currentHeight).1 hok
  rw [← newLeaves_eq hnew]
  exact htakes.fresh

/-- The tree takes a block: it is applied, at whatever height and whether collisions are ignored
or not, and the root is the block's. -/
def Applies (P : Primitives) (notesTree : PersistentMerkleTree) (state : BlockState) : Prop :=
  ∀ currentHeight ignoreCollisions, ∃ notesTree',
    applyBlockToTree P true state currentHeight ignoreCollisions notesTree =
        (.ok (), notesTree') ∧
      notesTree'.tree.rootHash P.poseidon = state.rootHash

/-- The commit of a block, with storage that can be written, stores it and applies it to the
tree. -/
def Commits (P : Primitives) (self : NodeShared) (block : Block) : Prop :=
  ∀ world : World, world.storeWrites = true → world.treeWrites = true →
    ∃ self', commitProposal P world block self = (.ok (), self') ∧
      self'.blockStore = self.blockStore.set block ∧
      self'.notesTree.tree.rootHash P.poseidon = block.rootHash

/-- New leaves with the root of the dry run are applied. -/
lemma applies_of_fresh (hinv : notesTree.Inv P.poseidon) {state : BlockState}
    (hfresh : notesTree.tree.Fresh state.leavesNonNull)
    (hroot : newRootHash P notesTree state.leavesNonNull = .ok state.rootHash) :
    Applies P notesTree state := by
  intro currentHeight ignoreCollisions
  obtain ⟨notesTree', hrun, hinv', hkeys⟩ :=
    applyBlockToTree_of_fresh hinv hfresh currentHeight ignoreCollisions
  rw [newRootHash_eq hinv hinv' hfresh hkeys] at hroot
  exact ⟨notesTree', hrun, Outcome.ok.inj hroot⟩

/-- A block with fresh leaves and the right root is committed with that root. -/
lemma commits_of_fresh (hinv : self.notesTree.Inv P.poseidon)
    (hfresh : self.notesTree.tree.Fresh block.content.state.leavesNonNull)
    (hroot : newRootHash P self.notesTree block.content.state.leavesNonNull =
      .ok block.content.state.rootHash) : Commits P self block := by
  intro world hstore htree
  obtain ⟨notesTree', effects, hrun, hinv', hkeys⟩ :=
    commitProposal_of_fresh hinv hfresh hstore htree
  rw [newRootHash_eq hinv hinv' hfresh hkeys] at hroot
  exact ⟨_, hrun, rfl, Outcome.ok.inj hroot⟩

/-- **Validation and application.** A block that passed validation on a tree is applied to it
with the root it says, and committed, exactly when none of its leaves shares its low bits with
an element of the tree.

**Proof sketch.** Validation keeps the leaves out of the tree and apart from each other. What
it does not see is a leaf in the slot of another element: the dry run returns the old leaf
there, while the insertion refuses the new one. -/
theorem validate_applies_iff (hinv : self.notesTree.Inv P.poseidon)
    (hok : block.content.validate P storeReads mode blockStore self.notesTree = .ok ()) :
    (Applies P self.notesTree block.content.state ∧ Commits P self block) ↔
      Uncontested self.notesTree block.content.state.leavesNonNull := by
  constructor
  · rintro ⟨happlies, -⟩
    obtain ⟨notesTree', hrun, -⟩ := happlies 0 false
    exact (fresh_of_applyBlockToTree hinv (fun _ => not_containsElement_of_validate hok)
      (congrArg Prod.fst hrun)).free
  · intro hfree
    have hfresh := fresh_of_validate hinv hok hfree
    obtain ⟨-, -, hroot⟩ := validate_eq_ok_iff.1 hok
    exact ⟨applies_of_fresh hinv hfresh hroot, commits_of_fresh hinv hfresh hroot⟩

end Fresh

/-! ### Two mints that share their low bits -/

namespace SharedLowBits

/-- A hash function that is easy to compute. -/
def sumHash (l : List Fr) : Fr := l.sum

/-- The mint of a note of value 10. -/
def firstTxn : UtxoProof := mintProof sumHash (⟨2, 0, 10, 0⟩, ⟨2, 0, 0, 0⟩)

/-- The mint of the same note with another `psi`, so that the two commitments share their low
160 bits. -/
def secondTxn : UtxoProof := mintProof sumHash (⟨2, 2 ^ 160, 10, 0⟩, ⟨2, 0, 0, 0⟩)

/-- The verifier accepts the public inputs of the two mints. -/
def primitives : Primitives where
  poseidon := sumHash
  keccak256 _ := 0
  verifyProof _ instances :=
    some (decide (instances = firstTxn.instances.map Element.toBase ∨
      instances = secondTxn.instances.map Element.toBase))
  fromCompact _ := true
  recoverEcdsa _ _ := some 0
  signEcdsa _ := .default

/-- A block of one transaction. -/
def blockOf (height : BlockHeight) (rootHash : Element) (txn : UtxoProof) : Block where
  content :=
    { header := { height := height, lastBlockHash := 0, epochId := 0, lastFinalBlockHash := 0,
                  approvals := [] }
      state := { rootHash := rootHash, txns := [txn] } }
  signature := .default

/-- The first block, with the root that the dry run finds. -/
def firstBlock : Block :=
  blockOf 1 (match newRootHash primitives .new [14] with
    | .ok root => root
    | _ => 0) firstTxn

/-- A validator that committed the first block. -/
def afterFirst : NodeShared :=
  (commitProposal primitives (.reliable fun _ => .constant .initial) firstBlock
    (freshValidator primitives)).2

/-- The second block, which says that the root does not change. -/
def secondBlock : Block := blockOf 2 (afterFirst.notesTree.tree.rootHash sumHash) secondTxn

/-- The leaves of a block of one transaction are those of the transaction. -/
lemma leavesNonNull_blockOf (height : BlockHeight) (rootHash : Element) (txn : UtxoProof) :
    (blockOf height rootHash txn).content.state.leavesNonNull = txn.leavesNonNull := by
  simp [BlockState.leavesNonNull, blockOf, UtxoProof.leavesNonNull]

/-- The only leaf of the first block. -/
lemma leavesNonNull_firstBlock : firstBlock.content.state.leavesNonNull = [14] := by
  rw [firstBlock, leavesNonNull_blockOf]
  decide

/-- The only leaf of the second block. -/
lemma leavesNonNull_secondBlock :
    secondBlock.content.state.leavesNonNull = [14 + 2 ^ 160] := by
  rw [secondBlock, leavesNonNull_blockOf]
  decide

/-- A new validator has the invariant. -/
lemma inv_freshValidator : (freshValidator primitives).notesTree.Inv primitives.poseidon :=
  Smirk.Persistent.inv_new MERKLE_TREE_DEPTH_pos

/-- The first leaf is new. -/
lemma fresh_firstBlock :
    (freshValidator primitives).notesTree.tree.Fresh firstBlock.content.state.leavesNonNull := by
  refine ⟨fun _ => ne_null_of_mem_leavesNonNull, ?_, fun e he => ?_⟩
  · rw [leavesNonNull_firstBlock]
    exact List.pairwise_singleton _ _
  · exact absurd he List.not_mem_nil

/-- The first block is valid for the empty tree. -/
lemma validate_firstBlock :
    firstBlock.content.validate primitives true .validator .empty
      (freshValidator primitives).notesTree = .ok () := by
  rw [validate_eq_ok_iff]
  refine ⟨?_, ?_, ?_⟩
  · intro txn htxn
    rw [List.mem_singleton.1 htxn]
    exact show validateTxn primitives true .validator firstTxn 1 .empty .new = .ok () by
      decide
  · rw [leavesNonNull_firstBlock]
    exact List.nodup_singleton _
  · obtain ⟨root, hroot⟩ := newRootHash_of_fresh inv_freshValidator fresh_firstBlock
    rw [hroot]
    rw [leavesNonNull_firstBlock] at hroot
    change _ = Outcome.ok (match newRootHash primitives .new [14] with
      | .ok root => root
      | _ => 0)
    rw [show newRootHash primitives .new [14] = .ok root from hroot]

/-- The first block is committed, and the tree has its leaf. -/
lemma commit_firstBlock :
    commitProposal primitives (.reliable fun _ => .constant .initial) firstBlock
        (freshValidator primitives) = (.ok (), afterFirst) ∧
      afterFirst.notesTree.Inv primitives.poseidon ∧
      ∀ e, e ∈ afterFirst.notesTree.tree.entries.keys ↔ e = 14 := by
  obtain ⟨notesTree, effects, hrun, hinv, hkeys⟩ :=
    @commitProposal_of_fresh primitives _ _ inv_freshValidator fresh_firstBlock
      (.reliable fun _ => .constant .initial) rfl rfl
  rw [afterFirst, hrun]
  refine ⟨rfl, hinv, fun e => ?_⟩
  rw [hkeys, leavesNonNull_firstBlock, List.mem_singleton]
  exact ⟨fun h => h.resolve_left List.not_mem_nil, .inr⟩

/-- The two leaves share their low bits. -/
lemma slot_eq : (14 + 2 ^ 160 : Element).slot (MERKLE_TREE_DEPTH - 1) =
    (14 : Element).slot (MERKLE_TREE_DEPTH - 1) := by
  decide

/-- The second leaf is not in the tree. -/
lemma not_containsElement_second :
    afterFirst.notesTree.tree.containsElement (14 + 2 ^ 160) = false := by
  by_contra hin
  have hkey : (14 + 2 ^ 160 : Element) ∈ afterFirst.notesTree.tree.entries.keys := by
    rw [Std.TreeMap.mem_keys]
    exact Std.TreeMap.contains_iff_mem.1 (Bool.eq_true_of_not_eq_false hin)
  rw [commit_firstBlock.2.2] at hkey
  exact absurd hkey (by decide)

/-- The second block is valid for the tree with the first leaf. -/
lemma validate_secondBlock :
    secondBlock.content.validate primitives true .validator afterFirst.blockStore
      afterFirst.notesTree = .ok () := by
  obtain ⟨-, hinv, hkeys⟩ := commit_firstBlock
  rw [validate_eq_ok_iff]
  refine ⟨?_, ?_, ?_⟩
  · intro txn htxn
    rw [List.mem_singleton.1 htxn, validateTxn_eq_ok_iff]
    have hleaves : secondTxn.leaves = [0, 0, 14 + 2 ^ 160, 0] := by decide
    refine ⟨⟨by decide, ?_, ?_⟩, rfl⟩
    · rw [hleaves]
      simp only [List.forall_mem_cons]
      exact ⟨by decide, by decide, by decide, by decide, nofun⟩
    · rw [hleaves]
      simp only [List.forall_mem_cons]
      exact ⟨absurd rfl, absurd rfl, fun _ => not_containsElement_second, absurd rfl, nofun⟩
  · rw [leavesNonNull_secondBlock]
    exact List.nodup_singleton _
  · rw [leavesNonNull_secondBlock, newRootHash, if_neg (by simp),
      Smirk.Tree.rootHashWith_of_taken MERKLE_TREE_DEPTH_le hinv.tree ((hkeys 14).2 rfl) slot_eq]
    rfl

/-- The tree refuses the second block. -/
lemma not_applies_secondBlock (treeWrites ignoreCollisions : Bool) (height : BlockHeight) :
    (applyBlockToTree primitives treeWrites secondBlock.content.state height ignoreCollisions
      afterFirst.notesTree).1 ≠ .ok () := by
  intro hok
  have hfresh := fresh_of_applyBlockToTree commit_firstBlock.2.1 (fun _ =>
    not_containsElement_of_validate validate_secondBlock) hok
  refine hfresh.free 14 ((commit_firstBlock.2.2 14).2 rfl) (14 + 2 ^ 160) ?_ slot_eq
  rw [leavesNonNull_secondBlock]
  exact List.mem_singleton.2 rfl

end SharedLowBits

/-- The first block is applied and committed. -/
theorem validate_applies_first :
    Applies SharedLowBits.primitives (freshValidator SharedLowBits.primitives).notesTree
        SharedLowBits.firstBlock.content.state ∧
      Commits SharedLowBits.primitives (freshValidator SharedLowBits.primitives)
        SharedLowBits.firstBlock :=
  (validate_applies_iff SharedLowBits.inv_freshValidator SharedLowBits.validate_firstBlock).2
    SharedLowBits.fresh_firstBlock.free

/-- **A block that the tree refuses**: two mints with valid proofs, whose leaves share their low
160 bits, in two blocks. The first is committed; the second passes validation, is stored, and is
then refused by the tree. -/
theorem commitProposal_refused :
    SatisfiedBy 161 SharedLowBits.sumHash Set.univ
        (SharedLowBits.firstTxn.instances.map Element.toBase) ∧
      SatisfiedBy 161 SharedLowBits.sumHash Set.univ
        (SharedLowBits.secondTxn.instances.map Element.toBase) ∧
      SharedLowBits.secondBlock.content.validate SharedLowBits.primitives true .validator
        SharedLowBits.afterFirst.blockStore SharedLowBits.afterFirst.notesTree = .ok () ∧
      ¬ Applies SharedLowBits.primitives SharedLowBits.afterFirst.notesTree
        SharedLowBits.secondBlock.content.state ∧
      (commitProposal SharedLowBits.primitives (.reliable fun _ => .constant .initial)
        SharedLowBits.secondBlock SharedLowBits.afterFirst).1 ≠ .ok () ∧
      (commitProposal SharedLowBits.primitives (.reliable fun _ => .constant .initial)
        SharedLowBits.secondBlock SharedLowBits.afterFirst).2.blockStore.get 2 =
          some SharedLowBits.secondBlock := by
  refine ⟨satisfiedBy_mintProof _ _ (by decide) (by decide),
    satisfiedBy_mintProof _ _ (by decide) (by decide), SharedLowBits.validate_secondBlock, ?_, ?_⟩
  · intro happlies
    obtain ⟨notesTree', hrun, -⟩ := happlies 0 false
    exact SharedLowBits.not_applies_secondBlock true false 0 (congrArg Prod.fst hrun)
  · have hrefused := SharedLowBits.not_applies_secondBlock true
      (SharedLowBits.afterFirst.config.badBlocks.contains SharedLowBits.secondBlock.height)
      SharedLowBits.secondBlock.height
    rw [@commitProposal_run SharedLowBits.primitives SharedLowBits.afterFirst
      SharedLowBits.secondBlock (.reliable fun _ => .constant .initial) rfl fun _ _ =>
        not_containsElement_of_validate SharedLowBits.validate_secondBlock]
    have hget : ∀ stored : BlockStore, (stored.set SharedLowBits.secondBlock).get 2 =
        some SharedLowBits.secondBlock := by
      intro stored
      rw [BlockStore.get_set]
      rfl
    simp only [World.reliable]
    split
    · next hok => exact absurd hok hrefused
    · exact ⟨(fun h => by cases h), hget _⟩
    · exact ⟨(fun h => by cases h), hget _⟩

end TempoRollup.Node
