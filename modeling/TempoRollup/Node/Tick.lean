import TempoRollup.Node.Sync

set_option relaxedAutoImplicit false
set_option autoImplicit false
set_option maxRecDepth 20000

/-!
# The commit loop

The loop of `tick` in `node/src/node/tick_worker.rs`: a node that does not propose commits the
blocks of its cache one after the other.

## Main definitions

* `commitNext` — one round of the loop.
* `InBoth` — a block whose effects are in the block store and in the notes tree.
* `LastCommitted` — the confirmed height is that of the last such block.

## Main results

* `commitNext_lastCommitted_iff` — over every run of receipts and rounds, the confirmed height is
  that of the last block in both stores exactly when every block that is committed can be.

## Design

A run lists receipts and rounds in any order, so that the other tasks of the node come between
rounds. A round that ends with an error is the end of that call of `tick`; the rounds after it
belong to later calls.
-/

open Exec

namespace TempoRollup.Node

section Loop

variable (P : Primitives)

/-- One round of the loop of `tick`: whether there was a next block. -/
def commitNext (world : World) : Call Bool := do
  let self ← Program.get
  match self.blockCache.getNextCommitBlock with
  | none => pure false
  | some block =>
    match self.validateBlock P world.blockReads block with
    | .err _ => do
      Program.modify fun self => { self with blockCache := self.blockCache.remove (block.hash P) }
      pure true
    | .panic => Program.panic
    | .ok () => do
      Program.modify fun self => { self with blockCache := self.blockCache.confirm block.height }
      commitProposal P world block
      pure true

/-- What happens to a node that follows the others. -/
inductive FollowStep
  | receive (block : Block)
  | commitNext (world : World)

/-- One step. -/
def followStep (self : NodeShared) : FollowStep → NodeShared
  | .receive block => (receiveProposal P block self).2
  | .commitNext world => (Node.commitNext P world self).2

/-- The block that the node starts from, and the blocks that it receives. -/
def received (startBlock : Block) (steps : List FollowStep) : Set Block :=
  {block | block = startBlock ∨ .receive block ∈ steps}

end Loop

/-! ## The last committed block -/

/-- The effects of a block are in both stores: the block is stored, and its leaves are in the
tree and in its database. -/
structure InBoth (node : NodeShared) (block : Block) : Prop where
  stored : node.blockStore.get block.height = some block
  leaves : ∀ leaf ∈ block.content.state.leavesNonNull,
    leaf ∈ node.notesTree.tree.entries.keys ∧ leaf ∈ node.notesTree.db.keys

/-- The confirmed height is that of the last block in both stores, or the one that the node
started from while there is none beyond it. -/
structure LastCommitted (start : BlockHeight) (node : NodeShared) : Prop where
  reached : node.height = start ∨ ∃ block, block.height = node.height ∧ InBoth node block
  last : ∀ block, InBoth node block → block.height ≤ node.height

/-- The condition on a step: a next block that is valid can be committed. -/
def CanCommit (P : Primitives) (self : NodeShared) : FollowStep → Prop
  | .receive _ => True
  | .commitNext world => ∀ block, self.blockCache.getNextCommitBlock = some block →
    self.validateBlock P world.blockReads block = .ok () → Committable world self block

section Follow

variable {P : Primitives} {self : NodeShared} {blocks : Set Block} {start : BlockHeight}

/-- The invariant of a run: nothing beyond the confirmed height is stored. -/
structure Following (P : Primitives) (blocks : Set Block) (start : BlockHeight)
    (node : NodeShared) : Prop where
  tree : node.notesTree.Inv P.poseidon
  cache : node.blockCache.Tracked P blocks
  stored : ∀ h block, node.blockStore.get h = some block → block.height = h ∧ h ≤ node.height
  start_le : start ≤ node.height
  reached : node.height = start ∨ ∃ block, block.height = node.height ∧ InBoth node block

/-- The invariant says that the confirmed height is that of the last block in both stores. -/
lemma Following.lastCommitted (h : Following P blocks start self) : LastCommitted start self :=
  ⟨h.reached, fun _ hblock => (h.stored _ _ hblock.stored).2⟩

/-- What `receive_proposal` leaves. -/
lemma receiveProposal_run (block : Block) :
    (receiveProposal P block self).2 = self ∨
      (receiveProposal P block self).2 = { self with
        blockCache := self.blockCache.insert P block
        mempool := self.mempool.leaseTxns block.height
          (block.content.state.txns.map fun txn => txn.hash P) } := by
  simp only [receiveProposal, Program.run_bind, Program.run_get, Program.run_assert]
  by_cases hmode : self.config.mode = .validator
  · exact .inl (by simp [hmode])
  · exact .inr (by simp [hmode])

/-- **What a round does**: nothing, or the next block is removed, or it is confirmed and
committed. -/
lemma commitNext_cases (world : World) :
    ((commitNext P world self).2 = self ∧
      ∀ block, self.blockCache.getNextCommitBlock = some block →
        self.validateBlock P world.blockReads block ≠ .ok ()) ∨
    (∃ block e, self.blockCache.getNextCommitBlock = some block ∧
      self.validateBlock P world.blockReads block = .err e ∧
      (commitNext P world self).2 =
        { self with blockCache := self.blockCache.remove (block.hash P) }) ∨
    (∃ block, self.blockCache.getNextCommitBlock = some block ∧
      self.validateBlock P world.blockReads block = .ok () ∧
      (commitNext P world self).2 = (commitProposal P world block
        { self with blockCache := self.blockCache.confirm block.height }).2) := by
  simp only [commitNext, Program.run_bind, Program.run_get]
  cases hnext : self.blockCache.getNextCommitBlock with
  | none => exact .inl ⟨rfl, fun _ h => by cases h⟩
  | some block =>
    simp only
    cases hvalid : self.validateBlock P world.blockReads block with
    | err e => exact .inr (.inl ⟨block, e, rfl, hvalid, rfl⟩)
    | panic =>
      refine .inl ⟨rfl, ?_⟩
      rintro block' hblock'
      cases hblock'
      rw [hvalid]
      exact fun h => by cases h
    | ok u =>
      refine .inr (.inr ⟨block, rfl, hvalid, ?_⟩)
      simp only [Program.run_bind, Program.run_modify]
      rcases commitProposal P world block
        { self with blockCache := self.blockCache.confirm block.height } with ⟨_ | _ | _, s⟩
      · rfl
      · rfl
      · rfl

/-- The next height is not the same. -/
lemma next_ne_self (height : BlockHeight) : height.next ≠ height := by
  unfold BlockHeight.next
  rcases Nat.lt_trichotomy (height + 1) U64 with hlt | heq | hgt
  · rw [Nat.mod_eq_of_lt hlt]
    exact Nat.succ_ne_self _
  · rw [heq, Nat.mod_self]
    rintro rfl
    exact absurd heq (by decide)
  · have hmod : (height + 1) % U64 < U64 := Nat.mod_lt _ (by decide)
    intro hsame
    rw [hsame] at hmod
    exact absurd (Nat.lt_of_lt_of_le hmod (Nat.lt_succ_iff.1 hgt)) (lt_irrefl _)

/-- A cache of the same height, and any mempool, can take the place of the node's own. -/
lemma Following.withCache (h : Following P blocks start self) {cache : BlockCache}
    {mempool : Mempool CryptoHash UtxoProof BlockHeight Element Waiter}
    (hcache : cache.Tracked P blocks)
    (hheight : cache.height = self.height) :
    Following P blocks start { self with blockCache := cache, mempool := mempool } := by
  refine ⟨h.tree, hcache, ?_, ?_, ?_⟩
  · intro height stored hstored
    exact ⟨(h.stored _ _ hstored).1, (h.stored _ _ hstored).2.trans hheight.ge⟩
  · exact h.start_le.trans hheight.ge
  · refine h.reached.imp (fun hsame => hheight.trans hsame) ?_
    rintro ⟨stored, hsame, hboth⟩
    exact ⟨stored, hsame.trans hheight.symm, hboth.stored, hboth.leaves⟩

/-- **The step of a receipt.** -/
lemma Following.receive (h : Following P blocks start self) {block : Block}
    (hhash : BlockCache.HashesTellHeights P blocks) (hmem : block ∈ blocks) :
    Following P blocks start (followStep P self (.receive block)) := by
  rcases @receiveProposal_run P self block with heq | heq
  · rw [followStep, heq]
    exact h
  · rw [followStep, heq]
    have hheight : (self.blockCache.insert P block).height = self.height :=
      BlockCache.height_insert block
    exact h.withCache (h.cache.insert hhash hmem) hheight

/-- **The step of a round** whose block can be committed. -/
lemma Following.commitNext (h : Following P blocks start self) {world : World}
    (hgood : CanCommit P self (.commitNext world)) :
    Following P blocks start (followStep P self (.commitNext world)) := by
  rcases @commitNext_cases P self world with ⟨heq, -⟩ |
    ⟨block, e, -, -, heq⟩ | ⟨block, hnext, hvalid, heq⟩
  · rw [followStep, heq]
    exact h
  · rw [followStep, heq]
    have hheight : (self.blockCache.remove (block.hash P)).height = self.height :=
      BlockCache.height_remove _
    exact h.withCache (h.cache.remove _) hheight
  · rw [followStep, heq]
    obtain ⟨hheight, hle, -⟩ := h.cache.getNextCommitBlock hnext
    have hcommittable := hgood block hnext hvalid
    obtain ⟨notesTree, effects, hrun, htree, hkeys⟩ := @commitProposal_of_committable P
      { self with blockCache := self.blockCache.confirm block.height } block h.tree world
      ⟨hcommittable.storeWrites, hcommittable.takes⟩
    rw [hrun]
    have hconfirmed : (self.blockCache.confirm block.height).height = block.height :=
      (self.blockCache.confirm_frame block.height).1
    refine ⟨htree, h.cache.confirm _, ?_, ?_, .inr ⟨block, hconfirmed.symm, ?_, ?_⟩⟩
    · intro height stored hstored
      change (self.blockStore.set block).get height = some stored at hstored
      rw [BlockStore.get_set] at hstored
      split_ifs at hstored with hsame
      · cases hstored
        exact ⟨hsame, hsame.ge.trans hconfirmed.ge⟩
      · exact ⟨(h.stored _ _ hstored).1,
          (h.stored _ _ hstored).2.trans (hle.trans hconfirmed.ge)⟩
    · exact h.start_le.trans (hle.trans hconfirmed.ge)
    · change (self.blockStore.set block).get block.height = some block
      rw [BlockStore.get_set, if_pos rfl]
    · intro leaf hleaf
      have hkey := (hkeys leaf).2 (.inr hleaf)
      exact ⟨hkey, (htree.synced leaf).2 hkey⟩

/-- **A round whose block cannot be committed** leaves a confirmed height whose block is not in
both stores. -/
lemma Following.committable_of_lastCommitted (h : Following P blocks start self) {world : World}
    (hlast : LastCommitted start (followStep P self (.commitNext world))) {block : Block}
    (hnext : self.blockCache.getNextCommitBlock = some block)
    (hvalid : self.validateBlock P world.blockReads block = .ok ()) :
    Committable world self block := by
  by_contra hnot
  obtain ⟨hheight, hle, -⟩ := h.cache.getNextCommitBlock hnext
  have hlt : self.height < block.height :=
    lt_of_le_of_ne hle fun hsame => next_ne_self self.height (hheight.symm.trans hsame.symm)
  have heq : followStep P self (.commitNext world) = (commitProposal P world block
      { self with blockCache := self.blockCache.confirm block.height }).2 := by
    rcases @commitNext_cases P self world with ⟨-, hinvalid⟩ |
      ⟨block', e, hnext', hinvalid, -⟩ | ⟨block', hnext', -, heq⟩
    · exact absurd hvalid (hinvalid block hnext)
    · rw [hnext] at hnext'
      cases hnext'
      rw [hvalid] at hinvalid
      cases hinvalid
    · rw [hnext] at hnext'
      cases hnext'
      exact heq
  obtain ⟨-, hcache, hdb, hstore⟩ := @commitProposal_of_not_committable P
    { self with blockCache := self.blockCache.confirm block.height } block h.tree world
    fun hcommittable => hnot ⟨hcommittable.storeWrites, hcommittable.takes⟩
  rw [← heq] at hcache hdb hstore
  have hconfirmed : (followStep P self (.commitNext world)).height = block.height := by
    rw [NodeShared.height, hcache]
    exact (self.blockCache.confirm_frame block.height).1
  rcases hlast.reached with hstart | ⟨block', hsame, hboth⟩
  · rw [hconfirmed] at hstart
    exact absurd (hstart ▸ h.start_le) (not_le.2 hlt)
  · have hget := hboth.stored
    rw [hsame, hconfirmed] at hget
    rcases hstore with hstore | ⟨hstore, leaf, hleaf, hnew⟩
    · -- nothing was stored at this height
      rw [hstore] at hget
      exact absurd (h.stored _ _ hget).2 (not_le.2 hlt)
    · -- the block was stored, but a leaf of it did not reach the database
      rw [hstore, BlockStore.get_set, if_pos rfl] at hget
      cases hget
      have hkey := (hboth.leaves leaf hleaf).2
      rw [hdb] at hkey
      exact hnew ((h.tree.synced leaf).1 hkey)

end Follow

/-- **The confirmed height over a run.** From any node whose stores hold nothing beyond its start
block, in every run of receipts and rounds the confirmed height is that of the last block in
both stores in every state, exactly when every next block that is valid can be committed.

**Proof sketch.** By `Runs.forall_states_iff` with the invariant `Following`: nothing beyond the
confirmed height is stored. A round that commits its block keeps it; one that confirms a block it
cannot commit has confirmed a height without one in both stores. -/
theorem commitNext_lastCommitted_iff {P : Primitives} {node : NodeShared} {startBlock : Block}
    {maxCacheSize : ℕ} (hsize : 1 ≤ maxCacheSize) (htree : node.notesTree.Inv P.poseidon)
    (hcache : node.blockCache = .new P startBlock maxCacheSize)
    (hstored : ∀ h block, node.blockStore.get h = some block →
      block.height = h ∧ h ≤ startBlock.height)
    (steps : List FollowStep)
    (hhash : BlockCache.HashesTellHeights P (received startBlock steps)) :
    (∀ node' ∈ Runs.states (followStep P) node steps, LastCommitted startBlock.height node') ↔
      Runs.Along (followStep P) (CanCommit P) node steps := by
  have hheight : node.height = startBlock.height := by
    rw [NodeShared.height, hcache, BlockCache.new_eq hsize]
    rfl
  have hstart : Following P (received startBlock steps) startBlock.height node := by
    refine ⟨htree, ?_, fun h block hblock => ?_, hheight.ge, .inl hheight⟩
    · rw [hcache]
      exact BlockCache.tracked_new hsize hhash (.inl rfl)
    · rw [hheight]
      exact hstored h block hblock
  refine @Runs.forall_states_iff _ _ (followStep P)
    (Following P (received startBlock steps) startBlock.height) _ (CanCommit P)
    (fun step => ∀ block, step = .receive block → block ∈ received startBlock steps)
    (fun _ h => h.lastCommitted) ?_ ?_ _ hstart steps ?_
  · intro s step hvalid h hgood
    cases step with
    | receive block => exact h.receive hhash (hvalid block rfl)
    | commitNext world => exact h.commitNext hgood
  · intro s step hvalid h hlast
    cases step with
    | receive block => trivial
    | commitNext world =>
      intro block hnext hvalid
      exact h.committable_of_lastCommitted hlast hnext hvalid
  · rintro step hstep block rfl
    exact .inr hstep

/-! ### Two blocks with a leaf each -/

namespace TwoBlocks

/-- A hash that reads every entry at its place. -/
def digitsHash (l : List Fr) : Fr := l.foldl (fun digest entry => 10 * digest + entry) 1

/-- The mints of two notes. -/
def mints : UtxoProof × UtxoProof :=
  (mintProof digitsHash (⟨2, 0, 10, 0⟩, ⟨0, 0, 0, 0⟩),
    mintProof digitsHash (⟨2, 0, 7, 0⟩, ⟨0, 0, 0, 0⟩))

/-- Every signature is the leader's, and every proof is accepted. -/
def primitives : Primitives where
  poseidon := digitsHash
  keccak256 bytes := BitVec.ofNat 256 (1000 * (bytes.map BitVec.toNat).sum + bytes.length)
  verifyProof _ _ := some true
  fromCompact _ := true
  recoverEcdsa _ _ := some 0
  signEcdsa _ := .default

/-- The address behind every signature. -/
def leader : Address := addressFromPublicKey primitives 0

/-- A node that starts from genesis. -/
def node : NodeShared :=
  .new primitives { mode := .node, badBlocks := [], blockTxnsCount := 1, safeEthHeightOffset := 0 }
    leader [⟨0, [leader]⟩] .empty .new .genesis

/-- Storage that works. -/
def world : World := .reliable fun _ => .constant .initial

/-- A block of one transaction. -/
def blockOf (height : BlockHeight) (rootHash : Element) (txn : UtxoProof) : Block where
  content :=
    { header := { height := height, lastBlockHash := 0, epochId := 0, lastFinalBlockHash := 0,
                  approvals := [] }
      state := { rootHash := rootHash, txns := [txn] } }
  signature := .default

/-- The first block, with the root of the tree of its leaf. -/
def first : Block :=
  blockOf 1 13570476396426464329776264595774219108792056685351489363175365992001515200088 mints.1

/-- The node that received the first block. -/
def afterReceipt : NodeShared := followStep primitives node (.receive first)

/-- The node that committed the first block. -/
def afterFirst : NodeShared := followStep primitives afterReceipt (.commitNext world)

/-- The second block, with the root of the tree of both leaves. -/
def second : Block :=
  blockOf 2 8299175941369831140493972237081152167503385904014199777113093460560452962792 mints.2

/-- The node that received the second block. -/
def afterSecondReceipt : NodeShared := followStep primitives afterFirst (.receive second)

/-- The node that committed both blocks. -/
def afterSecond : NodeShared := followStep primitives afterSecondReceipt (.commitNext world)

/-- Each block is received and then committed. -/
def steps : List FollowStep :=
  [.receive first, .commitNext world, .receive second, .commitNext world]

/-- The first block is the next one. -/
lemma getNextCommitBlock_first : afterReceipt.blockCache.getNextCommitBlock = some first := by
  decide +kernel

/-- When the second block arrives, it is the next one, and the node has the first leaf. -/
lemma afterSecondReceipt_spec :
    afterSecondReceipt.blockCache.getNextCommitBlock = some second ∧
      afterSecondReceipt.notesTree.tree.entries.keys = [2020011] ∧
      afterSecondReceipt.config.badBlocks = [] := by
  decide +kernel

/-- The blocks are confirmed one after the other. -/
lemma heights : afterFirst.height = 1 ∧ afterSecond.height = 2 := by
  decide +kernel

/-- The hashes of the blocks differ. -/
lemma pairwise_hash : [Block.genesis, first, second].Pairwise
    fun b b' => b.hash primitives ≠ b'.hash primitives := by
  decide +kernel

/-- The node starts with an empty tree. -/
lemma inv_node : node.notesTree.Inv primitives.poseidon :=
  Smirk.Persistent.inv_new MERKLE_TREE_DEPTH_pos

/-- The hash of a block tells its height. -/
lemma hashesTellHeights : BlockCache.HashesTellHeights primitives (received .genesis steps) := by
  have hmem : ∀ b ∈ received .genesis steps, b ∈ [Block.genesis, first, second] := by
    rintro b (rfl | hb)
    · exact .head _
    · simp only [steps, List.mem_cons, FollowStep.receive.injEq, reduceCtorEq, List.not_mem_nil,
        false_or, or_false] at hb
      exact List.mem_cons_of_mem _ (by simpa using hb)
  have : Std.Symm fun b b' : Block => b.hash primitives ≠ b'.hash primitives :=
    ⟨fun _ _ => Ne.symm⟩
  intro b hb b' hb' heq
  by_contra hne
  exact pairwise_hash.forall (hmem b hb) (hmem b' hb') (fun hsame => hne (by rw [hsame])) heq

/-- A block of one mint can be committed when the slot of its leaf is free. -/
lemma committable_blockOf {self : NodeShared} {height : BlockHeight}
    {rootHash : Element} {txn : UtxoProof} {leaf : Element}
    (hleaf : txn.leavesNonNull = [leaf])
    (hfree : ∀ e ∈ self.notesTree.tree.entries.keys,
      leaf.slot (MERKLE_TREE_DEPTH - 1) ≠ e.slot (MERKLE_TREE_DEPTH - 1))
    (hbad : self.config.badBlocks = []) :
    Committable world self (blockOf height rootHash txn) := by
  have hleaves : (blockOf height rootHash txn).content.state.leavesNonNull = [leaf] := by
    simp [BlockState.leavesNonNull, blockOf, ← hleaf, UtxoProof.leavesNonNull]
  refine ⟨rfl, ?_⟩
  rw [hbad]
  refine takes_of_fresh ⟨fun _ => ne_null_of_mem_leavesNonNull, ?_, fun e he b hb => ?_⟩
  · rw [hleaves]
    exact List.pairwise_singleton _ _
  · rw [hleaves, List.mem_singleton] at hb
    rw [hb]
    exact hfree e he

/-- The leaf of the first mint. -/
lemma leavesNonNull_first : mints.1.leavesNonNull = [2020011] := by decide

/-- The leaf of the second mint. -/
lemma leavesNonNull_second : mints.2.leavesNonNull = [1720011] := by decide

/-- The first block can be committed. -/
lemma committable_first : Committable world afterReceipt first :=
  committable_blockOf leavesNonNull_first (fun _ he => absurd he List.not_mem_nil) rfl

/-- The second block can be committed. -/
lemma committable_second : Committable world afterSecondReceipt second := by
  obtain ⟨-, hkeys, hbad⟩ := afterSecondReceipt_spec
  refine committable_blockOf leavesNonNull_second (fun e he => ?_) hbad
  rw [hkeys, List.mem_singleton] at he
  rw [he]
  decide

/-- Both blocks can be committed at their turn. -/
lemma canCommit_steps : Runs.Along (followStep primitives) (CanCommit primitives) node steps := by
  refine ⟨trivial, fun block hnext _ => ?_, trivial, fun block hnext _ => ?_, trivial⟩
  · obtain rfl : first = block := Option.some.inj (getNextCommitBlock_first.symm.trans hnext)
    exact committable_first
  · obtain rfl : second = block := Option.some.inj (afterSecondReceipt_spec.1.symm.trans hnext)
    exact committable_second

end TwoBlocks

/-- Two blocks with a leaf each are received and committed with storage that works: the confirmed
height is that of the last committed block in every state, first 1 and then 2. -/
theorem commitNext_lastCommitted_twoBlocks :
    TwoBlocks.afterFirst.height = 1 ∧ TwoBlocks.afterSecond.height = 2 ∧
      ∀ node' ∈ Runs.states (followStep TwoBlocks.primitives) TwoBlocks.node TwoBlocks.steps,
        LastCommitted 0 node' := by
  refine ⟨TwoBlocks.heights.1, TwoBlocks.heights.2, ?_⟩
  refine (@commitNext_lastCommitted_iff TwoBlocks.primitives TwoBlocks.node .genesis 10000
    (by decide) TwoBlocks.inv_node rfl (fun h block hblock => ?_) _
    TwoBlocks.hashesTellHeights).2 TwoBlocks.canCommit_steps
  change (∅ : Std.TreeMap BlockHeight Block)[h]? = some block at hblock
  simp at hblock

/-! ### A write that fails -/

namespace FailedWrite

/-- Every signature is the leader's. -/
def primitives : Primitives :=
  { BlockCache.Sample.primitives with recoverEcdsa := fun _ _ => some 0 }

/-- A node that starts from genesis. -/
def node : NodeShared :=
  .new primitives { mode := .node, badBlocks := [], blockTxnsCount := 1, safeEthHeightOffset := 0 }
    0 [⟨0, [0]⟩] .empty .new .genesis

/-- A block without transactions. -/
def block : Block :=
  BlockCache.Sample.emptyBlock 1
    ((Smirk.Tree.new : Smirk.Tree MERKLE_TREE_DEPTH BlockHeight).rootHash primitives.poseidon)

/-- The block is received, and then committed. -/
def steps (world : World) : List FollowStep := [.receive block, .commitNext world]

/-- The block store cannot be written. -/
def world : World := { World.reliable fun _ => .constant .initial with storeWrites := false }

/-- The node that received the block. -/
def afterReceipt : NodeShared := followStep primitives node (.receive block)

end FailedWrite

/-- **A confirmed height without a committed block**: a block of height 1 is received, the block
store cannot be written when it is committed, and the confirmed height is 1 all the same. -/
theorem commitNext_confirms_uncommitted :
    let failed := followStep FailedWrite.primitives FailedWrite.afterReceipt
      (.commitNext FailedWrite.world)
    (commitNext FailedWrite.primitives FailedWrite.world FailedWrite.afterReceipt).1 =
        .err .blockStore ∧
      failed.height = 1 ∧ failed.blockStore.get 1 = none ∧
      ¬ ∀ node' ∈ Runs.states (followStep FailedWrite.primitives) FailedWrite.node
        (FailedWrite.steps FailedWrite.world), LastCommitted 0 node' := by
  intro failed
  have hheight : failed.height = 1 := by decide
  have hget : failed.blockStore.get 1 = none := by decide
  refine ⟨by decide, hheight, hget, fun h => ?_⟩
  rcases (h failed (.tail _ (.tail _ (.head _)))).reached with hstart | ⟨block, hsame, hboth⟩
  · rw [hheight] at hstart
    cases hstart
  · have hstored := hboth.stored
    rw [hsame, hheight, hget] at hstored
    cases hstored

end TempoRollup.Node
