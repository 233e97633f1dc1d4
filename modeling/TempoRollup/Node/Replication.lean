import TempoRollup.Node.Ledger
import TempoRollup.Node.Proposal
import TempoRollup.Node.Tick

set_option relaxedAutoImplicit false
set_option autoImplicit false

/-!
# Replication

A validator proposes blocks, and the other nodes commit them: what one step of each does to the
ledger that it has.

## Main definitions

* `proposeTick` — the part of `tick` for a validator.
* `NodeShared.Follows` — the invariant of a node that committed a ledger.
* `CanPropose`, `CanFollow` — what is asked of a step: the commit of a valid block succeeds, the
  signature of the leader is not forged, and nothing that is hashed collides.

## Main results

* `proposeTick_cases` — what a tick does.
* `NodeShared.Follows.proposeTick` — a tick of the validator.
* `NodeShared.Follows.commitNext` — a round of a node that follows it.
* `Life.Follows.startNode` — a start from the directories that a node left.
-/

open Exec

namespace TempoRollup.Node

/-! ## The validator -/

section Propose

variable (P : Primitives) (world : World)

/-- The part of `create_proposal` before the block is validated. -/
def chooseBlock (lastBlockHash : CryptoHash) (height : BlockHeight)
    (accepts : List ApprovalValidated) : Call Block := do
  let self ← Program.get
  let utxos ← Program.zoom NodeShared.mempool (fun mempool self => { self with mempool := mempool })
    (Mempool.leaseBatch height self.config.blockTxnsCount)
  let txns := utxos.map Prod.snd
  validateLeased P world height txns
  let leaves := (txns.flatMap UtxoProof.leaves).filter fun leaf => leaf != Element.NULL_HASH
  let self ← Program.get
  let rootHash ← Program.lift (newRootHash P self.notesTree leaves)
  pure (proposedBlock P lastBlockHash height accepts rootHash txns)

/-- The block that the validator chooses in `tick`. -/
def tickBlock : Call Block := do
  let self ← Program.get
  let lastConfirmed ← Program.lift self.blockCache.hash
  let targetHeight := self.height.next
  let approval ← Program.lift
    ((ApprovalContent.newEndorsement lastConfirmed targetHeight).toApprovalValidated P
      self.localPeer)
  chooseBlock P world lastConfirmed targetHeight [approval]

/-- `tick` of a validator. -/
def proposeTick : Call Block := do
  let self ← Program.get
  let lastConfirmed ← Program.lift self.blockCache.hash
  let targetHeight := self.height.next
  let approval ← Program.lift
    ((ApprovalContent.newEndorsement lastConfirmed targetHeight).toApprovalValidated P
      self.localPeer)
  createProposal P world lastConfirmed targetHeight [approval]

variable {P world}

/-- `create_proposal` chooses a block and proposes it. -/
lemma createProposal_eq (lastBlockHash : CryptoHash) (height : BlockHeight)
    (accepts : List ApprovalValidated) (self : NodeShared) :
    createProposal P world lastBlockHash height accepts self =
      (chooseBlock P world lastBlockHash height accepts >>= proposeBlock P world) self := by
  simp only [createProposal, chooseBlock, Program.run_bind, Program.run_get, Program.run_lift,
    Program.run_pure]
  rcases Program.zoom NodeShared.mempool (fun mempool self => { self with mempool := mempool })
    (Mempool.leaseBatch height self.config.blockTxnsCount) self with ⟨utxos | _ | _, self'⟩
  · simp only
    rcases validateLeased P world height (utxos.map Prod.snd) self' with ⟨_ | _ | _, self''⟩
    · simp only
      rcases newRootHash P self''.notesTree (((utxos.map Prod.snd).flatMap UtxoProof.leaves).filter
        fun leaf => leaf != Element.NULL_HASH) with _ | _ | _ <;> rfl
    · rfl
    · rfl
  · rfl
  · rfl

/-- The tick of a validator chooses a block and proposes it. -/
lemma proposeTick_eq (self : NodeShared) :
    proposeTick P world self = (tickBlock P world >>= proposeBlock P world) self := by
  simp only [proposeTick, tickBlock, Program.run_bind, Program.run_get, Program.run_lift,
    createProposal_eq]
  rcases (self.blockCache.hash : Outcome Error CryptoHash) with lastConfirmed | _ | _
  · simp only
    rcases ((ApprovalContent.newEndorsement lastConfirmed self.height.next).toApprovalValidated P
      self.localPeer : Outcome Error ApprovalValidated) with _ | _ | _ <;> rfl
  · rfl
  · rfl

/-- `create_proposal` returns the block that it proposes. -/
lemma proposeBlock_eq_ok {self self' : NodeShared} {block proposed : Block}
    (h : proposeBlock P world block self = (.ok proposed, self')) : proposed = block := by
  rw [proposeBlock, Program.get_bind_eq_ok] at h
  cases hvalid : self.validateBlock P world.blockReads block with
  | ok _ =>
    simp only [hvalid] at h
    obtain ⟨_, _, -, h⟩ := Program.bind_eq_ok.1 h
    obtain ⟨_, _, -, h⟩ := Program.bind_eq_ok.1 h
    obtain ⟨_, _, -, h⟩ := Program.bind_eq_ok.1 h
    exact (Program.pure_eq_ok.1 h).1
  | err err =>
    simp only [hvalid] at h
    obtain ⟨_, _, -, h⟩ := Program.bind_eq_ok.1 h
    cases h
  | panic =>
    simp only [hvalid] at h
    cases h

/-- A tick that proposes a block has chosen it. -/
lemma tickBlock_of_proposeTick {self self' : NodeShared} {block : Block}
    (h : proposeTick P world self = (.ok block, self')) :
    (tickBlock P world self).1 = .ok block := by
  rw [proposeTick_eq] at h
  obtain ⟨chosen, mid, htick, hpropose⟩ := Program.bind_eq_ok.1 h
  rw [htick, proposeBlock_eq_ok hpropose]

/-! ### What a tick leaves alone -/

/-- The configuration, the stores and the cache of a node. -/
def NodeShared.kept (self : NodeShared) :
    Config × BlockStore × PersistentMerkleTree × BlockCache :=
  (self.config, self.blockStore, self.notesTree, self.blockCache)

/-- The mempool is not among what is kept, so that committing to it keeps the rest. -/
lemma keeps_commitMempool (order : List CryptoHash → List CryptoHash) (height : BlockHeight)
    (results : List (CryptoHash × Except Error Block)) :
    (commitMempool order height results).Keeps NodeShared.kept := fun _ => rfl

/-- Validating leased transactions keeps the stores and the cache. -/
lemma keeps_validateLeased (height : BlockHeight) (txns : List UtxoProof) :
    (validateLeased P world height txns).Keeps NodeShared.kept := by
  induction txns with
  | nil => exact .pure ()
  | cons txn txns ih =>
    refine .bind .get fun self => ?_
    cases self.validateTransaction P world.storeReads (world.eth txn) txn with
    | ok u => exact ih
    | err e => exact .bind (keeps_commitMempool _ _ _) fun _ => fun _ => rfl
    | panic => exact fun _ => rfl

/-- Choosing a block keeps the stores and the cache. -/
lemma keeps_chooseBlock (lastBlockHash : CryptoHash) (height : BlockHeight)
    (accepts : List ApprovalValidated) :
    (chooseBlock P world lastBlockHash height accepts).Keeps NodeShared.kept := by
  refine .bind .get fun self => .bind (fun _ => rfl) fun utxos =>
    .bind (keeps_validateLeased _ _) fun _ => .bind .get fun self => .bind (.lift _) fun _ => ?_
  exact .pure _

/-- Choosing what to propose keeps the stores and the cache. -/
lemma keeps_tickBlock : (tickBlock P world).Keeps NodeShared.kept :=
  .bind .get fun _ => .bind (.lift _) fun _ => .bind (.lift _) fun _ => keeps_chooseBlock _ _ _

/-- Rejecting a block keeps the stores and the cache. -/
lemma keeps_rejectBlock (block : Block) (err : Error) :
    (rejectBlock P world block err).Keeps NodeShared.kept := by
  unfold rejectBlock
  split
  · exact keeps_commitMempool _ _ _
  · exact keeps_commitMempool _ _ _
  · exact keeps_commitMempool _ _ _
  · exact .bind .get fun _ => .bind (.lift _) fun _ => keeps_commitMempool _ _ _

/-- The block that is chosen has the next height. -/
lemma tickBlock_height {self mid : NodeShared} {block : Block}
    (h : tickBlock P world self = (.ok block, mid)) : block.height = self.height.next := by
  rw [tickBlock, Program.get_bind_eq_ok] at h
  obtain ⟨lastConfirmed, _, -, h⟩ := Program.bind_eq_ok.1 h
  obtain ⟨approval, _, -, h⟩ := Program.bind_eq_ok.1 h
  obtain ⟨_, _, -, h⟩ := Program.bind_eq_ok.1 h
  obtain ⟨utxos, _, -, h⟩ := Program.bind_eq_ok.1 h
  obtain ⟨_, _, -, h⟩ := Program.bind_eq_ok.1 h
  obtain ⟨_, _, -, h⟩ := Program.bind_eq_ok.1 h
  obtain ⟨rootHash, _, -, h⟩ := Program.bind_eq_ok.1 h
  cases h
  rfl

/-- The signature of a block is that of the leader of its height. -/
def SignedByLeader (P : Primitives) (self : NodeShared) (block : Block) : Prop :=
  ∃ leader, (self.getLeaderForBlockHeight block.height : Outcome Error Address) = .ok leader ∧
    (block.signature.verify P (block.hash P) : Outcome Error (Option Address)) = .ok (some leader)

/-- What a valid block is, on a node without bad blocks. -/
lemma signedByLeader_of_validateBlock {self : NodeShared} {storeReads : Bool} {block : Block}
    (hbad : self.config.badBlocks = [])
    (hvalid : self.validateBlock P storeReads block = .ok ()) :
    SignedByLeader P self block ∧ block.content.validate P storeReads self.config.mode
      self.blockStore self.notesTree = .ok () := by
  rw [NodeShared.validateBlock, hbad, if_neg (by simp)] at hvalid
  obtain ⟨leader, hleader, hvalid⟩ := Outcome.bind_eq_ok.1 hvalid
  obtain ⟨signer, hsigner, hvalid⟩ := Outcome.bind_eq_ok.1 hvalid
  cases signer with
  | none => cases hvalid
  | some signedBy =>
    simp only at hvalid
    split_ifs at hvalid with hsame
    rw [not_not] at hsame
    exact ⟨⟨leader, hleader, hsame ▸ hsigner⟩, hvalid⟩

/-- **What is asked of a tick**: the next height is a `u64`, and if the block that the validator
chooses is valid, it can be committed, and what is hashed for it is among what does not collide. -/
structure CanPropose (P : Primitives) (hashing : Hashing) (world : World) (node : NodeShared) :
    Prop where
  height : node.height + 1 < U64
  commits : ∀ block mid, tickBlock P world node = (.ok block, mid) →
    mid.validateBlock P world.blockReads block = .ok () → Committable world mid block
  hashes : ∀ block mid, tickBlock P world node = (.ok block, mid) →
    mid.validateBlock P world.blockReads block = .ok () →
    hashing.Covers P block ∧ block.content.pairs P node.notesTree ⊆ hashing.pairs

/-- **What a tick does**: it commits and confirms a valid block of the next height, or it leaves the
stores and the cache alone.

**Proof sketch.** The choice of a block keeps the stores and the cache (`keeps_tickBlock`). A valid
block is committed by `commitProposal_of_committable`, inserted in the cache and confirmed;
otherwise nothing is written. -/
theorem proposeTick_cases {hashing : Hashing} {self : NodeShared}
    (hcan : CanPropose P hashing world self) (hinv : self.notesTree.Inv P.poseidon)
    (hbad : self.config.badBlocks = []) :
    (∃ block notesTree, (proposeTick P world self).1 = .ok block ∧
      block.height = self.height + 1 ∧ hashing.Covers P block ∧
      block.content.pairs P self.notesTree ⊆ hashing.pairs ∧
      block.content.validate P world.blockReads self.config.mode self.blockStore self.notesTree =
        .ok () ∧
      Takes self.notesTree block.content.state false world.treeWrites ∧
      applyBlockToTree P world.treeWrites block.content.state block.height false self.notesTree =
        (.ok (), notesTree) ∧
      (proposeTick P world self).2.kept = (self.config, self.blockStore.set block, notesTree,
        (self.blockCache.insert P block).confirm block.height)) ∨
    ((∀ block, (proposeTick P world self).1 ≠ .ok block) ∧
      (proposeTick P world self).2.kept = self.kept) := by
  have hkept := @keeps_tickBlock P world self
  rw [proposeTick_eq, Program.run_bind]
  rcases hchosen : tickBlock P world self with ⟨block | e | _, mid⟩
  · rw [hchosen] at hkept
    simp only [NodeShared.kept, Prod.mk.injEq] at hkept
    obtain ⟨hconfig, hstore, htree, hcache⟩ := hkept
    simp only [proposeBlock, Program.run_bind, Program.run_get]
    cases hvalid : mid.validateBlock P world.blockReads block with
    | ok u =>
      have hcommittable := hcan.commits block mid hchosen hvalid
      obtain ⟨hcovers, hpairs⟩ := hcan.hashes block mid hchosen hvalid
      have hbad' : mid.config.badBlocks = [] := by rw [hconfig, hbad]
      have hnot : mid.config.badBlocks.contains block.height = false := by rw [hbad']; rfl
      have hmid : mid.notesTree.Inv P.poseidon := htree ▸ hinv
      obtain ⟨-, hcontent⟩ := signedByLeader_of_validateBlock hbad' hvalid
      have htakes := hcommittable.takes
      rw [hnot] at htakes
      obtain ⟨notesTree, effects, hrun, -, -⟩ := commitProposal_of_committable hmid hcommittable
      have happlied := (commitProposal_eq_ok hmid hrun).1
      have hheight : block.height = self.height + 1 := by
        rw [tickBlock_height hchosen]
        exact Nat.mod_eq_of_lt hcan.height
      rw [hnot] at happlied
      rw [htree] at htakes happlied
      rw [hconfig, hstore, htree] at hcontent
      refine .inl ⟨block, notesTree, ?_, hheight, hcovers, hpairs, hcontent, htakes, happlied, ?_⟩
      · simp only [Program.run_bind, hrun, Program.run_modify, emit, Program.run_pure]
      · simp only [Program.run_bind, hrun, Program.run_modify, emit, Program.run_pure,
          NodeShared.kept, hconfig, hstore, hcache]
    | err e =>
      have hreject : (rejectBlock P world block e >>= fun _ =>
          (Program.throw e : Call Block)).Keeps NodeShared.kept :=
        .bind (keeps_rejectBlock block e) fun _ _ => rfl
      refine .inr ⟨fun b hb => ?_, (hreject mid).trans ?_⟩
      · obtain ⟨_, _, -, hthrow⟩ := Program.bind_eq_ok.1 (Prod.ext hb rfl)
        cases hthrow
      · simp only [NodeShared.kept, hconfig, hstore, htree, hcache]
    | panic =>
      refine .inr ⟨(fun _ h => by cases h), ?_⟩
      change mid.kept = _
      simp only [NodeShared.kept, hconfig, hstore, htree, hcache]
  · rw [hchosen] at hkept
    exact .inr ⟨(fun _ h => by cases h), hkept⟩
  · rw [hchosen] at hkept
    exact .inr ⟨(fun _ h => by cases h), hkept⟩

end Propose

/-! ## One node -/

section Node

variable {P : Primitives} {hashing : Hashing} {world : World} {log pre : List Block}
  {node node' : NodeShared} {block : Block}

/-- **The invariant of a node** that committed a ledger: it has no bad blocks, and the blocks of its
cache and of its block store are among those that are hashed. -/
structure NodeShared.Follows (P : Primitives) (hashing : Hashing) (log : List Block)
    (node : NodeShared) : Prop where
  committed : node.At P log
  good : node.config.badBlocks = []
  cached : node.blockCache.Tracked P {block | hashing.Covers P block}
  covered : ∀ height block, node.blockStore.get height = some block → hashing.Covers P block

/-- Only the configuration, the stores and the cache count. -/
lemma NodeShared.Follows.congr (h : node.Follows P hashing log) (hkept : node'.kept = node.kept) :
    node'.Follows P hashing log := by
  simp only [NodeShared.kept, Prod.mk.injEq] at hkept
  obtain ⟨hconfig, hstore, htree, hcache⟩ := hkept
  refine ⟨⟨hstore ▸ h.committed.stores, htree ▸ h.committed.holds, ?_⟩, hconfig ▸ h.good,
    hcache ▸ h.cached, hstore ▸ h.covered⟩
  rw [NodeShared.height, hcache]
  exact h.committed.height

/-- Blocks that are hashed are told apart by their hashes. -/
lemma Hashing.CollisionFree.hashesTellHeights (hcf : hashing.CollisionFree P) :
    BlockCache.HashesTellHeights P {block | hashing.Covers P block} := by
  intro b hb b' hb' hhash
  exact congrArg BlockHeader.height (header_eq_of_hash_eq hb.fits hb'.fits
    (hcf.keccak256.mono (Set.union_subset hb.messages hb'.messages)) hhash).1

/-- A stored block is covered, after one that is covered was stored. -/
lemma covered_set {blockStore : BlockStore}
    (h : ∀ height block, blockStore.get height = some block → hashing.Covers P block)
    (hblock : hashing.Covers P block) (height : BlockHeight) (stored : Block)
    (hget : (blockStore.set block).get height = some stored) : hashing.Covers P stored := by
  rw [BlockStore.get_set] at hget
  split_ifs at hget
  · cases hget
    exact hblock
  · exact h height stored hget

/-- **A tick of the validator** adds a block to the ledger, or changes nothing of it. -/
theorem NodeShared.Follows.proposeTick (h : node.Follows P hashing log)
    (hcf : hashing.CollisionFree P) (hcan : CanPropose P hashing world node) :
    (∃ block, (Node.proposeTick P world node).1 = .ok block ∧ Extends P hashing log block ∧
      (Node.proposeTick P world node).2.Follows P hashing (log ++ [block])) ∨
    ((∀ block, (Node.proposeTick P world node).1 ≠ .ok block) ∧
      (Node.proposeTick P world node).2.Follows P hashing log) := by
  rcases proposeTick_cases hcan h.committed.holds.inv h.good with
    ⟨block, notesTree, hok, hheight, hcovers, hpairs, hvalid, htakes, hrun, hkept⟩ | ⟨hnot, hkept⟩
  · have hnext : block.height = log.length + 1 := by rw [hheight, h.committed.height]
    have hblock := h.committed.holds.extends hnext hcovers hvalid htakes hpairs
    refine .inl ⟨block, hok, hblock, ?_⟩
    simp only [NodeShared.kept, Prod.mk.injEq] at hkept
    obtain ⟨hconfig, hstore, htree, hcache⟩ := hkept
    refine ⟨⟨?_, ?_, ?_⟩, by rw [hconfig, h.good], ?_, ?_⟩
    · rw [hstore]
      exact h.committed.stores.set (.refl block)
    · rw [htree]
      exact h.committed.holds.apply hblock (.refl block) hrun
    · rw [NodeShared.height, hcache, (BlockCache.confirm_frame _).1, hnext, List.length_append,
        List.length_singleton]
    · rw [hcache]
      exact (h.cached.insert hcf.hashesTellHeights hcovers).confirm _
    · rw [hstore]
      exact covered_set h.covered hcovers
  · exact .inr ⟨hnot, h.congr hkept⟩

/-- **What is asked of a node that follows**: a next block that is valid can be committed, what is
hashed for it is among what does not collide, and a next block with the signature of the leader has
the hash of a block of the ledger. -/
structure CanFollow (P : Primitives) (hashing : Hashing) (log : List Block) (world : World)
    (node : NodeShared) : Prop where
  commits : ∀ block, node.blockCache.getNextCommitBlock = some block →
    node.validateBlock P world.blockReads block = .ok () → Committable world node block
  hashes : ∀ block, node.blockCache.getNextCommitBlock = some block →
    node.validateBlock P world.blockReads block = .ok () →
    block.content.pairs P node.notesTree ⊆ hashing.pairs
  unforged : ∀ block, node.blockCache.getNextCommitBlock = some block →
    SignedByLeader P node block → ∃ entry ∈ log, entry.hash P = block.hash P

/-- The number of blocks of a ledger is a height. -/
lemma Ledger.length_lt (hlog : Ledger P hashing log) : log.length < U64 := by
  cases hlog with
  | nil => decide
  | @concat log block _ hblock =>
    rw [List.length_append, List.length_singleton, ← hblock.height]
    exact hblock.covers.fits.height

/-- **The next block stands for the next entry** of the ledger, if it is valid. -/
lemma NodeShared.Follows.next (h : node.Follows P hashing pre) (hlog : Ledger P hashing log)
    (hpre : pre <+: log) (hcf : hashing.CollisionFree P)
    (hcan : CanFollow P hashing log world node)
    (hnext : node.blockCache.getNextCommitBlock = some block)
    (hvalid : node.validateBlock P world.blockReads block = .ok ()) :
    ∃ entry, pre ++ [entry] <+: log ∧ StandsFor block entry := by
  obtain ⟨hheight, hle, hcovers, -⟩ := h.cached.getNextCommitBlock hnext
  obtain ⟨hsigned, hcontent⟩ := signedByLeader_of_validateBlock h.good hvalid
  obtain ⟨entry, hmem, hhash⟩ := hcan.unforged block hnext hsigned
  obtain ⟨pre', hpre', hentry⟩ := hlog.exists_start hmem
  have hsame : block.height = entry.height :=
    hcf.hashesTellHeights block hcovers entry hentry.covers hhash.symm
  have hlen : pre'.length = pre.length := by
    have hlt := (hlog.of_start hpre).length_lt
    have hcommitted : node.blockCache.height = pre.length := h.committed.height
    rw [hcommitted] at hheight hle
    rw [hsame, hentry.height] at hheight hle
    have hmod : ∀ n m : ℕ, n < 2 ^ 64 → m + 1 = (n + 1) % 2 ^ 64 → n ≤ m + 1 → m = n := by
      intro n m
      omega
    exact hmod _ _ hlt hheight hle
  obtain rfl : pre' = pre := eq_of_starts ((List.prefix_append _ _).trans hpre') hpre hlen
  have hcommittable := hcan.commits block hnext hvalid
  have htakes := hcommittable.takes
  rw [h.good] at htakes
  exact ⟨entry, hpre', hentry.standsFor_of_hash_eq hcf h.committed.holds hcovers hcontent htakes
    (hcan.hashes block hnext hvalid) hhash.symm⟩

/-- **A round of a node that follows** commits the next entry of the ledger, or changes nothing of
what it has. -/
theorem NodeShared.Follows.commitNext (h : node.Follows P hashing pre)
    (hlog : Ledger P hashing log) (hpre : pre <+: log) (hcf : hashing.CollisionFree P)
    (hcan : CanFollow P hashing log world node) :
    ∃ pre', pre' <+: log ∧ (Node.commitNext P world node).2.Follows P hashing pre' := by
  rcases @commitNext_cases P node world with ⟨heq, -⟩ | ⟨block, e, -, -, heq⟩ |
    ⟨block, hnext, hvalid, heq⟩
  · rw [heq]
    exact ⟨pre, hpre, h⟩
  · rw [heq]
    refine ⟨pre, hpre, ⟨h.committed.stores, h.committed.holds, ?_⟩, h.good, h.cached.remove _,
      h.covered⟩
    exact (BlockCache.height_remove _).trans h.committed.height
  · obtain ⟨entry, hentry, hsame⟩ := h.next hlog hpre hcf hcan hnext hvalid
    have hblock := (hlog.of_start hentry).last
    have hcovers := (h.cached.getNextCommitBlock hnext).2.2.1
    have hcommittable := hcan.commits block hnext hvalid
    have hinv := h.committed.holds.inv
    obtain ⟨notesTree, effects, hrun, -, -⟩ := @commitProposal_of_committable P
      { node with blockCache := node.blockCache.confirm block.height } block hinv world
      ⟨hcommittable.storeWrites, hcommittable.takes⟩
    have happlied := (@commitProposal_eq_ok P world
      { node with blockCache := node.blockCache.confirm block.height } _ block hinv hrun).1
    rw [heq, hrun]
    refine ⟨pre ++ [entry], hentry, ⟨h.committed.stores.set hsame,
      h.committed.holds.apply hblock hsame happlied, ?_⟩, h.good, h.cached.confirm _,
      covered_set h.covered hcovers⟩
    change (node.blockCache.confirm block.height).height = _
    rw [(BlockCache.confirm_frame _).1, hsame.height_eq, hblock.height, List.length_append,
      List.length_singleton]

/-- What is received is put in the cache, or not. -/
lemma NodeShared.Follows.receiveProposal (h : node.Follows P hashing log)
    (hcf : hashing.CollisionFree P) (hcovers : hashing.Covers P block) :
    (Node.receiveProposal P block node).2.Follows P hashing log := by
  rcases @receiveProposal_run P node block with heq | heq
  · rw [heq]
    exact h
  · rw [heq]
    refine ⟨⟨h.committed.stores, h.committed.holds, ?_⟩, h.good,
      h.cached.insert hcf.hashesTellHeights hcovers, h.covered⟩
    exact (BlockCache.height_insert block).trans h.committed.height

/-! ### Directories -/

/-- The invariant of a node, or of its directories while it does not run. -/
def Life.Follows (P : Primitives) (hashing : Hashing) (log : List Block) : Life → Prop
  | .up node => node.Follows P hashing log
  | .down disk => disk.Keeps P log ∧
    ∀ height block, disk.blockStore.get height = some block → hashing.Covers P block

/-- **What a commit leaves that is interrupted**: the directories have the next ledger. -/
lemma NodeShared.Follows.commitInterrupted (h : node.Follows P hashing log) {entry : Block}
    (hblock : Extends P hashing log entry) (hsame : StandsFor block entry)
    (hcovers : hashing.Covers P block) (treeWritten : Bool) :
    Life.Follows P hashing (log ++ [entry])
      (.down (Node.commitInterrupted P block treeWritten node)) := by
  refine ⟨⟨h.committed.stores.set hsame, ?_⟩, covered_set h.covered hcovers⟩
  cases treeWritten with
  | false => exact ⟨node.notesTree, rfl, .inr ⟨log, entry, rfl, h.committed.holds⟩⟩
  | true =>
    obtain ⟨notesTree, hrun, -, -⟩ := applyBlockToTree_of_takes h.committed.holds.inv
      (h.committed.holds.takes hblock hsame) block.height
    refine ⟨notesTree, ?_, .inl (h.committed.holds.apply hblock hsame hrun)⟩
    rw [Node.commitInterrupted, h.good]
    exact (congrArg (fun r => r.2.db) hrun).symm

/-- **A start** of a node from its directories. -/
theorem Life.Follows.startNode {disk : Disk} (h : Life.Follows P hashing log (.down disk))
    (hlog : Ledger P hashing log) (hcf : hashing.CollisionFree P)
    (hgenesis : hashing.Covers P .genesis) {setup : Setup} (hbad : setup.config.badBlocks = []) :
    Life.Follows P hashing log (Node.startNode P setup .reliable disk) := by
  rcases h.1.startNode hlog hcf hbad with
    ⟨notesTree, initialBlock, heq, hholds, hheight, hinitial⟩ | heq
  · rw [heq]
    have hcovers : hashing.Covers P initialBlock := by
      rcases hinitial with rfl | ⟨height, hget⟩
      · exact hgenesis
      · exact h.2 height initialBlock hget
    exact ⟨at_new h.1.stores hholds hheight, hbad,
      BlockCache.tracked_new (by decide) hcf.hashesTellHeights hcovers, h.2⟩
  · rw [heq]
    exact h

end Node

end TempoRollup.Node
