import TempoRollup.Node.Chain
import TempoRollup.Node.Sync

set_option relaxedAutoImplicit false
set_option autoImplicit false

/-!
# Restarts

`node/src/node/load.rs`: what a node makes of its two stores when it starts, and the runs of a
node that stops and starts again, also in the middle of a commit.

## Main definitions

* `Disk`, `loadDbAndSmirk` — the stores on disk, and how they are loaded.
* `commitInterrupted` — the disk when `commit_proposal` does not get to its end.
* `Life`, `LifeStep`, `lifeStep` — runs of a node over restarts.
* `Recoverable` — the condition under which an interrupted commit is recovered.

## Main results

* `Life.Inv.step` — every step keeps the two stores in order.
* `Recoverable.recovers` — a recoverable commit is recovered.
* `loadDbAndSmirk_interrupted_eq_panic` — one whose block changes the root, while the block
  before it is not stored, is not.
* `interrupt_recovers` — over every run, every interrupted commit that is recoverable is.
* `interrupt_first_panics` — the first block of a chain makes the restart panic.

## Design

`commit_proposal` writes the block store first and the tree second, and each write is atomic: an
interruption leaves the block stored, and the leaves in the database of the tree or not. A block
is validated and committed in one step. All that a node does beside commits and fast syncs is one
step which may change everything but the configuration and the stores. Subtraction of heights
wraps, as it does in release builds.
-/

open Exec

namespace TempoRollup.Node

/-! ## Loading -/

/-- The directories of a node: the block store, and the records of the notes tree. -/
structure Disk where
  blockStore : BlockStore
  smirk : Std.TreeMap Element BlockHeight

/-- Nothing was written yet. -/
def Disk.empty : Disk := ⟨.empty, ∅⟩

/-- How storage answers while a node starts. -/
structure StartWorld where
  storeReads : Bool
  smirkReads : Bool
  treeWrites : Bool
  /-- The directories can be renamed. -/
  renames : Bool

/-- Storage that works. -/
def StartWorld.reliable : StartWorld := ⟨true, true, true, true⟩

/-- `LoadedData`. -/
structure LoadedData where
  blockStore : BlockStore
  persistentTree : PersistentMerkleTree
  block : Block

section Load

variable (P : Primitives)

/-- `reset_db_and_smirk`: the directories are moved away. -/
def resetDbAndSmirk (renames db smirk : Bool) : Program Disk Error Unit := do
  Program.ensure renames .io
  Program.modify fun disk =>
    { blockStore := if db then .empty else disk.blockStore
      smirk := if smirk then ∅ else disk.smirk }

/-- The branch of `load_db_and_smirk` for a node that stopped between its two writes: the block
is applied to the tree. -/
def replayBlock (storage : StartWorld) (config : Config) (persistentTree : PersistentMerkleTree)
    (block : Block) (maxHeight : BlockHeight) : Program Disk Error PersistentMerkleTree := do
  let applied := applyBlockToTree P storage.treeWrites block.content.state maxHeight
    (config.badBlocks.contains maxHeight) persistentTree
  Program.modify fun disk => { disk with smirk := applied.2.db }
  Program.lift applied.1
  Program.assert (applied.2.tree.rootHash P.poseidon = block.rootHash)
  pure applied.2

/-- `load_db_and_smirk`. -/
def loadDbAndSmirk (storage : StartWorld) (config : Config) : Program Disk Error LoadedData := do
  let disk ← Program.get
  Program.ensure storage.storeReads .blockStore
  Program.ensure storage.smirkReads (.smirk .rocksdb)
  let persistentTree ← Program.lift
    ((Smirk.Persistent.load P.poseidon disk.smirk).mapErr .smirk)
  match disk.blockStore.maxHeight with
  | none => do
    resetDbAndSmirk storage.renames false true
    pure ⟨disk.blockStore, .new, .genesis⟩
  | some maxHeight => do
    let block ← Program.lift (.ofOption (disk.blockStore.get maxHeight))
    if persistentTree.tree.rootHash P.poseidon = block.rootHash then
      pure ⟨disk.blockStore, persistentTree, block⟩
    else do
      let previousBlock ← Program.lift (.ofOption (disk.blockStore.get maxHeight.prev))
      if persistentTree.tree.rootHash P.poseidon = previousBlock.rootHash then do
        let persistentTree ← replayBlock P storage config persistentTree block maxHeight
        pure ⟨disk.blockStore, persistentTree, block⟩
      else do
        -- too far out of sync: the node starts again from genesis
        resetDbAndSmirk storage.renames true true
        pure ⟨.empty, .new, .genesis⟩

end Load

/-! ## Runs over restarts -/

section Life

variable (P : Primitives)

/-- What a node is started with. -/
structure Setup where
  config : Config
  localPeer : Address
  validatorSets : List ValidatorSet

/-- A node that runs, or its disk while it does not. -/
inductive Life
  | up (node : NodeShared)
  | down (disk : Disk)

/-- What a running node has on disk. -/
def NodeShared.disk (self : NodeShared) : Disk := ⟨self.blockStore, self.notesTree.db⟩

/-- What is on disk when `commit_proposal` is interrupted after the write of the block store:
`treeWritten` says whether it got to the end of the insertion into the tree. -/
def commitInterrupted (block : Block) (treeWritten : Bool) (self : NodeShared) : Disk where
  blockStore := self.blockStore.set block
  smirk :=
    if treeWritten then
      (applyBlockToTree P true block.content.state block.height
        (self.config.badBlocks.contains block.height) self.notesTree).2.db
    else self.notesTree.db

/-- What happens to a node. -/
inductive LifeStep
  /-- A block is validated, and `commit_proposal` ends. -/
  | commit (world : World) (block : Block)
  /-- A block is validated, and the process ends within `commit_proposal`. -/
  | interrupt (blockReads : Bool) (block : Block) (treeWritten : Bool)
  | snapshotChunkFast (world : World) (block : Option Block) (elements : List Element)
  /-- All the rest, which does not touch the stores. -/
  | others (node : NodeShared)
  /-- The process ends between commits, -/
  | stop
  /-- and is started. -/
  | start (storage : StartWorld)

/-- `Node::new`. -/
def startNode (setup : Setup) (storage : StartWorld) (disk : Disk) : Life :=
  match loadDbAndSmirk P storage setup.config disk with
  | (.ok data, _) =>
    .up (.new P setup.config setup.localPeer setup.validatorSets data.blockStore
      data.persistentTree data.block)
  | (.err _, disk') => .down disk'
  | (.panic, disk') => .down disk'

/-- One step. -/
def lifeStep (setup : Setup) : Life → LifeStep → Life
  | .up self, .commit world block =>
    match self.validateBlock P world.blockReads block with
    | .ok () => .up (commitProposal P world block self).2
    | _ => .up self
  | .up self, .interrupt blockReads block treeWritten =>
    match self.validateBlock P blockReads block with
    | .ok () => .down (commitInterrupted P block treeWritten self)
    | _ => .up self
  | .up self, .snapshotChunkFast world block elements =>
    .up (handleSnapshotChunkFast P world block elements self).2
  | .up self, .others node =>
    .up { node with
      config := self.config
      blockStore := self.blockStore
      notesTree := self.notesTree }
  | .up self, .stop => .down self.disk
  | .down disk, .start storage => startNode P setup storage disk
  | life, _ => life

end Life

/-! ## What every run keeps -/

/-- The block store is in order, and the records of the tree can be loaded. -/
structure Disk.Inv (disk : Disk) : Prop where
  store : disk.blockStore.Wf
  ne_null : ∀ e ∈ disk.smirk.keys, e ≠ Element.NULL_HASH
  distinct : Smirk.SlotDistinct (MERKLE_TREE_DEPTH - 1) disk.smirk.keys

/-- The invariant of a node that runs: its configuration is the given one, its block store is in
order, and its tree has everything that the database has. -/
structure NodeShared.Kept (P : Primitives) (config : Config) (node : NodeShared) : Prop where
  config : node.config = config
  store : node.blockStore.Wf
  tree : node.notesTree.Backed P.poseidon

/-- The invariant of a run over restarts. -/
def Life.Inv (P : Primitives) (config : Config) : Life → Prop
  | .up node => node.Kept P config
  | .down disk => disk.Inv

section Kept

variable {P : Primitives} {config : Config} {self : NodeShared} {block : Block}

/-- An empty disk has the invariant. -/
lemma Disk.inv_empty : Disk.empty.Inv where
  store := BlockStore.wf_empty
  ne_null _ he := absurd he List.not_mem_nil
  distinct _ he := absurd he List.not_mem_nil

/-- A block store and the database of a backed tree make a disk. -/
lemma Disk.inv_of_backed {blockStore : BlockStore} {notesTree : PersistentMerkleTree}
    (hstore : blockStore.Wf) (htree : notesTree.Backed P.poseidon) :
    Disk.Inv ⟨blockStore, notesTree.db⟩ where
  store := hstore
  ne_null e he := htree.tree.ne_null e (htree.written e he)
  distinct a ha b hb := htree.tree.distinct a (htree.written a ha) b (htree.written b hb)

/-- The records of a disk are loaded. -/
lemma Disk.Inv.load {disk : Disk} (h : disk.Inv) (P : Primitives) :
    ∃ p : PersistentMerkleTree, Smirk.Persistent.load P.poseidon disk.smirk = .ok p ∧
      p.Inv P.poseidon ∧ p.db = disk.smirk :=
  Smirk.Persistent.load_spec MERKLE_TREE_DEPTH_pos MERKLE_TREE_DEPTH_le h.ne_null h.distinct

/-- **However the application of a block ends**, the tree has everything that the database has. -/
lemma backed_applyBlockToTree {notesTree : PersistentMerkleTree}
    (h : notesTree.Backed P.poseidon) (treeWrites : Bool) (state : BlockState)
    (currentHeight : BlockHeight) (ignoreCollisions : Bool) :
    (applyBlockToTree P treeWrites state currentHeight ignoreCollisions notesTree).2.Backed
      P.poseidon := by
  by_cases hunspent : ignoreCollisions = false →
      ∀ leaf ∈ state.leavesNonNull, notesTree.tree.containsElement leaf = false
  · rw [applyBlockToTree_eq hunspent]
    simp only [Program.run_bind, Program.run_lift]
    cases (Smirk.Batch.fromEntries
      ((newLeaves notesTree state ignoreCollisions).map fun leaf => (leaf, currentHeight)) :
        Outcome Smirk.CollisionError (Smirk.Batch MERKLE_TREE_DEPTH BlockHeight)) with
    | ok batch =>
      simp only [Outcome.mapErr, Program.snd_mapErr]
      exact h.insertBatch MERKLE_TREE_DEPTH_pos MERKLE_TREE_DEPTH_le _ batch
    | err e => exact h
    | panic => exact h
  · have hspent := Bool.eq_false_iff.2 (mt unspent_iff.1 hunspent)
    simp only [applyBlockToTree, Program.run_bind, Program.run_get, Program.run_assert, hspent,
      Bool.false_eq_true, if_false]
    exact h

/-- What is left by an interrupted commit. -/
lemma NodeShared.Kept.commitInterrupted (h : self.Kept P config) (block : Block)
    (treeWritten : Bool) : (commitInterrupted P block treeWritten self).Inv := by
  cases treeWritten with
  | true => exact Disk.inv_of_backed (h.store.set block) (backed_applyBlockToTree h.tree _ _ _ _)
  | false => exact Disk.inv_of_backed (h.store.set block) h.tree

/-- **The stores after a commit**, however it ends. -/
lemma NodeShared.Kept.commitProposal (h : self.Kept P config) (world : World) (block : Block) :
    (Node.commitProposal P world block self).2.Kept P config := by
  by_cases hunspent : self.config.badBlocks.contains block.height = false →
      ∀ leaf ∈ block.content.state.leavesNonNull,
        self.notesTree.tree.containsElement leaf = false
  · cases hstore : world.storeWrites with
    | true =>
      rw [commitProposal_run hstore hunspent]
      have htree := backed_applyBlockToTree h.tree world.treeWrites block.content.state
        block.height (self.config.badBlocks.contains block.height)
      revert htree
      generalize applyBlockToTree P world.treeWrites block.content.state block.height
        (self.config.badBlocks.contains block.height) self.notesTree = applied
      intro htree
      rcases applied with ⟨_ | _ | _, notesTree⟩
      · exact ⟨h.config, h.store.set block, htree⟩
      · exact ⟨h.config, h.store.set block, htree⟩
      · exact ⟨h.config, h.store.set block, htree⟩
    | false =>
      simp only [Node.commitProposal, Program.run_bind, Program.run_get, Program.run_assert,
        unspent_iff.2 hunspent, if_true, Program.run_ensure, hstore, Bool.false_eq_true, if_false]
      exact h
  · have hspent := Bool.eq_false_iff.2 (mt unspent_iff.1 hunspent)
    simp only [Node.commitProposal, Program.run_bind, Program.run_get, Program.run_assert, hspent,
      Bool.false_eq_true, if_false]
    exact h

/-- **The stores after a chunk of a fast sync.** -/
lemma NodeShared.Kept.handleSnapshotChunkFast (h : self.Kept P config) (world : World)
    (block : Option Block) (elements : List Element) :
    (Node.handleSnapshotChunkFast P world block elements self).2.Kept P config := by
  cases block with
  | none => exact h
  | some block =>
    simp only [Node.handleSnapshotChunkFast, Program.run_bind, Program.run_get, Program.run_lift]
    cases checkElements P self.notesTree block elements with
    | err e => exact h
    | panic => exact h
    | ok batch? =>
      cases batch? with
      | none => exact h
      | some batch =>
        have hkeeps := @adoptElements_keeps P world block batch self
        obtain ⟨hconfig, hstore⟩ := Prod.mk.inj hkeeps
        refine ⟨hconfig.trans h.config, ?_, ?_⟩
        · rw [show (adoptElements P world block batch self).2.blockStore = self.blockStore from
            hstore]
          exact h.store
        · rw [(@adoptElements_spec P world self block batch).1]
          exact h.tree.insertBatch MERKLE_TREE_DEPTH_pos MERKLE_TREE_DEPTH_le _ batch

/-- What a reset leaves. -/
lemma Disk.Inv.resetDbAndSmirk {disk : Disk} (h : disk.Inv) (renames db smirk : Bool) :
    (Node.resetDbAndSmirk renames db smirk disk).2.Inv := by
  simp only [Node.resetDbAndSmirk, Program.run_bind, Program.run_ensure, Program.run_modify]
  cases renames with
  | false => exact h
  | true =>
    refine ⟨?_, fun e he => ?_, fun a ha => ?_⟩
    · cases db with
      | false => exact h.store
      | true => exact BlockStore.wf_empty
    · cases smirk with
      | false => exact h.ne_null e he
      | true => exact absurd he List.not_mem_nil
    · cases smirk with
      | false => exact h.distinct a ha
      | true => exact absurd ha List.not_mem_nil

/-- What loading returns. -/
structure LoadedData.Inv (P : Primitives) (data : LoadedData) : Prop where
  store : data.blockStore.Wf
  tree : data.persistentTree.Backed P.poseidon

/-- The disk after loading is in order, and so is what is returned. -/
def Loads (P : Primitives) (r : Outcome Error LoadedData × Disk) : Prop :=
  r.2.Inv ∧ ∀ data, r.1 = .ok data → data.Inv P

variable {disk : Disk}

/-- Loading may return what has the invariant. -/
lemma loads_ok (h : disk.Inv) {data : LoadedData} (hdata : data.Inv P) :
    Loads P (.ok data, disk) :=
  ⟨h, fun _ hok => Outcome.ok.inj hok ▸ hdata⟩

/-- Loading may fail on a good disk. -/
lemma loads_err (h : disk.Inv) (e : Error) : Loads P (.err e, disk) :=
  ⟨h, fun _ hok => by cases hok⟩

/-- Loading may panic on a good disk. -/
lemma loads_panic (h : disk.Inv) : Loads P (.panic, disk) :=
  ⟨h, fun _ hok => by cases hok⟩

/-- The empty tree is backed by an empty database. -/
lemma backed_new : (Smirk.Persistent.new : PersistentMerkleTree).Backed P.poseidon :=
  (Smirk.Persistent.inv_new MERKLE_TREE_DEPTH_pos).backed

/-- The directories are reset. -/
lemma loads_reset (h : disk.Inv) (renames db smirk : Bool) {data : LoadedData}
    (hdata : data.Inv P) :
    Loads P ((do resetDbAndSmirk renames db smirk; pure data :
      Program Disk Error LoadedData) disk) := by
  have hdisk := h.resetDbAndSmirk renames db smirk
  rw [Program.run_bind]
  revert hdisk
  rcases resetDbAndSmirk renames db smirk disk with ⟨_ | e | _, disk'⟩
  · exact fun hdisk => loads_ok hdisk hdata
  · exact fun hdisk => loads_err hdisk e
  · exact loads_panic

/-- The block is replayed: the database of the tree is written, whatever the root is then. -/
lemma loads_replay (h : disk.Inv) (storage : StartWorld) (config : Config)
    {tree : PersistentMerkleTree} (htree : tree.Backed P.poseidon) (block : Block)
    (maxHeight : BlockHeight) :
    Loads P ((do
      let tree ← replayBlock P storage config tree block maxHeight
      pure ⟨disk.blockStore, tree, block⟩ : Program Disk Error LoadedData) disk) := by
  have happlied := backed_applyBlockToTree htree storage.treeWrites block.content.state
    maxHeight (config.badBlocks.contains maxHeight)
  simp only [replayBlock, Program.run_bind, Program.run_modify, Program.run_lift,
    Program.run_assert]
  revert happlied
  generalize applyBlockToTree P storage.treeWrites block.content.state maxHeight
    (config.badBlocks.contains maxHeight) tree = applied
  intro happlied
  have hdisk := Disk.inv_of_backed h.store happlied
  rcases applied with ⟨_ | e | _, tree'⟩
  · simp only
    split_ifs
    · exact loads_ok hdisk ⟨h.store, happlied⟩
    · exact loads_panic hdisk
  · exact loads_err hdisk e
  · exact loads_panic hdisk

/-- **However loading ends**, the disk is in order; so is what is returned. -/
lemma loads_loadDbAndSmirk (h : disk.Inv) (storage : StartWorld) (config : Config) :
    Loads P (loadDbAndSmirk P storage config disk) := by
  obtain ⟨tree, hload, htree, hdb⟩ := h.load P
  simp only [loadDbAndSmirk, Program.run_bind, Program.run_get, Program.run_ensure,
    Program.run_lift, hload, Outcome.mapErr]
  cases storage.storeReads with
  | false => exact loads_err h _
  | true =>
  cases storage.smirkReads with
  | false => exact loads_err h _
  | true =>
    simp only [if_true]
    cases hmax : disk.blockStore.maxHeight with
    | none => exact loads_reset h _ false true ⟨h.store, backed_new⟩
    | some maxHeight =>
      obtain ⟨block, hblock⟩ := h.store.stored maxHeight hmax
      simp only [Program.run_bind, Program.run_lift, hblock, Outcome.ofOption]
      by_cases hsame : tree.tree.rootHash P.poseidon = block.rootHash
      · rw [if_pos hsame]
        exact loads_ok h ⟨h.store, htree.backed⟩
      · rw [if_neg hsame, Program.run_bind, Program.run_lift]
        cases hprevious : disk.blockStore.get maxHeight.prev with
        | none => exact loads_panic h
        | some previousBlock =>
          simp only
          by_cases hbefore : tree.tree.rootHash P.poseidon = previousBlock.rootHash
          · rw [if_pos hbefore]
            exact loads_replay h storage config htree.backed block maxHeight
          · rw [if_neg hbefore]
            exact loads_reset h _ true true ⟨BlockStore.wf_empty, backed_new⟩

/-- A node that starts, or does not. -/
lemma Disk.Inv.startNode (h : disk.Inv) (setup : Setup) (storage : StartWorld) :
    (Node.startNode P setup storage disk).Inv P setup.config := by
  have hloads := @loads_loadDbAndSmirk P disk h storage setup.config
  unfold Node.startNode
  revert hloads
  rcases Node.loadDbAndSmirk P storage setup.config disk with ⟨data | _ | _, disk'⟩
  · rintro ⟨-, hdata⟩
    exact ⟨rfl, (hdata data rfl).store, (hdata data rfl).tree⟩
  · exact And.left
  · exact And.left

/-- **The invariant is kept by every step.** -/
theorem Life.Inv.step {setup : Setup} {life : Life} (h : life.Inv P setup.config)
    (step : LifeStep) : (lifeStep P setup life step).Inv P setup.config := by
  cases life with
  | down disk =>
    cases step with
    | start storage => exact Disk.Inv.startNode h setup storage
    | _ => exact h
  | up self =>
    have hup : self.Kept P setup.config := h
    cases step with
    | commit world block =>
      simp only [lifeStep]
      split
      · exact hup.commitProposal world block
      · exact hup
    | interrupt blockReads block treeWritten =>
      simp only [lifeStep]
      split
      · exact hup.commitInterrupted block treeWritten
      · exact hup
    | snapshotChunkFast world block elements =>
      exact hup.handleSnapshotChunkFast world block elements
    | others node => exact ⟨hup.config, hup.store, hup.tree⟩
    | stop => exact Disk.inv_of_backed hup.store hup.tree
    | start storage => exact hup

end Kept

/-! ## Recovery -/

/-- A restart succeeds: a block store with blocks is returned, and the root of the tree is that
of the block of greatest height. -/
def Recovered (P : Primitives) (config : Config) (disk : Disk) : Prop :=
  ∃ data block, (loadDbAndSmirk P .reliable config disk).1 = .ok data ∧
    data.blockStore.maxHeight = some block.height ∧
    data.blockStore.get block.height = some block ∧
    data.persistentTree.tree.rootHash P.poseidon = block.rootHash

/-- **The condition on an interrupted commit**: what is in the tree is on disk, nothing beyond
the block is stored, the tree takes the block, the root of a block that is not validated is
right, and if the insertion was not completed, the root does not change or the block of the
height before is stored and has the root of the tree. -/
structure Recoverable (P : Primitives) (node : NodeShared) (block : Block)
    (treeWritten : Bool) : Prop where
  synced : ∀ e ∈ node.notesTree.tree.entries.keys, e ∈ node.notesTree.db.keys
  newest : ∀ height stored, node.blockStore.get height = some stored → height ≤ block.height
  takes : Takes node.notesTree block.content.state (node.config.badBlocks.contains block.height)
    true
  root : node.config.badBlocks.contains block.height = true →
    newRootHash P node.notesTree (newLeaves node.notesTree block.content.state true) =
      .ok block.rootHash
  previous : treeWritten = false →
    node.notesTree.tree.rootHash P.poseidon = block.rootHash ∨
      ∃ previousBlock, node.blockStore.get block.height.prev = some previousBlock ∧
        node.notesTree.tree.rootHash P.poseidon = previousBlock.rootHash

section Recovery

variable {P : Primitives} {config : Config} {self : NodeShared} {block : Block}

/-- Trees with the same keys have the same root. -/
lemma rootHash_congr {notesTree notesTree' : PersistentMerkleTree}
    (h : notesTree.tree.Inv P.poseidon) (h' : notesTree'.tree.Inv P.poseidon)
    (hkeys : ∀ e, e ∈ notesTree'.tree.entries.keys ↔ e ∈ notesTree.tree.entries.keys) :
    notesTree'.tree.rootHash P.poseidon = notesTree.tree.rootHash P.poseidon := by
  rw [h.rootHash_eq, h'.rootHash_eq, Smirk.occupant_congr h.distinct hkeys]

/-- The root that validation found, or that a block which is not validated has. -/
lemma Recoverable.newRootHash {treeWritten blockReads : Bool}
    (h : Recoverable P self block treeWritten)
    (hvalid : self.validateBlock P blockReads block = .ok ()) :
    newRootHash P self.notesTree (newLeaves self.notesTree block.content.state
      (self.config.badBlocks.contains block.height)) = .ok block.rootHash := by
  cases hbad : self.config.badBlocks.contains block.height with
  | true => exact h.root hbad
  | false =>
    unfold NodeShared.validateBlock at hvalid
    rw [hbad, if_neg Bool.false_ne_true] at hvalid
    obtain ⟨validator, -, hvalid⟩ := Outcome.bind_eq_ok.1 hvalid
    obtain ⟨signer, -, hvalid⟩ := Outcome.bind_eq_ok.1 hvalid
    cases signer with
    | none => cases hvalid
    | some signedBy =>
      simp only at hvalid
      split_ifs at hvalid
      exact (validate_eq_ok_iff.1 hvalid).2.2

/-- **The root after the insertion**, into any tree with the same keys. -/
lemma Recoverable.applyBlockToTree {treeWritten blockReads : Bool}
    (h : Recoverable P self block treeWritten) (hinv : self.notesTree.Inv P.poseidon)
    (hvalid : self.validateBlock P blockReads block = .ok ())
    {notesTree : PersistentMerkleTree} (htree : notesTree.Inv P.poseidon)
    (hkeys : ∀ e, e ∈ notesTree.tree.entries.keys ↔ e ∈ self.notesTree.tree.entries.keys) :
    ∃ notesTree', Node.applyBlockToTree P true block.content.state block.height
        (self.config.badBlocks.contains block.height) notesTree = (.ok (), notesTree') ∧
      notesTree'.Inv P.poseidon ∧ notesTree'.tree.rootHash P.poseidon = block.rootHash := by
  obtain ⟨notesTree', hrun, hinv', hkeys'⟩ :=
    applyBlockToTree_of_takes htree (h.takes.congr hkeys) block.height
  refine ⟨notesTree', hrun, hinv', ?_⟩
  have hroot := h.newRootHash hvalid
  rw [newRootHash_eq hinv hinv' h.takes.fresh] at hroot
  · exact Outcome.ok.inj hroot
  · intro e
    rw [hkeys', hkeys, mem_newLeaves]

/-- The height before is not the same. -/
lemma prev_ne_self (height : BlockHeight) : height.prev ≠ height := by
  have hprev : ∀ n : ℕ, (n + (2 ^ 64 - 1)) % 2 ^ 64 ≠ n := by
    intro n
    omega
  exact hprev height

section Reliable

variable {disk : Disk} {tree : PersistentMerkleTree}
  (hload : Smirk.Persistent.load P.poseidon disk.smirk = .ok tree)
  (hmax : disk.blockStore.maxHeight = some block.height)
  (hblock : disk.blockStore.get block.height = some block)

include hload hmax hblock

/-- Loading, when the tree has the root of the block. -/
lemma loadDbAndSmirk_of_root (hroot : tree.tree.rootHash P.poseidon = block.rootHash) :
    loadDbAndSmirk P .reliable config disk = (.ok ⟨disk.blockStore, tree, block⟩, disk) := by
  simp only [loadDbAndSmirk, Program.run_bind, Program.run_get, Program.run_ensure,
    Program.run_lift, hload, Outcome.mapErr, StartWorld.reliable, if_true, hmax, hblock,
    Outcome.ofOption, hroot, Program.run_pure]

/-- Loading, when it does not, and the block before is not stored. -/
lemma loadDbAndSmirk_eq_panic (hroot : tree.tree.rootHash P.poseidon ≠ block.rootHash)
    (hnone : disk.blockStore.get block.height.prev = none) :
    loadDbAndSmirk P .reliable config disk = (.panic, disk) := by
  simp only [loadDbAndSmirk, Program.run_bind, Program.run_get, Program.run_ensure,
    Program.run_lift, hload, Outcome.mapErr, StartWorld.reliable, if_true, hmax, hblock,
    Outcome.ofOption, if_neg hroot, hnone]

/-- Loading, when the tree has the root of the block before: the block is replayed. -/
lemma loadDbAndSmirk_of_previous (hroot : tree.tree.rootHash P.poseidon ≠ block.rootHash)
    {previousBlock : Block} (hsome : disk.blockStore.get block.height.prev = some previousBlock)
    (hbefore : tree.tree.rootHash P.poseidon = previousBlock.rootHash)
    {tree' : PersistentMerkleTree}
    (hrun : applyBlockToTree P true block.content.state block.height
      (config.badBlocks.contains block.height) tree = (.ok (), tree'))
    (hroot' : tree'.tree.rootHash P.poseidon = block.rootHash) :
    (loadDbAndSmirk P .reliable config disk).1 = .ok ⟨disk.blockStore, tree', block⟩ := by
  simp only [loadDbAndSmirk, Program.run_bind, Program.run_get, Program.run_ensure,
    Program.run_lift, hload, Outcome.mapErr, StartWorld.reliable, if_true, hmax, hblock,
    Outcome.ofOption, if_neg hroot, hsome, if_pos hbefore, replayBlock, hrun, Program.run_modify,
    Program.run_assert, hroot', decide_true, Program.run_pure]

end Reliable

section Interrupted

variable {treeWritten : Bool}

/-- The block is stored. -/
lemma get_commitInterrupted :
    (commitInterrupted P block treeWritten self).blockStore.get block.height = some block := by
  change (self.blockStore.set block).get block.height = some block
  rw [BlockStore.get_set, if_pos rfl]

/-- Nothing else changes in the block store. -/
lemma get_prev_commitInterrupted :
    (commitInterrupted P block treeWritten self).blockStore.get block.height.prev =
      self.blockStore.get block.height.prev := by
  change (self.blockStore.set block).get block.height.prev = _
  rw [BlockStore.get_set, if_neg (prev_ne_self _).symm]

/-- The tree on disk is that of the node before the commit, when the insertion did not end. -/
lemma NodeShared.Kept.load_unwritten (h : self.Kept P config)
    (hsynced : ∀ e ∈ self.notesTree.tree.entries.keys, e ∈ self.notesTree.db.keys) :
    ∃ tree : PersistentMerkleTree,
      Smirk.Persistent.load P.poseidon (Node.commitInterrupted P block false self).smirk =
        .ok tree ∧
      tree.Inv P.poseidon ∧
      (∀ e, e ∈ tree.tree.entries.keys ↔ e ∈ self.notesTree.tree.entries.keys) ∧
      tree.tree.rootHash P.poseidon = self.notesTree.tree.rootHash P.poseidon := by
  obtain ⟨tree, hload, htree, hdb⟩ := (h.commitInterrupted block false).load P
  have hkeys : ∀ e, e ∈ tree.tree.entries.keys ↔ e ∈ self.notesTree.tree.entries.keys := by
    intro e
    rw [← htree.synced, ← (h.tree.inv hsynced).synced, hdb]
    rfl
  exact ⟨tree, hload, htree, hkeys, rootHash_congr h.tree.tree htree.tree hkeys⟩

/-- **A commit that is not recovered**: a block that changes the root is interrupted before the
insertion, and the block of the height before is not stored. -/
theorem loadDbAndSmirk_interrupted_eq_panic (hkept : self.Kept P config)
    (hsynced : ∀ e ∈ self.notesTree.tree.entries.keys, e ∈ self.notesTree.db.keys)
    (hnewest : ∀ height stored, self.blockStore.get height = some stored →
      height ≤ block.height)
    (hroot : self.notesTree.tree.rootHash P.poseidon ≠ block.rootHash)
    (hnone : self.blockStore.get block.height.prev = none) :
    (loadDbAndSmirk P .reliable config (commitInterrupted P block false self)).1 = .panic := by
  obtain ⟨tree, hload, -, -, hsame⟩ := @NodeShared.Kept.load_unwritten P config self block hkept
    hsynced
  rw [← hsame] at hroot
  refine congrArg Prod.fst (loadDbAndSmirk_eq_panic hload (hkept.store.maxHeight_set hnewest)
    get_commitInterrupted hroot ?_)
  rw [get_prev_commitInterrupted]
  exact hnone

/-- **A recoverable commit is recovered.**

**Proof sketch.** The block is the newest of the store. If the insertion was completed, the
tree on disk has its root. Otherwise the tree on disk is the one before the commit: it has the
root of the block before, and takes the block as the tree in memory would have. -/
theorem Recoverable.recovers {blockReads : Bool} (hkept : self.Kept P config)
    (hvalid : self.validateBlock P blockReads block = .ok ())
    (h : Recoverable P self block treeWritten) :
    Recovered P config (commitInterrupted P block treeWritten self) := by
  have hinv : self.notesTree.Inv P.poseidon := hkept.tree.inv h.synced
  have hmax : (commitInterrupted P block treeWritten self).blockStore.maxHeight =
      some block.height := hkept.store.maxHeight_set h.newest
  have hblock := @get_commitInterrupted P self block treeWritten
  cases treeWritten with
  | true =>
    obtain ⟨tree, hload, htree, hdb⟩ := (hkept.commitInterrupted block true).load P
    obtain ⟨notesTree', hrun, hinv', hroot⟩ :=
      h.applyBlockToTree hinv hvalid hinv fun _ => Iff.rfl
    have hsmirk : (commitInterrupted P block true self).smirk = notesTree'.db := by
      simp only [commitInterrupted, if_true, hrun]
    have hkeys : ∀ e, e ∈ tree.tree.entries.keys ↔ e ∈ notesTree'.tree.entries.keys := by
      intro e
      rw [← htree.synced, ← hinv'.synced, hdb, hsmirk]
    have hroot' : tree.tree.rootHash P.poseidon = block.rootHash :=
      (rootHash_congr hinv'.tree htree.tree hkeys).trans hroot
    have hrun' := @loadDbAndSmirk_of_root P config _ _ _ hload hmax hblock hroot'
    exact ⟨_, block, congrArg Prod.fst hrun', hmax, hblock, hroot'⟩
  | false =>
    obtain ⟨tree, hload, htree, hkeys, hsame⟩ :=
      @NodeShared.Kept.load_unwritten P config self block hkept h.synced
    by_cases hroot : tree.tree.rootHash P.poseidon = block.rootHash
    · have hrun := @loadDbAndSmirk_of_root P config _ _ _ hload hmax hblock hroot
      exact ⟨_, block, congrArg Prod.fst hrun, hmax, hblock, hroot⟩
    · rcases h.previous rfl with hunchanged | ⟨previousBlock, hprevious, hbefore⟩
      · exact absurd (hsame.trans hunchanged) hroot
      · rw [← @get_prev_commitInterrupted P self block false] at hprevious
        obtain ⟨tree', hrun, -, hroot'⟩ := h.applyBlockToTree hinv hvalid htree hkeys
        rw [hkept.config] at hrun
        have hok := loadDbAndSmirk_of_previous hload hmax hblock hroot hprevious
          (hsame.trans hbefore) hrun hroot'
        exact ⟨_, block, hok, hmax, hblock, hroot'⟩

end Interrupted

end Recovery

/-- The condition on the steps of a run: only interrupted commits have one. -/
def Meets (P : Primitives) : Life → LifeStep → Prop
  | .up self, .interrupt blockReads block treeWritten =>
    self.validateBlock P blockReads block = .ok () → Recoverable P self block treeWritten
  | _, _ => True

/-- What is asked of a run: every interrupted commit is recovered by a restart. -/
def Recovers (P : Primitives) (config : Config) : Life → LifeStep → Prop
  | .up self, .interrupt blockReads block treeWritten =>
    self.validateBlock P blockReads block = .ok () →
      Recovered P config (commitInterrupted P block treeWritten self)
  | _, _ => True

/-- **Recovery over a run.** In every run of a node that starts with empty directories, with
commits that end and commits that are interrupted, fast syncs and restarts in any order, every
interrupted commit that is recoverable is recovered by a restart.

**Proof sketch.** The invariant holds in every state of the run (`Life.Inv.step`), and a recoverable
commit that is interrupted there is recovered (`Recoverable.recovers`). -/
theorem interrupt_recovers (P : Primitives) (setup : Setup) (steps : List LifeStep)
    (h : Runs.Along (lifeStep P setup) (Meets P) (.down .empty) steps) :
    Runs.Along (lifeStep P setup) (Recovers P setup.config) (.down .empty) steps := by
  have hstart : (Life.down .empty).Inv P setup.config := Disk.inv_empty
  refine @Runs.along_mono _ _ (lifeStep P setup) (Life.Inv P setup.config) _ (fun _ => True) _
    (fun life step _ hinv => hinv.step step) ?_ _ hstart _ (fun _ _ => trivial) h
  intro life step _ hinv hmeets
  cases life with
  | down disk => trivial
  | up self =>
    cases step with
    | interrupt blockReads block treeWritten =>
      intro hvalid
      exact Recoverable.recovers hinv hvalid (hmeets hvalid)
    | _ => trivial

/-! ### The first blocks of a chain -/

namespace FirstBlocks

open SharedLowBits

/-- A single validator. -/
def setup : Setup where
  config := { mode := .validator, badBlocks := [], blockTxnsCount := 1, safeEthHeightOffset := 0 }
  localPeer := 0
  validatorSets := [⟨0, [0]⟩]

/-- Storage works. -/
def world : World := .reliable fun _ => .constant .initial

/-- A first block without transactions. -/
def emptyBlock : Block :=
  BlockCache.Sample.emptyBlock 1
    ((Smirk.Tree.new : Smirk.Tree MERKLE_TREE_DEPTH BlockHeight).rootHash sumHash)

/-- The validator that committed it. -/
def afterEmpty : NodeShared :=
  (commitProposal primitives world emptyBlock (freshValidator primitives)).2

/-- A second block, with a mint. -/
def mintBlock : Block := blockOf 2 firstBlock.rootHash firstTxn

/-- The node of the sample starts from genesis. -/
lemma start_eq :
    lifeStep primitives setup (.down .empty) (.start .reliable) =
      .up (freshValidator primitives) := by
  obtain ⟨tree, hload, -, -⟩ := Disk.inv_empty.load primitives
  have hrun : loadDbAndSmirk primitives .reliable setup.config .empty =
      (.ok ⟨.empty, .new, .genesis⟩, .empty) := by
    simp only [loadDbAndSmirk, Program.run_bind, Program.run_get, Program.run_ensure,
      Program.run_lift, hload, Outcome.mapErr, StartWorld.reliable, if_true]
    rfl
  rw [lifeStep, startNode, hrun]
  rfl

/-- The leader signs, and validation decides. -/
lemma validateBlock_eq {self : NodeShared} {block : Block} (hconfig : self.config = setup.config)
    (hsets : self.validatorSets = [⟨0, [0]⟩]) (hsigned : block.signature = .default)
    (hvalid : block.content.validate primitives true .validator self.blockStore self.notesTree =
      .ok ()) :
    self.validateBlock primitives true block = .ok () := by
  have hleader : (self.getLeaderForBlockHeight block.height : Outcome Error Address) = .ok 0 := by
    simp [NodeShared.getLeaderForBlockHeight, validatorsForHeight, hsets, U64, Nat.mod_one,
      Outcome.ofOption]
  have hverify : (block.signature.verify primitives (block.hash primitives) :
      Outcome Error (Option Address)) = .ok (some 0) := by
    rw [hsigned]
    rfl
  unfold NodeShared.validateBlock
  rw [hleader, Outcome.ok_bind, hverify, Outcome.ok_bind, hconfig]
  exact hvalid

/-- Its tree is still empty after the empty block. -/
lemma afterEmpty_notesTree : afterEmpty.notesTree = .new := by
  rfl

/-- The empty block is valid. -/
lemma validate_emptyBlock : emptyBlock.content.validate primitives true .validator
    (freshValidator primitives).blockStore (freshValidator primitives).notesTree = .ok () := by
  rw [validate_eq_ok_iff]
  exact ⟨fun txn htxn => absurd htxn List.not_mem_nil, List.nodup_nil, rfl⟩

/-- The empty block is committed. -/
lemma commit_eq :
    lifeStep primitives setup (.up (freshValidator primitives)) (.commit world emptyBlock) =
      .up afterEmpty := by
  have hvalid : (freshValidator primitives).validateBlock primitives world.blockReads emptyBlock =
      .ok () := validateBlock_eq rfl rfl rfl validate_emptyBlock
  simp only [lifeStep, hvalid]
  rfl

/-- The only leaf of the mint's block. -/
lemma leavesNonNull_mintBlock : mintBlock.content.state.leavesNonNull = [14] := by
  rw [← leavesNonNull_firstBlock, mintBlock, leavesNonNull_blockOf, firstBlock,
    leavesNonNull_blockOf]

/-- The empty block is stored. -/
lemma afterEmpty_blockStore : afterEmpty.blockStore = BlockStore.empty.set emptyBlock := by
  rfl

/-- The mint is valid after the empty block. -/
lemma validate_mintBlock :
    afterEmpty.validateBlock primitives true mintBlock = .ok () := by
  refine validateBlock_eq rfl rfl rfl ?_
  rw [validate_eq_ok_iff, afterEmpty_notesTree, afterEmpty_blockStore]
  have hfirst := (validate_eq_ok_iff.1 validate_firstBlock).2.2
  refine ⟨fun txn htxn => ?_, ?_, ?_⟩
  · rw [List.mem_singleton.1 htxn]
    decide
  · rw [leavesNonNull_mintBlock]
    exact List.nodup_singleton _
  · rw [leavesNonNull_mintBlock]
    rw [leavesNonNull_firstBlock] at hfirst
    exact hfirst

/-- The empty block is stored, and has the root of the tree. -/
lemma recoverable_mintBlock : Recoverable primitives afterEmpty mintBlock false where
  synced e he := by
    rw [afterEmpty_notesTree] at he
    exact absurd he List.not_mem_nil
  newest height stored hget := by
    rw [afterEmpty_blockStore, BlockStore.get_set] at hget
    split_ifs at hget with hsame
    · rw [← hsame]
      decide
    · simp [BlockStore.get, BlockStore.empty] at hget
  takes := by
    refine takes_of_fresh ⟨fun _ => ne_null_of_mem_leavesNonNull, ?_, fun e he => ?_⟩
    · rw [leavesNonNull_mintBlock]
      exact List.pairwise_singleton _ _
    · rw [afterEmpty_notesTree] at he
      exact absurd he List.not_mem_nil
  root hbad := by cases hbad
  previous _ := by
    refine .inr ⟨emptyBlock, ?_, ?_⟩
    · rw [afterEmpty_blockStore, BlockStore.get_set]
      rfl
    · rw [afterEmpty_notesTree]
      rfl

end FirstBlocks

/-- The second block of a chain is interrupted before the insertion, and recovered. -/
theorem interrupt_recovers_second :
    FirstBlocks.afterEmpty.validateBlock SharedLowBits.primitives true FirstBlocks.mintBlock =
        .ok () ∧
      Runs.Along (lifeStep SharedLowBits.primitives FirstBlocks.setup)
        (Recovers SharedLowBits.primitives FirstBlocks.setup.config) (.down .empty)
        [.start .reliable, .commit FirstBlocks.world FirstBlocks.emptyBlock,
          .interrupt true FirstBlocks.mintBlock false] := by
  refine ⟨FirstBlocks.validate_mintBlock, interrupt_recovers _ _ _ ⟨trivial, ?_⟩⟩
  rw [FirstBlocks.start_eq]
  refine ⟨trivial, ?_⟩
  rw [FirstBlocks.commit_eq]
  exact ⟨fun _ => FirstBlocks.recoverable_mintBlock, trivial⟩

/-- **The first block of a chain**: a validator starts with empty directories, and stops after it
stored its first block and before it inserted its leaf. The genesis block is not stored, so that
it panics when it is started again. -/
theorem interrupt_first_panics :
    (freshValidator SharedLowBits.primitives).validateBlock SharedLowBits.primitives true
        SharedLowBits.firstBlock = .ok () ∧
      (loadDbAndSmirk SharedLowBits.primitives .reliable FirstBlocks.setup.config
        (commitInterrupted SharedLowBits.primitives SharedLowBits.firstBlock false
          (freshValidator SharedLowBits.primitives))).1 = .panic ∧
      ¬ Runs.Along (lifeStep SharedLowBits.primitives FirstBlocks.setup)
        (Recovers SharedLowBits.primitives FirstBlocks.setup.config) (.down .empty)
        [.start .reliable, .interrupt true SharedLowBits.firstBlock false] := by
  have hvalid := @FirstBlocks.validateBlock_eq (freshValidator SharedLowBits.primitives)
    SharedLowBits.firstBlock rfl rfl rfl SharedLowBits.validate_firstBlock
  have hkept : (freshValidator SharedLowBits.primitives).Kept SharedLowBits.primitives
      FirstBlocks.setup.config := ⟨rfl, BlockStore.wf_empty, backed_new⟩
  have hroot : (freshValidator SharedLowBits.primitives).notesTree.tree.rootHash
      SharedLowBits.primitives.poseidon ≠ SharedLowBits.firstBlock.rootHash := by
    decide +kernel
  have hpanic := @loadDbAndSmirk_interrupted_eq_panic SharedLowBits.primitives _ _
    SharedLowBits.firstBlock hkept (fun e he => absurd he List.not_mem_nil)
    (fun height stored hget => by simp [freshValidator, NodeShared.new, BlockStore.get,
      BlockStore.empty] at hget) hroot rfl
  refine ⟨hvalid, hpanic, ?_⟩
  rintro ⟨-, hrecovers, -⟩
  rw [FirstBlocks.start_eq] at hrecovers
  obtain ⟨data, block, hok, -⟩ := hrecovers hvalid
  rw [hpanic] at hok
  cases hok

end TempoRollup.Node
