import TempoRollup.Lib.Runs
import TempoRollup.Node.Snapshot
import TempoRollup.Node.Stream

set_option relaxedAutoImplicit false
set_option autoImplicit false

/-!
# The prover worker

`run_prover_worker` of `node/src/prover/worker.rs`. The worker keeps a tree of its own, the proofs
that it made and the last block that it has seen, and writes them one after the other. When it
starts, it takes elements over from the tree of the node: those that are recorded there with a
height that the contract has reached. It then goes over the committed blocks.

## Main definitions

* `ProverDb`, `Stage`, `ProverSystem` — what the worker has stored, where it is, and what surrounds
  it.
* `elementsRolledUpNotInProver`, `highestBlockHeight`, `takeOver` — the start-up.
* `work` — the worker up to its next write.
* `ProverEvent`, `proverStep` — runs of the worker, the node and the contract, with crashes.
* `Proceeds` — what the worker is meant to keep.
* `Unhurt` — the condition on the steps.

## Main results

* `highestBlockHeight_eq_some`, `highestBlockHeight_eq_none` — the result of the loop.
* `mem_elementsRolledUpNotInProver` — what the start-up takes over.
* `mem_nextCommit` — the stream yields the lowest of the blocks that are stored and were not seen.

## Design

The steps of the worker end with its writes, so that a crash can come between any two of them. A
write that fails ends the worker, and so does everything else that returns an error: it is a crash
before the write. Proving returns any proof or fails. The table of the database that several provers
share is the list of the heights in it; it only grows, as does the height of the contract.

The node commits the blocks of one chain, and its storage works. A chunk of a fast sync has the
elements of the chain after its block: with any others the root would not be that of the block.
-/

open Exec

namespace TempoRollup.Node

/-! ## The worker -/

/-- `LastSeenBlock`. -/
structure LastSeenBlock where
  height : BlockHeight
  rootHash : Element
  deriving DecidableEq, Repr

/-- The roots of a `Proof`. -/
structure Proof where
  oldRoot : Element
  newRoot : Element
  deriving DecidableEq, Repr

/-- `RollupInput`. -/
structure RollupInput where
  proof : Proof
  height : BlockHeight
  otherHash : CryptoHash
  signatures : List Signature

/-- `ProverDb`. -/
structure ProverDb where
  lastSeenBlock : Option LastSeenBlock
  rollups : Std.TreeMap BlockHeight RollupInput

/-- Where the worker is, with the contract's height that it read first. -/
inductive Stage
  /-- It does not run. -/
  | down
  /-- It waits for the node to be in sync. -/
  | waiting (contractHeight : BlockHeight)
  /-- Elements of the node were inserted, and the highest of their heights is to be recorded. -/
  | tookOver (contractHeight : BlockHeight) (highest : Option BlockHeight)
  /-- The root of the last seen block is to be compared with that of the tree. -/
  | comparing (contractHeight : BlockHeight)
  /-- The last seen block was reset, and the tree is to be deleted. -/
  | deleting
  /-- The stream has yielded the blocks up to a height. -/
  | looping (contractHeight seen : BlockHeight)
  /-- The stream has yielded a block. -/
  | processing (contractHeight : BlockHeight) (block : Block)
  /-- The proof of the block is stored. -/
  | proved (contractHeight : BlockHeight) (block : Block)
  /-- The block was applied to the tree. -/
  | applied (contractHeight : BlockHeight) (block : Block) (proved : Bool)
  /-- The block that was proved is the last seen one. -/
  | recorded (contractHeight : BlockHeight) (block : Block)
  /-- It panicked when it applied a block. -/
  | panicked

/-- The worker and what it shares with the node, the contract and other provers. -/
structure ProverSystem where
  node : NodeShared
  /-- The node has the elements of the chain up to this block. -/
  nodeHeight : ℕ
  contractHeight : ℕ
  /-- The heights in the table `rollup_proofs`. -/
  rollupProofs : List ℕ
  notesTree : PersistentMerkleTree
  db : ProverDb
  stage : Stage

/-- How the node, the prover and the shared database answer the worker. -/
structure WorkerWorld where
  isOutOfSync : Bool
  /-- Another prover holds the advisory lock of the block. -/
  lockHeld : Bool
  /-- What `prove` returns, unless it fails. -/
  proof : Option Proof
  /-- The proof can be inserted in the table. -/
  inserts : Bool

section Worker

variable (P : Primitives)

/-- The last seen block of a worker that has seen none. -/
def LastSeenBlock.origin : LastSeenBlock := ⟨0, emptyTreeHash P.poseidon MERKLE_TREE_DEPTH⟩

/-- `get_last_seen_block`, with the default. -/
def ProverDb.lastSeen (db : ProverDb) : LastSeenBlock :=
  db.lastSeenBlock.getD (LastSeenBlock.origin P)

/-- `set_last_seen_block`. -/
def ProverDb.setLastSeenBlock (db : ProverDb) (lastSeenBlock : LastSeenBlock) : ProverDb :=
  { db with lastSeenBlock := some lastSeenBlock }

/-- `set_rollup`. -/
def ProverDb.setRollup (db : ProverDb) (height : BlockHeight) (rollup : RollupInput) : ProverDb :=
  { db with rollups := db.rollups.insert height rollup }

/-- `elements_rolled_up_not_in_prover`. -/
def elementsRolledUpNotInProver (contractHeight : BlockHeight)
    (nodeNotesTree proverTree : PersistentMerkleTree) : List (Element × BlockHeight) :=
  nodeNotesTree.tree.entries.toList.filter fun entry =>
    entry.2 ≤ contractHeight && !proverTree.tree.containsElement entry.1

/-- `highest_block_height`, the result of the loop over these elements. -/
def highestBlockHeight (entries : List (Element × BlockHeight)) : Option BlockHeight :=
  entries.foldl (fun highest entry =>
    match highest with
    | none => some entry.2
    | some height => if entry.2 > height then some entry.2 else some height) none

/-- The start-up takes elements over from the node. -/
def takeOver (contractHeight : BlockHeight) (self : ProverSystem) : ProverSystem :=
  let entries := elementsRolledUpNotInProver contractHeight self.node.notesTree self.notesTree
  match (Smirk.Batch.fromEntries entries :
      Outcome Smirk.CollisionError (Smirk.Batch MERKLE_TREE_DEPTH BlockHeight)) with
  | .ok batch =>
    match Smirk.Persistent.insertBatch P.poseidon true batch self.notesTree with
    | (.ok (), notesTree) =>
      { self with
        notesTree := notesTree
        stage := .tookOver contractHeight (highestBlockHeight entries) }
    | _ => { self with stage := .down }
  | _ => { self with stage := .down }

/-- The next block of the commit stream. -/
def ProverSystem.nextCommit (self : ProverSystem) (seen : BlockHeight) : Option Block :=
  (self.node.blockStore.list (seen + 1) U64).head?

/-- `we_are_the_prover_for_this_block`: without a shared database always, with it unless there is a
proof already or another prover has the lock. -/
def weAreTheProver (postgres : Bool) (world : WorkerWorld) (self : ProverSystem)
    (height : BlockHeight) : Bool :=
  !postgres || (!self.rollupProofs.contains height && !world.lockHeld)

/-- `apply_block_to_tree` on the tree of the worker. -/
def applyBlock (block : Block) (next : Stage) (self : ProverSystem) : ProverSystem :=
  match applyBlockToTree P true block.content.state block.height
    (self.node.config.badBlocks.contains block.height) self.notesTree with
  | (.ok (), notesTree) => { self with notesTree := notesTree, stage := next }
  | (.err _, _) => { self with stage := .down }
  | (.panic, _) => { self with stage := .panicked }

/-- The body of the loop up to its first write. -/
def process (postgres : Bool) (world : WorkerWorld) (contractHeight : BlockHeight) (block : Block)
    (self : ProverSystem) : ProverSystem :=
  if block.content.state.txns.isEmpty then
    { self with
      db := self.db.setLastSeenBlock ⟨block.height, block.rootHash⟩
      stage := .looping contractHeight block.height }
  else if decide (block.height ≤ contractHeight) ||
      self.node.config.badBlocks.contains block.height ||
      !weAreTheProver postgres world self block.height then
    applyBlock P block (.applied contractHeight block false) self
  else
    -- the signatures for the block are those in the header of the next one
    match self.nextCommit block.height, world.proof with
    | none, _ => self
    | some _, none => { self with stage := .down }
    | some nextCommit, some proof =>
      if proof.newRoot ≠ block.rootHash then { self with stage := .down }
      else
        { self with
          db := self.db.setRollup block.height ⟨proof, block.height, block.content.headerHash P,
            nextCommit.content.header.approvals⟩
          stage := .proved contractHeight block }

/-- **The worker up to its next write.** -/
def work (postgres : Bool) (world : WorkerWorld) (self : ProverSystem) : ProverSystem :=
  match self.stage with
  | .down => { self with stage := .waiting self.contractHeight }
  | .waiting contractHeight =>
    if world.isOutOfSync then self else takeOver P contractHeight self
  | .tookOver contractHeight none => { self with stage := .comparing contractHeight }
  | .tookOver contractHeight (some highest) =>
    { self with
      db := self.db.setLastSeenBlock ⟨highest, self.notesTree.tree.rootHash P.poseidon⟩
      stage := .comparing contractHeight }
  | .comparing contractHeight =>
    if (self.db.lastSeen P).rootHash ≠ self.notesTree.tree.rootHash P.poseidon then
      { self with
        db := self.db.setLastSeenBlock (.origin P)
        stage := .deleting }
    else { self with stage := .looping contractHeight (self.db.lastSeen P).height }
  | .deleting => { self with notesTree := .new, stage := .down }
  | .looping contractHeight seen =>
    match self.nextCommit seen with
    | none => self
    | some block => { self with stage := .processing contractHeight block }
  | .processing contractHeight block => process P postgres world contractHeight block self
  | .proved contractHeight block => applyBlock P block (.applied contractHeight block true) self
  | .applied contractHeight block proved =>
    { self with
      db := self.db.setLastSeenBlock ⟨block.height, block.rootHash⟩
      stage := if proved then .recorded contractHeight block
        else .looping contractHeight block.height }
  | .recorded contractHeight block =>
    if postgres && !world.inserts then { self with stage := .down }
    else
      let rollupProofs :=
        if postgres then block.height :: self.rollupProofs else self.rollupProofs
      let stage := if block.rootHash ≠ self.notesTree.tree.rootHash P.poseidon then .down
        else .looping contractHeight block.height
      { self with rollupProofs := rollupProofs, stage := stage }
  | .panicked => self

end Worker

/-! ## Runs -/

/-- What happens to the worker and around it. -/
inductive ProverEvent
  /-- The node commits its next block. -/
  | commit (world : World)
  /-- The node takes a chunk over. -/
  | fastSync (world : World) (height : ℕ) (elements : List Element)
  /-- A block is rolled up. -/
  | rollUp (height : ℕ)
  /-- Another prover inserts a proof. -/
  | insertProof (height : ℕ)
  | crash
  | work (world : WorkerWorld)

section Runs

variable {P : Primitives} (chain : Chain P) (postgres : Bool)

/-- One step of a run. -/
def proverStep (self : ProverSystem) : ProverEvent → ProverSystem
  | .commit world =>
    if self.nodeHeight < chain.tip then
      match commitProposal P world (chain.block (self.nodeHeight + 1)) self.node with
      | (.ok (), node) => { self with node := node, nodeHeight := self.nodeHeight + 1 }
      | _ => self
    else self
  | .fastSync world height elements =>
    if self.nodeHeight < height ∧ height ≤ chain.tip then
      match checkElements P self.node.notesTree (chain.block height) elements,
        handleSnapshotChunkFast P world (some (chain.block height)) elements self.node with
      | .ok (some _), (.ok (), node) => { self with node := node, nodeHeight := height - 1 }
      | _, _ => self
    else self
  | .rollUp height => { self with contractHeight := max self.contractHeight height }
  | .insertProof height => { self with rollupProofs := height :: self.rollupProofs }
  | .crash => { self with stage := .down }
  | .work world => work P postgres world self

/-- The chunks of fast syncs have the elements of the chain. -/
def ProverEvent.Honest : ProverEvent → Prop
  | .fastSync _ height elements => ∀ e, e ∈ elements ↔ e ∈ chain.elements height
  | _ => True

/-- The blocks that the loop has passed. -/
def Stage.passed : Stage → ℕ
  | .looping _ seen => seen
  | .processing _ block => block.height - 1
  | .proved _ block => block.height - 1
  | .applied _ block _ => block.height - 1
  | .recorded _ block => block.height
  | _ => 0

/-- A proof for the block is stored, by this worker or in the shared table. -/
def ProverSystem.HasProof (self : ProverSystem) (height : ℕ) : Prop :=
  height ∈ self.db.rollups ∨ height ∈ self.rollupProofs

/-- The block is not empty, not bad, and above the height of the contract. -/
structure Chain.NeedsProof (contractHeight height : ℕ) : Prop where
  txns : (chain.block height).content.state.txns ≠ []
  good : chain.badBlocks.contains height = false
  above : contractHeight < height

/-- **What the worker is meant to keep**: whenever it processes a block that is not empty, its tree
has the root of the chain before it; it does not panic when it applies a block; and every block that
it has passed and that needs a proof has one. -/
structure Proceeds (system : ProverSystem) : Prop where
  root : ∀ (contractHeight : BlockHeight) (block : Block),
    system.stage = .processing contractHeight block → block.content.state.txns ≠ [] →
      system.notesTree.tree.rootHash P.poseidon = chain.root (block.height - 1)
  unspent : system.stage ≠ .panicked
  proofs : ∀ h, 0 < h → h ≤ system.stage.passed → chain.NeedsProof system.contractHeight h →
    system.HasProof h

/-- The worker has taken elements over, and has not ended since. -/
def Stage.Running : Stage → Prop
  | .down | .waiting _ | .deleting | .panicked => False
  | _ => True

/-- The store has a block that is not empty. -/
def Filled (store : BlockStore) (h : ℕ) : Prop :=
  ∃ block, store.get h = some block ∧ block.content.state.txns ≠ []

/-- The node has recorded an element at a height that the contract had reached, and the worker does
not have it. -/
def ProverSystem.Missing (self : ProverSystem) (contractHeight : ℕ) (e : Element) (k : ℕ) : Prop :=
  self.node.notesTree.tree.entries[e]? = some k ∧ k ≤ contractHeight ∧
    e ∉ self.notesTree.tree.entries.keys

/-- **The start-up resumes where it should**: if elements are missing, then they and those that the
worker has were all inserted before any block of the store that is not empty and comes after the
heights that are recorded for the missing ones. -/
def Resumes (contractHeight : ℕ) (self : ProverSystem) : Prop :=
  (∃ e k, self.Missing contractHeight e k) →
    ∀ h, Filled self.node.blockStore h → (∀ e k, self.Missing contractHeight e k → k < h) →
      (∀ e ∈ self.notesTree.tree.entries.keys, e ∈ chain.elements (h - 1)) ∧
        ∀ e k, self.Missing contractHeight e k → e ∈ chain.elements (h - 1)

/-- **The condition on a step.** A fast sync goes to a block that is not bad, takes nothing over
while the worker runs, and leaves out no block that needs a proof and has none; the start-up resumes
where it should; and no other prover has the lock of a block that needs a proof and has none. -/
def Unhurt (self : ProverSystem) : ProverEvent → Prop
  | .fastSync _ height elements =>
    chain.badBlocks.contains height = false ∧
      (self.stage.Running → olderElements self.node.notesTree (chain.block height) elements = []) ∧
      ∀ h, self.nodeHeight < h → h < height → chain.NeedsProof self.contractHeight h →
        self.HasProof h
  | .work world =>
    match self.stage with
    | .waiting contractHeight => world.isOutOfSync = false → Resumes chain contractHeight self
    | .processing _ block =>
      postgres = true → chain.NeedsProof self.contractHeight block.height →
        ¬ self.HasProof block.height → world.lockHeld = false
    | _ => True
  | _ => True

end Runs

/-! ## The stream and the start-up -/

section Lemmas

/-- A loop that looks for the highest height, from one that was found. By induction on the
entries. -/
lemma foldl_highestBlockHeight (entries : List (Element × BlockHeight)) (start : BlockHeight) :
    ∃ height, entries.foldl (fun highest entry =>
        match highest with
        | none => some entry.2
        | some height => if entry.2 > height then some entry.2 else some height) (some start) =
          some height ∧
      start ≤ height ∧ (∀ entry ∈ entries, entry.2 ≤ height) ∧
      (height = start ∨ ∃ entry ∈ entries, entry.2 = height) := by
  induction entries generalizing start with
  | nil => exact ⟨start, rfl, le_refl _, fun _ h => absurd h List.not_mem_nil, .inl rfl⟩
  | cons entry entries ih =>
    rw [List.foldl_cons]
    by_cases hgt : entry.2 > start
    · simp only [if_pos hgt]
      obtain ⟨height, hfold, hle, hall, hwhich⟩ := ih entry.2
      refine ⟨height, hfold, hgt.le.trans hle, List.forall_mem_cons.2 ⟨hle, hall⟩, .inr ?_⟩
      rcases hwhich with rfl | ⟨other, hmem, hother⟩
      · exact ⟨entry, List.mem_cons_self, rfl⟩
      · exact ⟨other, List.mem_cons_of_mem _ hmem, hother⟩
    · simp only [if_neg hgt]
      obtain ⟨height, hfold, hle, hall, hwhich⟩ := ih start
      refine ⟨height, hfold, hle, List.forall_mem_cons.2 ⟨(not_lt.1 hgt).trans hle, hall⟩, ?_⟩
      rcases hwhich with rfl | ⟨other, hmem, hother⟩
      · exact .inl rfl
      · exact .inr ⟨other, List.mem_cons_of_mem _ hmem, hother⟩

/-- **The highest height** is that of one of the entries, and no other is higher. -/
theorem highestBlockHeight_eq_some {entries : List (Element × BlockHeight)} {highest : BlockHeight}
    (h : highestBlockHeight entries = some highest) :
    (∃ entry ∈ entries, entry.2 = highest) ∧ ∀ entry ∈ entries, entry.2 ≤ highest := by
  cases entries with
  | nil => cases h
  | cons entry entries =>
    obtain ⟨height, hfold, hle, hall, hwhich⟩ := foldl_highestBlockHeight entries entry.2
    obtain rfl : height = highest := Option.some.inj (hfold.symm.trans h)
    refine ⟨?_, List.forall_mem_cons.2 ⟨hle, hall⟩⟩
    rcases hwhich with rfl | ⟨other, hmem, hother⟩
    · exact ⟨entry, List.mem_cons_self, rfl⟩
    · exact ⟨other, List.mem_cons_of_mem _ hmem, hother⟩

/-- Without a highest height there is no entry. -/
theorem highestBlockHeight_eq_none {entries : List (Element × BlockHeight)}
    (h : highestBlockHeight entries = none) : entries = [] := by
  cases entries with
  | nil => rfl
  | cons entry entries =>
    obtain ⟨height, hfold, -⟩ := foldl_highestBlockHeight entries entry.2
    cases hfold.symm.trans h

/-- The elements that are taken over are the missing ones. -/
theorem mem_elementsRolledUpNotInProver {self : ProverSystem} {contractHeight : BlockHeight}
    {e : Element} {k : BlockHeight} :
    (e, k) ∈ elementsRolledUpNotInProver contractHeight self.node.notesTree self.notesTree ↔
      self.Missing contractHeight e k := by
  rw [ProverSystem.Missing, elementsRolledUpNotInProver, List.mem_filter, Bool.and_eq_true,
    Bool.not_eq_true', ← Bool.not_eq_true, containsElement_iff, decide_eq_true_eq,
    Std.TreeMap.mem_toList_iff_getElem?_eq_some]

/-- **The next block of the stream** is the lowest of those that are stored above the last one. -/
theorem mem_nextCommit {self : ProverSystem} {seen : BlockHeight} {block : Block}
    (hwf : self.node.blockStore.Wf) (h : self.nextCommit seen = some block) :
    seen < block.height ∧ self.node.blockStore.get block.height = some block ∧
      ∀ k, seen < k → k < block.height → k < U64 → self.node.blockStore.get k = none := by
  obtain ⟨blocks, hlist⟩ : ∃ blocks, self.node.blockStore.list (seen + 1) U64 = block :: blocks :=
    List.head?_eq_some_iff.1 h
  have hcovers := Feed.covers_list hwf (seen + 1) U64
  rw [hlist] at hcovers
  obtain ⟨hget, hlow, -⟩ := (hcovers.mem_iff block).1 List.mem_cons_self
  refine ⟨hlow, hget, fun k hk hlt hU64 => ?_⟩
  cases hother : self.node.blockStore.get k with
  | none => rfl
  | some other =>
    have hkey := hwf.keyed k other hother
    have hmem : other ∈ block :: blocks := by
      refine (hcovers.mem_iff other).2 ⟨by rw [hkey]; exact hother, ?_, ?_⟩
      · rw [hkey]
        exact hk
      · rw [hkey]
        exact hU64
    rcases List.mem_cons.1 hmem with rfl | hmem
    · exact absurd hkey hlt.ne'
    · have := (List.pairwise_cons.1 hcovers.sorted).1 other hmem
      rw [hkey] at this
      exact absurd this hlt.asymm

/-- The stream goes on while blocks are stored above the last one. -/
lemma nextCommit_isSome {self : ProverSystem} {seen k : BlockHeight} {block : Block}
    (hwf : self.node.blockStore.Wf) (hget : self.node.blockStore.get k = some block)
    (hlt : seen < k) (hU64 : k < U64) : ∃ next, self.nextCommit seen = some next := by
  have hkey := hwf.keyed k block hget
  have hmem : block ∈ self.node.blockStore.list (seen + 1) U64 := by
    rw [(Feed.covers_list hwf (seen + 1) U64).mem_iff, hkey]
    exact ⟨hget, hlt, hU64⟩
  cases hlist : self.node.blockStore.list (seen + 1) U64 with
  | nil =>
    rw [hlist] at hmem
    exact absurd hmem List.not_mem_nil
  | cons next blocks =>
    refine ⟨next, ?_⟩
    rw [ProverSystem.nextCommit, hlist]
    rfl

end Lemmas

end TempoRollup.Node
