import TempoRollup.Node.ProverStartUp

set_option relaxedAutoImplicit false
set_option autoImplicit false

/-!
# Runs of the prover worker

The invariant of the worker's three stores, which every crash point and every order of the steps of
the worker, the node and the contract keep. It fails only through a fast sync: the node records
height zero for the elements that it takes over and stores no block for them, while the worker goes
on from the heights that the node has recorded, through the blocks that it has stored.

## Main definitions

* `ProverInv` — the invariant of a run.
* `ProverStarts` — the first state of a run.

## Main results

* `ProverInv.step` — the invariant is kept by every step that meets the condition.
* `proceeds_along` — over every run whose steps all meet it, the worker proceeds as it should.
* `unhurt_of_alone` — among them are the runs without fast sync and without other provers.
* `not_proceeds_overtakes` — a worker that goes back to a block that it has applied.
-/

open Exec

namespace TempoRollup.Node

/-! ## The invariant -/

section Invariant

variable {P : Primitives} (chain : Chain P)

/-- The height of the contract that the worker read when it started. -/
def Stage.read : Stage → ℕ
  | .down | .deleting | .panicked => 0
  | .waiting contractHeight | .tookOver contractHeight _ | .comparing contractHeight
  | .looping contractHeight _ | .processing contractHeight _ | .proved contractHeight _
  | .applied contractHeight _ _ | .recorded contractHeight _ => contractHeight

/-- What holds while the worker is at a stage. -/
def StageInv (self : ProverSystem) : Stage → Prop
  | .down | .waiting _ | .comparing _ => True
  | .tookOver contractHeight highest => ∀ height, highest = some height →
      height ≤ contractHeight ∧ height ≤ self.nodeHeight ∧
        Placed chain self.node.blockStore self.notesTree height
  | .deleting => self.db.lastSeen P = .origin P
  | .looping _ seen => seen = (self.db.lastSeen P).height ∧
      Placed chain self.node.blockStore self.notesTree seen
  | .processing _ block =>
      Placed chain self.node.blockStore self.notesTree (self.db.lastSeen P).height ∧
        Yielded self.node.blockStore (self.db.lastSeen P).height block
  | .proved _ block =>
      Placed chain self.node.blockStore self.notesTree (self.db.lastSeen P).height ∧
        Yielded self.node.blockStore (self.db.lastSeen P).height block ∧
        block.content.state.txns ≠ [] ∧ self.HasProof block.height
  | .applied _ block _ => Yielded self.node.blockStore (self.db.lastSeen P).height block ∧
      chain.At block.height self.notesTree ∧
      (chain.NeedsProof self.contractHeight block.height → self.HasProof block.height)
  | .recorded _ block => block.height = (self.db.lastSeen P).height ∧
      Placed chain self.node.blockStore self.notesTree block.height
  | .panicked => False

/-- **The invariant of a run.** The node follows the chain, and the blocks that it went over need no
proof or have one. The tree of the worker is one of the chain, and the last seen block tells where
to go on from. Blocks up to it need no proof or have one. While the worker runs, its tree has
everything that the node took over. -/
structure ProverInv (system : ProverSystem) : Prop where
  node : Follows chain system.nodeHeight system.node
  skipped : ∀ k, 0 < k → k ≤ system.nodeHeight → system.node.blockStore.get k = none →
    chain.NeedsProof system.contractHeight k → system.HasProof k
  tree : ∃ k ≤ system.nodeHeight, chain.At k system.notesTree
  tells : Tells chain system.node.blockStore system.notesTree (system.db.lastSeen P)
  seen : (system.db.lastSeen P).height ≤ system.nodeHeight
  passed : ∀ k, 0 < k → k ≤ (system.db.lastSeen P).height →
    chain.NeedsProof system.contractHeight k → system.HasProof k
  read : system.stage.read ≤ system.contractHeight
  took : system.stage.Running → ∀ e : Element, system.node.notesTree.tree.entries[e]? = some 0 →
    e ∈ system.notesTree.tree.entries.keys
  stage : StageInv chain system system.stage

variable {chain} {self self' : ProverSystem}

/-- The tree of the worker has no element that the node does not have. -/
lemma ProverInv.sub (h : ProverInv chain self) :
    ∀ e ∈ self.notesTree.tree.entries.keys, e ∈ chain.elements self.nodeHeight := by
  intro e he
  obtain ⟨k, hk, hat⟩ := h.tree
  exact Chain.elements_mono hk h.node.le_tip ((hat.keys e).1 he)

/-- What is known at a stage. -/
lemma ProverInv.at_stage (h : ProverInv chain self) {stage : Stage}
    (hstage : self.stage = stage) :
    stage.read ≤ self.contractHeight ∧ StageInv chain self stage := by
  rw [← hstage]
  exact ⟨h.read, h.stage⟩

/-- A block that was yielded is one of the chain. -/
lemma ProverInv.yielded (h : ProverInv chain self) {p : ℕ} {block : Block}
    (hyielded : Yielded self.node.blockStore p block) :
    block.height ≤ self.nodeHeight ∧ block = chain.block block.height :=
  h.node.stored _ _ (lt_of_le_of_lt (Nat.zero_le _) hyielded.above) hyielded.stored

/-- What surrounds the worker has moved on. -/
structure MovesOn (chain : Chain P) (system system' : ProverSystem) : Prop where
  notesTree : system'.notesTree = system.notesTree
  db : system'.db = system.db
  height : system.nodeHeight ≤ system'.nodeHeight
  grows : Grows chain system.nodeHeight system.node.blockStore system'.node.blockStore
  contract : system.contractHeight ≤ system'.contractHeight
  proofs : ∀ k ∈ system.rollupProofs, k ∈ system'.rollupProofs

/-- A worker that moves on keeps the proofs that it has. -/
lemma MovesOn.hasProof (hmoves : MovesOn chain self self') {k : ℕ} (h : self.HasProof k) :
    self'.HasProof k := by
  rw [ProverSystem.HasProof, hmoves.db]
  exact h.imp_right (hmoves.proofs k)

/-- Blocks above the height of the contract were above it before. -/
lemma MovesOn.needsProof (hmoves : MovesOn chain self self') {k : ℕ}
    (h : chain.NeedsProof self'.contractHeight k) : chain.NeedsProof self.contractHeight k :=
  ⟨h.txns, h.good, lt_of_le_of_lt hmoves.contract h.above⟩

/-- What holds at a stage holds when the surroundings have moved on. -/
lemma StageInv.moveOn (h : ProverInv chain self) (hmoves : MovesOn chain self self')
    {stage : Stage} (hstage : StageInv chain self stage) : StageInv chain self' stage := by
  have hplaced : ∀ {p}, Placed chain self.node.blockStore self.notesTree p →
      Placed chain self'.node.blockStore self'.notesTree p := by
    intro p hplaced
    rw [hmoves.notesTree]
    exact hplaced.grow hmoves.grows h.sub
  have hyielded : ∀ {p} {block : Block}, Yielded self.node.blockStore p block →
      Yielded self'.node.blockStore p block :=
    fun hyielded => hyielded.grow hmoves.grows (h.yielded hyielded).1
  cases stage with
  | down => trivial
  | waiting => trivial
  | comparing => trivial
  | tookOver contractHeight highest =>
    intro height heq
    obtain ⟨hcontract, hnode, hplace⟩ := hstage height heq
    exact ⟨hcontract, hnode.trans hmoves.height, hplaced hplace⟩
  | deleting =>
    rw [StageInv, hmoves.db]
    exact hstage
  | looping contractHeight seen =>
    rw [StageInv, hmoves.db]
    exact ⟨hstage.1, hplaced hstage.2⟩
  | processing contractHeight block =>
    rw [StageInv, hmoves.db]
    exact ⟨hplaced hstage.1, hyielded hstage.2⟩
  | proved contractHeight block =>
    rw [StageInv, hmoves.db]
    obtain ⟨hplace, hblock, htxns, hproof⟩ := hstage
    exact ⟨hplaced hplace, hyielded hblock, htxns, hmoves.hasProof hproof⟩
  | applied contractHeight block proved =>
    rw [StageInv, hmoves.db, hmoves.notesTree]
    obtain ⟨hblock, hat, hproof⟩ := hstage
    exact ⟨hyielded hblock, hat, fun hneeds => hmoves.hasProof (hproof (hmoves.needsProof hneeds))⟩
  | recorded contractHeight block =>
    rw [StageInv, hmoves.db]
    exact ⟨hstage.1, hplaced hstage.2⟩
  | panicked => exact hstage

/-- **The invariant is kept when the surroundings move on**, if the worker misses nothing: the node
takes nothing over while it runs, and goes over no block that needs a proof. -/
lemma ProverInv.moveOn (h : ProverInv chain self) (hmoves : MovesOn chain self self')
    (hstage : self'.stage = self.stage) (hnode : Follows chain self'.nodeHeight self'.node)
    (hskipped : ∀ k, self.nodeHeight < k → k ≤ self'.nodeHeight →
      self'.node.blockStore.get k = none → chain.NeedsProof self'.contractHeight k →
        self'.HasProof k)
    (hzero : self.stage.Running → ∀ e : Element, self'.node.notesTree.tree.entries[e]? = some 0 →
      self.node.notesTree.tree.entries[e]? = some 0) :
    ProverInv chain self' := by
  refine ⟨hnode, ?_, ?_, ?_, ?_, ?_, ?_, ?_, ?_⟩
  · intro k hk hle hnone hneeds
    by_cases hold : k ≤ self.nodeHeight
    · refine hmoves.hasProof (h.skipped k hk hold ?_ (hmoves.needsProof hneeds))
      cases hget : self.node.blockStore.get k with
      | none => rfl
      | some block =>
        rw [hmoves.grows.1 k block hget] at hnone
        cases hnone
    · exact hskipped k (not_le.1 hold) hle hnone hneeds
  · obtain ⟨k, hk, hat⟩ := h.tree
    rw [hmoves.notesTree]
    exact ⟨k, hk.trans hmoves.height, hat⟩
  · rw [hmoves.notesTree, hmoves.db]
    exact h.tells.grow hmoves.grows h.sub
  · rw [hmoves.db]
    exact h.seen.trans hmoves.height
  · intro k hk hle hneeds
    rw [hmoves.db] at hle
    exact hmoves.hasProof (h.passed k hk hle (hmoves.needsProof hneeds))
  · rw [hstage]
    exact h.read.trans hmoves.contract
  · rw [hstage, hmoves.notesTree]
    exact fun hrunning e he => h.took hrunning e (hzero hrunning e he)
  · rw [hstage]
    exact h.stage.moveOn h hmoves

end Invariant

/-! ## The steps of the worker -/

section Steps

variable {P : Primitives} {chain : Chain P} {self : ProverSystem} {stage : Stage}

/-- The worker goes to another stage and writes nothing. -/
lemma ProverInv.toStage (h : ProverInv chain self) (hread : stage.read ≤ self.contractHeight)
    (htook : stage.Running → self.stage.Running) (hstage : StageInv chain self stage) :
    ProverInv chain { self with stage := stage } :=
  ⟨h.node, h.skipped, h.tree, h.tells, h.seen, h.passed, hread, fun hr => h.took (htook hr), hstage⟩

/-- The worker ends. -/
lemma ProverInv.down (h : ProverInv chain self) : ProverInv chain { self with stage := .down } :=
  h.toStage (Nat.zero_le _) False.elim trivial

/-- The last seen block is recorded. -/
lemma ProverInv.record (h : ProverInv chain self) {lastSeen : LastSeenBlock}
    (htells : Tells chain self.node.blockStore self.notesTree lastSeen)
    (hseen : lastSeen.height ≤ self.nodeHeight)
    (hpassed : ∀ k, 0 < k → k ≤ lastSeen.height → chain.NeedsProof self.contractHeight k →
      self.HasProof k)
    (hread : stage.read ≤ self.contractHeight) (htook : stage.Running → self.stage.Running)
    (hstage : StageInv chain { self with db := self.db.setLastSeenBlock lastSeen } stage) :
    ProverInv chain { self with db := self.db.setLastSeenBlock lastSeen, stage := stage } :=
  ⟨h.node, h.skipped, h.tree, htells, hseen, hpassed, hread, fun hr => h.took (htook hr), hstage⟩

/-- Elements are inserted in the tree. -/
lemma ProverInv.insert (h : ProverInv chain self) {notesTree : PersistentMerkleTree} {k : ℕ}
    (hk : k ≤ self.nodeHeight) (hat : chain.At k notesTree)
    (hsub : ∀ e ∈ self.notesTree.tree.entries.keys, e ∈ notesTree.tree.entries.keys)
    (hread : stage.read ≤ self.contractHeight)
    (htook : stage.Running → ∀ e : Element, self.node.notesTree.tree.entries[e]? = some 0 →
      e ∈ notesTree.tree.entries.keys)
    (hstage : StageInv chain { self with notesTree := notesTree } stage) :
    ProverInv chain { self with notesTree := notesTree, stage := stage } :=
  ⟨h.node, h.skipped, ⟨k, hk, hat⟩, h.tells.insert hsub, h.seen, h.passed, hread, htook, hstage⟩

/-- **The start-up takes elements over.** -/
lemma ProverInv.takeOver (h : ProverInv chain self) {contractHeight : BlockHeight}
    (hstage : self.stage = .waiting contractHeight)
    (hresumes : Resumes chain contractHeight self) :
    ProverInv chain (Node.takeOver P contractHeight self) := by
  obtain ⟨k, hk, hat⟩ := h.tree
  obtain ⟨notesTree, heq, hinv, hkeys⟩ := @takeOver_spec P chain self contractHeight k h.node hk hat
  have hread : contractHeight ≤ self.contractHeight := (h.at_stage hstage).1
  have htook : ∀ e : Element, self.node.notesTree.tree.entries[e]? = some 0 →
      e ∈ notesTree.tree.entries.keys := by
    intro e hzero
    rw [hkeys]
    by_cases hold : e ∈ self.notesTree.tree.entries.keys
    · exact .inl hold
    · exact .inr (List.mem_map.2 ⟨(e, 0), mem_elementsRolledUpNotInProver.2
        ⟨hzero, Nat.zero_le _, hold⟩, rfl⟩)
  have hsub : ∀ e ∈ self.notesTree.tree.entries.keys, e ∈ notesTree.tree.entries.keys :=
    fun e he => (hkeys e).2 (.inl he)
  rw [heq]
  cases hhighest : highestBlockHeight
    (elementsRolledUpNotInProver contractHeight self.node.notesTree self.notesTree) with
  | none =>
    -- nothing was taken over
    have hat' : chain.At k notesTree := by
      refine ⟨hinv, fun e => ?_⟩
      rw [hkeys, highestBlockHeight_eq_none hhighest, List.map_nil, hat.keys]
      exact ⟨fun he => he.resolve_right List.not_mem_nil, .inl⟩
    exact h.insert hk hat' hsub hread (fun _ => htook) fun _ hnone => by cases hnone
  | some highest =>
    obtain ⟨hle, hnode, hplaced, j, hj, hat'⟩ :=
      takeOver_placed h.node hk hat hresumes hinv hkeys hhighest
    refine h.insert hj hat' hsub hread (fun _ => htook) fun height heq => ?_
    obtain rfl := Option.some.inj heq
    exact ⟨hle, hnode, hplaced⟩

/-- A tree of the chain that is placed at a height may be recorded with it. -/
lemma tells_of_placed (hbinds : chain.RootsBind) {store : BlockStore}
    {notesTree : PersistentMerkleTree} {k p : ℕ} (hk : k ≤ chain.tip)
    (hat : chain.At k notesTree) (hplaced : Placed chain store notesTree p) :
    Tells chain store notesTree ⟨p, notesTree.tree.rootHash P.poseidon⟩ := by
  intro j hj _ hroot
  have hroot : chain.root j = chain.root k := hroot.trans (hat.rootHash_eq hk)
  exact ⟨fun e he => (hat.keys e).2 (hbinds j hj k hk hroot e he), hplaced⟩

/-- A tree with the elements up to a block may be recorded with its height and root. -/
lemma tells_of_block (hbinds : chain.RootsBind) (hclaims : chain.ClaimsBind)
    {store : BlockStore} {notesTree : PersistentMerkleTree} {k : ℕ} (hpos : 0 < k)
    (hk : k ≤ chain.tip) (hplaced : Placed chain store notesTree k) :
    Tells chain store notesTree ⟨k, (chain.block k).rootHash⟩ := fun _ hj _ hroot =>
  ⟨fun e he => hplaced.upTo e
    (Chain.mem_elements_of_rootHash_eq hbinds hclaims hpos hk hj hroot he), hplaced⟩

/-- **The highest height is recorded.** -/
lemma ProverInv.recordHighest (hbinds : chain.RootsBind) (h : ProverInv chain self)
    {contractHeight : BlockHeight} {highest : Option BlockHeight}
    (hstage : self.stage = .tookOver contractHeight highest) (postgres : Bool)
    (world : WorkerWorld) : ProverInv chain (work P postgres world self) := by
  obtain ⟨hread, hinv⟩ := h.at_stage hstage
  rw [work, hstage]
  cases highest with
  | none => exact h.toStage hread (fun _ => by rw [hstage]; trivial) trivial
  | some height =>
    obtain ⟨hle, hnode, hplaced⟩ := hinv height rfl
    obtain ⟨k, hk, hat⟩ := h.tree
    refine h.record (tells_of_placed hbinds (hk.trans h.node.le_tip) hat hplaced) hnode ?_ hread
      (fun _ => by rw [hstage]; trivial) trivial
    -- these blocks are rolled up
    intro k _ hk hneeds
    have := hneeds.above
    exact absurd (lt_of_lt_of_le this (hk.trans (hle.trans hread))) (lt_irrefl _)

/-- **The roots are compared**: if they agree, the recorded height is one to go on from. -/
lemma ProverInv.compare (hbinds : chain.RootsBind) (h : ProverInv chain self)
    {contractHeight : BlockHeight} (hstage : self.stage = .comparing contractHeight)
    (postgres : Bool) (world : WorkerWorld) : ProverInv chain (work P postgres world self) := by
  obtain ⟨hread, -⟩ := h.at_stage hstage
  rw [work, hstage]
  dsimp only
  split_ifs with hroot
  · refine h.record (tells_origin hbinds) (Nat.zero_le _) ?_ (Nat.zero_le _) False.elim rfl
    intro k hpos hk
    exact absurd hk (not_le.2 hpos)
  · obtain ⟨k, hk, hat⟩ := h.tree
    rw [not_not] at hroot
    have hsame : chain.root k = (self.db.lastSeen P).rootHash :=
      (hat.rootHash_eq (hk.trans h.node.le_tip)).symm.trans hroot.symm
    obtain ⟨-, hplaced⟩ := h.tells k (hk.trans h.node.le_tip) (fun e => (hat.keys e).1) hsame
    exact h.toStage hread (fun _ => by rw [hstage]; trivial) ⟨rfl, hplaced⟩

/-- **The tree is deleted.** -/
lemma ProverInv.delete (hbinds : chain.RootsBind) (h : ProverInv chain self)
    (hstage : self.stage = .deleting) (postgres : Bool) (world : WorkerWorld) :
    ProverInv chain (work P postgres world self) := by
  have horigin : self.db.lastSeen P = .origin P := (h.at_stage hstage).2
  rw [work, hstage]
  refine ⟨h.node, h.skipped, ⟨0, Nat.zero_le _, Smirk.Persistent.inv_new MERKLE_TREE_DEPTH_pos, ?_⟩,
    ?_, h.seen, h.passed, Nat.zero_le _, False.elim, trivial⟩
  · intro e
    rw [Chain.elements_zero]
    rfl
  · rw [horigin]
    exact tells_origin hbinds

/-- **The next block is taken from the stream.** -/
lemma ProverInv.next (h : ProverInv chain self) {contractHeight seen : BlockHeight}
    (hstage : self.stage = .looping contractHeight seen) (postgres : Bool) (world : WorkerWorld) :
    ProverInv chain (work P postgres world self) := by
  obtain ⟨hread, (hseen : seen = (self.db.lastSeen P).height), hplaced⟩ := h.at_stage hstage
  rw [work, hstage]
  dsimp only
  cases hnext : self.nextCommit seen with
  | none => exact h
  | some block =>
    obtain ⟨habove, hstored, hlowest⟩ := mem_nextCommit h.node.wf hnext
    have hle := (h.node.stored _ _ (lt_of_le_of_lt (Nat.zero_le _) habove) hstored).1
    refine h.toStage hread (fun _ => by rw [hstage]; trivial) ?_
    rw [StageInv, ← hseen]
    refine ⟨hplaced, habove, hstored, fun k hk hlt => hlowest k hk hlt ?_⟩
    exact lt_of_lt_of_le hlt (hle.trans (h.node.le_tip.trans chain.tip_lt.le))

variable {contractHeight : BlockHeight} {block : Block}

section Block

variable (h : ProverInv chain self) (hrunning : self.stage.Running)
  (hplaced : Placed chain self.node.blockStore self.notesTree (self.db.lastSeen P).height)
  (hyielded : Yielded self.node.blockStore (self.db.lastSeen P).height block)

include h hrunning hplaced hyielded

/-- The tree has all the elements before the block: those of the blocks that were left out of the
store were taken over. -/
lemma ProverInv.upTo_pred : ∀ e ∈ chain.elements (block.height - 1),
    e ∈ self.notesTree.tree.entries.keys := by
  intro e he
  have hle : block.height - 1 ≤ self.nodeHeight := (Nat.sub_le _ _).trans (h.yielded hyielded).1
  rcases h.node.recorded_of_mem hle he with hzero | ⟨k, -, hk, hin, other, hother, -⟩
  · exact h.took hrunning e hzero
  · by_cases hseen : k ≤ (self.db.lastSeen P).height
    · exact hplaced.upTo e (Chain.elements_mono hseen (h.seen.trans h.node.le_tip) hin)
    · -- a block between would have been yielded
      have hlt : k < block.height := by
        have habove : 0 < block.height := lt_of_le_of_lt (Nat.zero_le _) hyielded.above
        exact lt_of_le_of_lt hk (Nat.sub_lt habove Nat.one_pos)
      rw [hyielded.lowest k (not_le.1 hseen) hlt] at hother
      cases hother

/-- **The tree before a block that is not empty** is that of the chain. -/
lemma ProverInv.at_pred (htxns : block.content.state.txns ≠ []) :
    chain.At (block.height - 1) self.notesTree := by
  obtain ⟨k, -, hat⟩ := h.tree
  refine ⟨hat.inv, fun e => ⟨?_, h.upTo_pred hrunning hplaced hyielded e⟩⟩
  exact hplaced.before block.height hyielded.above ⟨block, hyielded.stored, htxns⟩ e

omit hrunning hplaced in
/-- Blocks that need a proof and that the loop has passed have one. -/
lemma ProverInv.passed_pred (k : ℕ) (hpos : 0 < k) (hlt : k < block.height)
    (hneeds : chain.NeedsProof self.contractHeight k) : self.HasProof k := by
  by_cases hseen : k ≤ (self.db.lastSeen P).height
  · exact h.passed k hpos hseen hneeds
  · have hle : k ≤ self.nodeHeight := hlt.le.trans (h.yielded hyielded).1
    exact h.skipped k hpos hle (hyielded.lowest k (not_le.1 hseen) hlt) hneeds

/-- **A block is applied to the tree.** -/
lemma ProverInv.apply (htxns : block.content.state.txns ≠ [])
    (hproof : chain.NeedsProof self.contractHeight block.height → self.HasProof block.height)
    (hread : contractHeight ≤ self.contractHeight) (proved : Bool) :
    ProverInv chain (applyBlock P block (.applied contractHeight block proved) self) := by
  have hpos : 0 < block.height := lt_of_le_of_lt (Nat.zero_le _) hyielded.above
  obtain ⟨hle, hblock⟩ := h.yielded hyielded
  have htip : block.height ≤ chain.tip := hle.trans h.node.le_tip
  have hsucc : block.height - 1 + 1 = block.height := Nat.sub_add_cancel hpos
  obtain ⟨notesTree, hrun, hat⟩ := (h.at_pred hrunning hplaced hyielded htxns).apply
    (show block.height - 1 < chain.tip from lt_of_lt_of_le (Nat.sub_lt hpos Nat.one_pos) htip)
  rw [hsucc, ← hblock] at hrun
  rw [hsucc] at hat
  have hsub : ∀ e ∈ self.notesTree.tree.entries.keys, e ∈ notesTree.tree.entries.keys := by
    intro e he
    have hpred := ((h.at_pred hrunning hplaced hyielded htxns).keys e).1 he
    exact (hat.keys e).2 (Chain.elements_mono (Nat.sub_le _ _) htip hpred)
  rw [applyBlock, h.node.badBlocks, hrun]
  exact h.insert hle hat hsub hread (fun _ e he => hsub e (h.took hrunning e he))
    ⟨hyielded, hat, hproof⟩

end Block

/-- A proof is stored. -/
lemma ProverInv.storeProof (h : ProverInv chain self) (hrunning : self.stage.Running)
    (hplaced : Placed chain self.node.blockStore self.notesTree (self.db.lastSeen P).height)
    (hyielded : Yielded self.node.blockStore (self.db.lastSeen P).height block)
    (htxns : block.content.state.txns ≠ []) (hread : contractHeight ≤ self.contractHeight)
    (rollup : RollupInput) :
    ProverInv chain { self with
      db := self.db.setRollup block.height rollup
      stage := .proved contractHeight block } := by
  have hproofs : ∀ {k : ℕ}, self.HasProof k → ({ self with
      db := self.db.setRollup block.height rollup
      stage := .proved contractHeight block } : ProverSystem).HasProof k := by
    rintro k (hown | hother)
    · exact .inl (Std.TreeMap.mem_insert.2 (.inr hown))
    · exact .inr hother
  exact ⟨h.node, fun k hk hle hnone hneeds => hproofs (h.skipped k hk hle hnone hneeds), h.tree,
    h.tells, h.seen, fun k hk hle hneeds => hproofs (h.passed k hk hle hneeds), hread,
    fun _ => h.took hrunning, hplaced, hyielded, htxns, .inl Std.TreeMap.mem_insert_self⟩

/-- **The body of the loop.** -/
lemma ProverInv.process (hbinds : chain.RootsBind) (hclaims : chain.ClaimsBind)
    (h : ProverInv chain self) (hstage : self.stage = .processing contractHeight block)
    {postgres : Bool} {world : WorkerWorld}
    (hlock : postgres = true → chain.NeedsProof self.contractHeight block.height →
      ¬ self.HasProof block.height → world.lockHeld = false) :
    ProverInv chain (Node.process P postgres world contractHeight block self) := by
  obtain ⟨hread, hplaced, hyielded⟩ := h.at_stage hstage
  have hrunning : self.stage.Running := by
    rw [hstage]
    trivial
  have hpos : 0 < block.height := lt_of_le_of_lt (Nat.zero_le _) hyielded.above
  obtain ⟨hle, hblock⟩ := h.yielded hyielded
  have htip : block.height ≤ chain.tip := hle.trans h.node.le_tip
  rw [Node.process]
  split_ifs with hempty hskip
  · -- an empty block is recorded
    have hnil : (chain.block block.height).content.state.txns = [] := by
      rw [← hblock]
      exact List.isEmpty_iff.1 hempty
    have hplaced' : Placed chain self.node.blockStore self.notesTree block.height := by
      refine ⟨fun e he => ?_, fun k hk => hplaced.before k (hyielded.above.trans hk)⟩
      exact h.upTo_pred hrunning hplaced hyielded e (Chain.mem_elements_pred htip hnil he)
    have htells := tells_of_block hbinds hclaims hpos htip hplaced'
    rw [← hblock] at htells
    refine h.record htells hle (fun k hk hkle hneeds => ?_) hread (fun _ => hrunning)
      ⟨rfl, hplaced'⟩
    rcases hkle.lt_or_eq with hlt | heq
    · exact h.passed_pred hyielded k hk hlt hneeds
    · have := hneeds.txns
      rw [heq] at this
      exact absurd hnil this
  · -- a block that is not proved here
    have htxns : block.content.state.txns ≠ [] := fun hnil => hempty (by rw [hnil]; rfl)
    refine h.apply hrunning hplaced hyielded htxns (fun hneeds => ?_) hread false
    simp only [Bool.or_eq_true, decide_eq_true_eq] at hskip
    rcases hskip with (hrolledUp | hbad) | hother
    · exact absurd (hrolledUp.trans hread) (not_le.2 hneeds.above)
    · rw [h.node.badBlocks, hneeds.good] at hbad
      cases hbad
    · by_contra hnone
      have hrow : self.rollupProofs.contains block.height = false := by
        rw [← Bool.not_eq_true, List.contains_iff_mem]
        exact fun hrow => hnone (.inr hrow)
      rw [weAreTheProver, hrow] at hother
      cases hpostgres : postgres with
      | false =>
        rw [hpostgres] at hother
        cases hother
      | true =>
        rw [hpostgres, hlock hpostgres hneeds hnone] at hother
        cases hother
  · have htxns : block.content.state.txns ≠ [] := fun hnil => hempty (by rw [hnil]; rfl)
    split
    · exact h
    · exact h.down
    · split_ifs
      · exact h.down
      · exact h.storeProof hrunning hplaced hyielded htxns hread _

/-- **A block that was applied is recorded.** -/
lemma ProverInv.recordBlock (hbinds : chain.RootsBind) (hclaims : chain.ClaimsBind)
    (h : ProverInv chain self) {proved : Bool}
    (hstage : self.stage = .applied contractHeight block proved) (postgres : Bool)
    (world : WorkerWorld) : ProverInv chain (work P postgres world self) := by
  obtain ⟨hread, hyielded, hat, hproof⟩ := h.at_stage hstage
  have hrunning : self.stage.Running := by
    rw [hstage]
    trivial
  have hpos : 0 < block.height := lt_of_le_of_lt (Nat.zero_le _) hyielded.above
  obtain ⟨hle, hblock⟩ := h.yielded hyielded
  have htip : block.height ≤ chain.tip := hle.trans h.node.le_tip
  have hplaced : Placed chain self.node.blockStore self.notesTree block.height := by
    refine hat.placed fun j hj hfilled => ?_
    obtain ⟨other, hother, -⟩ := hfilled
    exact (h.node.stored j other (hpos.trans hj) hother).1.trans h.node.le_tip
  have htells := tells_of_block hbinds hclaims hpos htip hplaced
  rw [← hblock] at htells
  have hpassed : ∀ k, 0 < k → k ≤ block.height → chain.NeedsProof self.contractHeight k →
      self.HasProof k := by
    intro k hk hkle hneeds
    rcases hkle.lt_or_eq with hlt | rfl
    · exact h.passed_pred hyielded k hk hlt hneeds
    · exact hproof hneeds
  rw [work, hstage]
  cases proved with
  | true => exact h.record htells hle hpassed hread (fun _ => hrunning) ⟨rfl, hplaced⟩
  | false => exact h.record htells hle hpassed hread (fun _ => hrunning) ⟨rfl, hplaced⟩

/-- More proofs in the shared table. -/
lemma ProverInv.insertProof (h : ProverInv chain self) {rollupProofs : List ℕ}
    (hproofs : ∀ k ∈ self.rollupProofs, k ∈ rollupProofs) :
    ProverInv chain { self with rollupProofs := rollupProofs } :=
  h.moveOn ⟨rfl, rfl, le_refl _, .refl _, le_refl _, hproofs⟩ rfl h.node
    (fun _ hlt hle => absurd hle (not_le.2 hlt)) fun _ _ he => he

/-- **The proof is shared**, and the loop goes on if the root is right. -/
lemma ProverInv.share (h : ProverInv chain self)
    (hstage : self.stage = .recorded contractHeight block) (postgres : Bool)
    (world : WorkerWorld) : ProverInv chain (work P postgres world self) := by
  obtain ⟨hread, hinv⟩ := h.at_stage hstage
  have hrunning : self.stage.Running := by
    rw [hstage]
    trivial
  have hshared : ∀ k ∈ self.rollupProofs,
      k ∈ if postgres = true then block.height :: self.rollupProofs else self.rollupProofs := by
    intro k hk
    split_ifs
    · exact List.mem_cons_of_mem _ hk
    · exact hk
  have h' := h.insertProof hshared
  rw [work, hstage]
  dsimp only
  by_cases hinserts : (postgres && !world.inserts) = true
  · rw [if_pos hinserts]
    exact h.down
  · rw [if_neg hinserts]
    by_cases hroot : block.rootHash ≠ self.notesTree.tree.rootHash P.poseidon
    · rw [if_pos hroot]
      exact h'.down
    · rw [if_neg hroot]
      exact h'.toStage hread (fun _ => hrunning) hinv

/-- **Every step of the worker keeps the invariant.** -/
lemma ProverInv.work (hbinds : chain.RootsBind) (hclaims : chain.ClaimsBind) {postgres : Bool}
    {world : WorkerWorld} (h : ProverInv chain self)
    (hunhurt : Unhurt chain postgres self (.work world)) :
    ProverInv chain (Node.work P postgres world self) := by
  cases hstage : self.stage with
  | down =>
    rw [Node.work, hstage]
    exact h.toStage (le_refl _) False.elim trivial
  | waiting contractHeight =>
    rw [Unhurt, hstage] at hunhurt
    rw [Node.work, hstage]
    dsimp only
    cases hsync : world.isOutOfSync with
    | true => exact h
    | false => exact h.takeOver hstage (hunhurt hsync)
  | tookOver contractHeight highest => exact h.recordHighest hbinds hstage postgres world
  | comparing contractHeight => exact h.compare hbinds hstage postgres world
  | deleting => exact h.delete hbinds hstage postgres world
  | looping contractHeight seen => exact h.next hstage postgres world
  | processing contractHeight block =>
    rw [Unhurt, hstage] at hunhurt
    rw [Node.work, hstage]
    exact h.process hbinds hclaims hstage hunhurt
  | proved contractHeight block =>
    obtain ⟨hread, hplaced, hyielded, htxns, hproof⟩ := h.at_stage hstage
    rw [Node.work, hstage]
    exact h.apply (by rw [hstage]; trivial) hplaced hyielded htxns (fun _ => hproof) hread true
  | applied contractHeight block proved =>
    exact h.recordBlock hbinds hclaims hstage postgres world
  | recorded contractHeight block => exact h.share hstage postgres world
  | panicked =>
    exact (h.at_stage hstage).2.elim

end Steps

/-! ## Runs -/

section Runs

variable {P : Primitives} {chain : Chain P} {self : ProverSystem} {postgres : Bool}

/-- A commit that succeeds. -/
lemma proverStep_commit {world : World} {node : NodeShared}
    (hheight : self.nodeHeight < chain.tip)
    (hrun : commitProposal P world (chain.block (self.nodeHeight + 1)) self.node =
      (.ok (), node)) :
    proverStep chain postgres self (.commit world) =
      { self with node := node, nodeHeight := self.nodeHeight + 1 } := by
  rw [proverStep, if_pos hheight, hrun]

/-- A chunk that is accepted. -/
lemma proverStep_fastSync {world : World} {height : ℕ} {elements : List Element}
    {node : NodeShared} (hheight : self.nodeHeight < height) (htip : height ≤ chain.tip)
    (haccepts : Accepts P world self.node (chain.block height) elements node) :
    proverStep chain postgres self (.fastSync world height elements) =
      { self with node := node, nodeHeight := height - 1 } := by
  obtain ⟨⟨batch, hcheck⟩, hrun⟩ := haccepts
  rw [proverStep, if_pos ⟨hheight, htip⟩, hcheck, hrun]

/-- The loop takes the next block. -/
lemma proverStep_next {world : WorkerWorld} {contractHeight seen : BlockHeight} {block : Block}
    (hstage : self.stage = .looping contractHeight seen)
    (hnext : self.nextCommit seen = some block) :
    proverStep chain postgres self (.work world) =
      { self with stage := .processing contractHeight block } := by
  rw [proverStep, work, hstage]
  dsimp only
  rw [hnext]

/-- The node commits its next block. -/
lemma ProverInv.commit (h : ProverInv chain self) (world : World) :
    ProverInv chain (proverStep chain postgres self (.commit world)) := by
  rw [proverStep]
  split_ifs with htip
  · rcases hrun : commitProposal P world (chain.block (self.nodeHeight + 1)) self.node with
      ⟨⟨⟩ | e | _, node⟩
    · obtain ⟨hnode, hget, hzero⟩ := h.node.commit htip hrun
      refine h.moveOn ⟨rfl, rfl, Nat.le_succ _, ⟨fun k block hold => ?_, fun k block hnew => ?_⟩,
        le_refl _, fun _ hk => hk⟩ rfl hnode ?_ fun _ => hzero
      · show node.blockStore.get k = some block
        rw [hget]
        split_ifs with heq
        · have := (h.node.stored k block (by omega) hold).1
          omega
        · exact hold
      · rw [show ({ self with node := node, nodeHeight := self.nodeHeight + 1 } :
          ProverSystem).node.blockStore = node.blockStore from rfl, hget] at hnew
        split_ifs at hnew with heq
        · exact .inr ⟨by omega, by omega⟩
        · exact .inl hnew
      · -- the block is stored
        intro k hlt hle hnone
        have heq : self.nodeHeight + 1 = k := le_antisymm hlt hle
        have hsome := hget k
        rw [if_pos heq] at hsome
        exact absurd (hsome.symm.trans hnone) (Option.some_ne_none _)
    · exact h
    · exact h
  · exact h

/-- The node takes a chunk over. -/
lemma ProverInv.fastSync (h : ProverInv chain self) {world : World} {height : ℕ}
    {elements : List Element} (hexact : ∀ e, e ∈ elements ↔ e ∈ chain.elements height)
    (hunhurt : Unhurt chain postgres self (.fastSync world height elements)) :
    ProverInv chain (proverStep chain postgres self (.fastSync world height elements)) := by
  obtain ⟨hgood, hnothing, hproofs⟩ := hunhurt
  rw [proverStep]
  split_ifs with hheight
  · obtain ⟨hlt, htip⟩ := hheight
    split
    · next batch node hcheck hrun =>
      obtain ⟨hnode, hstore, hzero⟩ :=
        h.node.fastSync hlt htip hexact hgood ⟨⟨batch, hcheck⟩, hrun⟩
      refine h.moveOn ⟨rfl, rfl, Nat.le_sub_one_of_lt hlt, ?_, le_refl _, fun _ hk => hk⟩ rfl hnode
        (fun k hk hle _ => hproofs k hk (by have : k ≤ height - 1 := hle; omega))
        fun hrunning e he => ?_
      · show Grows chain self.nodeHeight self.node.blockStore node.blockStore
        rw [hstore]
        exact .refl _
      · rcases hzero e he with hold | hnew
        · exact hold
        · rw [hnothing hrunning] at hnew
          exact absurd hnew List.not_mem_nil
    · exact h
  · exact h

/-- **Every step that meets the condition keeps the invariant.** -/
theorem ProverInv.step (hbinds : chain.RootsBind) (hclaims : chain.ClaimsBind)
    {event : ProverEvent} (hhonest : event.Honest chain) (h : ProverInv chain self)
    (hunhurt : Unhurt chain postgres self event) :
    ProverInv chain (proverStep chain postgres self event) := by
  cases event with
  | commit world => exact h.commit world
  | fastSync world height elements => exact h.fastSync hhonest hunhurt
  | rollUp height =>
    exact h.moveOn ⟨rfl, rfl, le_refl _, .refl _, le_max_left _ _, fun _ hk => hk⟩ rfl h.node
      (fun _ hlt hle => absurd hle (not_le.2 hlt)) fun _ _ he => he
  | insertProof height => exact h.insertProof fun _ => List.mem_cons_of_mem _
  | crash => exact h.down
  | work world => exact h.work hbinds hclaims hunhurt

/-- **In the states of the invariant the worker proceeds as it should.** -/
lemma ProverInv.proceeds (h : ProverInv chain self) : Proceeds chain self := by
  have hstage := h.stage
  refine ⟨fun contractHeight block heq htxns => ?_, fun heq => ?_, fun k hpos hk hneeds => ?_⟩
  · rw [heq] at hstage
    have hat := h.at_pred (by rw [heq]; trivial) hstage.1 hstage.2 htxns
    refine hat.rootHash_eq ?_
    exact (Nat.sub_le _ _).trans ((h.yielded hstage.2).1.trans h.node.le_tip)
  · rw [heq] at hstage
    exact hstage
  · -- what is passed is at most the last seen block, or was left out of the store
    have hpred : ∀ {block : Block},
        Yielded self.node.blockStore (self.db.lastSeen P).height block → k ≤ block.height - 1 →
        self.HasProof k := by
      intro block hyielded hle
      refine h.passed_pred hyielded k hpos (lt_of_le_of_lt hle ?_) hneeds
      exact Nat.sub_lt (lt_of_le_of_lt (Nat.zero_le _) hyielded.above) Nat.one_pos
    cases heq : self.stage with
    | looping contractHeight seen =>
      rw [heq] at hstage hk
      exact h.passed k hpos (hk.trans hstage.1.le) hneeds
    | processing contractHeight block =>
      rw [heq] at hstage hk
      exact hpred hstage.2 hk
    | proved contractHeight block =>
      rw [heq] at hstage hk
      exact hpred hstage.2.1 hk
    | applied contractHeight block proved =>
      rw [heq] at hstage hk
      exact hpred hstage.1 hk
    | recorded contractHeight block =>
      rw [heq] at hstage hk
      exact h.passed k hpos (hk.trans hstage.1.le) hneeds
    | _ =>
      rw [heq] at hk
      exact absurd hk (not_le.2 hpos)

/-- **A run starts** with a node that has no elements, and a worker that has seen no block. -/
structure ProverStarts (chain : Chain P) (system : ProverSystem) : Prop where
  nodeTree : system.node.notesTree = .new
  nodeStore : ∀ (k : ℕ) (block : Block), system.node.blockStore.get k = some block → k = 0
  nodeWf : system.node.blockStore.Wf
  badBlocks : system.node.config.badBlocks = chain.badBlocks
  nodeHeight : system.nodeHeight = 0
  notesTree : system.notesTree = .new
  lastSeenBlock : system.db.lastSeenBlock = none
  stage : system.stage = .down

/-- The invariant holds at the start. -/
lemma ProverStarts.inv (hbinds : chain.RootsBind) (h : ProverStarts chain self) :
    ProverInv chain self := by
  have hnode := @Follows.start P chain _ h.nodeTree h.nodeStore h.nodeWf h.badBlocks
  have horigin : self.db.lastSeen P = .origin P := by
    rw [ProverDb.lastSeen, h.lastSeenBlock]
    rfl
  rw [← h.nodeHeight] at hnode
  refine ⟨hnode, ?_, ⟨0, Nat.zero_le _, ?_⟩, ?_, ?_, ?_, ?_, ?_, ?_⟩
  · intro k hpos hle
    rw [h.nodeHeight] at hle
    exact absurd hle (not_le.2 hpos)
  · rw [h.notesTree]
    refine ⟨Smirk.Persistent.inv_new MERKLE_TREE_DEPTH_pos, fun e => ?_⟩
    rw [Chain.elements_zero]
    rfl
  · rw [horigin]
    exact tells_origin hbinds
  · rw [horigin]
    exact Nat.zero_le _
  · intro k hpos hle
    rw [horigin] at hle
    exact absurd hle (not_le.2 hpos)
  · rw [h.stage]
    exact Nat.zero_le _
  · rw [h.stage]
    exact False.elim
  · rw [h.stage]
    trivial

/-- **The worker over whole runs.** Whatever the order of commits, fast syncs, roll-ups, crashes and
restarts: if the roots tell the trees of the chain apart, and every step of the run meets the
condition, then in every state of the run the worker proceeds as it should.

**Proof sketch.** The invariant `ProverInv` holds in every state, as each step that meets the
condition keeps it (`ProverInv.step`), and with it the worker proceeds (`ProverInv.proceeds`). -/
theorem proceeds_along (hbinds : chain.RootsBind) (hclaims : chain.ClaimsBind)
    (hstarts : ProverStarts chain self) {events : List ProverEvent}
    (hhonest : ∀ event ∈ events, event.Honest chain)
    (hunhurt : Runs.Along (proverStep chain postgres) (Unhurt chain postgres) self events) :
    ∀ system ∈ Runs.states (proverStep chain postgres) self events, Proceeds chain system := by
  intro system hsystem
  refine ProverInv.proceeds (Runs.forall_states ?_ (hstarts.inv hbinds) hhonest hunhurt system
    hsystem)
  intro system event hhonest hinv hunhurt
  exact hinv.step hbinds hclaims hhonest hunhurt

/-! ### Runs without fast sync -/

/-- Neither a fast sync, nor another prover that has the lock of a block. -/
def ProverEvent.Alone : ProverEvent → Prop
  | .fastSync _ _ _ => False
  | .work world => world.lockHeld = false
  | _ => True

/-- The worker does not touch the node. -/
lemma node_work (world : WorkerWorld) (self : ProverSystem) :
    (work P postgres world self).node = self.node := by
  have htakeOver : ∀ c, (takeOver P c self).node = self.node := by
    intro c
    rw [takeOver]
    split
    · split <;> rfl
    · rfl
  have happly : ∀ block next, (applyBlock P block next self).node = self.node := by
    intro block next
    rw [applyBlock]
    split <;> rfl
  have hprocess : ∀ c block, (process P postgres world c block self).node = self.node := by
    intro c block
    rw [process]
    split_ifs
    · rfl
    · exact happly _ _
    · split
      · rfl
      · rfl
      · split_ifs <;> rfl
  rw [work]
  split
  · rfl
  · split_ifs
    · rfl
    · exact htakeOver _
  · rfl
  · rfl
  · split_ifs <;> rfl
  · rfl
  · split <;> rfl
  · exact hprocess _ _
  · exact happly _ _
  · rfl
  · dsimp only
    split_ifs <;> rfl
  · rfl

/-- **Where nothing was taken over the start-up resumes where it should**: every recorded height is
that of the block that inserted the element. -/
lemma ProverInv.resumes (h : ProverInv chain self)
    (hzero : ∀ e : Element, self.node.notesTree.tree.entries[e]? ≠ some 0)
    (contractHeight : BlockHeight) : Resumes chain contractHeight self := by
  rintro ⟨first, height, hfirst⟩ k hfilled hbelow
  obtain ⟨block, hblock, -⟩ := hfilled
  have hpos : 0 < k := lt_of_le_of_lt (Nat.zero_le _) (hbelow first height hfirst)
  have htip : k - 1 ≤ chain.tip :=
    (Nat.sub_le _ _).trans ((h.node.stored k block hpos hblock).1.trans h.node.le_tip)
  -- a missing element was inserted by the block at its height
  have hinserted : ∀ {e : Element} {j : ℕ}, self.Missing contractHeight e j →
      e ∈ chain.elements j := by
    intro e j hmissing
    have hj : 0 < j := Nat.pos_of_ne_zero fun hnil => hzero e (hnil ▸ hmissing.1)
    obtain ⟨hle, -, hleaf, -⟩ := h.node.recorded e j hmissing.1 hj
    exact (Chain.mem_elements_iff hj (hle.trans h.node.le_tip) e).2 (.inr hleaf)
  refine ⟨fun e hold => ?_, fun e j hmissing => ?_⟩
  · -- the tree is that of a block below, since it does not have the first of the missing elements
    obtain ⟨j, hj, hat⟩ := h.tree
    have hlt : j < height := by
      by_contra hle
      refine hfirst.2.2 ((hat.keys first).2 ?_)
      exact Chain.elements_mono (not_lt.1 hle) (hj.trans h.node.le_tip) (hinserted hfirst)
    have hle : j ≤ k - 1 := hlt.le.trans (Nat.le_sub_one_of_lt (hbelow first height hfirst))
    exact Chain.elements_mono hle htip ((hat.keys e).1 hold)
  · exact Chain.elements_mono (Nat.le_sub_one_of_lt (hbelow e j hmissing)) htip
      (hinserted hmissing)

/-- **Runs without fast sync meet the condition.**

**Proof sketch.** Without a fast sync no element has height zero, which every step keeps; so a
worker that waits can resume, and the proofs are its own to make. -/
theorem unhurt_of_alone (hbinds : chain.RootsBind) (hclaims : chain.ClaimsBind)
    (hstarts : ProverStarts chain self) {events : List ProverEvent}
    (halone : ∀ event ∈ events, event.Alone) :
    Runs.Along (proverStep chain postgres) (Unhurt chain postgres) self events := by
  have hunhurt : ∀ (system : ProverSystem) (event : ProverEvent), event.Alone →
      (ProverInv chain system ∧
        ∀ e : Element, system.node.notesTree.tree.entries[e]? ≠ some 0) →
      Unhurt chain postgres system event := by
    rintro system event halone ⟨hinv, hzero⟩
    cases event with
    | work world =>
      cases hstage : system.stage with
      | waiting contractHeight =>
        rw [Unhurt, hstage]
        exact fun _ => hinv.resumes hzero contractHeight
      | processing contractHeight block =>
        rw [Unhurt, hstage]
        exact fun _ _ _ => halone
      | _ =>
        rw [Unhurt, hstage]
        trivial
    | fastSync world height elements => exact halone.elim
    | _ => trivial
  have halong : Runs.Along (proverStep chain postgres) (fun _ _ => True) self events :=
    Runs.along_of_forall (fun _ _ => trivial) self events
  refine Runs.along_mono ?_ (fun system event halone hinv _ => hunhurt system event halone hinv)
    ⟨hstarts.inv hbinds, ?_⟩ halone halong
  · intro system event halone hinv
    have hhonest : event.Honest chain := by
      cases event with
      | fastSync world height elements => exact halone.elim
      | _ => trivial
    refine ⟨hinv.1.step hbinds hclaims hhonest (hunhurt system event halone hinv), ?_⟩
    cases event with
    | commit world =>
      rw [proverStep]
      split_ifs with htip
      · split
        · next node hrun =>
          exact fun e he => hinv.2 e ((hinv.1.node.commit htip hrun).2.2 e he)
        · exact hinv.2
      · exact hinv.2
    | fastSync world height elements => exact halone.elim
    | work world =>
      rw [proverStep, node_work]
      exact hinv.2
    | _ => exact hinv.2
  · intro e he
    rw [hstarts.nodeTree] at he
    simp [Smirk.Persistent.new, Smirk.Tree.new] at he

end Runs

/-! ### A worker that starts after a fast sync -/

section StartUp

variable {P : Primitives} {chain : Chain P} {self : ProverSystem} {postgres : Bool}

/-- The start-up of a worker that takes something over: it goes on from the highest recorded height,
whatever the tree has. -/
lemma startUp_of_highest {k : ℕ} (hnode : Follows chain self.nodeHeight self.node)
    (hk : k ≤ self.nodeHeight) (hat : chain.At k self.notesTree) (hstage : self.stage = .down)
    {highest : BlockHeight} (hhighest : highestBlockHeight (elementsRolledUpNotInProver
      self.contractHeight self.node.notesTree self.notesTree) = some highest)
    {world : WorkerWorld} (hsync : world.isOutOfSync = false) :
    ∃ notesTree, (List.replicate 4 (.work world)).foldl (proverStep chain postgres) self =
        { self with
          notesTree := notesTree
          db := self.db.setLastSeenBlock ⟨highest, notesTree.tree.rootHash P.poseidon⟩
          stage := .looping self.contractHeight highest } ∧
      notesTree.Inv P.poseidon ∧
      ∀ e, e ∈ notesTree.tree.entries.keys ↔ e ∈ self.notesTree.tree.entries.keys ∨
        e ∈ (elementsRolledUpNotInProver self.contractHeight self.node.notesTree
          self.notesTree).map Prod.fst := by
  obtain ⟨notesTree, htakeOver, hinv, hkeys⟩ :=
    @takeOver_spec P chain { self with stage := .waiting self.contractHeight } self.contractHeight k
      hnode hk hat
  refine ⟨notesTree, ?_, hinv, hkeys⟩
  have hstart : proverStep chain postgres self (.work world) =
      { self with stage := .waiting self.contractHeight } := by
    rw [proverStep, work, hstage]
  have htook : proverStep chain postgres { self with stage := .waiting self.contractHeight }
      (.work world) = takeOver P self.contractHeight
        { self with stage := .waiting self.contractHeight } := by
    rw [proverStep, work, hsync]
    rfl
  rw [show List.replicate 4 (ProverEvent.work world) =
    [.work world, .work world, .work world, .work world] from rfl]
  rw [List.foldl_cons, hstart, List.foldl_cons, htook, htakeOver, hhighest]
  simp only [List.foldl_cons, List.foldl_nil, proverStep, work, ProverDb.setLastSeenBlock,
    ProverDb.lastSeen, Option.getD_some, ne_eq, not_true_eq_false, if_false]

/-- The start-up of a worker that takes one element over. -/
lemma startUp_of_single {k : ℕ} (hnode : Follows chain self.nodeHeight self.node)
    (hk : k ≤ self.nodeHeight) (hat : chain.At k self.notesTree) (hstage : self.stage = .down)
    {element : Element} {height : BlockHeight}
    (hmissing : ∀ e k, self.Missing self.contractHeight e k ↔ e = element ∧ k = height)
    {world : WorkerWorld} (hsync : world.isOutOfSync = false) :
    ∃ notesTree db, (List.replicate 4 (.work world)).foldl (proverStep chain postgres) self =
        { self with
          notesTree := notesTree
          db := db
          stage := .looping self.contractHeight height } ∧
      notesTree.Inv P.poseidon ∧
      ∀ e, e ∈ notesTree.tree.entries.keys ↔
        e ∈ self.notesTree.tree.entries.keys ∨ e = element := by
  have hentries : ∀ e k, (e, k) ∈ elementsRolledUpNotInProver self.contractHeight
      self.node.notesTree self.notesTree ↔ e = element ∧ k = height :=
    fun e k => mem_elementsRolledUpNotInProver.trans (hmissing e k)
  have hmem := (hentries element height).2 ⟨rfl, rfl⟩
  have hhighest : highestBlockHeight (elementsRolledUpNotInProver self.contractHeight
      self.node.notesTree self.notesTree) = some height := by
    cases hhighest : highestBlockHeight (elementsRolledUpNotInProver self.contractHeight
      self.node.notesTree self.notesTree) with
    | none =>
      rw [highestBlockHeight_eq_none hhighest] at hmem
      exact absurd hmem List.not_mem_nil
    | some highest =>
      obtain ⟨⟨⟨e, k⟩, hentry, rfl⟩, -⟩ := highestBlockHeight_eq_some hhighest
      rw [((hentries e k).1 hentry).2]
  obtain ⟨notesTree, hrun, hinv, hkeys⟩ := @startUp_of_highest P chain self postgres k hnode hk hat
    hstage height hhighest world hsync
  refine ⟨notesTree, _, hrun, hinv, fun e => ?_⟩
  rw [hkeys]
  constructor
  · rintro (hold | hnew)
    · exact .inl hold
    · obtain ⟨⟨e, k⟩, hentry, rfl⟩ := List.mem_map.1 hnew
      exact .inr ((hentries e k).1 hentry).1
  · rintro (hold | rfl)
    · exact .inl hold
    · exact .inr (List.mem_map.2 ⟨_, hmem, rfl⟩)

end StartUp

namespace Overtaken

open TwoMints WentOver

/-- A prover that starts from genesis, and its worker. -/
def start : ProverSystem where
  node := prover
  nodeHeight := 0
  contractHeight := 0
  rollupProofs := []
  notesTree := .new
  db := ⟨none, ∅⟩
  stage := .down

/-- The prover of the sample starts as it must. -/
lemma starts : ProverStarts chain start where
  nodeTree := rfl
  nodeStore k block hget := by
    simp [start, prover, NodeShared.new, BlockStore.get, BlockStore.empty] at hget
  nodeWf := BlockStore.wf_empty
  badBlocks := rfl
  nodeHeight := rfl
  notesTree := rfl
  lastSeenBlock := rfl
  stage := rfl

/-- The root after the first block. -/
lemma root_one : chain.root 1 = 14 := by
  show firstTree.tree.rootHash sumHash = 14
  decide +kernel

/-- The root after the second block. -/
lemma root_two : chain.root 2 = 29 := by
  show secondTree.tree.rootHash sumHash = 29
  decide +kernel

/-- Empty subtrees have the digest zero. -/
lemma emptyTreeHash_sumHash (depth : ℕ) : emptyTreeHash sumHash depth = 0 := by
  induction depth using emptyTreeHash.induct with
  | case1 => rfl
  | case2 => rfl
  | case3 depth ih =>
    rw [emptyTreeHash, ih]
    decide +kernel

/-- The three trees of the chain have different roots. -/
lemma rootsBind : chain.RootsBind := by
  have hzero : chain.root 0 = 0 := Chain.root_zero.trans (emptyTreeHash_sumHash _)
  -- the last block is empty
  have hthree : chain.root 3 = chain.root 2 := rfl
  have helements : chain.elements 3 = chain.elements 2 := rfl
  intro i hi j hj hroot e he
  have hi : i ≤ 3 := hi
  have hj : j ≤ 3 := hj
  interval_cases i <;> interval_cases j <;>
    simp only [hzero, root_one, hthree, root_two, helements, Chain.elements_zero, List.not_mem_nil]
      at hroot he ⊢ <;>
    first
    | exact he
    | exact absurd hroot (by decide)

/-- No block of the sample is bad, so that none claims a root. -/
lemma claimsBind : chain.ClaimsBind := fun _ _ _ hbad => by cases hbad

/-- The answers to the worker: the node is in sync, and the first block is proved. -/
def answers : WorkerWorld := ⟨false, false, some ⟨0, 14⟩, true⟩

/-- Three blocks are committed. The worker crashes when it has stored the proof of the first one,
and again when it has applied the block and not recorded it. -/
def restarts : List ProverEvent :=
  List.replicate 3 (ProverEvent.commit world) ++ List.replicate 6 (ProverEvent.work answers) ++
    [ProverEvent.crash] ++ List.replicate 7 (ProverEvent.work answers) ++ [ProverEvent.crash] ++
    List.replicate 4 (ProverEvent.work answers)

/-- The sample has neither a fast sync nor another prover. -/
lemma alone_restarts : ∀ event ∈ restarts, event.Alone := by
  intro event hevent
  simp only [restarts, List.mem_append, List.mem_replicate, List.mem_singleton] at hevent
  rcases hevent with (((((⟨-, rfl⟩ | ⟨-, rfl⟩) | rfl) | ⟨-, rfl⟩) | rfl) | ⟨-, rfl⟩) <;> trivial

/-- What the sample receives is honest. -/
lemma honest_restarts : ∀ event ∈ restarts, event.Honest chain := by
  intro event hevent
  simp only [restarts, List.mem_append, List.mem_replicate, List.mem_singleton] at hevent
  rcases hevent with (((((⟨-, rfl⟩ | ⟨-, rfl⟩) | rfl) | ⟨-, rfl⟩) | rfl) | ⟨-, rfl⟩) <;> trivial

/-- The first block is committed. -/
lemma commit_first : commitProposal primitives world (chain.block 1) prover =
    (.ok (), archive 1) := by
  have hcommittable : Committable world prover (chain.block 1) :=
    ⟨rfl, Chain.takes (show 0 < chain.tip by decide)⟩
  obtain ⟨notesTree, effects, hrun, -⟩ := commitProposal_of_committable inv_new hcommittable
  have hok : (commitProposal primitives world (chain.block 1) prover).1 = .ok () := by rw [hrun]
  have harchive : (commitProposal primitives world (chain.block 1) prover).2 = archive 1 := by
    rw [archive, archive]
  exact Prod.ext hok harchive

/-- The prover starts from genesis. -/
lemma follows_prover : Follows chain 0 prover :=
  .start rfl starts.nodeStore BlockStore.wf_empty rfl

/-- The prover with the first block. -/
lemma follows_first : Follows chain 1 (archive 1) ∧
    ∀ e : Element, (archive 1).notesTree.tree.entries[e]? ≠ some 0 := by
  obtain ⟨hnode, -, hzero⟩ := follows_prover.commit (show 0 < chain.tip by decide) commit_first
  refine ⟨hnode, fun e he => ?_⟩
  have := hzero e he
  simp [prover, NodeShared.new, Smirk.Persistent.new, Smirk.Tree.new] at this

/-- The elements of the third block. -/
def chunk : List Element := chunkElements 3 (archive 3)

/-- The chunk has the elements of the chain. -/
lemma mem_chunk (e : Element) : e ∈ chunk ↔ e ∈ chain.elements 3 :=
  (delivers_three (show 1 ≤ 2 by omega)).exact e

/-- The chunk of the third block is accepted. -/
lemma accepts_chunk : Accepts primitives world (archive 1) (chain.block 3) chunk sender := by
  obtain ⟨after, haccepts, -⟩ := (delivers_three (show 1 ≤ 2 by omega)).accepted
  have hsender : sender = after := by rw [sender, haccepts.2]
  rw [hsender]
  exact haccepts

/-- The prover after the fast sync: only the second note has height zero. -/
lemma follows_sender : Follows chain 2 sender ∧
    sender.blockStore = (archive 1).blockStore ∧
    ∀ e : Element, sender.notesTree.tree.entries[e]? = some 0 ↔ e = 15 := by
  obtain ⟨hnode, hstore, hzero⟩ := follows_first.1.fastSync (show 1 < 3 by decide)
    (le_refl 3) mem_chunk rfl accepts_chunk
  refine ⟨hnode, hstore, fun e => ⟨fun he => ?_, ?_⟩⟩
  · have hin : e ∈ chain.elements 2 := (hnode.tree.keys e).1 (mem_keys_iff.2 ⟨0, he⟩)
    rcases hzero e he with hold | hnew
    · exact absurd hold (follows_first.2 e)
    · rcases (mem_elements_two e).1 hin with rfl | rfl
      · refine absurd ((follows_first.1.tree.keys 14).2 ((mem_elements_one 14).2 rfl)) ?_
        exact (mem_olderElements.1 hnew).1.2
      · rfl
  · rintro rfl
    exact (reaches_sender.1.tracks.imported 15).2 ⟨_, List.mem_cons_self, imported_second⟩

/-- The first note is recorded with the height of its block, before and after the fast sync. -/
lemma recorded_first {node : NodeShared} {h : ℕ} (hnode : Follows chain h node) (hh : 1 ≤ h)
    (hzero : node.notesTree.tree.entries[(14 : Element)]? ≠ some 0) :
    node.notesTree.tree.entries[(14 : Element)]? = some 1 := by
  have hin : (14 : Element) ∈ chain.elements 1 := (mem_elements_one 14).2 rfl
  rcases hnode.recorded_of_mem hh hin with hnone | ⟨k, hget, hk, hmem, -⟩
  · exact absurd hnone hzero
  · obtain rfl : k = 1 := by
      rcases Nat.eq_zero_or_pos k with rfl | hpos
      · exact absurd hget hzero
      · exact le_antisymm hk hpos
    exact hget

/-- The contract has the first block, and so has the prover. -/
def first : ProverSystem := { start with node := archive 1, nodeHeight := 1, contractHeight := 1 }

/-- The worker starts and takes the first note over. -/
lemma startUp_first : ∃ notesTree db,
    (List.replicate 4 (.work answers)).foldl (proverStep chain false) first =
        { first with notesTree := notesTree, db := db, stage := .looping 1 1 } ∧
      chain.At 1 notesTree := by
  obtain ⟨hfollows, hzero⟩ := follows_first
  have hat : chain.At 0 first.notesTree := ⟨inv_new, fun e => Iff.rfl⟩
  have hget := recorded_first hfollows (le_refl 1) (hzero 14)
  have hmissing : ∀ e k, first.Missing 1 e k ↔ e = 14 ∧ k = 1 := by
    intro e k
    constructor
    · rintro ⟨hrecorded, -, -⟩
      have hkey := (hfollows.tree.keys e).1 (mem_keys_iff.2 ⟨k, hrecorded⟩)
      obtain rfl := (mem_elements_one e).1 hkey
      exact ⟨rfl, Option.some.inj (hrecorded.symm.trans hget)⟩
    · rintro ⟨rfl, rfl⟩
      exact ⟨hget, le_refl _, fun hin => absurd ((hat.keys 14).1 hin) List.not_mem_nil⟩
  obtain ⟨notesTree, db, hrun, hinv, hkeys⟩ := @startUp_of_single primitives chain first false 0
    hfollows (Nat.zero_le _) hat rfl 14 1 hmissing answers rfl
  refine ⟨notesTree, db, hrun, hinv, fun e => ?_⟩
  rw [hkeys, hat.keys, Chain.elements_zero, mem_elements_one]
  exact ⟨fun h => h.resolve_left List.not_mem_nil, .inr⟩

/-- The prover has fast synced, and the worker has crashed. -/
def synced (notesTree : PersistentMerkleTree) (db : ProverDb) : ProverSystem :=
  { first with node := sender, nodeHeight := 2, notesTree := notesTree, db := db }

/-- The worker starts again and takes the second note over, with height zero. -/
lemma startUp_synced {notesTree : PersistentMerkleTree} (hat : chain.At 1 notesTree)
    (db : ProverDb) : ∃ notesTree' db',
    (List.replicate 4 (.work answers)).foldl (proverStep chain false) (synced notesTree db) =
        { synced notesTree' db' with stage := .looping 1 0 } ∧
      chain.At 2 notesTree' := by
  obtain ⟨hfollows, -, hzero⟩ := follows_sender
  have hmissing : ∀ e k, (synced notesTree db).Missing 1 e k ↔ e = 15 ∧ k = 0 := by
    intro e k
    constructor
    · rintro ⟨hrecorded, -, hne⟩
      have hkey := (hfollows.tree.keys e).1 (mem_keys_iff.2 ⟨k, hrecorded⟩)
      have hne : e ≠ 14 := fun heq => hne ((hat.keys e).2 ((mem_elements_one e).2 heq))
      obtain rfl := ((mem_elements_two e).1 hkey).resolve_left hne
      exact ⟨rfl, Option.some.inj (hrecorded.symm.trans ((hzero 15).2 rfl))⟩
    · rintro ⟨rfl, rfl⟩
      refine ⟨(hzero 15).2 rfl, Nat.zero_le _, fun hin => ?_⟩
      exact absurd ((mem_elements_one 15).1 ((hat.keys 15).1 hin)) (by decide)
  obtain ⟨notesTree', db', hrun, hinv, hkeys⟩ := @startUp_of_single primitives chain
    (synced notesTree db) false 1 hfollows (show 1 ≤ 2 by decide) hat rfl 15 0 hmissing answers rfl
  refine ⟨notesTree', db', hrun, hinv, fun e => ?_⟩
  rw [hkeys, mem_elements_two]
  exact or_congr_left ((hat.keys e).trans (mem_elements_one e))

/-- The only block that the prover has stored is the first one. -/
lemma nextCommit_sender {self : ProverSystem} (hnode : self.node = sender) :
    self.nextCommit 0 = some (chain.block 1) := by
  have hwf : self.node.blockStore.Wf := hnode ▸ follows_sender.1.wf
  have hone : self.node.blockStore.get 1 = some (chain.block 1) := hnode ▸ reaches_sender.2
  obtain ⟨block, hblock⟩ := nextCommit_isSome hwf hone Nat.zero_lt_one (by decide)
  have hget := (mem_nextCommit hwf hblock).2.1
  have hheight : (block.height : ℕ) = 1 := by
    rw [hnode, follows_sender.2.1, (commitProposal_eq_ok inv_new commit_first).2.1,
      BlockStore.get_set, chain.height_eq 0 (by decide)] at hget
    split_ifs at hget with heq
    · exact heq.symm
    · simp [prover, NodeShared.new, BlockStore.get, BlockStore.empty] at hget
  rw [hheight, hone] at hget
  rw [hblock, hget]

/-- The prover commits the first block, which is rolled up, and its worker takes the note over.
After a crash the prover fast syncs to the third block, and the worker starts again. -/
def overtakes : List ProverEvent :=
  [ProverEvent.rollUp 1, ProverEvent.commit world] ++ List.replicate 4 (ProverEvent.work answers) ++
    [ProverEvent.crash, ProverEvent.fastSync world 3 chunk] ++
    List.replicate 4 (ProverEvent.work answers) ++ [ProverEvent.work answers]

/-- The run ends with the first block, and a tree that has both notes. -/
lemma run_overtakes : ∃ notesTree db, overtakes.foldl (proverStep chain false) start =
      { synced notesTree db with stage := .processing 1 (chain.block 1) } ∧
    chain.At 2 notesTree := by
  obtain ⟨notesTree, db, hfirst, hat⟩ := startUp_first
  obtain ⟨notesTree', db', hsynced, hat'⟩ := startUp_synced hat db
  refine ⟨notesTree', db', ?_, hat'⟩
  have hrollUp : proverStep chain false start (.rollUp 1) =
      { start with contractHeight := 1 } := rfl
  have hcommit := @proverStep_commit primitives chain { start with contractHeight := 1 } false world
    (archive 1) (show 0 < 3 by decide) commit_first
  have hbegin : [ProverEvent.rollUp 1, .commit world].foldl (proverStep chain false) start =
      first := by
    rw [List.foldl_cons, hrollUp, List.foldl_cons, List.foldl_nil]
    exact hcommit
  have hcrash : proverStep chain false
      { first with notesTree := notesTree, db := db, stage := .looping 1 1 } .crash =
        { first with notesTree := notesTree, db := db } := rfl
  have hfast := @proverStep_fastSync primitives chain
    { first with notesTree := notesTree, db := db } false world 3 chunk sender
    (show 1 < 3 by decide) (le_refl 3) accepts_chunk
  have hsync : [ProverEvent.crash, .fastSync world 3 chunk].foldl (proverStep chain false)
      { first with notesTree := notesTree, db := db, stage := .looping 1 1 } =
        synced notesTree db := by
    rw [List.foldl_cons, hcrash, List.foldl_cons, List.foldl_nil]
    exact hfast
  have hprocess := @proverStep_next primitives chain
    { synced notesTree' db' with stage := .looping 1 0 } false answers 1 0 (chain.block 1) rfl
    (nextCommit_sender rfl)
  have hnext : [ProverEvent.work answers].foldl (proverStep chain false)
      { synced notesTree' db' with stage := .looping 1 0 } =
        { synced notesTree' db' with stage := .processing 1 (chain.block 1) } := by
    rw [List.foldl_cons, List.foldl_nil]
    exact hprocess
  exact Runs.foldl_append_eq (Runs.foldl_append_eq (Runs.foldl_append_eq
    (Runs.foldl_append_eq hbegin hfirst) hsync) hsynced) hnext

end Overtaken

/-- **Restarts**: the worker crashes between its writes, and starts again. -/
theorem proceeds_restarts : ProverStarts TwoMints.chain Overtaken.start ∧
    ∀ system ∈ Runs.states (proverStep TwoMints.chain false) Overtaken.start Overtaken.restarts,
      Proceeds TwoMints.chain system :=
  ⟨Overtaken.starts, proceeds_along Overtaken.rootsBind Overtaken.claimsBind Overtaken.starts
    Overtaken.honest_restarts (unhurt_of_alone Overtaken.rootsBind Overtaken.claimsBind
      Overtaken.starts Overtaken.alone_restarts)⟩

/-- **A worker that goes back**: the elements that the node took over are recorded with height zero,
so that the worker goes on from there, with a tree that has the notes of the first two blocks. -/
theorem not_proceeds_overtakes :
    TwoMints.chain.RootsBind ∧ TwoMints.chain.ClaimsBind ∧
      ProverStarts TwoMints.chain Overtaken.start ∧
      (∀ event ∈ Overtaken.overtakes, event.Honest TwoMints.chain) ∧
      ¬ ∀ system ∈ Runs.states (proverStep TwoMints.chain false) Overtaken.start
        Overtaken.overtakes, Proceeds TwoMints.chain system := by
  refine ⟨Overtaken.rootsBind, Overtaken.claimsBind, Overtaken.starts, ?_, fun hall => ?_⟩
  · intro event hevent
    simp only [Overtaken.overtakes, List.mem_append, List.mem_cons, List.not_mem_nil, or_false,
      List.mem_replicate] at hevent
    rcases hevent with ((((rfl | rfl) | ⟨-, rfl⟩) | rfl | rfl) | ⟨-, rfl⟩) | rfl
    case inl.inl.inr.inr => exact Overtaken.mem_chunk
    all_goals trivial
  · obtain ⟨notesTree, db, hrun, hat⟩ := Overtaken.run_overtakes
    have hproceeds := hall _ (Runs.foldl_mem_states _ _)
    rw [hrun] at hproceeds
    have hroot : TwoMints.chain.root 2 = TwoMints.chain.root 0 :=
      (hat.rootHash_eq (show 2 ≤ 3 by decide)).symm.trans
        (hproceeds.root 1 (TwoMints.chain.block 1) rfl (List.cons_ne_nil _ _))
    have hin := Overtaken.rootsBind 2 (show 2 ≤ 3 by decide) 0 (Nat.zero_le _) hroot 14
      ((TwoMints.mem_elements_two 14).2 (.inl rfl))
    rw [Chain.elements_zero] at hin
    exact absurd hin List.not_mem_nil

end TempoRollup.Node
