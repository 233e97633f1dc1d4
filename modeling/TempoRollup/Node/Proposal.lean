import TempoRollup.Node.Commit
import TempoRollup.Node.Settlement

set_option relaxedAutoImplicit false
set_option autoImplicit false

/-!
# Proposing blocks

`node/src/node/proposal.rs`: the block that a leader makes of the transactions of its mempool,
and the runs of a validator.

## Main definitions

* `createProposal`, `receiveProposal`.
* `NodeShared.Inv` — what holds of the mempool and the tree of a validator between its steps.
* `Proposable` — the condition under which the leaves of the mempool fit the tree together.
* `Validator` — the states that runs of a validator reach.

## Main results

* `createProposal_ends` — under the condition a proposal or an error is returned, and nothing
  stays leased.
* `Validator.createProposal_returns` — the same in every run.
* `createProposal_panics` — a transaction with two equal outputs is accepted and makes the
  leader panic.

## Design

`create_proposal` is one step here: the other tasks of the node run before or after it.
-/

open Exec

namespace TempoRollup.Node

section Create

variable (P : Primitives) (world : World)

/-- `receive_proposal`. -/
def receiveProposal (block : Block) : Call Unit := do
  let self ← Program.get
  Program.assert (self.config.mode ≠ .validator)
  Program.modify fun self => { self with blockCache := self.blockCache.insert P block }
  -- the lease is under the height that the block claims
  Program.modify fun self =>
    { self with
      mempool := self.mempool.leaseTxns block.height
        (block.content.state.txns.map fun txn => txn.hash P) }

/-- The loop of `create_proposal` over the leased transactions: the first that is not valid any
more is removed, and the others go back to the queue. -/
def validateLeased (height : BlockHeight) : List UtxoProof → Call Unit
  | [] => pure ()
  | txn :: txns => do
    let self ← Program.get
    match self.validateTransaction P world.storeReads (world.eth txn) txn with
    | .ok () => validateLeased height txns
    | .err err => do
      commitMempool world.order height [(txn.hash P, .error err)]
      Program.throw (.invalidTransaction (txn.hash P))
    | .panic => Program.panic

/-- The block is validated again for each of its transactions, to have an error for each. -/
def recheck (self : NodeShared) (block : Block) :
    List UtxoProof → Outcome Error (List (CryptoHash × Except Error Block))
  | [] => .ok []
  | txn :: txns =>
    match self.validateBlock P (world.recheckReads txn) block with
    -- unreachable in the source
    | .ok () => .panic
    | .err err => do
      let results ← recheck self block txns
      pure ((txn.hash P, .error err) :: results)
    | .panic => .panic

/-- What `create_proposal` commits to the mempool when its block is not valid. -/
def rejectBlock (block : Block) (err : Error) : Call Unit := do
  match err with
  | .leafAlreadyInsertedInTheSameBlock _ _ failingTxnHash =>
    commitMempool world.order block.height [(failingTxnHash, .error err)]
  | .noteAlreadySpent _ failingTxnHash =>
    commitMempool world.order block.height [(failingTxnHash, .error err)]
  | .utxoRootIsNotRecentEnough _ _ txnHash =>
    commitMempool world.order block.height [(txnHash, .error err)]
  | _ => do
    let self ← Program.get
    let results ← Program.lift (recheck P world self block block.content.state.txns)
    commitMempool world.order block.height results

/-- The block of the leased transactions. -/
def proposedBlock (lastBlockHash : CryptoHash) (height : BlockHeight)
    (accepts : List ApprovalValidated) (rootHash : Element) (txns : List UtxoProof) : Block :=
  BlockContent.toBlock P
    { header := { height := height, lastBlockHash := lastBlockHash, epochId := 0,
                  lastFinalBlockHash := lastBlockHash,
                  approvals := accepts.map ApprovalValidated.signature }
      state := { rootHash := rootHash, txns := txns } }

/-- The end of `create_proposal`: the block is validated, committed and sent. -/
def proposeBlock (block : Block) : Call Block := do
  let self ← Program.get
  match self.validateBlock P world.blockReads block with
  | .ok () => do
    commitProposal P world block
    Program.modify fun self =>
      { self with blockCache := (self.blockCache.insert P block).confirm block.height }
    emit (.sendAll (.block block))
    pure block
  | .err err => do
    rejectBlock P world block err
    Program.throw err
  | .panic => Program.panic

/-- `create_proposal`. -/
def createProposal (lastBlockHash : CryptoHash) (height : BlockHeight)
    (accepts : List ApprovalValidated) : Call Block := do
  let self ← Program.get
  let utxos ← Program.zoom NodeShared.mempool (fun mempool self => { self with mempool := mempool })
    (Mempool.leaseBatch height self.config.blockTxnsCount)
  let txns := utxos.map Prod.snd
  validateLeased P world height txns
  let leaves := (txns.flatMap UtxoProof.leaves).filter fun leaf => leaf != Element.NULL_HASH
  let self ← Program.get
  let rootHash ← Program.lift (newRootHash P self.notesTree leaves)
  proposeBlock P world (proposedBlock P lastBlockHash height accepts rootHash txns)

end Create

/-! ## Between steps -/

/-- What is known of every transaction of the mempool: its changes are its leaves, and its proof
was accepted. -/
def Pooled (P : Primitives) (m : Mempool CryptoHash UtxoProof BlockHeight Element Waiter) : Prop :=
  ∀ k t, m.txns k = some t → t.changes = t.txn.leaves ∧
    P.verifyProof t.txn.proof (t.txn.instances.map Element.toBase) = some true

/-- **What holds of a validator between its steps**: nothing is leased, every transaction of the
mempool was verified, and the tree is well formed. -/
structure NodeShared.Inv (P : Primitives) (node : NodeShared) : Prop where
  idle : node.mempool.Idle
  pooled : Pooled P node.mempool
  tree : node.notesTree.Inv P.poseidon
  sets : Registered node.validatorSets

/-- What holds while a lease is held. -/
structure NodeShared.Leasing (P : Primitives) (lease : BlockHeight) (node : NodeShared) : Prop where
  held : node.mempool.Held lease
  pooled : Pooled P node.mempool
  tree : node.notesTree.Inv P.poseidon
  sets : Registered node.validatorSets

/-- The element is a leaf of a transaction of the mempool, or in the tree. -/
def NodeShared.Known (self : NodeShared) (e : Element) : Prop :=
  (∃ k t, self.mempool.txns k = some t ∧ e ∈ t.txn.leavesNonNull) ∨
    e ∈ self.notesTree.tree.entries.keys

/-- **When a proposal cannot go wrong**: within each transaction of the mempool the leaves
differ, no two elements of the mempool and the tree share a slot, writes succeed, and a failed
read of the block store does not succeed when it is tried again. -/
structure Proposable (node : NodeShared) (world : World) : Prop where
  nodup : ∀ k t, node.mempool.txns k = some t → t.txn.leavesNonNull.Nodup
  slots : ∀ e f, node.Known e → node.Known f →
    e.slot (MERKLE_TREE_DEPTH - 1) = f.slot (MERKLE_TREE_DEPTH - 1) → e = f
  storeWrites : world.storeWrites = true
  treeWrites : world.treeWrites = true
  rereads : ∀ txn, world.recheckReads txn = world.blockReads

/-- The call ends with a value or an error, and what holds between steps holds again. -/
structure Ends {α : Type} (P : Primitives) (r : Outcome Error α × NodeShared) : Prop where
  noPanic : r.1 ≠ .panic
  inv : r.2.Inv P

section Spec

variable {P : Primitives} {world : World} {self : NodeShared} {lease : BlockHeight}

/-- **A commit to the mempool ends the lease.** -/
lemma NodeShared.Leasing.commitMempool (h : self.Leasing P lease)
    (results : List (CryptoHash × Except Error Block)) :
    (Node.commitMempool world.order lease results self).1 = .ok () ∧
      (Node.commitMempool world.order lease results self).2.Inv P :=
  ⟨rfl, h.held.commit_idle world.order_perm results,
    fun k t ht => h.pooled k t (Mempool.txns_commit ht), h.tree, h.sets⟩

/-! ### The leased transactions -/

variable {taken : List (CryptoHash × UtxoProof)}

/-- The leaves of the leased transactions, without zeros. -/
def leasedLeaves (taken : List (CryptoHash × UtxoProof)) : List Element :=
  ((taken.map Prod.snd).flatMap UtxoProof.leaves).filter fun leaf => leaf != Element.NULL_HASH

/-- The leaves that are leased are those of the transactions. -/
lemma leasedLeaves_eq (taken : List (CryptoHash × UtxoProof)) :
    leasedLeaves taken = taken.flatMap fun kv => kv.2.leavesNonNull := by
  rw [leasedLeaves, List.filter_flatMap, List.flatMap_map]
  rfl

/-- Leaves of leased transactions are known. -/
lemma known_of_mem_leasedLeaves
    (htaken : Mempool.Taken self.mempool.txns [] taken) {leaf : Element}
    (hleaf : leaf ∈ leasedLeaves taken) : self.Known leaf := by
  rw [leasedLeaves_eq, List.mem_flatMap] at hleaf
  obtain ⟨kv, hkv, hleaf⟩ := hleaf
  obtain ⟨t, ht, htxn⟩ := htaken.known kv hkv
  exact .inl ⟨kv.1, t, ht, htxn ▸ hleaf⟩

/-- Leaves of leased transactions differ: within a transaction by the condition, between
transactions as they are changes that the mempool compares. -/
lemma nodup_leasedLeaves (hpooled : Pooled P self.mempool) (hp : Proposable self world)
    (htaken : Mempool.Taken self.mempool.txns [] taken) : (leasedLeaves taken).Nodup := by
  rw [leasedLeaves_eq, List.nodup_flatMap]
  constructor
  · intro kv hkv
    obtain ⟨t, ht, htxn⟩ := htaken.known kv hkv
    exact htxn ▸ hp.nodup kv.1 t ht
  · have hchanges : ∀ kv ∈ taken, ∀ leaf ∈ kv.2.leavesNonNull,
        leaf ∈ Mempool.changesOf self.mempool.txns kv.1 := by
      intro kv hkv leaf hleaf
      obtain ⟨t, ht, htxn⟩ := htaken.known kv hkv
      rw [Mempool.changesOf, ht, Option.map_some, Option.getD_some, (hpooled kv.1 t ht).1, htxn]
      exact List.mem_of_mem_filter hleaf
    refine htaken.disjoint.imp_of_mem ?_
    intro a b ha hb hab leaf hleaf hleaf'
    exact hab leaf (hchanges a ha leaf hleaf) (hchanges b hb leaf hleaf')

/-- **The leaves of the leased transactions have different slots.** -/
lemma pairwise_leasedLeaves (hpooled : Pooled P self.mempool) (hp : Proposable self world)
    (htaken : Mempool.Taken self.mempool.txns [] taken) :
    (leasedLeaves taken).Pairwise fun a b =>
      a.slot (MERKLE_TREE_DEPTH - 1) ≠ b.slot (MERKLE_TREE_DEPTH - 1) := by
  have hnodup := nodup_leasedLeaves hpooled hp htaken
  rw [List.nodup_iff_pairwise_ne] at hnodup
  refine hnodup.imp_of_mem ?_
  intro a b ha hb hne hslot
  exact hne (hp.slots a b (known_of_mem_leasedLeaves htaken ha)
    (known_of_mem_leasedLeaves htaken hb) hslot)

/-- The leaves of leased transactions that are not in the tree are new to it. -/
lemma fresh_leasedLeaves (hpooled : Pooled P self.mempool) (hp : Proposable self world)
    (htaken : Mempool.Taken self.mempool.txns [] taken)
    (hnew : ∀ txn ∈ taken.map Prod.snd, Acceptable P self.notesTree txn) :
    self.notesTree.tree.Fresh (leasedLeaves taken) := by
  have hnotin : ∀ leaf ∈ leasedLeaves taken, self.notesTree.tree.containsElement leaf = false := by
    intro leaf hleaf
    rw [leasedLeaves, List.mem_filter, List.mem_flatMap] at hleaf
    obtain ⟨⟨txn, htxn, hleaf⟩, hne⟩ := hleaf
    exact (hnew txn htxn).new leaf hleaf (by simpa using hne)
  refine ⟨fun e he => ?_, pairwise_leasedLeaves hpooled hp htaken, fun e he b hb hslot => ?_⟩
  · simpa using (List.mem_filter.1 he).2
  · have heq := hp.slots b e (known_of_mem_leasedLeaves htaken hb) (.inr he) hslot
    have hcontains : self.notesTree.tree.containsElement b = true := by
      rw [heq]
      exact Std.TreeMap.contains_iff_mem.2 (Std.TreeMap.mem_keys.1 he)
    rw [hnotin b hb] at hcontains
    cases hcontains

/-! ### The steps of `create_proposal` -/

/-- **The loop over the leased transactions**, by induction on them: all are valid and nothing
changes, or the lease has ended. -/
lemma validateLeased_cases (world : World) (h : self.Leasing P lease) {txns : List UtxoProof}
    (hverified : Verified P txns) :
    (validateLeased P world lease txns self = (.ok (), self) ∧
        ∀ txn ∈ txns, Acceptable P self.notesTree txn) ∨
      ∃ e node, validateLeased P world lease txns self = (.err e, node) ∧ node.Inv P := by
  induction txns with
  | nil => exact .inl ⟨rfl, by simp⟩
  | cons txn txns ih =>
    have hproof := hverified txn List.mem_cons_self
    simp only [validateLeased, Program.run_bind, Program.run_get]
    cases hvalid : self.validateTransaction P world.storeReads (world.eth txn) txn with
    | ok u =>
      rcases ih fun t ht => hverified t (List.mem_cons_of_mem _ ht) with ⟨hrun, hall⟩ | hended
      · refine .inl ⟨hrun, List.forall_mem_cons.2 ⟨?_, hall⟩⟩
        exact (validateTransaction_eq_ok_iff.1 hvalid).2.1
      · exact .inr hended
    | err e => exact .inr ⟨_, _, rfl, (h.commitMempool [(txn.hash P, .error e)]).2⟩
    | panic =>
      rw [validateTransaction_eq_panic_iff, hproof] at hvalid
      cases hvalid.2

variable {block : Block}

/-- A block that fails fails again for each of its transactions. -/
lemma recheck_ok {e : Error} (hrereads : ∀ txn, world.recheckReads txn = world.blockReads)
    (herr : self.validateBlock P world.blockReads block = .err e) (txns : List UtxoProof) :
    ∃ results, recheck P world self block txns = .ok results := by
  induction txns with
  | nil => exact ⟨[], rfl⟩
  | cons txn txns ih =>
    obtain ⟨results, hresults⟩ := ih
    refine ⟨(txn.hash P, .error e) :: results, ?_⟩
    simp only [recheck, hrereads txn, herr, hresults]
    rfl

/-- **A rejected block ends the lease.** -/
lemma rejectBlock_ends (h : self.Leasing P block.height) {e : Error}
    (hrereads : ∀ txn, world.recheckReads txn = world.blockReads)
    (herr : self.validateBlock P world.blockReads block = .err e) :
    ∃ node, rejectBlock P world block e self = (.ok (), node) ∧ node.Inv P := by
  have hcommit : ∀ results, (commitMempool world.order block.height results self).2.Inv P :=
    fun results => (h.commitMempool results).2
  obtain ⟨results, hresults⟩ := recheck_ok hrereads herr block.content.state.txns
  unfold rejectBlock
  split
  · exact ⟨_, rfl, hcommit _⟩
  · exact ⟨_, rfl, hcommit _⟩
  · exact ⟨_, rfl, hcommit _⟩
  · simp only [Program.run_bind, Program.run_get, Program.run_lift, hresults]
    exact ⟨_, rfl, hcommit results⟩

/-- **The end of `create_proposal`**, for a block of verified transactions with new leaves. -/
lemma proposeBlock_ends (h : self.Leasing P block.height) (hparses : block.Parses P)
    (hp : Proposable self world) (hverified : Verified P block.content.state.txns)
    (hfresh : self.notesTree.tree.Fresh block.content.state.leavesNonNull) :
    Ends P (proposeBlock P world block self) := by
  unfold proposeBlock
  simp only [Program.run_bind, Program.run_get]
  cases hvalid : self.validateBlock P world.blockReads block with
  | ok u =>
    obtain ⟨notesTree, effects, hrun, hinv, -⟩ :=
      commitProposal_of_fresh h.tree hfresh hp.storeWrites hp.treeWrites
    simp only [Program.run_bind, hrun, Program.run_modify, emit, Program.run_pure]
    exact ⟨(fun h => by cases h), h.held.commit_idle world.order_perm _,
      fun k t ht => h.pooled k t (Mempool.txns_commit ht), hinv, h.sets⟩
  | err e =>
    obtain ⟨node, hrun, hinv⟩ := rejectBlock_ends h hp.rereads hvalid
    simp only [Program.run_bind, hrun, Program.run_throw]
    exact ⟨(fun h => by cases h), hinv⟩
  | panic => exact absurd hvalid (validateBlock_ne_panic h.tree h.sets hparses hverified hfresh)

/-- **`create_proposal` ends**: with a proposal or an error, and in both cases nothing stays
leased.

**Proof sketch.** The lease holds transactions that share no leaf. Each of them is validated
again, so its leaves are not in the tree; under the condition they have different slots. So the
new root exists, validation of the block does not panic, and the leaves are inserted. Every
error on the way commits to the mempool, which ends the lease. -/
theorem createProposal_ends (hsign : ∀ msg, P.fromCompact (P.signEcdsa msg).compact = true)
    (h : self.Inv P) (hp : Proposable self world) (lastBlockHash : CryptoHash)
    (height : BlockHeight) (accepts : List ApprovalValidated) :
    Ends P (createProposal P world lastBlockHash height accepts self) := by
  obtain ⟨taken, mempool, hlease, hheld, htxns, htaken⟩ :=
    Mempool.leaseBatch_spec (ε := Error) h.idle height self.config.blockTxnsCount
  have hpooled : Pooled P mempool := by
    intro k t ht
    exact h.pooled k t (htxns ▸ ht)
  have hleasing : ({ self with mempool := mempool } : NodeShared).Leasing P height :=
    ⟨hheld, hpooled, h.tree, h.sets⟩
  have hverified : Verified P (taken.map Prod.snd) := by
    intro txn htxn
    obtain ⟨kv, hkv, rfl⟩ := List.mem_map.1 htxn
    obtain ⟨t, ht, htxn⟩ := htaken.known kv hkv
    exact htxn ▸ (h.pooled kv.1 t ht).2
  unfold createProposal
  simp only [Program.run_bind, Program.run_get, Program.zoom, hlease]
  rcases validateLeased_cases world hleasing hverified with
    ⟨hrun, hall⟩ | ⟨e, node, hrun, hinv⟩
  · have hfresh := fresh_leasedLeaves h.pooled hp htaken hall
    obtain ⟨root, hroot⟩ := newRootHash_of_fresh h.tree hfresh
    rw [hrun]
    rw [leasedLeaves] at hroot
    simp only [Program.run_lift, hroot]
    refine proposeBlock_ends hleasing (hsign _) ?_ hverified hfresh
    -- the lease moves keys, so that the condition still holds
    exact ⟨fun k t ht => hp.nodup k t (htxns ▸ ht),
      fun e f he hf => hp.slots e f (by simpa [NodeShared.Known, htxns] using he)
        (by simpa [NodeShared.Known, htxns] using hf),
      hp.storeWrites, hp.treeWrites, hp.rereads⟩
  · rw [hrun]
    exact ⟨(fun h => by cases h), hinv⟩

/-- The loop over valid transactions changes nothing. -/
lemma validateLeased_of_valid (height : BlockHeight) {txns : List UtxoProof}
    (hvalid : ∀ txn ∈ txns,
      self.validateTransaction P world.storeReads (world.eth txn) txn = .ok ()) :
    validateLeased P world height txns self = (.ok (), self) := by
  induction txns with
  | nil => rfl
  | cons txn txns ih =>
    obtain ⟨htxn, htxns⟩ := List.forall_mem_cons.1 hvalid
    simp only [validateLeased, Program.run_bind, Program.run_get, htxn]
    exact ih htxns

/-- **How `create_proposal` panics**: the leased transactions are valid, and their leaves have no
root. -/
lemma createProposal_eq_panic {lastBlockHash : CryptoHash} {height : BlockHeight}
    {accepts : List ApprovalValidated}
    {mempool : Mempool CryptoHash UtxoProof BlockHeight Element Waiter}
    (hlease : Mempool.leaseBatch (ε := Error) height self.config.blockTxnsCount self.mempool =
      (.ok taken, mempool))
    (hvalid : ∀ txn ∈ taken.map Prod.snd,
      self.validateTransaction P world.storeReads (world.eth txn) txn = .ok ())
    (hroot : newRootHash P self.notesTree (leasedLeaves taken) = .panic) :
    (createProposal P world lastBlockHash height accepts self).1 = .panic := by
  have hloop : validateLeased P world height (taken.map Prod.snd)
      { self with mempool := mempool } = (.ok (), { self with mempool := mempool }) :=
    validateLeased_of_valid height hvalid
  rw [leasedLeaves] at hroot
  simp only [createProposal, Program.run_bind, Program.run_get, Program.zoom, hlease, hloop,
    Program.run_lift, hroot]

/-- The proposal after a valid transaction was received, which is the next batch and whose leaves
have no root. -/
lemma createProposal_eq_panic_of_receive {txn : UtxoProof} {lastBlockHash : CryptoHash}
    {height : BlockHeight} {accepts : List ApprovalValidated}
    (hvalid : self.validateTransaction P world.storeReads (world.eth txn) txn = .ok ())
    (hlease : (Mempool.leaseBatch (ε := Error) height self.config.blockTxnsCount
      (self.mempool.add (txn.hash P) txn txn.leaves)).1 = .ok [(txn.hash P, txn)])
    (hroot : newRootHash P self.notesTree (leasedLeaves [(txn.hash P, txn)]) = .panic) :
    (createProposal P world lastBlockHash height accepts
      (receiveTransaction P world.storeReads (world.eth txn) txn self).2).1 = .panic := by
  rw [receiveTransaction_of_ok hvalid]
  have hprod : Mempool.leaseBatch (ε := Error) height self.config.blockTxnsCount
      (self.mempool.add (txn.hash P) txn txn.leaves) = (.ok [(txn.hash P, txn)], _) :=
    Prod.ext hlease rfl
  refine createProposal_eq_panic hprod ?_ hroot
  rw [List.map_singleton, List.forall_mem_singleton]
  exact hvalid

end Spec

/-! ## Runs of a validator -/

section Runs

variable {P : Primitives}

/-- **The states that runs of a validator reach** when every proposal meets the condition. A
validator starts from loaded data; it takes transactions from its peers and its clients, makes
proposals, and does other things that change neither its mempool nor its tree. -/
inductive Validator (P : Primitives) : NodeShared → Prop
  | start (config : Config) (localPeer : Address) (validatorSets : List ValidatorSet)
    (blockStore : BlockStore) (notesTree : PersistentMerkleTree) (initialBlock : Block)
    (hmode : config.mode = .validator) (hsets : Registered validatorSets)
    (htree : notesTree.Inv P.poseidon) :
    Validator P (.new P config localPeer validatorSets blockStore notesTree initialBlock)
  | receive {node : NodeShared} (h : Validator P node) (storeReads : Bool) (eth : EthView)
    (txn : UtxoProof) : Validator P (receiveTransaction P storeReads eth txn node).2
  | submit {node : NodeShared} (h : Validator P node) (storeReads : Bool) (eth : EthView)
    (waiter : Waiter) (txn : UtxoProof) :
    Validator P (submitTransaction P storeReads eth waiter txn node).2
  | propose {node : NodeShared} (h : Validator P node) (world : World)
    (lastBlockHash : CryptoHash) (height : BlockHeight) (accepts : List ApprovalValidated)
    (hp : Proposable node world) :
    Validator P (createProposal P world lastBlockHash height accepts node).2
  | other {node node' : NodeShared} (h : Validator P node) (hmempool : node'.mempool = node.mempool)
    (htree : node'.notesTree = node.notesTree) (hsets : Registered node'.validatorSets) :
    Validator P node'

/-- An accepted transaction that is added keeps what holds between steps. -/
lemma NodeShared.Inv.add {self : NodeShared} (h : self.Inv P) {storeReads : Bool} {eth : EthView}
    {txn : UtxoProof} (hok : self.validateTransaction P storeReads eth txn = .ok ())
    (sender : Option Waiter) (effects : List Effect) :
    ({ self with
      mempool := self.mempool.addWith (txn.hash P) txn txn.leaves sender
      effects := effects } : NodeShared).Inv P := by
  refine ⟨h.idle.addWith _ _ _ _, ?_, h.tree, h.sets⟩
  intro k t ht
  rcases Mempool.txns_addWith ht with hold | rfl
  · exact h.pooled k t hold
  · exact ⟨rfl, (validateTransaction_eq_ok_iff.1 hok).2.1.proof⟩

/-- **The invariant of every run.** -/
lemma Validator.inv (hsign : ∀ msg, P.fromCompact (P.signEcdsa msg).compact = true)
    {node : NodeShared} (h : Validator P node) : node.Inv P := by
  induction h with
  | start config localPeer validatorSets blockStore notesTree initialBlock hmode hsets htree =>
    exact ⟨Mempool.idle_empty, fun k t ht => (by cases ht), htree, hsets⟩
  | receive h storeReads eth txn ih =>
    unfold receiveTransaction
    split
    · next hok => exact ih.add hok none _
    · exact ih
    · exact ih
  | submit h storeReads eth waiter txn ih =>
    next node =>
    unfold submitTransaction
    simp only [Program.run_bind, Program.run_get, Program.run_lift]
    cases hvalid : node.validateTransaction P storeReads eth txn with
    | ok u => exact ih.add hvalid (some waiter) _
    | err e => exact ih
    | panic => exact ih
  | propose h world lastBlockHash height accepts hp ih =>
    exact (createProposal_ends hsign ih hp lastBlockHash height accepts).inv
  | other h hmempool htree hsets ih =>
    exact ⟨hmempool ▸ ih.idle, hmempool ▸ ih.pooled, htree ▸ ih.tree, hsets⟩

/-- **Proposals in every run.** In every state that a validator reaches while its proposals meet
the condition, a proposal that meets it does not panic; it ends with every transaction of the
mempool in the queue and none leased; and the leaves of the transactions it takes have different
slots.

**Proof sketch.** In every state that is reached the mempool is idle and its transactions have their
leaves as changes (`Validator.inv`). So a batch is leased whose leaves have different slots, and
however the proposal ends, the lease is given back (`createProposal_ends`). -/
theorem Validator.createProposal_returns
    (hsign : ∀ msg, P.fromCompact (P.signEcdsa msg).compact = true) {node : NodeShared}
    (h : Validator P node) {world : World} (hp : Proposable node world)
    (lastBlockHash : CryptoHash) (height : BlockHeight) (accepts : List ApprovalValidated) :
    (createProposal P world lastBlockHash height accepts node).1 ≠ .panic ∧
      (createProposal P world lastBlockHash height accepts node).2.mempool.Idle ∧
      ∃ taken mempool, Mempool.leaseBatch (ε := Error) height node.config.blockTxnsCount
          node.mempool = (.ok taken, mempool) ∧
        (leasedLeaves taken).Pairwise fun a b =>
          a.slot (MERKLE_TREE_DEPTH - 1) ≠ b.slot (MERKLE_TREE_DEPTH - 1) := by
  have hinv := h.inv hsign
  have hends := createProposal_ends hsign hinv hp lastBlockHash height accepts
  obtain ⟨taken, mempool, hlease, -, -, htaken⟩ :=
    Mempool.leaseBatch_spec (ε := Error) hinv.idle height node.config.blockTxnsCount
  exact ⟨hends.noPanic, hends.inv.idle, taken, mempool, hlease,
    pairwise_leasedLeaves hinv.pooled hp htaken⟩

end Runs

/-! ### A transaction with two equal outputs

A note of value 10 is minted and split into two notes of value 5 with the same seed, so that the
two outputs have one commitment. -/

namespace EqualOutputs

/-- A hash function that is easy to compute; nullifiers are digests of four elements. -/
def sumHash (l : List Fr) : Fr := if l.length = 4 then 1 else l.length + l.headD 0

/-- The mint of the note of value 10. -/
def mintTxn : UtxoProof where
  recentRoot := 0
  mbHash := 16
  mbValue := 10
  inputLeaves := (0, 0)
  outputLeaves := (16, 0)
  proof := []

/-- The transfer of that note to two equal ones. -/
def splitTxn : UtxoProof where
  recentRoot := 320
  mbHash := 0
  mbValue := 0
  inputLeaves := (1, 0)
  outputLeaves := (11, 11)
  proof := []

/-- The verifier accepts the public inputs of the two transactions. -/
def primitives : Primitives where
  poseidon := sumHash
  keccak256 _ := 0
  verifyProof _ instances :=
    some (decide (instances = [0, 16, 10, 0, 0, 16, 0] ∨ instances = [320, 0, 0, 1, 0, 11, 11]))
  fromCompact _ := true
  recoverEcdsa _ _ := some 0
  signEcdsa _ := .default

/-- Storage works, and the mint is registered. -/
def world : World where
  eth _ := .constant (mintedAt 16)
  storeReads := true
  blockReads := true
  recheckReads _ := true
  storeWrites := true
  treeWrites := true
  order keys := keys
  order_perm _ := .refl _

/-- The validator received the mint. -/
def beforeMint : NodeShared :=
  (receiveTransaction primitives true (.constant (mintedAt 16)) mintTxn
    (freshValidator primitives)).2

/-- The validator proposed and committed a block with the mint. -/
def afterMint : NodeShared := (createProposal primitives world 0 1 [] beforeMint).2

/-- The validator received the transfer. -/
def beforeSplit : NodeShared :=
  (receiveTransaction primitives true (.constant (mintedAt 16)) splitTxn afterMint).2

/-- The input of the transfer, in slot 16 of the tree. -/
def input : Circuits.InputWitness where
  value := 10
  address := 2
  psi := 0
  source := 0
  version := 1
  secretKey := 0
  path := (List.range 160).map fun level => (2 * (level : Fr), decide (level = 4))

/-- A padding input. -/
def padding : Circuits.InputWitness := { input with value := 0 }

/-- An output of the transfer. -/
def output : Circuits.NoteWitness := ⟨5, 2, 0, 0, 1⟩

/-- The assignment behind the transfer. -/
def split : Circuits.UtxoWitness := ⟨320, 1, input, padding, output, output⟩

/-- The mint has a satisfying assignment. -/
lemma satisfiedBy_mintTxn :
    SatisfiedBy 161 sumHash Set.univ (mintTxn.instances.map Element.toBase) := by
  have hmint : mintTxn = mintProof sumHash (⟨2, 0, 10, 0⟩, ⟨2, 0, 0, 0⟩) := by decide
  rw [hmint]
  exact satisfiedBy_mintProof sumHash _ (by decide) (by decide)

/-- The transfer has a satisfying assignment. -/
lemma satisfiedBy_splitTxn :
    SatisfiedBy 161 sumHash Set.univ (splitTxn.instances.map Element.toBase) := by
  refine ⟨⟨.malicious, splitTxn.instances.map Element.toBase, sumHash, Set.univ⟩,
    Circuits.Utxo.mintOf sumHash (by decide) (⟨0, 0, 0, 0⟩, ⟨0, 0, 0, 0⟩), _, rfl, rfl, rfl,
    (Circuits.Utxo.synthesize_iff _ _ _).2 ⟨split, ⟨?_, ?_, trivial, trivial, ?_, ?_, ?_⟩,
      ⟨?_, ?_, ?_, ?_, ?_, ?_, ?_, ?_⟩, rfl, nofun⟩⟩
  · exact ⟨trivial, by simp [split, input], fun _ _ => trivial, trivial, by decide,
      trivial⟩
  · exact ⟨trivial, by simp [split, padding, input], fun _ _ => trivial, trivial,
      by decide, trivial⟩
  all_goals decide +kernel

/-- The mint of the sample is valid. -/
lemma validate_mintTxn :
    (freshValidator primitives).validateTransaction primitives true (.constant (mintedAt 16))
      mintTxn = .ok () := by
  decide

/-- What the validator knows before the mint. -/
lemma beforeMint_eq :
    beforeMint = { freshValidator primitives with
      mempool := Mempool.empty.add (mintTxn.hash primitives) mintTxn mintTxn.leaves } :=
  receiveTransaction_of_ok validate_mintTxn

/-- The leaf of the mint fits the empty tree. -/
lemma proposable_beforeMint : Proposable beforeMint world := by
  have hleaves : mintTxn.leavesNonNull = [16] := by decide
  have htxn : ∀ k t, beforeMint.mempool.txns k = some t → t.txn.leavesNonNull = [16] := by
    intro k t ht
    rw [beforeMint_eq] at ht
    change (Mempool.empty.addWith _ _ _ none).txns k = some t at ht
    rcases Mempool.txns_addWith ht with hnone | rfl
    · cases hnone
    · exact hleaves
  have hknown : ∀ e, beforeMint.Known e → e = 16 := by
    rintro e (⟨k, t, ht, he⟩ | he)
    · rw [htxn k t ht] at he
      exact List.mem_singleton.1 he
    · rw [beforeMint_eq] at he
      cases he
  refine ⟨fun k t ht => ?_, fun e f he hf _ => ?_, rfl, rfl, fun _ => rfl⟩
  · rw [htxn k t ht]
    exact List.nodup_singleton _
  · rw [hknown e he, hknown f hf]

/-- The node of the sample before the mint is a validator. -/
lemma validator_beforeMint : Validator primitives beforeMint := by
  refine .receive (.start _ _ _ _ _ _ rfl ⟨?_, ?_, ?_, ?_⟩ (Smirk.Persistent.inv_new (by decide))) _
    _ _
  · simp [U64]
  · simp
  · simp
  · simp

/-- The state after the mint is computed once: the transfer is valid, it is the next batch, and the
two equal leaves, which are sorted as they are, have no root. -/
lemma afterMint_computes :
    afterMint.validateTransaction primitives true (.constant (mintedAt 16)) splitTxn = .ok () ∧
      (Mempool.leaseBatch (ε := Error) 2 afterMint.config.blockTxnsCount
        (afterMint.mempool.add (splitTxn.hash primitives) splitTxn splitTxn.leaves)).1 =
          .ok [(splitTxn.hash primitives, splitTxn)] ∧
      afterMint.notesTree.tree.tree.hashWithInner primitives.poseidon [1, 11, 11]
        ([1, 11, 11].map fun e : Element => e.lsb (MERKLE_TREE_DEPTH - 1)) 0 = .panic := by
  decide +kernel

/-- The split of the sample is valid. -/
lemma validate_splitTxn :
    afterMint.validateTransaction primitives true (.constant (mintedAt 16)) splitTxn = .ok () :=
  afterMint_computes.1

/-- Two equal leaves have no root. -/
lemma newRootHash_splitTxn : newRootHash primitives afterMint.notesTree [1, 11, 11] = .panic := by
  have hsort : Smirk.sortByBits MERKLE_TREE_DEPTH [1, 11, 11] =
      [1, 11, 11].map fun e => (e, e.lsb (MERKLE_TREE_DEPTH - 1)) := by
    unfold Smirk.sortByBits
    exact List.mergeSort_of_pairwise (by decide)
  have hroot : afterMint.notesTree.tree.rootHashWith primitives.poseidon [1, 11, 11] = .panic := by
    rw [Smirk.Tree.rootHashWith, Smirk.Node.hashWith, hsort]
    exact afterMint_computes.2.2
  rw [newRootHash, if_neg (by simp), hroot]
  rfl

end EqualOutputs

/-- The proposal of the block with the mint returns. -/
theorem Validator.createProposal_returns_mint :
    (createProposal EqualOutputs.primitives EqualOutputs.world 0 1 []
      EqualOutputs.beforeMint).1 ≠ .panic :=
  (EqualOutputs.validator_beforeMint.createProposal_returns (fun _ => rfl)
    EqualOutputs.proposable_beforeMint 0 1 []).1

/-- **A panic of the leader**: a validator that starts from genesis receives a mint, commits it,
and accepts the transfer with two equal outputs; its next proposal panics. -/
theorem createProposal_panics :
    SatisfiedBy 161 EqualOutputs.sumHash Set.univ
        (EqualOutputs.mintTxn.instances.map Element.toBase) ∧
      SatisfiedBy 161 EqualOutputs.sumHash Set.univ
        (EqualOutputs.splitTxn.instances.map Element.toBase) ∧
      EqualOutputs.afterMint.validateTransaction EqualOutputs.primitives true
        (.constant (mintedAt 16)) EqualOutputs.splitTxn = .ok () ∧
      (createProposal EqualOutputs.primitives EqualOutputs.world 0 2 []
        EqualOutputs.beforeSplit).1 = .panic := by
  refine ⟨EqualOutputs.satisfiedBy_mintTxn, EqualOutputs.satisfiedBy_splitTxn,
    EqualOutputs.validate_splitTxn, ?_⟩
  have hleaves : leasedLeaves [(EqualOutputs.splitTxn.hash EqualOutputs.primitives,
      EqualOutputs.splitTxn)] = [1, 11, 11] := by decide
  refine createProposal_eq_panic_of_receive EqualOutputs.validate_splitTxn
    EqualOutputs.afterMint_computes.2.1 ?_
  rw [hleaves]
  exact EqualOutputs.newRootHash_splitTxn

end TempoRollup.Node
