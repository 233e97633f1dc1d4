import TempoRollup.Node.Replication

set_option relaxedAutoImplicit false
set_option autoImplicit false
set_option maxRecDepth 20000

/-!
# A cluster

A validator and the nodes that follow it. The network delivers any blocks from anyone, in any order
and any number of times; nodes stop between steps or within a commit, and are started again from
their directories.

## Main definitions

* `Cluster`, `ClusterStep`, `Cluster.step`.
* `Cluster.Allowed` — what is asked of a step.
* `Cluster.Inv` — the validator has the ledger, and the others have a start of it.
* `Behind` — a node has committed a part of what another one has.

## Main results

* `Cluster.Inv.step` — every step keeps the invariant.
* `Cluster.replicas_agree` — in every state of every run, of two running nodes one is behind the
  other, and none is ahead of the validator.

## Design

The state has the ledger of the validator as a ghost. What a node does to its mempool, its
approvals, its validator sets and the like is a step to any state with the same stores and the same
cache. Nodes here catch up from the blocks that are delivered to them; a fast sync, which writes
elements into the tree and confirms a height with no block stored, is no step of a cluster (see
`Snapshot` for what it does to a node). No node lists bad blocks, as in the default configuration.
-/

open Exec

namespace TempoRollup.Node

/-! ## The cluster -/

section Cluster

/-- What the validator is started with, and the nodes that follow it. -/
structure Setups (ι : Type) where
  validator : Setup
  follower : ι → Setup

/-- A validator and the nodes that follow it. The ledger is what the validator committed. -/
structure Cluster (ι : Type) where
  log : List Block
  validator : Life
  follower : ι → Life

/-- What happens in a cluster. -/
inductive ClusterStep (ι : Type)
  /-- The validator makes a proposal and commits it, -/
  | propose (world : World)
  /-- or its process ends within the commit; `treeWritten` says whether it got to the end of the
  insertion into the tree. -/
  | proposeInterrupted (world : World) (treeWritten : Bool)
  | validatorOthers (node : NodeShared)
  | validatorStop
  | validatorStart
  /-- A block is delivered, from whomever. -/
  | deliver (i : ι) (block : Block)
  /-- A round of the commit loop, -/
  | commitNext (i : ι) (world : World)
  /-- or the process ends within its commit. -/
  | commitInterrupted (i : ι) (world : World) (treeWritten : Bool)
  /-- What touches neither the stores nor the cache: mempool, approvals, validator sets. A fast
  sync, which touches both, is no step of a cluster. -/
  | others (i : ι) (node : NodeShared)
  | stop (i : ι)
  | start (i : ι)

variable (P : Primitives)

namespace Life

/-- A call on a running node. -/
def call {α : Type} (p : Call α) : Life → Life
  | .up node => .up (p node).2
  | .down disk => .down disk

/-- Another state with the same configuration, stores and cache. -/
def others (other : NodeShared) : Life → Life
  | .up node => .up { other with
      config := node.config
      blockStore := node.blockStore
      notesTree := node.notesTree
      blockCache := node.blockCache }
  | .down disk => .down disk

/-- The process ends between steps. -/
def stop : Life → Life
  | .up node => .down node.disk
  | .down disk => .down disk

/-- The process is started. -/
def start (setup : Setup) : Life → Life
  | .up node => .up node
  | .down disk => startNode P setup .reliable disk

/-- The process ends within the commit of the next block. -/
def interrupt (world : World) (treeWritten : Bool) : Life → Life
  | .up node =>
    match node.blockCache.getNextCommitBlock with
    | none => .down node.disk
    | some block =>
      match node.validateBlock P world.blockReads block with
      | .ok () => .down (commitInterrupted P block treeWritten node)
      | _ => .down node.disk
  | .down disk => .down disk

end Life

namespace Cluster

variable {ι : Type} [DecidableEq ι]

/-- Nodes that were never started. -/
def initial : Cluster ι := ⟨[], .down .empty, fun _ => .down .empty⟩

/-- Change one of the nodes that follow. -/
def onFollower (i : ι) (f : Life → Life) (self : Cluster ι) : Cluster ι :=
  { self with follower := Function.update self.follower i (f (self.follower i)) }

/-- One step. -/
def step (setups : Setups ι) (self : Cluster ι) : ClusterStep ι → Cluster ι
  | .propose world =>
    match self.validator with
    | .down _ => self
    | .up node =>
      match proposeTick P world node with
      | (.ok block, node') => { self with log := self.log ++ [block], validator := .up node' }
      | (_, node') => { self with validator := .up node' }
  | .proposeInterrupted world treeWritten =>
    match self.validator with
    | .down _ => self
    | .up node =>
      match proposeTick P world node with
      | (.ok block, _) =>
        { self with
          log := self.log ++ [block]
          validator := .down (commitInterrupted P block treeWritten node) }
      | _ => { self with validator := .down node.disk }
  | .validatorOthers other => { self with validator := self.validator.others other }
  | .validatorStop => { self with validator := self.validator.stop }
  | .validatorStart => { self with validator := self.validator.start P setups.validator }
  | .deliver i block => self.onFollower i (.call (receiveProposal P block))
  | .commitNext i world => self.onFollower i (.call (Node.commitNext P world))
  | .commitInterrupted i world treeWritten => self.onFollower i (.interrupt P world treeWritten)
  | .others i other => self.onFollower i (.others other)
  | .stop i => self.onFollower i .stop
  | .start i => self.onFollower i (.start P (setups.follower i))

/-- A tick of the validator that proposes a block adds it to the log. -/
lemma step_propose_of_ok {setups : Setups ι} {log : List Block} {follower : ι → Life}
    {world : World} {node node' : NodeShared} {block : Block}
    (h : proposeTick P world node = (.ok block, node')) :
    step P setups ⟨log, .up node, follower⟩ (.propose world) =
      ⟨log ++ [block], .up node', follower⟩ := by
  simp only [step, h]

/-- **What is asked of a step.** -/
def Allowed (hashing : Hashing) (self : Cluster ι) : ClusterStep ι → Prop
  | .propose world => ∀ node, self.validator = .up node → CanPropose P hashing world node
  | .proposeInterrupted world _ =>
    ∀ node, self.validator = .up node → CanPropose P hashing world node
  | .deliver _ block => hashing.Covers P block
  | .commitNext i world =>
    ∀ node, self.follower i = .up node → CanFollow P hashing self.log world node
  | .commitInterrupted i world _ =>
    ∀ node, self.follower i = .up node → CanFollow P hashing self.log world node
  | _ => True

/-- **The invariant of a cluster**: the validator has the ledger, and the others have a start of
it. -/
structure Inv (hashing : Hashing) (cluster : Cluster ι) : Prop where
  ledger : Ledger P hashing cluster.log
  validator : cluster.validator.Follows P hashing cluster.log
  follower : ∀ i, ∃ pre, pre <+: cluster.log ∧ (cluster.follower i).Follows P hashing pre

end Cluster

/-! ### What every step keeps -/

variable {P} {hashing : Hashing} {log pre : List Block} {life : Life} {world : World}

namespace Life.Follows

/-- A node that ends follows the ledger from its disk. -/
lemma stop (h : life.Follows P hashing log) : life.stop.Follows P hashing log := by
  cases life with
  | up node =>
    have hnode : node.Follows P hashing log := h
    exact ⟨hnode.committed.keeps, hnode.covered⟩
  | down disk => exact h

/-- Other work keeps a node behind the ledger. -/
lemma others (h : life.Follows P hashing log) (other : NodeShared) :
    (life.others other).Follows P hashing log := by
  cases life with
  | up node => exact NodeShared.Follows.congr h rfl
  | down disk => exact h

/-- A node that is started follows the ledger again. -/
lemma start (h : life.Follows P hashing log) (hlog : Ledger P hashing log)
    (hcf : hashing.CollisionFree P) (hgenesis : hashing.Covers P .genesis) {setup : Setup}
    (hbad : setup.config.badBlocks = []) : (life.start P setup).Follows P hashing log := by
  cases life with
  | up node => exact h
  | down disk => exact h.startNode hlog hcf hgenesis hbad

/-- A delivered block changes neither store. -/
lemma receiveProposal (h : life.Follows P hashing log) (hcf : hashing.CollisionFree P)
    {block : Block} (hcovers : hashing.Covers P block) :
    (life.call (Node.receiveProposal P block)).Follows P hashing log := by
  cases life with
  | up node => exact NodeShared.Follows.receiveProposal h hcf hcovers
  | down disk => exact h

variable (h : life.Follows P hashing pre) (hlog : Ledger P hashing log) (hpre : pre <+: log)
  (hcf : hashing.CollisionFree P)
  (hcan : ∀ node, life = .up node → CanFollow P hashing log world node)

include h hlog hpre hcf hcan

/-- A round of the commit loop moves a follower along the ledger, at most. -/
lemma commitNext : ∃ pre', pre' <+: log ∧
    (life.call (Node.commitNext P world)).Follows P hashing pre' := by
  cases life with
  | up node => exact NodeShared.Follows.commitNext h hlog hpre hcf (hcan node rfl)
  | down disk => exact ⟨pre, hpre, h⟩

/-- A commit that is interrupted is one of the next entry. -/
lemma interrupt (treeWritten : Bool) : ∃ pre', pre' <+: log ∧
    (life.interrupt P world treeWritten).Follows P hashing pre' := by
  cases life with
  | down disk => exact ⟨pre, hpre, h⟩
  | up node =>
    have hnode : node.Follows P hashing pre := h
    simp only [Life.interrupt]
    cases hnext : node.blockCache.getNextCommitBlock with
    | none => exact ⟨pre, hpre, h.stop⟩
    | some block =>
      simp only
      cases hvalid : node.validateBlock P world.blockReads block with
      | ok u =>
        obtain ⟨entry, hentry, hsame⟩ := hnode.next hlog hpre hcf (hcan node rfl) hnext hvalid
        exact ⟨pre ++ [entry], hentry, hnode.commitInterrupted (hlog.of_start hentry).last hsame
          (hnode.cached.getNextCommitBlock hnext).2.2.1 treeWritten⟩
      | err e => exact ⟨pre, hpre, h.stop⟩
      | panic => exact ⟨pre, hpre, h.stop⟩

end Life.Follows

namespace Cluster

variable {ι : Type} {self : Cluster ι} {setups : Setups ι}

/-- The validator commits a block. -/
lemma Inv.concat (h : self.Inv P hashing) {block : Block} {validator : Life}
    (hblock : Extends P hashing self.log block)
    (hvalidator : validator.Follows P hashing (self.log ++ [block])) :
    Inv P hashing { self with log := self.log ++ [block], validator := validator } := by
  refine ⟨h.ledger.concat hblock, hvalidator, fun i => ?_⟩
  obtain ⟨pre, hpre, hfollows⟩ := h.follower i
  exact ⟨pre, hpre.trans (List.prefix_append _ _), hfollows⟩

/-- A cluster that was never started has the invariant. -/
lemma Inv.initial (hempty : treePairs P [] ⊆ hashing.pairs) :
    (Cluster.initial : Cluster ι).Inv P hashing := by
  have hdisk : Life.Follows P hashing [] (.down .empty) :=
    ⟨⟨stores_empty, .new, rfl, .inl holds_new⟩, fun height block hget => by
      simp [Disk.empty, BlockStore.get, BlockStore.empty] at hget⟩
  exact ⟨.nil hempty, hdisk, fun _ => ⟨[], List.prefix_rfl, hdisk⟩⟩

variable [DecidableEq ι]

/-- One of the nodes that follow changes. -/
lemma Inv.onFollower (h : self.Inv P hashing) (i : ι) {f : Life → Life}
    (hf : ∀ pre, pre <+: self.log → (self.follower i).Follows P hashing pre →
      ∃ pre', pre' <+: self.log ∧ (f (self.follower i)).Follows P hashing pre') :
    (self.onFollower i f).Inv P hashing := by
  refine ⟨h.ledger, h.validator, fun j => ?_⟩
  obtain ⟨pre, hpre, hfollows⟩ := h.follower j
  by_cases hij : j = i
  · subst hij
    change ∃ pre, pre <+: self.log ∧
      (Function.update self.follower j (f (self.follower j)) j).Follows P hashing pre
    rw [Function.update_self]
    exact hf pre hpre hfollows
  · change ∃ pre, pre <+: self.log ∧
      (Function.update self.follower i (f (self.follower i)) j).Follows P hashing pre
    rw [Function.update_of_ne hij]
    exact ⟨pre, hpre, hfollows⟩

/-- **Every step keeps the invariant.**

**Proof sketch.** By cases on the step. A proposal extends the ledger by a block that follows it,
whether or not the process ends within its commit; the other steps leave the ledger and concern one
node, which follows it by the lemmas of `Life.Follows`. -/
theorem Inv.step (hcf : hashing.CollisionFree P) (hgenesis : hashing.Covers P .genesis)
    (hvalidator : setups.validator.config.badBlocks = [])
    (hfollower : ∀ i, (setups.follower i).config.badBlocks = []) (h : self.Inv P hashing)
    {op : ClusterStep ι} (hallowed : self.Allowed P hashing op) :
    (self.step P setups op).Inv P hashing := by
  cases op with
  | propose world =>
    cases hlife : self.validator with
    | down disk =>
      simp only [Cluster.step, hlife]
      exact h
    | up node =>
      have hnode : node.Follows P hashing self.log := by
        have := h.validator
        rwa [hlife] at this
      simp only [Cluster.step, hlife]
      rcases hnode.proposeTick hcf (hallowed node hlife) with
        ⟨block, hok, hblock, hafter⟩ | ⟨hnot, hafter⟩
      · revert hok hafter
        rcases proposeTick P world node with ⟨outcome, node'⟩
        rintro rfl hafter
        exact h.concat hblock hafter
      · revert hnot hafter
        rcases proposeTick P world node with ⟨block | e | _, node'⟩
        · intro hnot
          exact absurd rfl (hnot block)
        · exact fun _ hafter => ⟨h.ledger, hafter, h.follower⟩
        · exact fun _ hafter => ⟨h.ledger, hafter, h.follower⟩
  | proposeInterrupted world treeWritten =>
    cases hlife : self.validator with
    | down disk =>
      simp only [Cluster.step, hlife]
      exact h
    | up node =>
      have hnode : node.Follows P hashing self.log := by
        have := h.validator
        rwa [hlife] at this
      have hstopped : Life.Follows P hashing self.log (.down node.disk) :=
        ⟨hnode.committed.keeps, hnode.covered⟩
      simp only [Cluster.step, hlife]
      rcases hnode.proposeTick hcf (hallowed node hlife) with
        ⟨block, hok, hblock, -⟩ | ⟨hnot, -⟩
      · revert hok
        rcases proposeTick P world node with ⟨outcome, node'⟩
        rintro rfl
        exact h.concat hblock
          (hnode.commitInterrupted hblock (.refl block) hblock.covers treeWritten)
      · revert hnot
        rcases proposeTick P world node with ⟨block | e | _, node'⟩
        · intro hnot
          exact absurd rfl (hnot block)
        · exact fun _ => ⟨h.ledger, hstopped, h.follower⟩
        · exact fun _ => ⟨h.ledger, hstopped, h.follower⟩
  | validatorOthers other => exact ⟨h.ledger, h.validator.others other, h.follower⟩
  | validatorStop => exact ⟨h.ledger, h.validator.stop, h.follower⟩
  | validatorStart =>
    exact ⟨h.ledger, h.validator.start h.ledger hcf hgenesis hvalidator, h.follower⟩
  | deliver i block =>
    exact h.onFollower i fun pre hpre hlife => ⟨pre, hpre, hlife.receiveProposal hcf hallowed⟩
  | commitNext i world =>
    exact h.onFollower i fun pre hpre hlife => hlife.commitNext h.ledger hpre hcf hallowed
  | commitInterrupted i world treeWritten =>
    exact h.onFollower i fun pre hpre hlife =>
      hlife.interrupt h.ledger hpre hcf hallowed treeWritten
  | others i other => exact h.onFollower i fun pre hpre hlife => ⟨pre, hpre, hlife.others other⟩
  | stop i => exact h.onFollower i fun pre hpre hlife => ⟨pre, hpre, hlife.stop⟩
  | start i =>
    exact h.onFollower i fun pre hpre hlife =>
      ⟨pre, hpre, hlife.start (h.ledger.of_start hpre) hcf hgenesis (hfollower i)⟩

end Cluster

end Cluster

/-! ## Agreement -/

/-- **A node is behind another one**: its elements are those that the other one recorded at heights
that it has confirmed, and it stores blocks with the same headers, roots and leaves up to there. -/
structure Behind (P : Primitives) (node node' : NodeShared) : Prop where
  entries : ∀ (e : Element) (k : ℕ), node.notesTree.tree.entries[e]? = some k ↔
    node'.notesTree.tree.entries[e]? = some k ∧ k ≤ node.height
  blocks : ∀ height, 0 < height → height ≤ node.height → ∃ block block',
    node.blockStore.get height = some block ∧ node'.blockStore.get height = some block' ∧
      StandsFor block block'
  root : node.height = node'.height →
    node.notesTree.tree.rootHash P.poseidon = node'.notesTree.tree.rootHash P.poseidon

section Agreement

variable {P : Primitives} {hashing : Hashing} {log pre pre' : List Block}
  {node node' : NodeShared}

/-- The blocks of a start of a ledger are those of the heights up to its length. -/
lemma Ledger.mem_of_height_le (hlog : Ledger P hashing log) (hpre : pre <+: log) {block : Block}
    (hmem : block ∈ log) (hle : block.height ≤ pre.length) : block ∈ pre := by
  obtain ⟨before, hbefore, hblock⟩ := hlog.exists_start hmem
  have hlen : (before ++ [block]).length ≤ pre.length := by
    rw [List.length_append, List.length_singleton, ← hblock.height]
    exact hle
  exact (List.prefix_of_prefix_length_le hbefore hpre hlen).subset
    (List.mem_append_right _ List.mem_cons_self)

/-- A ledger has a block for each height. -/
lemma Ledger.exists_height (hlog : Ledger P hashing log) {height : ℕ} (hpos : 0 < height)
    (hle : height ≤ log.length) : ∃ block ∈ log, block.height = height := by
  induction hlog with
  | nil =>
    rw [List.length_nil] at hle
    omega
  | @concat log block hlog hblock ih =>
    rw [List.length_append, List.length_singleton] at hle
    rcases Nat.lt_or_ge log.length height with hlt | hge
    · refine ⟨block, List.mem_append_right _ List.mem_cons_self, ?_⟩
      rw [hblock.height]
      exact le_antisymm hlt hle
    · obtain ⟨old, hmem, hheight⟩ := ih hge
      exact ⟨old, List.mem_append_left _ hmem, hheight⟩

/-- **Nodes with starts of one ledger**: the one with fewer blocks is behind the other one. -/
lemma NodeShared.At.behind (hlog : Ledger P hashing log) (h : node.At P pre)
    (hpre : pre <+: log) (h' : node'.At P pre') (hpre' : pre' <+: log)
    (hle : node.height ≤ node'.height) : Behind P node node' := by
  have hlen : pre.length ≤ pre'.length := by
    rw [← h.height, ← h'.height]
    exact hle
  have hsub : pre <+: pre' := List.prefix_of_prefix_length_le hpre hpre' hlen
  have hledger := hlog.of_start hpre'
  refine ⟨fun e k => ?_, fun height hpos hheight => ?_, fun heq => ?_⟩
  · rw [h.holds.recorded, h'.holds.recorded, h.height]
    constructor
    · rintro ⟨block, hmem, rfl, hleaf⟩
      exact ⟨⟨block, hsub.subset hmem, rfl, hleaf⟩, (hlog.of_start hpre).height_le hmem⟩
    · rintro ⟨⟨block, hmem, rfl, hleaf⟩, hk⟩
      exact ⟨block, hledger.mem_of_height_le hsub hmem hk, rfl, hleaf⟩
  · rw [h.height] at hheight
    obtain ⟨entry, hmem, rfl⟩ := (hlog.of_start hpre).exists_height hpos hheight
    obtain ⟨block, hget, hsame⟩ := h.stores.get (hlog.of_start hpre) hmem
    obtain ⟨block', hget', hsame'⟩ := h'.stores.get hledger (hsub.subset hmem)
    exact ⟨block, block', hget, hget', hsame.header.trans hsame'.header.symm,
      hsame.root.trans hsame'.root.symm, hsame.leaves.trans hsame'.leaves.symm⟩
  · have hpres : pre = pre' := by
      refine eq_of_starts hpre hpre' ?_
      rw [← h.height, ← h'.height, heq]
    rw [h.holds.rootHash_eq, h'.holds.rootHash_eq, hpres]

end Agreement

namespace Cluster

variable {ι : Type} [DecidableEq ι]

/-- The node runs. -/
def Running (self : Cluster ι) (node : NodeShared) : Prop :=
  self.validator = .up node ∨ ∃ i, self.follower i = .up node

omit [DecidableEq ι] in
/-- A running node has a start of the ledger. -/
lemma Inv.running {P : Primitives} {hashing : Hashing} {self : Cluster ι}
    (h : self.Inv P hashing) {node : NodeShared} (hrun : self.Running node) :
    ∃ pre, pre <+: self.log ∧ node.At P pre := by
  rcases hrun with hlife | ⟨i, hlife⟩
  · have hnode := h.validator
    rw [hlife] at hnode
    exact ⟨self.log, List.prefix_rfl, NodeShared.Follows.committed hnode⟩
  · obtain ⟨pre, hpre, hnode⟩ := h.follower i
    rw [hlife] at hnode
    exact ⟨pre, hpre, NodeShared.Follows.committed hnode⟩

/-- **Replicas agree.** In every state of every run of a cluster that starts with empty directories,
whatever the network delivers and wherever nodes stop and start, no running node is ahead of the
validator, and of two running nodes the one with the lower confirmed height is behind the
other: it has the elements that the other one recorded up to that height, and its blocks have the
same headers, roots and leaves. It is asked that commits of valid blocks succeed, that nobody forges
the signature of the leader, and that nothing that is hashed collides.

**Proof sketch.** The invariant holds in every state (`Inv.step`): the validator has the ledger and
every other node a start of it. A running node is at the place of its confirmed height, and of two
starts of one ledger the shorter is a start of the longer. -/
theorem replicas_agree {P : Primitives} {hashing : Hashing} {setups : Setups ι}
    (hcf : hashing.CollisionFree P) (hempty : treePairs P [] ⊆ hashing.pairs)
    (hgenesis : hashing.Covers P .genesis)
    (hvalidator : setups.validator.config.badBlocks = [])
    (hfollower : ∀ i, (setups.follower i).config.badBlocks = [])
    (steps : List (ClusterStep ι))
    (hallowed : Runs.Along (step P setups) (Allowed P hashing) initial steps) :
    ∀ self ∈ Runs.states (step P setups) initial steps,
      (∀ validator node, self.validator = .up validator → self.Running node →
        node.height ≤ validator.height) ∧
      ∀ node node', self.Running node → self.Running node' → node.height ≤ node'.height →
        Behind P node node' := by
  intro self hself
  have hinv : self.Inv P hashing :=
    Runs.forall_states (fun s op _ hinv hop => hinv.step hcf hgenesis hvalidator hfollower hop)
      (Inv.initial hempty) (fun _ _ => trivial) hallowed self hself
  constructor
  · intro validator node hlife hrun
    obtain ⟨pre, hpre, hnode⟩ := hinv.running hrun
    have hcommitted := hinv.validator
    rw [hlife] at hcommitted
    rw [hnode.height, (NodeShared.Follows.committed hcommitted).height]
    exact hpre.length_le
  · intro node node' hrun hrun' hle
    obtain ⟨pre, hpre, hnode⟩ := hinv.running hrun
    obtain ⟨pre', hpre', hnode'⟩ := hinv.running hrun'
    exact hnode.behind hinv.ledger hpre hnode' hpre' hle

end Cluster

/-! ### A cluster of two nodes -/

/-- A node that is started with empty directories. -/
lemma startNode_empty (P : Primitives) (setup : Setup) :
    startNode P setup .reliable .empty = .up (.new P setup.config setup.localPeer
      setup.validatorSets .empty .new .genesis) := by
  obtain ⟨tree, hload, -, -⟩ := Disk.inv_empty.load P
  have hrun : loadDbAndSmirk P .reliable setup.config .empty =
      (.ok ⟨.empty, .new, .genesis⟩, .empty) := by
    simp only [loadDbAndSmirk, Program.run_bind, Program.run_get, Program.run_ensure,
      Program.run_lift, hload, Outcome.mapErr, StartWorld.reliable, if_true]
    rfl
  rw [startNode, hrun]

namespace SmallCluster

/-- A digest tells the length of a message and the sum of its bytes. -/
def primitives : Primitives where
  poseidon := Regrouped.sumHash
  keccak256 bytes := BitVec.ofNat 256 (1000 * (bytes.map BitVec.toNat).sum + bytes.length)
  verifyProof _ _ := none
  fromCompact _ := true
  recoverEcdsa _ _ := some 0
  signEcdsa _ := .default

/-- The address of the leader. -/
def leader : Address := addressFromPublicKey primitives 0

/-- What the nodes are started with. -/
def setup (mode : Mode) : Setup where
  config := { mode := mode, badBlocks := [], blockTxnsCount := 1, safeEthHeightOffset := 0 }
  localPeer := leader
  validatorSets := [⟨0, [leader]⟩]

/-- The validator and one other node. -/
def setups : Setups Unit := ⟨setup .validator, fun _ => setup .prover⟩

/-- Storage that works, and the contract as deployed. -/
def world : World := .reliable fun _ => .constant .initial

/-- A node that was started with empty directories. -/
def started (mode : Mode) : NodeShared :=
  .new primitives (setup mode).config leader [⟨0, [leader]⟩] .empty .new .genesis

/-- The first block of the validator. -/
def block : Block :=
  proposedBlock primitives (Block.genesis.hash primitives) 1
    [⟨.newEndorsement (Block.genesis.hash primitives) 1, .default, leader⟩]
    ((Smirk.Tree.new : Smirk.Tree MERKLE_TREE_DEPTH BlockHeight).rootHash Regrouped.sumHash) []

/-- The validator chooses the first block. -/
lemma tickBlock_started : (tickBlock primitives world (started .validator)).1 = .ok block := by
  rfl

/-- The validator after its tick, and the other node after it received the block and committed
it. -/
def proposed : NodeShared := (proposeTick primitives world (started .validator)).2

/-- The other node after the delivery. -/
def delivered : NodeShared := (receiveProposal primitives block (started .prover)).2

/-- The other node after its commit. -/
def committed : NodeShared := (commitNext primitives world delivered).2

/-- The tick of the validator proposes the block. -/
lemma proposeTick_started :
    proposeTick primitives world (started .validator) = (.ok block, proposed) :=
  Prod.ext rfl rfl

/-- Both nodes are started, and the block is proposed, delivered and committed. -/
def steps : List (ClusterStep Unit) :=
  [.validatorStart, .start (), .propose world, .deliver () block, .commitNext () world]

/-- The pairs of the empty tree, and the messages of the two blocks. -/
def hashing : Hashing where
  pairs := treePairs primitives []
  messages := Block.genesis.content.messages primitives ∪ block.content.messages primitives

/-- The genesis block is covered. -/
lemma covers_genesis : hashing.Covers primitives .genesis :=
  ⟨⟨by decide, by decide, by decide⟩, Set.subset_union_left⟩

/-- The first block is covered. -/
lemma covers_block : hashing.Covers primitives block :=
  ⟨⟨by decide, by decide, by decide⟩, Set.subset_union_right⟩

/-- The nodes of the empty tree. -/
lemma node_empty {k i : ℕ} (hk : k ≤ 160) :
    SparseMerkle.node (Smirk.merge Regrouped.sumHash)
      (Smirk.occupant (MERKLE_TREE_DEPTH - 1) []) k i = BitVec.ofNat 256 (2 ^ k - 1) := by
  induction k generalizing i with
  | zero => rfl
  | succ k ih =>
    have hbound : 2 ^ k ≤ 2 ^ 160 := Nat.pow_le_pow_right (by omega) (by omega)
    have hpos : 0 < 2 ^ k := by positivity
    have hM := Element.lt_MODULUS
    rw [SparseMerkle.node, ih (by omega), ih (by omega), Regrouped.merge_ofNat (by omega), pow_succ]
    congr 1
    omega

/-- The digests of the empty subtrees tell the levels. -/
lemma eq_of_ofNat_eq {k k' : ℕ} (hk : k < 160) (hk' : k' < 160)
    (h : BitVec.ofNat 256 (2 ^ (k + 1) - 1) = BitVec.ofNat 256 (2 ^ (k' + 1) - 1)) : k = k' := by
  have hbound : ∀ m < 160, 2 ^ (m + 1) ≤ 2 ^ 160 := fun m hm =>
    Nat.pow_le_pow_right (by omega) (by omega)
  have hb := hbound k hk
  have hb' := hbound k' hk'
  have hpos : 0 < 2 ^ (k + 1) := by positivity
  have hpos' : 0 < 2 ^ (k' + 1) := by positivity
  have hval := congrArg BitVec.toNat h
  rw [BitVec.toNat_ofNat, BitVec.toNat_ofNat, Nat.mod_eq_of_lt (by omega),
    Nat.mod_eq_of_lt (by omega)] at hval
  have := Nat.pow_right_injective (le_refl 2) (show 2 ^ (k + 1) = 2 ^ (k' + 1) by omega)
  omega

/-- Nothing that the sample hashes collides. -/
lemma collisionFree : hashing.CollisionFree primitives where
  merge := by
    rintro _ ⟨k, i, hk, -, rfl⟩ _ ⟨k', i', hk', -, rfl⟩ h
    have hnode : SparseMerkle.node (Smirk.merge Regrouped.sumHash)
        (Smirk.occupant (MERKLE_TREE_DEPTH - 1) []) (k + 1) i =
        SparseMerkle.node (Smirk.merge Regrouped.sumHash)
          (Smirk.occupant (MERKLE_TREE_DEPTH - 1) []) (k' + 1) i' := h
    have hk : k < 160 := hk
    have hk' : k' < 160 := hk'
    rw [node_empty (by omega), node_empty (by omega)] at hnode
    obtain rfl := eq_of_ofNat_eq hk hk' hnode
    have hpair : ∀ j, SparseMerkle.node (Smirk.merge Regrouped.sumHash)
        (Smirk.occupant (MERKLE_TREE_DEPTH - 1) []) k j = BitVec.ofNat 256 (2 ^ k - 1) :=
      fun j => node_empty (by omega)
    change (SparseMerkle.node (Smirk.merge Regrouped.sumHash) _ k (2 * i),
      SparseMerkle.node (Smirk.merge Regrouped.sumHash) _ k (2 * i + 1)) =
        (SparseMerkle.node (Smirk.merge Regrouped.sumHash) _ k (2 * i'),
          SparseMerkle.node (Smirk.merge Regrouped.sumHash) _ k (2 * i' + 1))
    rw [hpair, hpair, hpair, hpair]
  keccak256 := by
    have hpairwise : [Block.genesis.content.headerMessage, Block.genesis.content.message primitives,
        block.content.headerMessage, block.content.message primitives].Pairwise
          fun m m' => primitives.keccak256 m ≠ primitives.keccak256 m' := by
      decide +kernel
    have hmem : ∀ m, m ∈ hashing.messages → m ∈ [Block.genesis.content.headerMessage,
        Block.genesis.content.message primitives, block.content.headerMessage,
        block.content.message primitives] := by
      rintro m ((rfl | rfl) | (rfl | rfl)) <;> simp
    have : Std.Symm fun m m' => primitives.keccak256 m ≠ primitives.keccak256 m' :=
      ⟨fun _ _ => Ne.symm⟩
    intro m hm m' hm' h
    by_contra hne
    exact hpairwise.forall (hmem m hm) (hmem m' hm') hne h

/-- The block hashes no pair beyond those of the empty tree. -/
lemma pairs_block {node : NodeShared} (h : node.notesTree = .new) :
    block.content.pairs primitives node.notesTree ⊆ hashing.pairs := by
  rw [h]
  exact fun _ hq => hq

/-- A block without leaves can be committed by any node. -/
lemma committable_block (node : NodeShared) : Committable world node block := by
  have hleaves : block.content.state.leavesNonNull = [] := rfl
  have hnew : ∀ flag, newLeaves node.notesTree block.content.state flag = [] := by
    intro flag
    cases flag <;> rfl
  refine ⟨rfl, ⟨fun _ leaf hleaf => ?_, ?_, fun _ => rfl⟩⟩
  · rw [hleaves] at hleaf
    cases hleaf
  · rw [hnew]
    exact ⟨by simp, List.Pairwise.nil, by simp⟩

/-- The validator may propose. -/
lemma canPropose : CanPropose primitives hashing world (started .validator) := by
  have hchosen : ∀ b mid, tickBlock primitives world (started .validator) = (.ok b, mid) →
      b = block := by
    intro b mid h
    have hok := tickBlock_started
    rw [h] at hok
    exact Outcome.ok.inj hok
  refine ⟨by decide, fun b mid h _ => ?_, fun b mid h _ => ?_⟩
  · rw [hchosen b mid h]
    exact committable_block mid
  · rw [hchosen b mid h]
    exact ⟨covers_block, pairs_block rfl⟩

/-- The other node may follow. -/
lemma canFollow : CanFollow primitives hashing [block] world delivered := by
  have hnext : ∀ b, delivered.blockCache.getNextCommitBlock = some b → b = block := by
    intro b h
    have hsome : delivered.blockCache.getNextCommitBlock = some block := rfl
    rw [hsome] at h
    exact (Option.some.inj h).symm
  refine ⟨fun b h _ => ?_, fun b h _ => ?_, fun b h _ => ?_⟩
  · rw [hnext b h]
    exact committable_block _
  · rw [hnext b h]
    exact pairs_block rfl
  · rw [hnext b h]
    exact ⟨block, List.mem_cons_self, rfl⟩

/-- The nodes one after the other. -/
lemma onFollower_eq (log : List Block) (validator life : Life) (f : Life → Life) :
    (⟨log, validator, fun _ => life⟩ : Cluster Unit).onFollower () f =
      ⟨log, validator, fun _ => f life⟩ := by
  rw [Cluster.onFollower, Cluster.mk.injEq]
  exact ⟨rfl, rfl, funext fun _ => Function.update_self _ _ _⟩

/-- The validator starts from genesis. -/
lemma step_validatorStart : Cluster.initial.step primitives setups .validatorStart =
    ⟨[], .up (started .validator), fun _ => .down .empty⟩ := by
  rw [Cluster.step, Cluster.initial, Life.start, setups, startNode_empty]
  rfl

/-- The other node starts from genesis. -/
lemma step_start : Cluster.step primitives setups
    ⟨[], .up (started .validator), fun _ => .down .empty⟩ (.start ()) =
      ⟨[], .up (started .validator), fun _ => .up (started .prover)⟩ := by
  rw [Cluster.step, onFollower_eq, Life.start, setups, startNode_empty]
  rfl

/-- The validator proposes and commits the block. -/
lemma step_propose : Cluster.step primitives setups
    ⟨[], .up (started .validator), fun _ => .up (started .prover)⟩ (.propose world) =
      ⟨[block], .up proposed, fun _ => .up (started .prover)⟩ :=
  Cluster.step_propose_of_ok _ proposeTick_started

/-- The other node receives it. -/
lemma step_deliver : Cluster.step primitives setups
    ⟨[block], .up proposed, fun _ => .up (started .prover)⟩ (.deliver () block) =
      ⟨[block], .up proposed, fun _ => .up delivered⟩ := by
  rw [Cluster.step, onFollower_eq, Life.call, delivered]

/-- The other node commits it. -/
lemma step_commitNext : Cluster.step primitives setups
    ⟨[block], .up proposed, fun _ => .up delivered⟩ (.commitNext () world) =
      ⟨[block], .up proposed, fun _ => .up committed⟩ := by
  rw [Cluster.step, onFollower_eq, Life.call, committed]

/-- The state at the end of the run. -/
lemma run_steps : steps.foldl (Cluster.step primitives setups) .initial =
    ⟨[block], .up proposed, fun _ => .up committed⟩ := by
  simp only [steps, List.foldl_cons, List.foldl_nil, step_validatorStart, step_start, step_propose,
    step_deliver, step_commitNext]

/-- Every step of the run is allowed. -/
lemma allowed_steps :
    Runs.Along (Cluster.step primitives setups) (Cluster.Allowed primitives hashing) .initial
      steps := by
  refine ⟨trivial, trivial, ?_, covers_block, ?_, trivial⟩
  · rw [step_validatorStart, step_start]
    rintro node ⟨⟩
    exact canPropose
  · rw [step_validatorStart, step_start, step_propose, step_deliver]
    rintro node ⟨⟩
    exact canFollow

end SmallCluster

open SmallCluster in
/-- The validator proposes a block, and the other node receives it and commits it. -/
theorem Cluster.replicas_agree_small :
    ∃ self ∈ Runs.states (step primitives setups) initial steps,
      self.validator = .up proposed ∧ self.follower () = .up committed ∧
      proposed.height = 1 ∧ committed.height = 1 ∧ Behind primitives committed proposed := by
  obtain ⟨-, hbehind⟩ := replicas_agree collisionFree (fun _ hq => hq) covers_genesis rfl
    (fun _ => rfl) steps allowed_steps _ (Runs.foldl_mem_states _ _)
  refine ⟨_, Runs.foldl_mem_states _ _, ?_⟩
  rw [run_steps] at hbehind ⊢
  exact ⟨rfl, rfl, rfl, rfl, hbehind _ _ (.inr ⟨(), rfl⟩) (.inl rfl) (by decide)⟩

end TempoRollup.Node
