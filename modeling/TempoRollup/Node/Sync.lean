import TempoRollup.Node.Proposal

set_option relaxedAutoImplicit false
set_option autoImplicit false

/-!
# Fast sync

`handle_snapshot_chunk_fast` of `node/src/sync.rs`: a prover that is far behind takes the
elements of the tree from a peer, with the block that they lead to.

## Main definitions

* `handleSnapshotChunkFast`.
* `Adopts` — the elements of a chunk pass the handler's own checks.

## Main results

* `handleSnapshotChunkFast_of_not_adopts` — otherwise nothing changes.
* `handleSnapshotChunkFast_untouched_iff` — when a chunk with a block that is not valid leaves
  the tree and the confirmed height as they were.

## Design

The handler goes over the elements in the order of a hash set; here they keep the order of the
chunk. The order only decides which of several collisions is reported. The errors of the sync
worker are those of the node.
-/

open Exec

namespace TempoRollup.Node

/-- `height - BlockHeight(1)`. -/
def BlockHeight.prev (height : BlockHeight) : BlockHeight := (height + (U64 - 1)) % U64

section Fast

variable (P : Primitives) (world : World)

/-- The elements of a chunk that the tree does not have. -/
def newElements (notesTree : PersistentMerkleTree) (elements : List Element) : List Element :=
  elements.dedup.filter fun e => !notesTree.tree.containsElement e

/-- Those of them that are not leaves of the block: they go into the tree at once. -/
def olderElements (notesTree : PersistentMerkleTree) (block : Block) (elements : List Element) :
    List Element :=
  (newElements notesTree elements).filter fun e => !block.content.state.leavesNonNull.contains e

/-- The checks of `handle_snapshot_chunk_fast`: the batch for the tree, or nothing when the chunk
is dropped. -/
def checkElements (notesTree : PersistentMerkleTree) (block : Block) (elements : List Element) :
    Outcome Error (Option (Smirk.Batch MERKLE_TREE_DEPTH BlockHeight)) := do
  let root ← (notesTree.tree.rootHashWith P.poseidon (newElements notesTree elements)).unwrap
  if root ≠ block.rootHash then pure none
  else
    let batch ← (Smirk.Batch.fromEntries
      ((olderElements notesTree block elements).map fun e => (e, 0))).mapErr .collision
    let missing := block.content.state.leavesNonNull.any fun leaf =>
      !(newElements notesTree elements).contains leaf
    pure (if missing then none else some batch)

/-- The end of `handle_snapshot_chunk_fast`: the elements go into the tree, the height before the
block is confirmed, and the block is received. -/
def adoptElements (block : Block) (batch : Smirk.Batch MERKLE_TREE_DEPTH BlockHeight) :
    Call Unit := do
  Program.zoom NodeShared.notesTree (fun notesTree self => { self with notesTree := notesTree })
    ((Smirk.Persistent.insertBatch P.poseidon world.treeWrites batch).mapErr .smirk)
  Program.modify fun self => { self with blockCache := self.blockCache.confirm block.height.prev }
  receiveProposal P block
  emit .tick

/-- `handle_snapshot_chunk_fast`. -/
def handleSnapshotChunkFast (block : Option Block) (elements : List Element) : Call Unit :=
  match block with
  | none => pure ()
  | some block => do
    let self ← Program.get
    match ← Program.lift (checkElements P self.notesTree block elements) with
    | none => pure ()
    | some batch => adoptElements P world block batch

end Fast

/-! ## What a chunk changes -/

section Changes

variable {P : Primitives} {world : World} {self : NodeShared} {block : Block}
  {elements : List Element}

/-- The elements of a chunk pass the checks of the handler: with them the root is the block's,
the leaves of the block are among them, and the others can be inserted. -/
structure Adopts (P : Primitives) (notesTree : PersistentMerkleTree) (block : Block)
    (elements : List Element) : Prop where
  root : notesTree.tree.rootHashWith P.poseidon (newElements notesTree elements) =
    .ok block.rootHash
  complete : ∀ leaf ∈ block.content.state.leavesNonNull, leaf ∈ newElements notesTree elements
  fresh : notesTree.tree.Fresh (olderElements notesTree block elements)

/-- The notes tree, in memory and on disk, and the confirmed height are as they were. -/
def Untouched (self after : NodeShared) : Prop :=
  after.notesTree = self.notesTree ∧ after.height = self.height

/-- The checks of a chunk whose root is the block's. -/
lemma checkElements_of_root {notesTree : PersistentMerkleTree}
    (hroot : notesTree.tree.rootHashWith P.poseidon (newElements notesTree elements) =
      .ok block.rootHash)
    {batch : Smirk.Batch MERKLE_TREE_DEPTH BlockHeight}
    (hbatch : Smirk.Batch.fromEntries ((olderElements notesTree block elements).map
      fun e => (e, 0)) = .ok batch) :
    checkElements P notesTree block elements =
      .ok (if block.content.state.leavesNonNull.any fun leaf =>
        !(newElements notesTree elements).contains leaf then none else some batch) := by
  unfold checkElements
  rw [hroot, hbatch]
  simp only [Outcome.unwrap, Outcome.ok_bind, ne_eq, not_true_eq_false, if_false, Outcome.mapErr]
  rfl

/-- The elements that are not leaves of the block go into the batch, with height zero. -/
lemma entries_of_checkElements {batch : Smirk.Batch MERKLE_TREE_DEPTH BlockHeight}
    {notesTree : PersistentMerkleTree}
    (hcheck : checkElements P notesTree block elements = .ok (some batch)) :
    batch.entries = (olderElements notesTree block elements).map fun e => (e, 0) := by
  unfold checkElements at hcheck
  obtain ⟨root, -, hcheck⟩ := Outcome.bind_eq_ok.1 hcheck
  split_ifs at hcheck
  · cases hcheck
  · obtain ⟨batch', hbatch, hcheck⟩ := Outcome.bind_eq_ok.1 hcheck
    have hsome := Outcome.ok.inj hcheck
    split_ifs at hsome
    obtain rfl : batch' = batch := Option.some.inj hsome
    exact Smirk.Batch.entries_of_fromEntries (Outcome.mapErr_eq_ok.1 hbatch)

/-- **What passes the checks** but for the last, of the tree. -/
lemma checkElements_eq_some {batch : Smirk.Batch MERKLE_TREE_DEPTH BlockHeight}
    {notesTree : PersistentMerkleTree}
    (hok : checkElements P notesTree block elements = .ok (some batch)) :
    notesTree.tree.rootHashWith P.poseidon (newElements notesTree elements) =
        .ok block.rootHash ∧
      (∀ leaf ∈ block.content.state.leavesNonNull, leaf ∈ newElements notesTree elements) ∧
      batch.elements = olderElements notesTree block elements := by
  have helements : batch.elements = olderElements notesTree block elements := by
    rw [Smirk.Batch.elements, entries_of_checkElements hok, List.map_map]
    exact List.map_id _
  unfold checkElements at hok
  obtain ⟨root, hroot, hok⟩ := Outcome.bind_eq_ok.1 hok
  split_ifs at hok with hne
  · cases hok
  · rw [not_not] at hne
    obtain ⟨batch', hbatch, hok⟩ := Outcome.bind_eq_ok.1 hok
    have hsome := Outcome.ok.inj hok
    split_ifs at hsome with hmissing
    · refine ⟨?_, ?_, helements⟩
      · cases hdry : notesTree.tree.rootHashWith P.poseidon (newElements notesTree elements) with
        | ok root' =>
          rw [hdry] at hroot
          cases hroot
          rw [hne]
        | err e => exact e.elim
        | panic =>
          rw [hdry] at hroot
          cases hroot
      · simpa using hmissing

/-- Elements that can be adopted pass the checks. -/
lemma Adopts.checkElements {notesTree : PersistentMerkleTree}
    (h : Adopts P notesTree block elements) :
    ∃ batch, checkElements P notesTree block elements = .ok (some batch) := by
  have hmissing : (block.content.state.leavesNonNull.any fun leaf =>
      !(newElements notesTree elements).contains leaf) = false := by
    simpa using h.complete
  rcases Smirk.Batch.fromEntries_cases MERKLE_TREE_DEPTH_le
    (olderElements notesTree block elements) 0 with ⟨-, batch, hok, -⟩ | ⟨hnot, -⟩
  · refine ⟨batch, ?_⟩
    rw [checkElements_of_root h.root hok, hmissing, if_neg Bool.false_ne_true]
  · exact absurd h.fresh.distinct hnot

/-- **A chunk that does not pass the checks changes nothing.** -/
theorem handleSnapshotChunkFast_of_not_adopts (hnot : ¬ Adopts P self.notesTree block elements) :
    (handleSnapshotChunkFast P world (some block) elements self).2 = self := by
  simp only [handleSnapshotChunkFast, Program.run_bind, Program.run_get, Program.run_lift]
  cases hcheck : checkElements P self.notesTree block elements with
  | err e => rfl
  | panic => rfl
  | ok batch? =>
    cases batch? with
    | none => rfl
    | some batch =>
      obtain ⟨hroot, hcomplete, helements⟩ := checkElements_eq_some hcheck
      have hrefused : ¬ self.notesTree.tree.Fresh batch.elements := by
        rw [helements]
        exact fun hfresh => hnot ⟨hroot, hcomplete, hfresh⟩
      obtain ⟨hrefused', hsame⟩ := @Smirk.Persistent.insertBatch_of_not_fresh _ _ P.poseidon _
        MERKLE_TREE_DEPTH_le world.treeWrites _ hrefused
      simp only [adoptElements, Program.run_bind, Program.zoom, Program.mapErr]
      rcases hinsert : Smirk.Persistent.insertBatch P.poseidon world.treeWrites batch
        self.notesTree with ⟨_ | _ | _, notesTree'⟩
      · rw [hinsert] at hrefused'
        exact absurd rfl hrefused'
      · rw [hinsert] at hsame
        simp only at hsame
        rw [hsame]
      · rw [hinsert] at hsame
        simp only at hsame
        rw [hsame]

/-- To receive a block changes neither the tree nor the confirmed height. -/
lemma receiveProposal_keeps (block : Block) :
    (receiveProposal P block).Keeps fun self => (self.notesTree, self.height) := by
  refine .bind .get fun self => .bind (.assert _) fun _ => .bind (.modify fun s => ?_) fun _ =>
    .modify fun s => rfl
  exact Prod.ext rfl (BlockCache.height_insert block)

/-- **What is adopted**: the tree is what the insertion leaves, and if it returned, the confirmed
height is the one before the block. -/
lemma adoptElements_spec (block : Block) (batch : Smirk.Batch MERKLE_TREE_DEPTH BlockHeight) :
    let inserted := Smirk.Persistent.insertBatch P.poseidon world.treeWrites batch self.notesTree
    (adoptElements P world block batch self).2.notesTree = inserted.2 ∧
      (inserted.1 = .ok () →
        (adoptElements P world block batch self).2.height = block.height.prev) := by
  intro inserted
  have hrest : (do receiveProposal P block; emit .tick : Call Unit).Keeps
      fun self => (self.notesTree, self.height) :=
    .bind (receiveProposal_keeps block) fun _ => .modify fun _ => rfl
  constructor
  · -- after the insertion the tree is left alone
    have htree := @Program.view_bind _ _ _ _ _ NodeShared.notesTree
      (Program.zoom NodeShared.notesTree
        (fun notesTree self => { self with notesTree := notesTree })
        ((Smirk.Persistent.insertBatch P.poseidon world.treeWrites batch).mapErr .smirk))
      (fun _ => do
        Program.modify fun self =>
          { self with blockCache := self.blockCache.confirm block.height.prev }
        receiveProposal P block
        emit .tick)
      (fun _ => .bind (.modify fun _ => rfl) fun _ s => congrArg Prod.fst (hrest s)) self
    exact htree.trans (Program.snd_mapErr _ _ _)
  · intro hok
    have hinserted : Smirk.Persistent.insertBatch P.poseidon world.treeWrites batch
        self.notesTree = (.ok (), inserted.2) := Prod.ext hok rfl
    have hrun : adoptElements P world block batch self =
        (do receiveProposal P block; emit .tick : Call Unit) { self with
          notesTree := inserted.2
          blockCache := self.blockCache.confirm block.height.prev } := by
      simp only [adoptElements, Program.run_bind, Program.zoom, Program.mapErr, hinserted,
        Program.run_modify]
    rw [hrun]
    refine (congrArg Prod.snd (hrest _)).trans ?_
    exact (self.blockCache.confirm_frame block.height.prev).1

/-- Neither the configuration nor the block store is touched by what a chunk brings. -/
lemma adoptElements_keeps (world : World) (block : Block)
    (batch : Smirk.Batch MERKLE_TREE_DEPTH BlockHeight) :
    (adoptElements P world block batch).Keeps fun self => (self.config, self.blockStore) := by
  have hreceive : (receiveProposal P block).Keeps fun self => (self.config, self.blockStore) :=
    .bind .get fun _ => .bind (.assert _) fun _ => .bind (.modify fun _ => rfl) fun _ =>
      .modify fun _ => rfl
  exact .bind (fun _ => rfl) fun _ => .bind (.modify fun _ => rfl) fun _ =>
    .bind hreceive fun _ => .modify fun _ => rfl

/-- The elements that are inserted at once are not in the tree. -/
lemma not_mem_keys_of_mem_olderElements {notesTree : PersistentMerkleTree} {e : Element}
    (he : e ∈ olderElements notesTree block elements) : e ∉ notesTree.tree.entries.keys := by
  rw [olderElements, newElements, List.mem_filter, List.mem_filter] at he
  intro hkey
  rw [Std.TreeMap.mem_keys, ← Std.TreeMap.contains_iff_mem] at hkey
  rw [Smirk.Tree.containsElement, hkey] at he
  simp at he

/-- An empty batch changes nothing. -/
lemma insertBatch_of_nil {batch : Smirk.Batch MERKLE_TREE_DEPTH BlockHeight}
    (hnil : batch.elements = []) :
    Smirk.Persistent.insertBatch P.poseidon world.treeWrites batch self.notesTree =
      (.ok (), self.notesTree) := by
  have hentries : batch.entries = [] := List.map_eq_nil_iff.1 hnil
  rw [Smirk.Persistent.insertBatch, hentries]
  rfl

/-- **When a chunk leaves the node as it was.** A chunk whose block is not valid changes neither
the notes tree, in memory or on disk, nor the confirmed height, exactly when it does not pass
the handler's own checks, or has nothing to insert and a block that comes next.

**Proof sketch.** A chunk that does not pass the checks changes nothing. One that passes inserts the
elements that are older than the block, so that the tree is the same only if there are none, and
moves the confirmed height to the one before the block's. -/
theorem handleSnapshotChunkFast_untouched_iff (hinv : self.notesTree.Inv P.poseidon) :
    (self.validateBlock P world.blockReads block ≠ .ok () →
        Untouched self (handleSnapshotChunkFast P world (some block) elements self).2) ↔
      (self.validateBlock P world.blockReads block ≠ .ok () →
        ¬ Adopts P self.notesTree block elements ∨
          (olderElements self.notesTree block elements = [] ∧
            block.height.prev = self.height)) := by
  refine imp_congr_right fun _ => ?_
  by_cases hadopts : Adopts P self.notesTree block elements
  · obtain ⟨batch, hcheck⟩ := hadopts.checkElements
    have hrun : handleSnapshotChunkFast P world (some block) elements self =
        adoptElements P world block batch self := by
      simp only [handleSnapshotChunkFast, Program.run_bind, Program.run_get, Program.run_lift,
        hcheck]
    obtain ⟨-, -, helements⟩ := checkElements_eq_some hcheck
    obtain ⟨htree, hheight⟩ := @adoptElements_spec P world self block batch
    rw [hrun]
    constructor
    · rintro ⟨hsame, hsame'⟩
      refine .inr ?_
      have hnil : olderElements self.notesTree block elements = [] := by
        -- an element that is inserted was not in the tree
        by_contra hne
        obtain ⟨e, he⟩ := List.exists_mem_of_ne_nil _ hne
        refine not_mem_keys_of_mem_olderElements he ?_
        rw [← hsame, htree]
        refine Smirk.Persistent.mem_keys_of_insertBatch MERKLE_TREE_DEPTH_pos
          MERKLE_TREE_DEPTH_le hinv.tree _ ?_ ?_
        · rw [helements]
          exact hadopts.fresh
        · rw [helements]
          exact he
      refine ⟨hnil, ?_⟩
      rw [hnil] at helements
      rw [← hsame', hheight (congrArg Prod.fst (insertBatch_of_nil helements))]
    · rintro (hnot | ⟨hnil, hnext⟩)
      · exact absurd hadopts hnot
      · rw [hnil] at helements
        have hinserted := @insertBatch_of_nil P world self batch helements
        refine ⟨htree.trans (congrArg Prod.snd hinserted), ?_⟩
        rw [hheight (congrArg Prod.fst hinserted), hnext]
  · rw [handleSnapshotChunkFast_of_not_adopts hadopts]
    exact ⟨fun _ => .inl hadopts, fun _ => ⟨rfl, rfl⟩⟩

end Changes

/-! ### A forged block -/

namespace ForgedChunk

/-- No signature is recovered. -/
def primitives : Primitives := { BlockCache.Sample.primitives with poseidon := List.sum }

/-- A prover that starts from genesis. -/
def prover : NodeShared :=
  .new primitives
    { mode := .prover, badBlocks := [], blockTxnsCount := 1, safeEthHeightOffset := 0 }
    0 [⟨0, [0]⟩] .empty .new .genesis

/-- Storage works. -/
def world : World := .reliable fun _ => .constant .initial

/-- An unsigned block of height 5, with the root of the tree that has one element. -/
def block : Block :=
  BlockCache.Sample.emptyBlock 5
    (match (Smirk.Tree.new : Smirk.Tree MERKLE_TREE_DEPTH BlockHeight).rootHashWith
      primitives.poseidon [1] with
    | .ok root => root
    | _ => 0)

/-- An unsigned block with one leaf. -/
def blockWithLeaf : Block where
  content :=
    { header := { height := 5, lastBlockHash := 0, epochId := 0, lastFinalBlockHash := 0,
                  approvals := [] }
      state := { rootHash := 0
                 txns := [{ recentRoot := 0, mbHash := 0, mbValue := 0, inputLeaves := (0, 0)
                            outputLeaves := (7, 0), proof := [] }] } }
  signature := .default

/-- A block without a signature is not valid. -/
lemma validateBlock_unsigned (b : Block) (hheight : b.height = 5) (hsig : b.signature = .default) :
    prover.validateBlock primitives true b = .err .invalidSignature := by
  have hleader : (prover.getLeaderForBlockHeight 5 : Outcome Error Address) = .ok 0 := by
    decide
  unfold NodeShared.validateBlock
  rw [hheight, hsig, hleader]
  rfl

/-- The prover of the sample starts with an empty tree. -/
lemma inv_prover : prover.notesTree.Inv primitives.poseidon :=
  Smirk.Persistent.inv_new MERKLE_TREE_DEPTH_pos

/-- The element of the sample is new. -/
lemma newElements_prover : newElements prover.notesTree [1] = [1] := by decide

/-- The element of the sample is older than the block. -/
lemma olderElements_prover : olderElements prover.notesTree block [1] = [1] := by
  rw [olderElements, newElements_prover]
  rfl

/-- The chunk passes the checks of the handler. -/
lemma adopts_block : Adopts primitives prover.notesTree block [1] := by
  have hfresh : prover.notesTree.tree.Fresh [1] := by
    refine ⟨?_, List.pairwise_singleton _ _, fun e he => absurd he List.not_mem_nil⟩
    intro e he
    rw [List.mem_singleton.1 he]
    decide
  obtain ⟨root, hroot⟩ : ∃ root, prover.notesTree.tree.rootHashWith primitives.poseidon [1] =
      .ok root :=
    ⟨_, Smirk.Tree.rootHashWith_spec MERKLE_TREE_DEPTH_le inv_prover.tree hfresh
      fun e => List.mem_append⟩
  have hblock : block.rootHash = root := by
    change (match (Smirk.Tree.new : Smirk.Tree MERKLE_TREE_DEPTH BlockHeight).rootHashWith
      primitives.poseidon [1] with
      | .ok root => root
      | _ => 0) = root
    rw [show (Smirk.Tree.new : Smirk.Tree MERKLE_TREE_DEPTH BlockHeight).rootHashWith
      primitives.poseidon [1] = .ok root from hroot]
  refine ⟨?_, ?_, ?_⟩
  · rw [newElements_prover, hblock, hroot]
  · intro leaf hleaf
    exact absurd hleaf List.not_mem_nil
  · rw [olderElements_prover]
    exact hfresh

end ForgedChunk

/-- A chunk that does not have the leaf of its block leaves the prover as it was. -/
theorem handleSnapshotChunkFast_untouched_missing :
    Untouched ForgedChunk.prover (handleSnapshotChunkFast ForgedChunk.primitives ForgedChunk.world
      (some ForgedChunk.blockWithLeaf) [] ForgedChunk.prover).2 := by
  refine (handleSnapshotChunkFast_untouched_iff ForgedChunk.inv_prover).2
    (fun _ => .inl fun hadopts => ?_) ?_
  · have := hadopts.complete 7 (by decide)
    exact absurd this List.not_mem_nil
  · rw [show ForgedChunk.world.blockReads = true from rfl,
      ForgedChunk.validateBlock_unsigned _ rfl rfl]
    exact fun h => by cases h

/-- **A forged block is adopted**: an unsigned block of height 5 is not valid, but its chunk puts
an element into the tree and its database, and moves the confirmed height from 0 to 4. -/
theorem handleSnapshotChunkFast_adopts_forged :
    let after := (handleSnapshotChunkFast ForgedChunk.primitives ForgedChunk.world
      (some ForgedChunk.block) [1] ForgedChunk.prover).2
    ForgedChunk.prover.validateBlock ForgedChunk.primitives ForgedChunk.world.blockReads
        ForgedChunk.block = .err .invalidSignature ∧
      ForgedChunk.prover.height = 0 ∧ after.height = 4 ∧
      1 ∈ after.notesTree.tree.entries.keys ∧ 1 ∈ after.notesTree.db.keys ∧
      ¬ Untouched ForgedChunk.prover after := by
  intro after
  obtain ⟨batch, hcheck⟩ := ForgedChunk.adopts_block.checkElements
  obtain ⟨-, -, helements⟩ := checkElements_eq_some hcheck
  rw [ForgedChunk.olderElements_prover] at helements
  have hfresh := ForgedChunk.adopts_block.fresh
  rw [ForgedChunk.olderElements_prover, ← helements] at hfresh
  obtain ⟨notesTree, hinserted, hinv, hkeys⟩ := Smirk.Persistent.insertBatch_of_fresh
    MERKLE_TREE_DEPTH_pos MERKLE_TREE_DEPTH_le ForgedChunk.inv_prover hfresh
  obtain ⟨htree, hheight⟩ := @adoptElements_spec ForgedChunk.primitives ForgedChunk.world
    ForgedChunk.prover ForgedChunk.block batch
  have hrun : handleSnapshotChunkFast ForgedChunk.primitives ForgedChunk.world
      (some ForgedChunk.block) [1] ForgedChunk.prover =
      adoptElements ForgedChunk.primitives ForgedChunk.world ForgedChunk.block batch
        ForgedChunk.prover := by
    simp only [handleSnapshotChunkFast, Program.run_bind, Program.run_get, Program.run_lift,
      hcheck]
  have hafter : after.height = 4 := by
    change (handleSnapshotChunkFast _ _ _ _ _).2.height = 4
    rw [hrun]
    exact hheight (congrArg Prod.fst hinserted)
  have hmem : 1 ∈ after.notesTree.tree.entries.keys ∧ 1 ∈ after.notesTree.db.keys := by
    change 1 ∈ (handleSnapshotChunkFast _ _ _ _ _).2.notesTree.tree.entries.keys ∧
      1 ∈ (handleSnapshotChunkFast _ _ _ _ _).2.notesTree.db.keys
    rw [hrun, htree, show Smirk.Persistent.insertBatch ForgedChunk.primitives.poseidon
      ForgedChunk.world.treeWrites batch ForgedChunk.prover.notesTree = (.ok (), notesTree) from
        hinserted, hinv.synced, hkeys, helements]
    exact ⟨.inr List.mem_cons_self, .inr List.mem_cons_self⟩
  refine ⟨ForgedChunk.validateBlock_unsigned _ rfl rfl, rfl, hafter, hmem.1, hmem.2, ?_⟩
  rintro ⟨-, hsame⟩
  rw [hafter] at hsame
  exact absurd hsame (by decide)

end TempoRollup.Node
