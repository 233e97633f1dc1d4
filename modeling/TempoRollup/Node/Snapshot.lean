import TempoRollup.Node.Chain
import TempoRollup.Node.Network
import TempoRollup.Node.Sync

set_option relaxedAutoImplicit false
set_option autoImplicit false

/-!
# Fast sync between nodes

`send_snapshot_chunk_fast` and `handle_snapshot_chunk_fast` of `node/src/sync.rs`, between nodes
that follow one chain. A node that fast syncs records height zero for the elements that it takes
over, and selects the elements of the chunks that it sends itself by the recorded height.

## Main definitions

* `FastSync`, `Chain.Imported` — a fast sync of the past, and the elements that it took over.
* `Reaches` — the histories of commits and fast syncs of honest nodes.
* `Tracks` — the invariant of such a history.
* `Delivers` — a chunk takes a receiver to the state of the chain.
* `Chain.Servable` — the condition under which it does.

## Main results

* `Reaches.tracks` — the invariant holds in every history.
* `Tracks.chunkElements_exact_iff` — when a chunk has exactly the elements of the chain.
* `delivers_iff` — when a chunk takes the receiver to the state of the chain.
-/

open Exec

namespace TempoRollup.Node

/-! ## Chunks -/

/-- The elements of the chunk that `send_snapshot_chunk_fast` builds. -/
def chunkElements (toHeight : ℕ) (self : NodeShared) : List Element :=
  (self.notesTree.tree.entries.toList.filter fun entry => entry.2 ≤ toHeight).map Prod.fst

/-- The chunk that is sent. -/
lemma sendSnapshotChunkFast_eq {world : EventWorld} (hreads : world.storeReads = true)
    (peer : PeerId) (snapshotId : SnapshotId) (toHeight : ℕ) (self : NodeShared) :
    sendSnapshotChunkFast world peer snapshotId toHeight self =
      (.ok (), { self with effects := self.effects ++ [.send peer (.snapshotChunk
        (.fast snapshotId (self.blockStore.get toHeight) (chunkElements toHeight self)))] }) := by
  simp only [sendSnapshotChunkFast, Program.run_bind, Program.run_get, Program.run_ensure, hreads,
    if_true]
  rfl

/-- A chunk has the elements that were recorded up to its height. -/
lemma mem_chunkElements {toHeight : ℕ} {self : NodeShared} {e : Element} :
    e ∈ chunkElements toHeight self ↔
      ∃ k : ℕ, k ≤ toHeight ∧ self.notesTree.tree.entries[e]? = some k := by
  simp only [chunkElements, List.mem_map, List.mem_filter, decide_eq_true_eq]
  constructor
  · rintro ⟨⟨e', k⟩, ⟨hmem, hk⟩, rfl⟩
    exact ⟨k, hk, Std.TreeMap.mem_toList_iff_getElem?_eq_some.1 hmem⟩
  · rintro ⟨k, hk, hget⟩
    exact ⟨(e, k), ⟨Std.TreeMap.mem_toList_iff_getElem?_eq_some.2 hget, hk⟩, rfl⟩

section Accepts

variable {P : Primitives} {world : World} {self after : NodeShared} {block : Block}
  {elements : List Element}

/-- The handler's checks pass, and it returns. -/
def Accepts (P : Primitives) (world : World) (self : NodeShared) (block : Block)
    (elements : List Element) (after : NodeShared) : Prop :=
  (∃ batch, checkElements P self.notesTree block elements = .ok (some batch)) ∧
    handleSnapshotChunkFast P world (some block) elements self = (.ok (), after)

/-- The program behind a chunk whose checks pass. -/
lemma handleSnapshotChunkFast_of_check {batch : Smirk.Batch MERKLE_TREE_DEPTH BlockHeight}
    (hcheck : checkElements P self.notesTree block elements = .ok (some batch)) :
    handleSnapshotChunkFast P world (some block) elements self =
      adoptElements P world block batch self := by
  simp only [handleSnapshotChunkFast, Program.run_bind, Program.run_get, Program.run_lift, hcheck]

/-- **What an accepted chunk leaves**: the elements that are not leaves of the block are in the
tree, with height zero. -/
lemma Accepts.spec (hinv : self.notesTree.Inv P.poseidon)
    (h : Accepts P world self block elements after) :
    after.notesTree.Inv P.poseidon ∧ after.config = self.config ∧
      after.blockStore = self.blockStore ∧
      ∀ e k, after.notesTree.tree.entries[e]? = some k ↔
        self.notesTree.tree.entries[e]? = some k ∨
          (e ∈ olderElements self.notesTree block elements ∧ k = 0) := by
  obtain ⟨⟨batch, hcheck⟩, hrun⟩ := h
  rw [handleSnapshotChunkFast_of_check hcheck] at hrun
  have hkeeps := @adoptElements_keeps P world block batch self
  have hsnd : (adoptElements P world block batch self).2 = after := congrArg Prod.snd hrun
  rw [hsnd, Prod.mk.injEq] at hkeeps
  have htree := (@adoptElements_spec P world self block batch).1
  rw [hsnd] at htree
  -- the handler returned, so that the batch was inserted
  obtain ⟨⟨⟩, mid, hzoom, -⟩ := Program.bind_eq_ok.1 hrun
  obtain ⟨notesTree, hinsert, -⟩ := Program.zoom_eq_ok.1 hzoom
  have hinsert := Program.mapErr_eq_ok.1 hinsert
  rw [hinsert] at htree
  obtain ⟨hinv', hentries⟩ := Smirk.Persistent.insertBatch_eq_ok MERKLE_TREE_DEPTH_pos
    MERKLE_TREE_DEPTH_le hinv hinsert
  rw [htree]
  refine ⟨hinv', hkeeps.1, hkeeps.2, fun e k => ?_⟩
  have hbatch := entries_of_checkElements hcheck
  have hmap : batch.entries.map Prod.fst = olderElements self.notesTree block elements := by
    rw [hbatch, List.map_map]
    exact List.map_id _
  have hnodup : (batch.entries.map Prod.fst).Nodup := by
    rw [hmap]
    exact ((List.nodup_dedup _).filter _).filter _
  rw [hentries, Smirk.Tree.getElem?_insertEntries hnodup, hmap, hbatch]
  simp only [List.mem_map, Prod.mk.injEq]
  constructor
  · rintro (⟨e', he', rfl, rfl⟩ | ⟨-, hold⟩)
    · exact .inr ⟨he', rfl⟩
    · exact .inl hold
  · rintro (hold | ⟨he, rfl⟩)
    · exact .inr ⟨fun he => not_mem_keys_of_mem_olderElements he (mem_keys_iff.2 ⟨k, hold⟩), hold⟩
    · exact .inl ⟨e, he, rfl, rfl⟩

end Accepts

/-! ## Histories -/

/-- A fast sync of the past: the height of the receiver before it, and the height of the block that
it went to. -/
structure FastSync where
  fromHeight : ℕ
  toHeight : ℕ

section Histories

variable {P : Primitives} (chain : Chain P)

/-- The elements that a fast sync took over: those of the blocks between. -/
def Chain.Imported (sync : FastSync) (e : Element) : Prop :=
  e ∈ chain.elements (sync.toHeight - 1) ∧ e ∉ chain.elements sync.fromHeight ∧
    e ∉ chain.leaves sync.toHeight

/-- **When a node can serve a height** to a receiver at a lower one: the fast syncs that it made to
higher blocks took nothing over, and the block has the root of the chain and leaves that differ
from each other and from the elements of the receiver. Only a block that is listed as bad does not
have such a root and leaves. -/
structure Chain.Servable (syncs : List FastSync) (fromHeight toHeight : ℕ) : Prop where
  kept : ∀ sync ∈ syncs, toHeight < sync.toHeight → ∀ e, ¬ chain.Imported sync e
  root : (chain.block toHeight).rootHash = chain.root toHeight
  nodup : (chain.leaves toHeight).Nodup
  unspent : ∀ leaf ∈ chain.leaves toHeight, leaf ∉ chain.elements fromHeight

/-- **The histories of honest nodes**: a node starts without elements, commits the blocks of the
chain in order, and takes chunks over from other honest nodes that can serve them. Everything else
leaves the tree and the block store alone. The receiver of a chunk has all elements of its height
(`At`): that a node fast-syncs a second time while leaves are still held back, that is, before it
committed the block of its last fast sync, is left out. -/
inductive Reaches : ℕ → List FastSync → NodeShared → Prop
  | start {self : NodeShared} (htree : self.notesTree = .new)
      (hstore : ∀ (h : ℕ) (block : Block), self.blockStore.get h = some block → h = 0)
      (hbad : self.config.badBlocks = chain.badBlocks) : Reaches 0 [] self
  | commit {h : ℕ} {syncs : List FastSync} {self self' : NodeShared} {world : World}
      (hself : Reaches h syncs self) (hh : h < chain.tip)
      (hrun : commitProposal P world (chain.block (h + 1)) self = (.ok (), self')) :
      Reaches (h + 1) syncs self'
  | fastSync {h n toHeight : ℕ} {syncs syncs' : List FastSync}
      {self sender after : NodeShared} {block : Block} {world : World}
      (hself : Reaches h syncs self) (hat : chain.At h self.notesTree)
      (hsender : Reaches n syncs' sender) (hlt : h < toHeight)
      (hstored : sender.blockStore.get toHeight = some block)
      (hservable : chain.Servable syncs' h toHeight)
      (haccepts : Accepts P world self block (chunkElements toHeight sender) after) :
      Reaches (toHeight - 1) (⟨h, toHeight⟩ :: syncs) after
  | other {h : ℕ} {syncs : List FastSync} {self self' : NodeShared}
      (hself : Reaches h syncs self) (htree : self'.notesTree = self.notesTree)
      (hstore : self'.blockStore = self.blockStore) (hconfig : self'.config = self.config) :
      Reaches h syncs self'

/-- **The invariant of a history.** The tree has the elements of the chain, but for leaves of the
next block that a fast sync held back. Height zero is recorded for the elements that were taken
over, and for the others the height of the block that inserted them. The stored blocks are blocks
of the chain, and no fast sync went over them. -/
structure Tracks (h : ℕ) (syncs : List FastSync) (node : NodeShared) : Prop where
  le_tip : h ≤ chain.tip
  inv : node.notesTree.Inv P.poseidon
  badBlocks : node.config.badBlocks = chain.badBlocks
  sub : ∀ e ∈ node.notesTree.tree.entries.keys, e ∈ chain.elements h
  held : ∀ e ∈ chain.elements h, e ∉ node.notesTree.tree.entries.keys →
    e ∈ chain.leaves (h + 1) ∧ ∃ sync ∈ syncs, sync.toHeight = h + 1 ∧
      e ∉ chain.elements sync.fromHeight
  imported : ∀ e, node.notesTree.tree.entries[e]? = some 0 ↔ ∃ sync ∈ syncs, chain.Imported sync e
  recorded : ∀ (e : Element) (k : ℕ), node.notesTree.tree.entries[e]? = some k → 0 < k →
    k ≤ h ∧ e ∈ chain.elements k ∧ e ∈ chain.leaves k ∧
      (e ∉ chain.elements (k - 1) ∨
        ∃ sync ∈ syncs, sync.toHeight = k ∧ e ∉ chain.elements sync.fromHeight)
  bounds : ∀ sync ∈ syncs, sync.fromHeight < sync.toHeight ∧ sync.toHeight ≤ h + 1 ∧
    sync.toHeight ≤ chain.tip
  stored : ∀ (T : ℕ) (block : Block), 0 < T → node.blockStore.get T = some block →
    T ≤ h ∧ block = chain.block T ∧ ∀ sync ∈ syncs, T ≤ sync.fromHeight ∨ sync.toHeight ≤ T

variable {chain} {h n T : ℕ} {syncs : List FastSync} {sender self self' : NodeShared}
  {block : Block}

/-- **When a chunk is exact**: it has the elements of the chain after a stored block exactly when
the fast syncs to higher blocks took nothing over.

**Proof sketch.** The chunk has the elements recorded up to the height, and those of fast syncs,
recorded with zero. The first are those of the chain (`Tracks.recorded`). An element that a fast
sync to a higher block took over came into the chain after the height, and any other one before. -/
theorem Tracks.chunkElements_exact_iff (hsender : Tracks chain n syncs sender) (hT : 0 < T)
    (hstored : sender.blockStore.get T = some block) :
    (∀ e, e ∈ chunkElements T sender ↔ e ∈ chain.elements T) ↔
      ∀ sync ∈ syncs, T < sync.toHeight → ∀ e, ¬ chain.Imported sync e := by
  obtain ⟨hTn, -, hover⟩ := hsender.stored T block hT hstored
  have htip : T ≤ chain.tip := le_trans hTn hsender.le_tip
  constructor
  · intro hexact sync hsync hlt e himported
    have hchunk : e ∈ chunkElements T sender :=
      mem_chunkElements.2 ⟨0, Nat.zero_le _, (hsender.imported e).2 ⟨sync, hsync, himported⟩⟩
    have hfrom : T ≤ sync.fromHeight := (hover sync hsync).resolve_right (Nat.not_le.2 hlt)
    refine himported.2.1 (Chain.elements_mono hfrom ?_ ((hexact e).1 hchunk))
    exact le_trans (hsender.bounds sync hsync).1.le (hsender.bounds sync hsync).2.2
  · intro hkept e
    rw [mem_chunkElements]
    constructor
    · rintro ⟨k, hk, hget⟩
      rcases Nat.eq_zero_or_pos k with rfl | hpos
      · obtain ⟨sync, hsync, himported⟩ := (hsender.imported e).1 hget
        by_cases hlt : T < sync.toHeight
        · exact absurd himported (hkept sync hsync hlt e)
        · exact Chain.elements_mono (by omega) htip himported.1
      · exact Chain.elements_mono hk htip (hsender.recorded e k hget hpos).2.1
    · intro he
      -- an element that a fast sync held back is not in the chain at the height of a stored block
      have hback : ∀ sync ∈ syncs, T < sync.toHeight → e ∈ chain.elements sync.fromHeight := by
        intro sync hsync hlt
        have hfrom : T ≤ sync.fromHeight := (hover sync hsync).resolve_right (Nat.not_le.2 hlt)
        refine Chain.elements_mono hfrom ?_ he
        exact le_trans (hsender.bounds sync hsync).1.le (hsender.bounds sync hsync).2.2
      have hkey : e ∈ sender.notesTree.tree.entries.keys := by
        by_contra hnot
        obtain ⟨-, sync, hsync, hto, hfrom⟩ :=
          hsender.held e (Chain.elements_mono hTn hsender.le_tip he) hnot
        exact hfrom (hback sync hsync (by omega))
      obtain ⟨k, hget⟩ := mem_keys_iff.1 hkey
      refine ⟨k, ?_, hget⟩
      by_contra hlt
      obtain ⟨hkn, -, -, hnew | ⟨sync, hsync, hto, hfrom⟩⟩ :=
        hsender.recorded e k hget (by omega)
      · refine hnew (Chain.elements_mono (by omega) ?_ he)
        exact le_trans (Nat.sub_le _ _) (le_trans hkn hsender.le_tip)
      · exact hfrom (hback sync hsync (by omega))

/-! ### The steps of a history -/

/-- A node without elements tracks the chain. -/
lemma Tracks.start (htree : self.notesTree = .new)
    (hstore : ∀ (h : ℕ) (block : Block), self.blockStore.get h = some block → h = 0)
    (hbad : self.config.badBlocks = chain.badBlocks) : Tracks chain 0 [] self where
  le_tip := Nat.zero_le _
  inv := by
    rw [htree]
    exact Smirk.Persistent.inv_new MERKLE_TREE_DEPTH_pos
  badBlocks := hbad
  sub e he := by
    rw [htree] at he
    exact absurd he List.not_mem_nil
  held e he := by
    rw [Chain.elements_zero] at he
    exact absurd he List.not_mem_nil
  imported e := by
    rw [htree]
    simp [Smirk.Persistent.new, Smirk.Tree.new]
  recorded e k hget := by
    rw [htree] at hget
    simp [Smirk.Persistent.new, Smirk.Tree.new] at hget
  bounds sync hsync := absurd hsync List.not_mem_nil
  stored T block hT hget := absurd (hstore T block hget) hT.ne'

/-- What the invariant sees of a node. -/
lemma Tracks.other (hself : Tracks chain h syncs self)
    (htree : self'.notesTree = self.notesTree) (hstore : self'.blockStore = self.blockStore)
    (hconfig : self'.config = self.config) : Tracks chain h syncs self' := by
  obtain ⟨hle, hinv, hbad, hsub, hheld, himported, hrecorded, hbounds, hstored⟩ := hself
  rw [← htree] at hinv hsub hheld himported hrecorded
  rw [← hstore] at hstored
  rw [← hconfig] at hbad
  exact ⟨hle, hinv, hbad, hsub, hheld, himported, hrecorded, hbounds, hstored⟩

/-- The next block of the chain is committed. -/
lemma Tracks.commit {world : World} (hself : Tracks chain h syncs self) (hh : h < chain.tip)
    (hrun : commitProposal P world (chain.block (h + 1)) self = (.ok (), self')) :
    Tracks chain (h + 1) syncs self' := by
  obtain ⟨happly, hstore, hconfig⟩ := commitProposal_eq_ok hself.inv hrun
  rw [chain.height_eq h hh] at happly
  obtain ⟨hinv, hkeys, hentries⟩ := applyBlockToTree_recorded hself.inv happly
  have hleaves : ∀ e ∈ chain.leaves (h + 1), e ∈ chain.elements (h + 1) :=
    fun e he => (Chain.mem_elements_succ hh e).2 (.inr he)
  refine ⟨hh, hinv, hconfig ▸ hself.badBlocks, ?_, ?_, ?_, ?_, ?_, ?_⟩
  · intro e he
    rcases (hkeys e).1 he with hold | hleaf
    · exact (Chain.mem_elements_succ hh e).2 (.inl (hself.sub e hold))
    · exact hleaves e hleaf
  · -- nothing is held back once the block is committed
    intro e he hnot
    rw [hkeys, not_or] at hnot
    rcases (Chain.mem_elements_succ hh e).1 he with hold | hleaf
    · exact absurd (hself.held e hold hnot.1).1 hnot.2
    · exact absurd hleaf hnot.2
  · intro e
    rw [hentries, ← hself.imported e]
    constructor
    · rintro (hold | ⟨-, -, hzero⟩)
      · exact hold
      · exact absurd hzero (Nat.succ_ne_zero h).symm
    · exact .inl
  · intro e k hget hpos
    rcases (hentries e k).1 hget with hold | ⟨hnew, hleaf, rfl⟩
    · obtain ⟨hle, hrest⟩ := hself.recorded e k hold hpos
      exact ⟨Nat.le_succ_of_le hle, hrest⟩
    · refine ⟨le_refl _, hleaves e hleaf, hleaf, ?_⟩
      by_cases hold : e ∈ chain.elements h
      · obtain ⟨-, hsync⟩ := hself.held e hold hnew
        exact .inr hsync
      · exact .inl hold
  · intro sync hsync
    obtain ⟨hlt, hle, htip⟩ := hself.bounds sync hsync
    exact ⟨hlt, Nat.le_succ_of_le hle, htip⟩
  · intro T block hT hget
    rw [hstore, BlockStore.get_set, chain.height_eq h hh] at hget
    split_ifs at hget with heq
    · obtain rfl := Option.some.inj hget
      subst heq
      exact ⟨le_refl _, rfl, fun sync hsync => .inr (hself.bounds sync hsync).2.1⟩
    · obtain ⟨hle, hrest⟩ := hself.stored T block hT hget
      exact ⟨Nat.le_succ_of_le hle, hrest⟩

/-! ### The receiver -/

/-- The new elements are those that the tree does not have. -/
lemma mem_newElements {notesTree : PersistentMerkleTree} {elements : List Element} {e : Element} :
    e ∈ newElements notesTree elements ↔ e ∈ elements ∧ e ∉ notesTree.tree.entries.keys := by
  rw [newElements, List.mem_filter, List.mem_dedup, Bool.not_eq_true', ← Bool.not_eq_true,
    containsElement_iff]

/-- The older ones among them are no leaves of the block. -/
lemma mem_olderElements {notesTree : PersistentMerkleTree} {elements : List Element}
    {e : Element} :
    e ∈ olderElements notesTree block elements ↔
      (e ∈ elements ∧ e ∉ notesTree.tree.entries.keys) ∧ e ∉ block.content.state.leavesNonNull := by
  rw [olderElements, List.mem_filter, mem_newElements, Bool.not_eq_true', ← Bool.not_eq_true,
    List.contains_iff_mem]

/-- Different elements of the chain are in different slots. -/
lemma Chain.pairwise_slot {l : List Element} (htip : T ≤ chain.tip) (hnodup : l.Nodup)
    (hsub : ∀ e ∈ l, e ∈ chain.elements T) :
    l.Pairwise fun a b => a.slot (MERKLE_TREE_DEPTH - 1) ≠ b.slot (MERKLE_TREE_DEPTH - 1) := by
  refine hnodup.imp_of_mem fun ha hb hne heq => hne ?_
  exact (Chain.tree_inv htip).tree.distinct _ (hsub _ ha) _ (hsub _ hb) heq

/-- Elements of the chain that a tree of the chain does not have are new. -/
lemma Chain.fresh {notesTree : PersistentMerkleTree} {l : List Element} (htip : T ≤ chain.tip)
    (hnodup : l.Nodup) (hsub : ∀ e ∈ l, e ∈ chain.elements T)
    (hkeys : ∀ e ∈ notesTree.tree.entries.keys, e ∈ chain.elements T ∧ e ∉ l) :
    notesTree.tree.Fresh l := by
  refine ⟨fun e he => (Chain.tree_inv htip).tree.ne_null e (hsub e he),
    Chain.pairwise_slot htip hnodup hsub, fun e he b hb heq => ?_⟩
  have hsame := (Chain.tree_inv htip).tree.distinct b (hsub b hb) e (hkeys e he).1 heq
  exact (hkeys e he).2 (hsame ▸ hb)

section Receiver

variable {elements : List Element} (hat : chain.At h self.notesTree) (hlt : h < T)
  (htip : T ≤ chain.tip) (hexact : ∀ e, e ∈ elements ↔ e ∈ chain.elements T)

include hat hlt htip hexact

/-- With the elements of the chain the receiver finds the root of the chain. -/
lemma rootHashWith_newElements :
    self.notesTree.tree.rootHashWith P.poseidon (newElements self.notesTree elements) =
      .ok (chain.root T) := by
  have hfresh : self.notesTree.tree.Fresh (newElements self.notesTree elements) := by
    refine Chain.fresh htip ((List.nodup_dedup _).filter _)
      (fun e he => (hexact e).1 (mem_newElements.1 he).1) fun e he => ⟨?_, fun hnew => ?_⟩
    · exact Chain.elements_mono hlt.le htip ((hat.keys e).1 he)
    · exact (mem_newElements.1 hnew).2 he
  rw [Chain.root, (Chain.tree_inv htip).tree.rootHash_eq]
  refine Smirk.Tree.rootHashWith_spec MERKLE_TREE_DEPTH_le hat.inv.tree hfresh fun e => ?_
  rw [mem_newElements, hexact]
  constructor
  · intro he
    by_cases hkey : e ∈ self.notesTree.tree.entries.keys
    · exact .inl hkey
    · exact .inr ⟨he, hkey⟩
  · rintro (hkey | ⟨he, -⟩)
    · exact Chain.elements_mono hlt.le htip ((hat.keys e).1 hkey)
    · exact he

/-- The elements between are new to the receiver. -/
lemma fresh_olderElements :
    self.notesTree.tree.Fresh (olderElements self.notesTree block elements) := by
  refine Chain.fresh htip (((List.nodup_dedup _).filter _).filter _)
    (fun e he => (hexact e).1 (mem_olderElements.1 he).1.1) fun e he => ⟨?_, fun holder => ?_⟩
  · exact Chain.elements_mono hlt.le htip ((hat.keys e).1 he)
  · exact (mem_olderElements.1 holder).1.2 he

/-- **When the elements of the chain pass the checks.** -/
lemma checkElements_iff :
    (∃ batch, checkElements P self.notesTree (chain.block T) elements = .ok (some batch)) ↔
      (chain.block T).rootHash = chain.root T ∧
        ∀ leaf ∈ chain.leaves T, leaf ∉ chain.elements h := by
  have hroot := rootHashWith_newElements hat hlt htip hexact
  constructor
  · rintro ⟨batch, hcheck⟩
    obtain ⟨hok, hcomplete, -⟩ := checkElements_eq_some hcheck
    rw [hroot] at hok
    refine ⟨(Outcome.ok.inj hok).symm, fun leaf hleaf hold => ?_⟩
    exact (mem_newElements.1 (hcomplete leaf hleaf)).2 ((hat.keys leaf).2 hold)
  · rintro ⟨hblock, hunspent⟩
    refine Adopts.checkElements ⟨by rw [hroot, hblock], fun leaf hleaf => ?_,
      fresh_olderElements hat hlt htip hexact⟩
    refine mem_newElements.2 ⟨(hexact leaf).2 ?_, fun hkey => ?_⟩
    · exact (Chain.mem_elements_iff (by omega) htip leaf).2 (.inr hleaf)
    · exact hunspent leaf hleaf ((hat.keys leaf).1 hkey)

/-- The tree after an accepted chunk: what is missing are the leaves of the block. -/
lemma Accepts.mem_keys {world : World} {after : NodeShared}
    (hunspent : ∀ leaf ∈ chain.leaves T, leaf ∉ chain.elements h)
    (haccepts : Accepts P world self (chain.block T) elements after) (e : Element) :
    e ∈ after.notesTree.tree.entries.keys ↔ e ∈ chain.elements T ∧ e ∉ chain.leaves T := by
  obtain ⟨-, -, -, hentries⟩ := haccepts.spec hat.inv
  rw [mem_keys_iff]
  constructor
  · rintro ⟨k, hget⟩
    rcases (hentries e k).1 hget with hold | ⟨holder, -⟩
    · have hkey := (hat.keys e).1 (mem_keys_iff.2 ⟨k, hold⟩)
      exact ⟨Chain.elements_mono hlt.le htip hkey, fun hleaf => hunspent e hleaf hkey⟩
    · obtain ⟨⟨hmem, -⟩, hleaf⟩ := mem_olderElements.1 holder
      exact ⟨(hexact e).1 hmem, hleaf⟩
  · rintro ⟨hmem, hleaf⟩
    by_cases hkey : e ∈ self.notesTree.tree.entries.keys
    · obtain ⟨k, hget⟩ := mem_keys_iff.1 hkey
      exact ⟨k, (hentries e k).2 (.inl hget)⟩
    · refine ⟨0, (hentries e 0).2 (.inr ⟨mem_olderElements.2 ⟨⟨(hexact e).2 hmem, hkey⟩, hleaf⟩,
        rfl⟩)⟩

/-- A chunk of the chain is taken over. -/
lemma Tracks.fastSync {world : World} {after : NodeShared} (hself : Tracks chain h syncs self)
    (hunspent : ∀ leaf ∈ chain.leaves T, leaf ∉ chain.elements h)
    (haccepts : Accepts P world self (chain.block T) elements after) :
    Tracks chain (T - 1) (⟨h, T⟩ :: syncs) after := by
  have hpred : T - 1 + 1 = T := by omega
  have hsucc := Chain.mem_elements_iff (show 0 < T by omega) htip
  have hkeys := haccepts.mem_keys hat hlt htip hexact hunspent
  obtain ⟨hinv, hconfig, hstore, hentries⟩ := haccepts.spec hat.inv
  refine ⟨by omega, hinv, hconfig ▸ hself.badBlocks, ?_, ?_, ?_, ?_, ?_, ?_⟩
  · intro e he
    obtain ⟨hmem, hleaf⟩ := (hkeys e).1 he
    exact ((hsucc e).1 hmem).resolve_right hleaf
  · intro e he hnot
    have hmem := (hsucc e).2 (.inl he)
    have hleaf : e ∈ chain.leaves T := by
      by_contra hleaf
      exact hnot ((hkeys e).2 ⟨hmem, hleaf⟩)
    rw [hpred]
    exact ⟨hleaf, _, List.mem_cons_self, rfl, hunspent e hleaf⟩
  · intro e
    rw [hentries, hself.imported e, mem_olderElements, hexact, hat.keys, List.exists_mem_cons_iff]
    constructor
    · rintro (hold | ⟨⟨⟨hmem, hnew⟩, hleaf⟩, -⟩)
      · exact .inr hold
      · exact .inl ⟨((hsucc e).1 hmem).resolve_right hleaf, hnew, hleaf⟩
    · rintro (⟨hmem, hnew, hleaf⟩ | hold)
      · exact .inr ⟨⟨⟨(hsucc e).2 (.inl hmem), hnew⟩, hleaf⟩, rfl⟩
      · exact .inl hold
  · intro e k hget hpos
    rcases (hentries e k).1 hget with hold | ⟨-, rfl⟩
    · obtain ⟨hle, hmem, hleaf, hnew⟩ := hself.recorded e k hold hpos
      refine ⟨by omega, hmem, hleaf, hnew.imp_right ?_⟩
      rintro ⟨sync, hsync, hrest⟩
      exact ⟨sync, List.mem_cons_of_mem _ hsync, hrest⟩
    · exact absurd hpos (Nat.lt_irrefl 0)
  · intro sync hsync
    rcases List.mem_cons.1 hsync with rfl | hsync
    · exact ⟨hlt, hpred.ge, htip⟩
    · obtain ⟨hfrom, hto, hle⟩ := hself.bounds sync hsync
      exact ⟨hfrom, by omega, hle⟩
  · intro T' block hT' hget
    rw [hstore] at hget
    obtain ⟨hle, hblock, hover⟩ := hself.stored T' block hT' hget
    exact ⟨by omega, hblock, List.forall_mem_cons.2 ⟨.inl hle, hover⟩⟩

end Receiver

/-- **The invariant holds in every history.** By induction on the history, with one case for each
step. -/
theorem Reaches.tracks (hself : Reaches chain h syncs self) : Tracks chain h syncs self := by
  induction hself with
  | start htree hstore hbad => exact .start htree hstore hbad
  | commit _ hh hrun ih => exact ih.commit hh hrun
  | @fastSync h n toHeight syncs syncs' self sender after block world _ hat _ hlt hstored hservable
      haccepts ih ihsender =>
    obtain ⟨hle, rfl, -⟩ := ihsender.stored toHeight block (by omega) hstored
    have hexact := (ihsender.chunkElements_exact_iff (by omega) hstored).2 hservable.kept
    exact ih.fastSync hat hlt (le_trans hle ihsender.le_tip) hexact hservable.unspent haccepts
  | other _ htree hstore hconfig ih => exact ih.other htree hstore hconfig

/-! ## Deliveries -/

/-- **A chunk takes a receiver to the state of the chain**: it is sent with the block and exactly
the elements of the chain after it, the receiver accepts it, and once the block is committed the
receiver has the elements and the root of the chain. -/
structure Delivers (chain : Chain P) (world : World) (sender receiver : NodeShared)
    (block : Block) (T : ℕ) : Prop where
  sent : ∀ (world : EventWorld) (peer : PeerId) (snapshotId : SnapshotId),
    world.storeReads = true → sendSnapshotChunkFast world peer snapshotId T sender =
      (.ok (), { sender with effects := sender.effects ++ [.send peer (.snapshotChunk
        (.fast snapshotId (some block) (chunkElements T sender)))] })
  exact : ∀ e, e ∈ chunkElements T sender ↔ e ∈ chain.elements T
  accepted : ∃ after, Accepts P world receiver block (chunkElements T sender) after ∧
    ∀ next : NodeShared, next.notesTree = after.notesTree → next.config = after.config →
      ∃ committed, commitProposal P world block next = (.ok (), committed) ∧
        (∀ e, e ∈ committed.notesTree.tree.entries.keys ↔ e ∈ chain.elements T) ∧
        committed.notesTree.tree.rootHash P.poseidon = chain.root T

/-- A node that is not a validator, and whose tree can be written, accepts what passes the
checks. -/
lemma accepts_of_check {world : World} {elements : List Element}
    {batch : Smirk.Batch MERKLE_TREE_DEPTH BlockHeight} (hinv : self.notesTree.Inv P.poseidon)
    (hcheck : checkElements P self.notesTree block elements = .ok (some batch))
    (hfresh : self.notesTree.tree.Fresh (olderElements self.notesTree block elements))
    (htree : world.treeWrites = true) (hmode : self.config.mode ≠ .validator) :
    ∃ after, Accepts P world self block elements after := by
  obtain ⟨-, -, helements⟩ := checkElements_eq_some hcheck
  rw [← helements] at hfresh
  obtain ⟨notesTree, hinsert, -, -⟩ := Smirk.Persistent.insertBatch_of_fresh MERKLE_TREE_DEPTH_pos
    MERKLE_TREE_DEPTH_le hinv hfresh
  have hrun : (adoptElements P world block batch self).1 = .ok () := by
    simp only [adoptElements, htree, Program.run_bind, Program.zoom, Program.mapErr, hinsert,
      Program.run_modify, receiveProposal, Program.run_get, Program.run_assert, ne_eq, hmode,
      not_false_eq_true, decide_true, if_true]
    rfl
  refine ⟨(adoptElements P world block batch self).2, ⟨batch, hcheck⟩, ?_⟩
  rw [handleSnapshotChunkFast_of_check hcheck]
  exact Prod.ext hrun rfl

section Delivery

variable {receiver : NodeShared} {world : World} (hsender : Reaches chain n syncs sender)
  (hstored : sender.blockStore.get T = some block) (hat : chain.At h receiver.notesTree)
  (hlt : h < T)

include hsender hstored hat hlt

/-- A chunk that is delivered could be served. -/
lemma Delivers.servable (hdelivers : Delivers chain world sender receiver block T) :
    chain.Servable syncs h T := by
  have hT : 0 < T := by omega
  obtain ⟨hle, rfl, -⟩ := hsender.tracks.stored T block hT hstored
  have htip : T ≤ chain.tip := le_trans hle hsender.tracks.le_tip
  obtain ⟨after, haccepts, hcommits⟩ := hdelivers.accepted
  obtain ⟨hroot, hunspent⟩ := (checkElements_iff hat hlt htip hdelivers.exact).1 haccepts.1
  refine ⟨(hsender.tracks.chunkElements_exact_iff hT hstored).1 hdelivers.exact, hroot, ?_,
    hunspent⟩
  -- the tree took the leaves of the block, none of which it had
  obtain ⟨committed, hrun, -⟩ := hcommits after rfl rfl
  have hkeys := haccepts.mem_keys hat hlt htip hdelivers.exact hunspent
  obtain ⟨hinv, -⟩ := haccepts.spec hat.inv
  have htakes := takes_of_applyBlockToTree hinv (commitProposal_eq_ok hinv hrun).1
  have hnew : ∀ leaf ∈ (chain.block T).content.state.leavesNonNull,
      after.notesTree.tree.containsElement leaf = false := by
    intro leaf hleaf
    rw [← Bool.not_eq_true, containsElement_iff, hkeys]
    exact fun hkey => hkey.2 hleaf
  have hfresh := htakes.fresh
  rw [newLeaves_eq hnew] at hfresh
  exact hfresh.distinct.imp fun hne heq => hne (by rw [heq])

/-- What can be served is delivered. -/
lemma Chain.Servable.delivers (hservable : chain.Servable syncs h T)
    (hstore : world.storeWrites = true) (htree : world.treeWrites = true)
    (hmode : receiver.config.mode ≠ .validator) :
    Delivers chain world sender receiver block T := by
  have hT : 0 < T := by omega
  obtain ⟨hle, rfl, -⟩ := hsender.tracks.stored T block hT hstored
  have htip : T ≤ chain.tip := le_trans hle hsender.tracks.le_tip
  have hexact := (hsender.tracks.chunkElements_exact_iff hT hstored).2 hservable.kept
  obtain ⟨batch, hcheck⟩ :=
    (checkElements_iff hat hlt htip hexact).2 ⟨hservable.root, hservable.unspent⟩
  obtain ⟨after, haccepts⟩ := accepts_of_check hat.inv hcheck
    (fresh_olderElements hat hlt htip hexact) htree hmode
  refine ⟨fun w peer snapshotId hreads => ?_, hexact, after, haccepts, fun next hnext hconfig => ?_⟩
  · rw [sendSnapshotChunkFast_eq hreads, hstored]
  · have hkeys := haccepts.mem_keys hat hlt htip hexact hservable.unspent
    obtain ⟨hinv, hsame, -, -⟩ := haccepts.spec hat.inv
    rw [← hnext] at hinv hkeys
    have hleaf : ∀ e ∈ chain.leaves T, e ∈ chain.elements T :=
      fun e he => (Chain.mem_elements_iff hT htip e).2 (.inr he)
    have hnew : next.notesTree.tree.Fresh (chain.block T).content.state.leavesNonNull :=
      Chain.fresh htip hservable.nodup hleaf fun e he => (hkeys e).1 he
    obtain ⟨notesTree, effects, hrun, hinv', hkeys'⟩ :=
      commitProposal_of_fresh hinv hnew hstore htree
    have hat' : chain.At T notesTree := by
      refine ⟨hinv', fun e => ?_⟩
      rw [hkeys', hkeys]
      constructor
      · rintro (⟨he, -⟩ | he)
        · exact he
        · exact hleaf e he
      · intro he
        by_cases hin : e ∈ chain.leaves T
        · exact .inr hin
        · exact .inl ⟨he, hin⟩
    exact ⟨_, hrun, hat'.keys, hat'.rootHash_eq htip⟩

/-- **When a chunk takes the receiver to the state of the chain**: exactly when the fast syncs that
the sender made to higher blocks took nothing over, and the block, should it be listed as bad, has
the root of the chain and leaves that differ from each other and from the elements of the
receiver. -/
theorem delivers_iff (hstore : world.storeWrites = true) (htree : world.treeWrites = true)
    (hmode : receiver.config.mode ≠ .validator) :
    Delivers chain world sender receiver block T ↔ chain.Servable syncs h T :=
  ⟨fun hdelivers => hdelivers.servable hsender hstored hat hlt, fun hservable =>
    hservable.delivers hsender hstored hat hlt hstore htree hmode⟩

end Delivery

end Histories

/-! ### A sender that went over a block -/

/-- A node at a state of the chain commits the next block. -/
lemma Reaches.commit_next {P : Primitives} {chain : Chain P} {h : ℕ} {syncs : List FastSync}
    {self : NodeShared} {world : World} (hself : Reaches chain h syncs self)
    (hat : chain.At h self.notesTree) (hh : h < chain.tip) (hstore : world.storeWrites = true)
    (htree : world.treeWrites = true) :
    Reaches chain (h + 1) syncs (commitProposal P world (chain.block (h + 1)) self).2 ∧
      chain.At (h + 1) (commitProposal P world (chain.block (h + 1)) self).2.notesTree ∧
      (commitProposal P world (chain.block (h + 1)) self).2.blockStore =
        self.blockStore.set (chain.block (h + 1)) ∧
      (commitProposal P world (chain.block (h + 1)) self).2.config = self.config := by
  have hcommittable : Committable world self (chain.block (h + 1)) := by
    refine ⟨hstore, ?_⟩
    rw [hself.tracks.badBlocks, chain.height_eq h hh, htree]
    exact (Chain.takes hh).congr hat.keys
  obtain ⟨notesTree, effects, hrun, hinv, hkeys⟩ :=
    commitProposal_of_committable hat.inv hcommittable
  refine ⟨hself.commit hh (Prod.ext (show _ = Outcome.ok () by rw [hrun]) rfl), ?_⟩
  rw [hrun]
  refine ⟨⟨hinv, fun e => ?_⟩, rfl, rfl⟩
  rw [hkeys, hat.keys, Chain.mem_elements_succ hh]
  rfl

namespace WentOver

open TwoMints

/-- A prover that starts from genesis. -/
def prover : NodeShared :=
  .new primitives
    { mode := .prover, badBlocks := [], blockTxnsCount := 1, safeEthHeightOffset := 0 }
    0 [⟨0, [0]⟩] .empty .new .genesis

/-- Storage works. -/
def world : World := .reliable fun _ => .constant .initial

/-- A prover that committed the first blocks of the chain. -/
def archive : ℕ → NodeShared
  | 0 => prover
  | h + 1 => (commitProposal primitives world (chain.block (h + 1)) (archive h)).2

/-- A prover that committed the first block and then fast synced to the third. -/
def sender : NodeShared :=
  (handleSnapshotChunkFast primitives world (some (chain.block 3)) (chunkElements 3 (archive 3))
    (archive 1)).2

/-- What the provers have stored. By induction on the height. -/
lemma reaches_archive {h : ℕ} (hh : h ≤ 3) :
    Reaches chain h [] (archive h) ∧ chain.At h (archive h).notesTree ∧
      (archive h).config.mode = .prover ∧
      ∀ T, 0 < T → T ≤ h → (archive h).blockStore.get T = some (chain.block T) := by
  induction h with
  | zero =>
    refine ⟨.start rfl (fun h block hget => ?_) rfl, ⟨inv_new, fun e => Iff.rfl⟩, rfl, by omega⟩
    simp [prover, archive, NodeShared.new, BlockStore.get, BlockStore.empty] at hget
  | succ h ih =>
    obtain ⟨hreaches, hat, hmode, hstored⟩ := ih (by omega)
    obtain ⟨hreaches', hat', hstore, hconfig⟩ :=
      @Reaches.commit_next _ _ _ _ _ world hreaches hat hh rfl rfl
    refine ⟨hreaches', hat', (congrArg Config.mode hconfig).trans hmode, fun T hT hle => ?_⟩
    rw [archive, hstore, BlockStore.get_set, chain.height_eq h hh]
    split_ifs with heq
    · rw [heq]
    · exact hstored T hT (Nat.le_of_lt_succ (lt_of_le_of_ne hle (Ne.symm heq)))

/-- The third block can be served to the prover with the first. -/
lemma servable_three (h : ℕ) : chain.Servable [] h 3 := by
  obtain ⟨hroot, hnodup, hunspent⟩ := Chain.sound_of_good (show 2 < chain.tip by decide) rfl
  exact ⟨fun _ hsync => absurd hsync List.not_mem_nil, hroot, hnodup, fun _ hleaf =>
    absurd hleaf List.not_mem_nil⟩

/-- The third block is delivered. -/
lemma delivers_three {h : ℕ} (hh : h ≤ 2) :
    Delivers chain world (archive 3) (archive h) (chain.block 3) 3 := by
  obtain ⟨hsender, -, -, hstored⟩ := reaches_archive (le_refl 3)
  obtain ⟨-, hat, hmode, -⟩ := reaches_archive (show h ≤ 3 by omega)
  exact (servable_three h).delivers hsender (hstored 3 (by omega) (le_refl _)) hat (by omega) rfl
    rfl (hmode ▸ Mode.noConfusion)

/-- The history of the sender. -/
lemma reaches_sender :
    Reaches chain 2 [⟨1, 3⟩] sender ∧ sender.blockStore.get 1 = some (chain.block 1) := by
  obtain ⟨hsource, -, -, hsourceStored⟩ := reaches_archive (le_refl 3)
  obtain ⟨hself, hat, -, hstored⟩ := reaches_archive (show 1 ≤ 3 by omega)
  obtain ⟨after, haccepts, -⟩ := (delivers_three (show 1 ≤ 2 by omega)).accepted
  have hsender : sender = after := by rw [sender, haccepts.2]
  rw [hsender]
  refine ⟨.fastSync hself hat hsource (by omega) (hsourceStored 3 (by omega) (le_refl _))
    (servable_three 1) haccepts, ?_⟩
  rw [(haccepts.spec hat.inv).2.2.1]
  exact hstored 1 (by omega) (le_refl _)

/-- The second note was taken over. -/
lemma imported_second : chain.Imported ⟨1, 3⟩ 15 := by
  refine ⟨(mem_elements_two 15).2 (.inr rfl), ?_, List.not_mem_nil⟩
  rw [mem_elements_one]
  decide

end WentOver

/-- A prover that committed everything takes a new one to the state of the chain. -/
theorem delivers_archive :
    Delivers TwoMints.chain WentOver.world (WentOver.archive 3) (WentOver.archive 0)
      (TwoMints.chain.block 3) 3 := by
  obtain ⟨hsender, -, -, hstored⟩ := WentOver.reaches_archive (le_refl 3)
  obtain ⟨-, hat, hmode, -⟩ := WentOver.reaches_archive (show 0 ≤ 3 by omega)
  exact (delivers_iff hsender (hstored 3 (by omega) (le_refl _)) hat (by omega) rfl rfl
    (hmode ▸ Mode.noConfusion)).2 (WentOver.servable_three 0)

/-- **A chunk with elements of later blocks**: a prover commits the first block and fast syncs to
the third. The chunk that it sends for the first block has the note of the second, and a new prover
is not taken to the state of the chain. -/
theorem not_delivers_wentOver :
    Reaches TwoMints.chain 2 [⟨1, 3⟩] WentOver.sender ∧
      WentOver.sender.blockStore.get 1 = some (TwoMints.chain.block 1) ∧
      TwoMints.chain.At 0 WentOver.prover.notesTree ∧ WentOver.prover.config.mode = .prover ∧
      15 ∈ chunkElements 1 WentOver.sender ∧ 15 ∉ TwoMints.chain.elements 1 ∧
      ¬ Delivers TwoMints.chain WentOver.world WentOver.sender WentOver.prover
        (TwoMints.chain.block 1) 1 := by
  obtain ⟨hsender, hstored⟩ := WentOver.reaches_sender
  obtain ⟨-, hat, hmode, -⟩ := WentOver.reaches_archive (show 0 ≤ 3 by omega)
  have hchunk : 15 ∈ chunkElements 1 WentOver.sender :=
    mem_chunkElements.2 ⟨0, Nat.zero_le _, (hsender.tracks.imported 15).2
      ⟨_, List.mem_cons_self, WentOver.imported_second⟩⟩
  have hnot : (15 : Element) ∉ TwoMints.chain.elements 1 := by
    rw [TwoMints.mem_elements_one]
    decide
  exact ⟨hsender, hstored, hat, hmode, hchunk, hnot, fun hdelivers =>
    hnot ((hdelivers.exact 15).1 hchunk)⟩

end TempoRollup.Node
