import TempoRollup.Node.ProverWorker

set_option relaxedAutoImplicit false
set_option autoImplicit false

/-!
# The start-up of the prover worker

What the worker has stored when it starts, and where it goes on. Three stores are written one after
the other, and a crash can leave any of them behind. What the last seen block says about the tree is
stated so that it survives this: whatever tree of the chain the tree may be or become, if it has the
recorded root, then the recorded height is the right place to go on from.

## Main definitions

* `Follows` — a node that commits the blocks of a chain or takes them over.
* `Chain.RootsBind`, `Chain.ClaimsBind` — roots tell the trees of the chain apart.
* `Placed`, `Tells` — a height to go on from, and what the last seen block says.

## Main results

* `Follows.commit`, `Follows.fastSync` — the node goes on following the chain.
* `Chain.rootsBind_of_injOn` — without collisions of the hash the roots bind.
* `Tells.insert` — what the last seen block says stays true when elements are inserted.
* `takeOver_spec`, `takeOver_placed` — what the start-up takes over, and where it goes on.
-/

open Exec

namespace TempoRollup.Node

/-! ## The node -/

section Node

variable {P : Primitives} {chain : Chain P} {h T : ℕ} {node node' : NodeShared}

/-- **A node that follows the chain**: its tree is that of the chain, the stored blocks are those of
the chain, and the heights that are recorded and not zero are those of stored blocks that inserted
the elements. -/
structure Follows (chain : Chain P) (h : ℕ) (node : NodeShared) : Prop where
  le_tip : h ≤ chain.tip
  tree : chain.At h node.notesTree
  badBlocks : node.config.badBlocks = chain.badBlocks
  wf : node.blockStore.Wf
  stored : ∀ (k : ℕ) (block : Block), 0 < k → node.blockStore.get k = some block →
    k ≤ h ∧ block = chain.block k
  recorded : ∀ (e : Element) (k : ℕ), node.notesTree.tree.entries[e]? = some k → 0 < k →
    k ≤ h ∧ node.blockStore.get k = some (chain.block k) ∧ e ∈ chain.leaves k ∧
      e ∉ chain.elements (k - 1)

/-- A node without elements. -/
lemma Follows.start (htree : node.notesTree = .new)
    (hstore : ∀ (k : ℕ) (block : Block), node.blockStore.get k = some block → k = 0)
    (hwf : node.blockStore.Wf) (hbad : node.config.badBlocks = chain.badBlocks) :
    Follows chain 0 node where
  le_tip := Nat.zero_le _
  tree := by
    rw [htree]
    refine ⟨Smirk.Persistent.inv_new MERKLE_TREE_DEPTH_pos, fun e => ?_⟩
    rw [Chain.elements_zero]
    rfl
  badBlocks := hbad
  wf := hwf
  stored k block hk hget := absurd (hstore k block hget) hk.ne'
  recorded e k hget := by
    rw [htree] at hget
    simp [Smirk.Persistent.new, Smirk.Tree.new] at hget

/-- **The next block is committed**: it is stored, and no height zero is recorded.

**Proof sketch.** The heights after the commit are those of `applyBlockToTree_recorded`, and the
block is set in the store; the other blocks and heights are as before. -/
theorem Follows.commit {world : World} (hnode : Follows chain h node) (hh : h < chain.tip)
    (hrun : commitProposal P world (chain.block (h + 1)) node = (.ok (), node')) :
    Follows chain (h + 1) node' ∧
      (∀ k, node'.blockStore.get k =
        if h + 1 = k then some (chain.block (h + 1)) else node.blockStore.get k) ∧
      ∀ e : Element, node'.notesTree.tree.entries[e]? = some 0 →
        node.notesTree.tree.entries[e]? = some 0 := by
  obtain ⟨happly, hstore, hconfig⟩ := commitProposal_eq_ok hnode.tree.inv hrun
  rw [chain.height_eq h hh] at happly
  obtain ⟨hinv, hkeys, hentries⟩ := applyBlockToTree_recorded hnode.tree.inv happly
  have hget : ∀ k, node'.blockStore.get k =
      if h + 1 = k then some (chain.block (h + 1)) else node.blockStore.get k := by
    intro k
    rw [hstore, BlockStore.get_set, chain.height_eq h hh]
  refine ⟨⟨hh, ⟨hinv, fun e => ?_⟩, hconfig ▸ hnode.badBlocks, ?_, ?_, ?_⟩, hget, fun e hzero => ?_⟩
  · rw [hkeys, hnode.tree.keys, Chain.mem_elements_succ hh]
    rfl
  · rw [hstore]
    exact hnode.wf.set _
  · intro k block hk hblock
    rw [hget] at hblock
    split_ifs at hblock with heq
    · rw [← heq]
      exact ⟨le_refl _, (Option.some.inj hblock).symm⟩
    · obtain ⟨hle, hsame⟩ := hnode.stored k block hk hblock
      exact ⟨Nat.le_succ_of_le hle, hsame⟩
  · intro e k hrecorded hpos
    rcases (hentries e k).1 hrecorded with hold | ⟨hnew, hleaf, rfl⟩
    · obtain ⟨hle, hblock, hrest⟩ := hnode.recorded e k hold hpos
      refine ⟨Nat.le_succ_of_le hle, ?_, hrest⟩
      rw [hget, if_neg (by omega)]
      exact hblock
    · refine ⟨le_refl _, by rw [hget, if_pos rfl], hleaf, fun hold => ?_⟩
      exact hnew ((hnode.tree.keys e).2 hold)
  · rcases (hentries e 0).1 hzero with hold | ⟨-, -, hheight⟩
    · exact hold
    · exact absurd hheight (Nat.succ_ne_zero h).symm

/-- **A chunk with a block that is not bad is taken over.**

**Proof sketch.** What is taken over are the elements of the chunk but for the leaves of the block,
so that the tree is that of the chain before the block (`Accepts.mem_keys`). -/
theorem Follows.fastSync {world : World} {elements : List Element} (hnode : Follows chain h node)
    (hlt : h < T) (htip : T ≤ chain.tip) (hexact : ∀ e, e ∈ elements ↔ e ∈ chain.elements T)
    (hgood : chain.badBlocks.contains T = false)
    (haccepts : Accepts P world node (chain.block T) elements node') :
    Follows chain (T - 1) node' ∧ node'.blockStore = node.blockStore ∧
      ∀ e, node'.notesTree.tree.entries[e]? = some 0 →
        node.notesTree.tree.entries[e]? = some 0 ∨
          e ∈ olderElements node.notesTree (chain.block T) elements := by
  obtain ⟨T, rfl⟩ : ∃ t, T = t + 1 := Nat.exists_eq_succ_of_ne_zero (by omega)
  have hsound := Chain.sound_of_good htip hgood
  have hunspent : ∀ leaf ∈ chain.leaves (T + 1), leaf ∉ chain.elements h := fun leaf hleaf hold =>
    hsound.unspent leaf hleaf (Chain.elements_mono (by omega) (by omega) hold)
  have hkeys := haccepts.mem_keys hnode.tree hlt htip hexact hunspent
  obtain ⟨hinv, hconfig, hstore, hentries⟩ := haccepts.spec hnode.tree.inv
  refine ⟨⟨by omega, ⟨hinv, fun e => ?_⟩, hconfig ▸ hnode.badBlocks, hstore ▸ hnode.wf, ?_, ?_⟩,
    hstore, fun e hzero => ?_⟩
  · -- none of the leaves of the block was in the chain before it
    rw [hkeys, Chain.mem_elements_succ htip]
    constructor
    · rintro ⟨hold | hleaf, hnot⟩
      · exact hold
      · exact absurd hleaf hnot
    · exact fun hold => ⟨.inl hold, fun hleaf => hsound.unspent e hleaf hold⟩
  · intro k block hk hget
    rw [hstore] at hget
    obtain ⟨hle, hblock⟩ := hnode.stored k block hk hget
    exact ⟨by omega, hblock⟩
  · intro e k hget hpos
    rw [hstore]
    rcases (hentries e k).1 hget with hold | ⟨-, rfl⟩
    · obtain ⟨hle, hrest⟩ := hnode.recorded e k hold hpos
      exact ⟨by omega, hrest⟩
    · exact absurd hpos (Nat.lt_irrefl 0)
  · exact ((hentries e 0).1 hzero).imp_right And.left

/-- A block with leaves is not empty. -/
lemma Chain.txns_ne_nil {e : Element} {k : ℕ} (hleaf : e ∈ chain.leaves k) :
    (chain.block k).content.state.txns ≠ [] := by
  intro hnil
  rw [Chain.leaves, BlockState.leavesNonNull, hnil] at hleaf
  exact absurd hleaf List.not_mem_nil

/-- The elements that a block does not insert were there before. -/
lemma Chain.mem_elements_pred {e : Element} {k : ℕ} (hk : k ≤ chain.tip)
    (hempty : (chain.block k).content.state.txns = []) (he : e ∈ chain.elements k) :
    e ∈ chain.elements (k - 1) := by
  rcases Nat.eq_zero_or_pos k with rfl | hpos
  · exact he
  · rcases (Chain.mem_elements_iff hpos hk e).1 he with hold | hleaf
    · exact hold
    · exact absurd hempty (Chain.txns_ne_nil hleaf)

/-- A recorded height that is not zero is that of a block that is not empty. -/
lemma Follows.filled (hnode : Follows chain h node) {e : Element} {k : ℕ}
    (hget : node.notesTree.tree.entries[e]? = some k) (hpos : 0 < k) :
    Filled node.blockStore k := by
  obtain ⟨-, hblock, hleaf, -⟩ := hnode.recorded e k hget hpos
  exact ⟨_, hblock, Chain.txns_ne_nil hleaf⟩

/-- Elements of the chain are recorded at zero, or at the height of a block that is not empty and
comes with them. -/
lemma Follows.recorded_of_mem (hnode : Follows chain h node) {e : Element} {j : ℕ} (hj : j ≤ h)
    (he : e ∈ chain.elements j) :
    node.notesTree.tree.entries[e]? = some 0 ∨
      ∃ k, node.notesTree.tree.entries[e]? = some k ∧ k ≤ j ∧ e ∈ chain.elements k ∧
        Filled node.blockStore k := by
  have hkey := (hnode.tree.keys e).2 (Chain.elements_mono hj hnode.le_tip he)
  obtain ⟨(k : ℕ), hget⟩ := mem_keys_iff.1 hkey
  rcases Nat.eq_zero_or_pos k with rfl | hpos
  · exact .inl hget
  · obtain ⟨hle, -, hleaf, hnew⟩ := hnode.recorded e k hget hpos
    have htip : k ≤ chain.tip := hle.trans hnode.le_tip
    refine .inr ⟨k, hget, ?_, (Chain.mem_elements_iff hpos htip e).2 (.inr hleaf),
      hnode.filled hget hpos⟩
    by_contra hlt
    exact hnew (Chain.elements_mono (Nat.le_sub_one_of_lt (not_le.1 hlt))
      ((Nat.sub_le _ _).trans htip) he)

/-- Trees of the chain with the same root have the same elements, as without collisions of the
hash. -/
def Chain.RootsBind (chain : Chain P) : Prop :=
  ∀ i ≤ chain.tip, ∀ j ≤ chain.tip, chain.root i = chain.root j →
    ∀ e ∈ chain.elements i, e ∈ chain.elements j

/-- A bad block does not have the root of a tree of the chain with elements that the tree after it
does not have. -/
def Chain.ClaimsBind (chain : Chain P) : Prop :=
  ∀ k, 0 < k → k ≤ chain.tip → chain.badBlocks.contains k = true → ∀ j ≤ chain.tip,
    chain.root j = (chain.block k).rootHash → ∀ e ∈ chain.elements j, e ∈ chain.elements k

/-- **Without collisions of the hash the roots bind.** -/
theorem Chain.rootsBind_of_injOn
    (hinj : Set.InjOn (Function.uncurry (Smirk.merge P.poseidon)) {q | ∃ k ≤ chain.tip,
      q ∈ SparseMerkle.nodePairs (Smirk.merge P.poseidon)
        (Smirk.occupant (MERKLE_TREE_DEPTH - 1) (chain.elements k)) (MERKLE_TREE_DEPTH - 1)}) :
    chain.RootsBind := by
  intro i hi j hj hroot e he
  rw [Chain.root, Chain.root, (Chain.tree_inv hi).tree.rootHash_eq,
    (Chain.tree_inv hj).tree.rootHash_eq] at hroot
  have hslot := SparseMerkle.eq_of_root_eq hinj (fun q hq => ⟨i, hi, hq⟩) (fun q hq => ⟨j, hj, hq⟩)
    hroot (e.slot (MERKLE_TREE_DEPTH - 1)) (e.slot_lt _)
  have hsame : Smirk.occupant (MERKLE_TREE_DEPTH - 1) (chain.elements j)
      (e.slot (MERKLE_TREE_DEPTH - 1)) = e :=
    hslot.symm.trans (Smirk.occupant_of_mem (Chain.tree_inv hi).tree.distinct he)
  rcases Smirk.occupant_cases (MERKLE_TREE_DEPTH - 1) (chain.elements j)
    (e.slot (MERKLE_TREE_DEPTH - 1)) with ⟨hmem, -⟩ | ⟨hnull, -⟩
  · rw [hsame] at hmem
    exact hmem
  · exact absurd (hsame.symm.trans hnull) ((Chain.tree_inv hi).tree.ne_null e he)

/-- The root of the empty tree. -/
lemma Chain.root_zero : chain.root 0 = (LastSeenBlock.origin P).rootHash := by
  rw [Chain.root, chain.tree_zero]
  rfl

/-- The root that a block records is that of no tree with other elements. -/
lemma Chain.mem_elements_of_rootHash_eq (hbinds : chain.RootsBind) (hclaims : chain.ClaimsBind)
    {k j : ℕ} (hpos : 0 < k) (hk : k ≤ chain.tip) (hj : j ≤ chain.tip)
    (hroot : chain.root j = (chain.block k).rootHash) {e : Element} (he : e ∈ chain.elements j) :
    e ∈ chain.elements k := by
  cases hbad : chain.badBlocks.contains k with
  | true => exact hclaims k hpos hk hbad j hj hroot e he
  | false =>
    obtain ⟨k, rfl⟩ := Nat.exists_eq_succ_of_ne_zero hpos.ne'
    rw [(Chain.sound_of_good hk hbad).root] at hroot
    exact hbinds j hj _ hk hroot e he

end Node

/-! ## Where the worker goes on -/

section Placed

variable {P : Primitives} {chain : Chain P} {store store' : BlockStore}
  {notesTree notesTree' : PersistentMerkleTree} {p n : ℕ}

/-- **A height to go on from**: the tree has the elements of the chain up to it, and none that is
not older than the blocks that are stored above it and are not empty. -/
structure Placed (chain : Chain P) (store : BlockStore) (notesTree : PersistentMerkleTree)
    (p : ℕ) : Prop where
  upTo : ∀ e ∈ chain.elements p, e ∈ notesTree.tree.entries.keys
  before : ∀ k, p < k → Filled store k → ∀ e ∈ notesTree.tree.entries.keys,
    e ∈ chain.elements (k - 1)

/-- **What the last seen block says**: if the tree is or becomes one of the chain with the recorded
root, it is that tree already, and the recorded height is one to go on from. -/
def Tells (chain : Chain P) (store : BlockStore) (notesTree : PersistentMerkleTree)
    (lastSeen : LastSeenBlock) : Prop :=
  ∀ j ≤ chain.tip, (∀ e ∈ notesTree.tree.entries.keys, e ∈ chain.elements j) →
    chain.root j = lastSeen.rootHash →
      (∀ e ∈ chain.elements j, e ∈ notesTree.tree.entries.keys) ∧
        Placed chain store notesTree lastSeen.height

/-- The block is the lowest that is stored above a height. -/
structure Yielded (store : BlockStore) (p : ℕ) (block : Block) : Prop where
  above : p < block.height
  stored : store.get block.height = some block
  lowest : ∀ k : ℕ, p < k → k < block.height → store.get k = none

/-- What is stored later comes after the blocks that the tree has. -/
def Grows (chain : Chain P) (n : ℕ) (store store' : BlockStore) : Prop :=
  (∀ (k : ℕ) (block : Block), store.get k = some block → store'.get k = some block) ∧
    ∀ (k : ℕ) (block : Block), store'.get k = some block →
      store.get k = some block ∨ (n < k ∧ k ≤ chain.tip)

/-- A store grows by nothing. -/
lemma Grows.refl (store : BlockStore) : Grows chain n store store :=
  ⟨fun _ _ hget => hget, fun _ _ => .inl⟩

/-- A place stays one when blocks are stored. -/
lemma Placed.grow (h : Placed chain store notesTree p) (hgrows : Grows chain n store store')
    (hsub : ∀ e ∈ notesTree.tree.entries.keys, e ∈ chain.elements n) :
    Placed chain store' notesTree p := by
  refine ⟨h.upTo, fun k hk hfilled e he => ?_⟩
  obtain ⟨block, hget, htxns⟩ := hfilled
  rcases hgrows.2 k block hget with hold | ⟨hlt, htip⟩
  · exact h.before k hk ⟨block, hold, htxns⟩ e he
  · exact Chain.elements_mono (by omega) (by omega) (hsub e he)

/-- What the last seen block tells stays told as blocks are added. -/
lemma Tells.grow {lastSeen : LastSeenBlock} (h : Tells chain store notesTree lastSeen)
    (hgrows : Grows chain n store store')
    (hsub : ∀ e ∈ notesTree.tree.entries.keys, e ∈ chain.elements n) :
    Tells chain store' notesTree lastSeen := by
  intro j hj hjsub hroot
  obtain ⟨hall, hplaced⟩ := h j hj hjsub hroot
  exact ⟨hall, hplaced.grow hgrows hsub⟩

/-- A yielded block stays yielded as blocks are added. -/
lemma Yielded.grow {block : Block} (h : Yielded store p block)
    (hgrows : Grows chain n store store') (hle : block.height ≤ n) : Yielded store' p block := by
  refine ⟨h.above, hgrows.1 _ _ h.stored, fun k hk hlt => ?_⟩
  cases hget : store'.get k with
  | none => rfl
  | some other =>
    rcases hgrows.2 k other hget with hold | ⟨hn, -⟩
    · rw [h.lowest k hk hlt] at hold
      cases hold
    · exact absurd (lt_of_lt_of_le hlt hle) hn.asymm

/-- What the last seen block says stays true when elements are inserted: had the tree the recorded
root afterwards, nothing was inserted. -/
theorem Tells.insert {lastSeen : LastSeenBlock} (h : Tells chain store notesTree lastSeen)
    (hsub : ∀ e ∈ notesTree.tree.entries.keys, e ∈ notesTree'.tree.entries.keys) :
    Tells chain store notesTree' lastSeen := by
  intro j hj hjsub hroot
  obtain ⟨hall, hplaced⟩ := h j hj (fun e he => hjsub e (hsub e he)) hroot
  refine ⟨fun e he => hsub e (hall e he), fun e he => hsub e (hplaced.upTo e he),
    fun k hk hfilled e he => ?_⟩
  exact hplaced.before k hk hfilled e (hall e (hjsub e he))

/-- A tree of the chain is placed at its height. -/
lemma Chain.At.placed {k : ℕ} (hat : chain.At k notesTree)
    (hstored : ∀ j, k < j → Filled store j → j ≤ chain.tip) : Placed chain store notesTree k := by
  refine ⟨fun e => (hat.keys e).2, fun j hj hfilled e he => ?_⟩
  have htip := hstored j hj hfilled
  exact Chain.elements_mono (by omega) (by omega) ((hat.keys e).1 he)

/-- The last seen block of a worker that has seen none: no other tree of the chain has the root of
the empty tree. -/
lemma tells_origin (hbinds : chain.RootsBind) :
    Tells chain store notesTree (.origin P) := by
  intro j hj hsub hroot
  have hempty : ∀ e, e ∉ chain.elements j := by
    intro e he
    have hzero := hbinds j hj 0 (Nat.zero_le _) (hroot.trans Chain.root_zero.symm) e he
    rw [Chain.elements_zero] at hzero
    exact absurd hzero List.not_mem_nil
  refine ⟨fun e he => absurd he (hempty e), fun e he => ?_, fun k _ _ e he => ?_⟩
  · rw [LastSeenBlock.origin, Chain.elements_zero] at he
    exact absurd he List.not_mem_nil
  · exact absurd (hsub e he) (hempty e)

end Placed

/-! ## The start-up -/

section TakeOver

variable {P : Primitives} {chain : Chain P} {self : ProverSystem} {contractHeight : BlockHeight}
  {k : ℕ}

/-- **What the start-up takes over**: it does not fail, and the elements are in the tree.

**Proof sketch.** What is missing in the tree of the prover are elements of the chain, which are
fresh there (`Chain.fresh`), so that their insertion succeeds. -/
theorem takeOver_spec (hnode : Follows chain self.nodeHeight self.node) (hk : k ≤ self.nodeHeight)
    (hat : chain.At k self.notesTree) :
    ∃ notesTree, takeOver P contractHeight self =
        { self with
          notesTree := notesTree
          stage := .tookOver contractHeight (highestBlockHeight
            (elementsRolledUpNotInProver contractHeight self.node.notesTree self.notesTree)) } ∧
      notesTree.Inv P.poseidon ∧
      ∀ e, e ∈ notesTree.tree.entries.keys ↔ e ∈ self.notesTree.tree.entries.keys ∨
        e ∈ (elementsRolledUpNotInProver contractHeight self.node.notesTree
          self.notesTree).map Prod.fst := by
  have hmem : ∀ e, e ∈ (elementsRolledUpNotInProver contractHeight self.node.notesTree
      self.notesTree).map Prod.fst → e ∈ chain.elements self.nodeHeight ∧
        e ∉ self.notesTree.tree.entries.keys := by
    intro e he
    obtain ⟨⟨e, height⟩, hentry, rfl⟩ := List.mem_map.1 he
    obtain ⟨hget, -, hnew⟩ := mem_elementsRolledUpNotInProver.1 hentry
    exact ⟨(hnode.tree.keys e).1 (mem_keys_iff.2 ⟨height, hget⟩), hnew⟩
  have hnodup : ((elementsRolledUpNotInProver contractHeight self.node.notesTree
      self.notesTree).map Prod.fst).Nodup := by
    refine List.Nodup.sublist (List.filter_sublist.map Prod.fst) ?_
    rw [Std.TreeMap.map_fst_toList_eq_keys]
    exact Std.TreeMap.nodup_keys
  have hfresh := Chain.fresh hnode.le_tip hnodup (fun e he => (hmem e he).1)
    fun e he => ⟨Chain.elements_mono hk hnode.le_tip ((hat.keys e).1 he),
      fun hin => (hmem e hin).2 he⟩
  obtain ⟨batch, hbatch, hentries⟩ :=
    Smirk.Batch.fromEntries_of_pairwise MERKLE_TREE_DEPTH_le hfresh.distinct
  have helements : batch.elements = (elementsRolledUpNotInProver contractHeight
      self.node.notesTree self.notesTree).map Prod.fst := by
    rw [Smirk.Batch.elements, hentries]
  rw [← helements] at hfresh
  obtain ⟨notesTree, hinsert, hinv, hkeys⟩ := Smirk.Persistent.insertBatch_of_fresh
    MERKLE_TREE_DEPTH_pos MERKLE_TREE_DEPTH_le hat.inv hfresh
  refine ⟨notesTree, ?_, hinv, fun e => by rw [hkeys, helements]⟩
  rw [takeOver, hbatch]
  simp only [hinsert]

variable {notesTree : PersistentMerkleTree}

/-- **Where the start-up goes on**: if it resumes where it should, the tree is one of the chain, and
the highest recorded height is one to go on from.

**Proof sketch.** The highest recorded height is that of a missing element, and every other missing
element has a lower one. So the tree has no element from a stored block above it, and it lacks none
from a block below; between the two it is the tree of a block of the chain. -/
theorem takeOver_placed (hnode : Follows chain self.nodeHeight self.node) (hk : k ≤ self.nodeHeight)
    (hat : chain.At k self.notesTree) (hresumes : Resumes chain contractHeight self)
    (hinv : notesTree.Inv P.poseidon)
    (hkeys : ∀ e, e ∈ notesTree.tree.entries.keys ↔ e ∈ self.notesTree.tree.entries.keys ∨
      e ∈ (elementsRolledUpNotInProver contractHeight self.node.notesTree
        self.notesTree).map Prod.fst)
    {highest : BlockHeight} (hhighest : highestBlockHeight (elementsRolledUpNotInProver
      contractHeight self.node.notesTree self.notesTree) = some highest) :
    highest ≤ contractHeight ∧ highest ≤ self.nodeHeight ∧
      Placed chain self.node.blockStore notesTree highest ∧
      ∃ j ≤ self.nodeHeight, chain.At j notesTree := by
  obtain ⟨⟨⟨first, height⟩, hfirst, hheight⟩, hmax⟩ := highestBlockHeight_eq_some hhighest
  have hmissing := mem_elementsRolledUpNotInProver.1 hfirst
  have hbefore : ∀ k, highest < k → Filled self.node.blockStore k →
      ∀ e ∈ notesTree.tree.entries.keys, e ∈ chain.elements (k - 1) := by
    intro k hk hfilled e he
    obtain ⟨hold, hnew⟩ := hresumes ⟨first, height, hmissing⟩ k hfilled fun e j hother =>
      lt_of_le_of_lt (hmax (e, j) (mem_elementsRolledUpNotInProver.2 hother)) hk
    rcases (hkeys e).1 he with he | he
    · exact hold e he
    · obtain ⟨⟨e, j⟩, hentry, rfl⟩ := List.mem_map.1 he
      exact hnew e j (mem_elementsRolledUpNotInProver.1 hentry)
  obtain ⟨hget, hle, -⟩ := hmissing
  have hheight : height = highest := hheight
  rw [hheight] at hget hle
  have hnodeHeight : highest ≤ self.nodeHeight := by
    rcases Nat.eq_zero_or_pos highest with hzero | hpos
    · rw [hzero]
      exact Nat.zero_le _
    · exact (hnode.recorded first highest hget hpos).1
  -- elements of the chain are in the tree unless a block above the highest height inserted them
  have hin : ∀ j ≤ self.nodeHeight,
      (∀ k, highest < k → Filled self.node.blockStore k → j < k) →
      ∀ e ∈ chain.elements j, e ∈ notesTree.tree.entries.keys := by
    intro j hj hnone e he
    rw [hkeys]
    by_cases hold : e ∈ self.notesTree.tree.entries.keys
    · exact .inl hold
    · refine .inr ?_
      rcases hnode.recorded_of_mem hj he with hzero | ⟨k, hrecorded, hkj, -, hfilled⟩
      · exact List.mem_map.2 ⟨(e, 0), mem_elementsRolledUpNotInProver.2
          ⟨hzero, Nat.zero_le _, hold⟩, rfl⟩
      · have hk : k ≤ highest := by
          by_contra hlt
          exact absurd (hnone k (not_le.1 hlt) hfilled) (not_lt.2 hkj)
        exact List.mem_map.2 ⟨(e, k), mem_elementsRolledUpNotInProver.2
          ⟨hrecorded, hk.trans hle, hold⟩, rfl⟩
  have hplaced : Placed chain self.node.blockStore notesTree highest :=
    ⟨hin highest hnodeHeight fun _ hk _ => hk, hbefore⟩
  refine ⟨hle, hnodeHeight, hplaced, ?_⟩
  by_cases hfilled : ∃ k, highest < k ∧ Filled self.node.blockStore k
  · -- the tree is that before the lowest of the blocks to come
    classical
    obtain ⟨hlt, hfound⟩ := Nat.find_spec hfilled
    have hlowest : ∀ k, highest < k → Filled self.node.blockStore k → Nat.find hfilled ≤ k :=
      fun k hk hf => Nat.find_min' hfilled ⟨hk, hf⟩
    have hpos : 0 < Nat.find hfilled := lt_of_le_of_lt (Nat.zero_le _) hlt
    obtain ⟨block, hblock, -⟩ := hfound
    have hstored := (hnode.stored _ block hpos hblock).1
    refine ⟨Nat.find hfilled - 1, by omega, hinv, fun e =>
      ⟨hbefore _ hlt (Nat.find_spec hfilled).2 e, hin _ (by omega) (fun k hk hf => ?_) e⟩⟩
    have := hlowest k hk hf
    omega
  · -- nothing is to come, and the tree is that of the node
    refine ⟨self.nodeHeight, le_refl _, hinv, fun e => ⟨fun he => ?_, hin _ (le_refl _)
      (fun k hk hf => absurd ⟨k, hk, hf⟩ hfilled) e⟩⟩
    rcases (hkeys e).1 he with hold | hnew
    · exact Chain.elements_mono hk hnode.le_tip ((hat.keys e).1 hold)
    · obtain ⟨⟨e, height⟩, hentry, rfl⟩ := List.mem_map.1 hnew
      exact (hnode.tree.keys e).1 (mem_keys_iff.2
        ⟨height, (mem_elementsRolledUpNotInProver.1 hentry).1⟩)

end TakeOver

end TempoRollup.Node
