import TempoRollup.Node.Binding
import TempoRollup.Node.Elements

set_option relaxedAutoImplicit false
set_option autoImplicit false

/-!
# Ledgers

A list of blocks as the history that the nodes of a network share, and what a node holds of it: a
notes tree with the leaves of the blocks, and a block store with blocks that stand for them. The
hash of a block says nothing of its list of transactions, so that two nodes may store different
blocks for one entry of the ledger.

## Main definitions

* `Ledger` — blocks on top of each other, each with the root of the tree after it.
* `StandsFor` — a block with the header, the root and the leaves of another one.
* `Holds` — a notes tree has the leaves of a ledger, with their heights.
* `Stores` — a block store has a block for each entry of a ledger, and no others.

## Main results

* `Extends.standsFor_of_hash_eq` — a valid block with the hash of the next entry stands for it.
* `Holds.apply` — such a block makes a tree of one ledger a tree of the next.
* `Disk.Keeps.startNode` — what a node makes of its directories when it is started.
-/

open Exec

namespace TempoRollup.Node

/-! ## Ledgers -/

section Ledger

variable (P : Primitives)

/-- The pairs of nodes hashed in the reference tree of some elements. -/
def treePairs (keys : List Element) : Set (Element × Element) :=
  SparseMerkle.nodePairs (Smirk.merge P.poseidon)
    (Smirk.occupant (MERKLE_TREE_DEPTH - 1) keys) (MERKLE_TREE_DEPTH - 1)

/-- The root of the reference tree of some elements. -/
def referenceRoot (keys : List Element) : Element :=
  SparseMerkle.root (Smirk.merge P.poseidon)
    (Smirk.occupant (MERKLE_TREE_DEPTH - 1) keys) (MERKLE_TREE_DEPTH - 1)

/-- What is hashed: the pairs of nodes of the trees, and the messages of the blocks. -/
structure Hashing where
  pairs : Set (Element × Element)
  messages : Set Bytes

/-- Nothing that is hashed collides. -/
structure Hashing.CollisionFree (hashing : Hashing) : Prop where
  merge : Set.InjOn (Function.uncurry (Smirk.merge P.poseidon)) hashing.pairs
  keccak256 : Set.InjOn P.keccak256 hashing.messages

/-- The messages of a block are among those that are hashed, and its header can be encoded. -/
structure Hashing.Covers (hashing : Hashing) (block : Block) : Prop where
  fits : block.content.header.Fits
  messages : block.content.messages P ⊆ hashing.messages

/-- The leaves of the blocks of a ledger. -/
def ledgerLeaves (log : List Block) : List Element :=
  log.flatMap fun block => block.content.state.leavesNonNull

/-- **The next entry** of a ledger: a block of the next height with new leaves in slots of their
own, and with the root of the tree after it. -/
structure Extends (hashing : Hashing) (log : List Block) (block : Block) : Prop where
  height : block.height = log.length + 1
  covers : hashing.Covers P block
  nodup : block.content.state.leavesNonNull.Nodup
  new : ∀ leaf ∈ block.content.state.leavesNonNull, leaf ∉ ledgerLeaves log
  distinct : Smirk.SlotDistinct (MERKLE_TREE_DEPTH - 1) (ledgerLeaves (log ++ [block]))
  root : block.rootHash = referenceRoot P (ledgerLeaves (log ++ [block]))
  pairs : treePairs P (ledgerLeaves (log ++ [block])) ⊆ hashing.pairs

/-- **A ledger**: blocks on top of each other. -/
inductive Ledger (hashing : Hashing) : List Block → Prop
  | nil (hpairs : treePairs P [] ⊆ hashing.pairs) : Ledger hashing []
  | concat {log : List Block} {block : Block} (h : Ledger hashing log)
    (hblock : Extends P hashing log block) : Ledger hashing (log ++ [block])

variable {P} {hashing : Hashing} {log pre : List Block} {block block' : Block}

/-- The leaves of a ledger with one more block. -/
lemma ledgerLeaves_concat : ledgerLeaves (log ++ [block]) =
    ledgerLeaves log ++ block.content.state.leavesNonNull := by
  simp [ledgerLeaves]

/-- A leaf of a ledger is a leaf of one of its blocks. -/
lemma mem_ledgerLeaves {e : Element} : e ∈ ledgerLeaves log ↔
    ∃ block ∈ log, e ∈ block.content.state.leavesNonNull :=
  List.mem_flatMap

/-- The start of a ledger is a ledger. -/
lemma Ledger.of_start (h : Ledger P hashing log) (hpre : pre <+: log) : Ledger P hashing pre := by
  induction h generalizing pre with
  | nil hpairs =>
    rw [List.prefix_nil.1 hpre]
    exact .nil hpairs
  | concat h hblock ih =>
    rcases List.prefix_concat_iff.1 hpre with rfl | hpre
    · exact h.concat hblock
    · exact ih hpre

/-- The last entry of a ledger extends the ones before it. -/
lemma Ledger.last (h : Ledger P hashing (log ++ [block])) : Extends P hashing log block := by
  generalize heq : log ++ [block] = l at h
  cases h with
  | nil => simp at heq
  | concat h hblock =>
    obtain ⟨rfl, hsame⟩ := List.append_inj' heq rfl
    cases hsame
    exact hblock

/-- What the tree of a ledger hashes is among the hashed pairs. -/
lemma Ledger.pairs (h : Ledger P hashing log) : treePairs P (ledgerLeaves log) ⊆ hashing.pairs := by
  cases h with
  | nil hpairs => exact hpairs
  | concat _ hblock => exact hblock.pairs

/-- The leaves of a ledger have slots of their own. -/
lemma Ledger.distinct (h : Ledger P hashing log) :
    Smirk.SlotDistinct (MERKLE_TREE_DEPTH - 1) (ledgerLeaves log) := by
  cases h with
  | nil =>
    intro a ha
    cases ha
  | concat _ hblock => exact hblock.distinct

/-- A block of a ledger has the height of its place. -/
lemma Ledger.exists_start (h : Ledger P hashing log) (hmem : block ∈ log) :
    ∃ pre, pre ++ [block] <+: log ∧ Extends P hashing pre block := by
  obtain ⟨pre, rest, rfl⟩ := List.append_of_mem hmem
  have hpre : pre ++ [block] <+: pre ++ block :: rest := ⟨rest, by simp⟩
  exact ⟨pre, hpre, (h.of_start hpre).last⟩

/-- The blocks of a ledger are above genesis. -/
lemma Ledger.height_pos (h : Ledger P hashing log) (hmem : block ∈ log) : 0 < block.height := by
  obtain ⟨pre, -, hblock⟩ := h.exists_start hmem
  rw [hblock.height]
  exact Nat.succ_pos _

/-- No block of a ledger is above its length. -/
lemma Ledger.height_le (h : Ledger P hashing log) (hmem : block ∈ log) :
    block.height ≤ log.length := by
  obtain ⟨pre, hpre, hblock⟩ := h.exists_start hmem
  have hlength := hpre.length_le
  rw [List.length_append, List.length_singleton] at hlength
  rw [hblock.height]
  exact hlength

/-- Starts of one list with the same length are the same. -/
lemma eq_of_starts {l l' : List Block} (h : l <+: log) (h' : l' <+: log)
    (hlen : l.length = l'.length) : l = l' := by
  rw [List.prefix_iff_eq_take.1 h, List.prefix_iff_eq_take.1 h', hlen]

/-- Blocks of one ledger with one height are the same. -/
lemma Ledger.eq_of_height_eq (h : Ledger P hashing log) (hmem : block ∈ log)
    (hmem' : block' ∈ log) (hheight : block.height = block'.height) : block = block' := by
  obtain ⟨pre, hpre, hblock⟩ := h.exists_start hmem
  obtain ⟨pre', hpre', hblock'⟩ := h.exists_start hmem'
  have hlen : pre.length = pre'.length :=
    Nat.succ.inj (hblock.height.symm.trans (hheight.trans hblock'.height))
  have heq := eq_of_starts hpre hpre' (by simp [hlen])
  exact List.singleton_inj.1 (List.append_inj' heq rfl).2

end Ledger

/-! ## The tree of a ledger -/

section Tree

variable {P : Primitives} {hashing : Hashing} {log : List Block} {block block' : Block}
  {notesTree notesTree' : PersistentMerkleTree}

/-- **A notes tree has a ledger**: its elements are the leaves of the blocks, with the heights of
the blocks, in memory and in the database. -/
structure Holds (P : Primitives) (log : List Block) (notesTree : PersistentMerkleTree) : Prop where
  inv : notesTree.Inv P.poseidon
  written : Written notesTree
  recorded : ∀ (e : Element) (k : ℕ), notesTree.tree.entries[e]? = some k ↔
    ∃ block ∈ log, block.height = k ∧ e ∈ block.content.state.leavesNonNull

/-- The keys of a tree that holds a ledger are the ledger's leaves. -/
lemma Holds.mem_keys (h : Holds P log notesTree) (e : Element) :
    e ∈ notesTree.tree.entries.keys ↔ e ∈ ledgerLeaves log := by
  rw [mem_keys_iff, mem_ledgerLeaves]
  constructor
  · rintro ⟨k, hk⟩
    obtain ⟨block, hmem, -, hleaf⟩ := (h.recorded e k).1 hk
    exact ⟨block, hmem, hleaf⟩
  · rintro ⟨block, hmem, hleaf⟩
    exact ⟨block.height, (h.recorded e _).2 ⟨block, hmem, rfl, hleaf⟩⟩

/-- The empty tree holds the empty ledger. -/
lemma holds_new : Holds P [] (Smirk.Persistent.new : PersistentMerkleTree) where
  inv := Smirk.Persistent.inv_new MERKLE_TREE_DEPTH_pos
  written e k h := by simp [Smirk.Persistent.new] at h
  recorded e k := by simp [Smirk.Persistent.new, Smirk.Tree.new]

/-- The root of the tree is the root of the ledger. -/
lemma Holds.rootHash_eq (h : Holds P log notesTree) :
    notesTree.tree.rootHash P.poseidon = referenceRoot P (ledgerLeaves log) := by
  rw [h.inv.tree.rootHash_eq, referenceRoot,
    Smirk.occupant_congr h.inv.tree.distinct fun e => (h.mem_keys e).symm]

/-- A block stands for an entry of a ledger: it has its header, its root and its leaves. -/
structure StandsFor (block' block : Block) : Prop where
  header : block'.content.header = block.content.header
  root : block'.rootHash = block.rootHash
  leaves : block'.content.state.leavesNonNull.Perm block.content.state.leavesNonNull

/-- A block stands for itself. -/
lemma StandsFor.refl (block : Block) : StandsFor block block := ⟨rfl, rfl, .refl _⟩

/-- A block has the height of the one it stands for. -/
lemma StandsFor.height_eq (h : StandsFor block' block) : block'.height = block.height :=
  congrArg BlockHeader.height h.header

/-- The tree of a ledger takes what stands for the next entry. -/
lemma Holds.takes (h : Holds P log notesTree) (hblock : Extends P hashing log block)
    (hsame : StandsFor block' block) :
    Takes notesTree block'.content.state false true := by
  have hmem : ∀ e, e ∈ block'.content.state.leavesNonNull ↔
      e ∈ block.content.state.leavesNonNull := fun e => hsame.leaves.mem_iff
  have hin : ∀ e ∈ block'.content.state.leavesNonNull, e ∈ ledgerLeaves (log ++ [block]) := by
    intro e he
    rw [ledgerLeaves_concat]
    exact List.mem_append_right _ ((hmem e).1 he)
  refine takes_of_fresh ⟨fun e => ne_null_of_mem_leavesNonNull, ?_, ?_⟩
  · have hnodup := (hsame.leaves.nodup_iff).2 hblock.nodup
    rw [List.nodup_iff_pairwise_ne] at hnodup
    exact hnodup.imp_of_mem fun ha hb hne hslot =>
      hne (hblock.distinct _ (hin _ ha) _ (hin _ hb) hslot)
  · intro e he leaf hleaf hslot
    rw [h.mem_keys] at he
    have hold : e ∈ ledgerLeaves (log ++ [block]) := by
      rw [ledgerLeaves_concat]
      exact List.mem_append_left _ he
    obtain rfl := hblock.distinct _ (hin _ hleaf) _ hold hslot
    exact hblock.new _ ((hmem leaf).1 hleaf) he

/-- **What stands for the next entry** makes a tree of the ledger a tree of the next. -/
theorem Holds.apply (h : Holds P log notesTree) (hblock : Extends P hashing log block)
    (hsame : StandsFor block' block) {treeWrites ignoreCollisions : Bool}
    (hrun : applyBlockToTree P treeWrites block'.content.state block'.height ignoreCollisions
      notesTree = (.ok (), notesTree')) :
    Holds P (log ++ [block]) notesTree' := by
  obtain ⟨hinv, -, hrecorded⟩ := applyBlockToTree_recorded h.inv hrun
  have hwritten := (applyBlockToTree_written (P := P) h.inv.tree h.written treeWrites
    block'.content.state block'.height ignoreCollisions).2.1
  rw [hrun] at hwritten
  refine ⟨hinv, hwritten, fun e k => ?_⟩
  rw [hrecorded, h.recorded, h.mem_keys, hsame.leaves.mem_iff, hsame.height_eq]
  constructor
  · rintro (⟨old, hmem, hheight, hleaf⟩ | ⟨-, hleaf, rfl⟩)
    · exact ⟨old, List.mem_append_left _ hmem, hheight, hleaf⟩
    · exact ⟨block, List.mem_append_right _ List.mem_cons_self, rfl, hleaf⟩
  · rintro ⟨old, hmem, rfl, hleaf⟩
    rcases List.mem_append.1 hmem with hmem | hmem
    · exact .inl ⟨old, hmem, rfl, hleaf⟩
    · obtain rfl := List.mem_singleton.1 hmem
      exact .inr ⟨hblock.new e hleaf, hleaf, rfl⟩

/-- The reference tree with the leaves of a block is that of the longer ledger. -/
lemma Holds.occupant_eq (h : Holds P log notesTree)
    (hfresh : notesTree.tree.Fresh block.content.state.leavesNonNull) :
    Smirk.occupant (MERKLE_TREE_DEPTH - 1) (ledgerLeaves (log ++ [block])) =
      Smirk.occupant (MERKLE_TREE_DEPTH - 1)
        (notesTree.tree.entries.keys ++ block.content.state.leavesNonNull) := by
  refine Smirk.occupant_congr (hfresh.slotDistinct h.inv.tree fun _ => List.mem_append) fun e => ?_
  rw [ledgerLeaves_concat, List.mem_append, List.mem_append, h.mem_keys]

/-- **A valid block** of the next height, whose leaves the tree takes, is a next entry. -/
lemma Holds.extends (h : Holds P log notesTree) {storeReads treeWrites : Bool} {mode : Mode}
    {blockStore : BlockStore} (hheight : block.height = log.length + 1)
    (hcovers : hashing.Covers P block)
    (hvalid : block.content.validate P storeReads mode blockStore notesTree = .ok ())
    (htakes : Takes notesTree block.content.state false treeWrites)
    (hpairs : block.content.pairs P notesTree ⊆ hashing.pairs) : Extends P hashing log block := by
  obtain ⟨-, hnodup, hdry⟩ := validate_eq_ok_iff.1 hvalid
  have hfresh : notesTree.tree.Fresh block.content.state.leavesNonNull := htakes.fresh
  have hoccupant := h.occupant_eq hfresh
  rw [newRootHash_eq_root h.inv hfresh, ← hoccupant] at hdry
  rw [BlockContent.pairs, ← hoccupant] at hpairs
  refine ⟨hheight, hcovers, hnodup, fun leaf hleaf hold => ?_, ?_, (Outcome.ok.inj hdry).symm,
    hpairs⟩
  · exact hfresh.free leaf ((h.mem_keys leaf).2 hold) leaf hleaf rfl
  · refine hfresh.slotDistinct h.inv.tree fun e => ?_
    rw [ledgerLeaves_concat, List.mem_append, h.mem_keys]

/-- Two lists of elements with one root have the same elements, if no two of them share a slot. -/
lemma mem_of_referenceRoot_eq (hcf : hashing.CollisionFree P) {keys keys' : List Element}
    (hnull : ∀ e ∈ keys, e ≠ Element.NULL_HASH)
    (hdistinct : Smirk.SlotDistinct (MERKLE_TREE_DEPTH - 1) keys)
    (hpairs : treePairs P keys ⊆ hashing.pairs) (hpairs' : treePairs P keys' ⊆ hashing.pairs)
    (hroot : referenceRoot P keys = referenceRoot P keys') {e : Element} (he : e ∈ keys) :
    e ∈ keys' := by
  have hslot := SparseMerkle.eq_of_root_eq hcf.merge hpairs hpairs' hroot _
    (e.slot_lt (MERKLE_TREE_DEPTH - 1))
  rw [Smirk.occupant_of_mem hdistinct he] at hslot
  rcases Smirk.occupant_cases (MERKLE_TREE_DEPTH - 1) keys' (e.slot (MERKLE_TREE_DEPTH - 1)) with
    ⟨hmem, -⟩ | ⟨hempty, -⟩
  · rwa [← hslot] at hmem
  · exact absurd (hslot.trans hempty) (hnull e he)

/-- No leaf of a ledger is null. -/
lemma ne_null_of_mem_ledgerLeaves {e : Element} (he : e ∈ ledgerLeaves log) :
    e ≠ Element.NULL_HASH := by
  obtain ⟨block, -, hleaf⟩ := mem_ledgerLeaves.1 he
  exact ne_null_of_mem_leavesNonNull hleaf

/-- **A valid block with the hash of the next entry** stands for it: the hash binds the header and
the root, and the root binds the leaves.

**Proof sketch.** Equal hashes are of equal headers and roots (`header_eq_of_hash_eq`). The two
trees then have one root, and nothing collides, so that they have the same elements
(`mem_of_referenceRoot_eq`); what is new in them are the leaves. -/
theorem Extends.standsFor_of_hash_eq (hblock : Extends P hashing log block)
    (hcf : hashing.CollisionFree P) (h : Holds P log notesTree) {storeReads treeWrites : Bool}
    {mode : Mode} {blockStore : BlockStore} (hcovers : hashing.Covers P block')
    (hvalid : block'.content.validate P storeReads mode blockStore notesTree = .ok ())
    (htakes : Takes notesTree block'.content.state false treeWrites)
    (hpairs : block'.content.pairs P notesTree ⊆ hashing.pairs)
    (hhash : block'.hash P = block.hash P) : StandsFor block' block := by
  obtain ⟨hheader, hroot⟩ := header_eq_of_hash_eq hcovers.fits hblock.covers.fits
    (hcf.keccak256.mono (Set.union_subset hcovers.messages hblock.covers.messages)) hhash
  obtain ⟨-, hnodup, hdry⟩ := validate_eq_ok_iff.1 hvalid
  have hfresh : notesTree.tree.Fresh block'.content.state.leavesNonNull := htakes.fresh
  rw [newRootHash_eq_root h.inv hfresh] at hdry
  have hdistinct := hfresh.slotDistinct h.inv.tree fun e =>
    (List.mem_append (s := notesTree.tree.entries.keys)
      (t := block'.content.state.leavesNonNull) (a := e))
  have hnull : ∀ e ∈ notesTree.tree.entries.keys ++ block'.content.state.leavesNonNull,
      e ≠ Element.NULL_HASH := by
    intro e he
    rcases List.mem_append.1 he with hkey | hleaf
    · exact ne_null_of_mem_ledgerLeaves ((h.mem_keys e).1 hkey)
    · exact ne_null_of_mem_leavesNonNull hleaf
  have hroots : referenceRoot P
      (notesTree.tree.entries.keys ++ block'.content.state.leavesNonNull) =
        referenceRoot P (ledgerLeaves (log ++ [block])) :=
    (Outcome.ok.inj hdry).trans (hroot.trans hblock.root)
  refine ⟨hheader, hroot, (List.perm_ext_iff_of_nodup hnodup hblock.nodup).2 fun e => ⟨?_, ?_⟩⟩
  · intro hleaf
    have hmem := mem_of_referenceRoot_eq hcf hnull hdistinct hpairs hblock.pairs hroots
      (List.mem_append_right _ hleaf)
    rw [ledgerLeaves_concat, List.mem_append] at hmem
    refine hmem.resolve_left fun hold => ?_
    exact hfresh.free e ((h.mem_keys e).2 hold) e hleaf rfl
  · intro hleaf
    have hin : e ∈ ledgerLeaves (log ++ [block]) := by
      rw [ledgerLeaves_concat]
      exact List.mem_append_right _ hleaf
    have hmem := mem_of_referenceRoot_eq hcf (fun _ => ne_null_of_mem_ledgerLeaves)
      hblock.distinct hblock.pairs hpairs hroots.symm hin
    rcases List.mem_append.1 hmem with hkey | hleaf'
    · exact absurd ((h.mem_keys e).1 hkey) (hblock.new e hleaf)
    · exact hleaf'

end Tree

/-! ## The block store of a ledger -/

section Store

variable {P : Primitives} {hashing : Hashing} {log : List Block} {block block' : Block}
  {blockStore : BlockStore}

/-- **A block store has a ledger**: each stored block stands for an entry, and each entry has a
block that is stored. -/
structure Stores (log : List Block) (blockStore : BlockStore) : Prop where
  wf : blockStore.Wf
  standsFor : ∀ h block', blockStore.get h = some block' →
    ∃ block ∈ log, StandsFor block' block
  stored : ∀ block ∈ log, ∃ block', blockStore.get block.height = some block'

/-- An empty store has the empty ledger. -/
lemma stores_empty : Stores [] .empty where
  wf := BlockStore.wf_empty
  standsFor h block' hget := by simp [BlockStore.get, BlockStore.empty] at hget
  stored block hmem := by cases hmem

/-- The entry at the height of a stored block. -/
lemma Stores.get (h : Stores log blockStore) (hlog : Ledger P hashing log) (hmem : block ∈ log) :
    ∃ block', blockStore.get block.height = some block' ∧ StandsFor block' block := by
  obtain ⟨block', hget⟩ := h.stored block hmem
  obtain ⟨entry, hentry, hsame⟩ := h.standsFor _ _ hget
  have hheight := hsame.height_eq.symm.trans (h.wf.keyed _ _ hget)
  obtain rfl := hlog.eq_of_height_eq hentry hmem hheight
  exact ⟨block', hget, hsame⟩

/-- A store has another entry after a block was stored that stands for it. -/
lemma Stores.set (h : Stores log blockStore) (hsame : StandsFor block' block) :
    Stores (log ++ [block]) (blockStore.set block') where
  wf := h.wf.set block'
  standsFor height stored hget := by
    rw [BlockStore.get_set] at hget
    split_ifs at hget with heq
    · cases hget
      exact ⟨block, List.mem_append_right _ List.mem_cons_self, hsame⟩
    · obtain ⟨entry, hmem, hentry⟩ := h.standsFor height stored hget
      exact ⟨entry, List.mem_append_left _ hmem, hentry⟩
  stored entry hmem := by
    rw [BlockStore.get_set]
    split_ifs with heq
    · exact ⟨block', rfl⟩
    · rcases List.mem_append.1 hmem with hmem | hmem
      · exact h.stored entry hmem
      · obtain rfl := List.mem_singleton.1 hmem
        exact absurd hsame.height_eq heq

/-- Nothing is stored that is not of the ledger. -/
lemma Stores.height_le (h : Stores log blockStore) (hlog : Ledger P hashing log) {height : ℕ}
    (hget : blockStore.get height = some block') : 0 < height ∧ height ≤ log.length := by
  obtain ⟨entry, hmem, hsame⟩ := h.standsFor _ _ hget
  rw [← h.wf.keyed _ _ hget, hsame.height_eq]
  exact ⟨hlog.height_pos hmem, hlog.height_le hmem⟩

/-- The store of an empty ledger has no greatest height. -/
lemma Stores.maxHeight_nil (h : Stores [] blockStore) : blockStore.maxHeight = none := by
  rcases hmax : blockStore.maxHeight with _ | max
  · rfl
  · obtain ⟨block', hget⟩ := h.wf.stored max hmax
    obtain ⟨entry, hmem, -⟩ := h.standsFor _ _ hget
    cases hmem

/-- The greatest height is that of the last entry. -/
lemma Stores.maxHeight_concat (h : Stores (log ++ [block]) blockStore)
    (hlog : Ledger P hashing (log ++ [block])) :
    blockStore.maxHeight = some block.height := by
  obtain ⟨block', hget⟩ := h.stored block (List.mem_append_right _ List.mem_cons_self)
  obtain ⟨max, hmax, hle⟩ := h.wf.le_max _ _ hget
  obtain ⟨last, hlast⟩ := h.wf.stored max hmax
  have hlength := (h.height_le hlog hlast).2
  rw [List.length_append, List.length_singleton, ← hlog.last.height] at hlength
  rw [hmax, le_antisymm hlength hle]

end Store

/-! ## Directories -/

section Disk

variable {P : Primitives} {hashing : Hashing} {log : List Block} {block : Block}
  {notesTree : PersistentMerkleTree}

/-- **A tree of a ledger is loaded from its database.** -/
lemma Holds.load (h : Holds P log notesTree) :
    ∃ p : PersistentMerkleTree, Smirk.Persistent.load P.poseidon notesTree.db = .ok p ∧
      Holds P log p ∧ p.db = notesTree.db := by
  have hentries : ∀ (e : Element) (k : ℕ),
      notesTree.db[e]? = some k ↔ notesTree.tree.entries[e]? = some k := by
    intro e k
    refine ⟨h.written e k, fun hget => ?_⟩
    have hkey := (h.inv.synced e).2 (mem_keys_iff.2 ⟨k, hget⟩)
    rw [Std.TreeMap.mem_keys, Std.TreeMap.mem_iff_isSome_getElem?, Option.isSome_iff_exists] at hkey
    obtain ⟨k', hk'⟩ := hkey
    have hsame := h.written e k' hk'
    rw [hget] at hsame
    rw [hk', Option.some.inj hsame]
  have hinv : Disk.Inv ⟨.empty, notesTree.db⟩ :=
    Disk.inv_of_backed BlockStore.wf_empty (h.written.backed h.inv.tree)
  obtain ⟨p, hload, hp, hdb, hget⟩ := @Smirk.Persistent.load_entries MERKLE_TREE_DEPTH BlockHeight
    P.poseidon MERKLE_TREE_DEPTH_pos MERKLE_TREE_DEPTH_le notesTree.db hinv.ne_null hinv.distinct
  refine ⟨p, hload, ⟨hp, fun e k hk => ?_, fun e k => ?_⟩, hdb⟩
  · rw [hdb] at hk
    exact (hget e k).2 hk
  · rw [hget, hentries, h.recorded]

/-- **Directories of a ledger**: the tree has the ledger too, or the last block was stored when the
node stopped and its leaves were not written. -/
structure Disk.Keeps (P : Primitives) (log : List Block) (disk : Disk) : Prop where
  stores : Stores log disk.blockStore
  holds : ∃ notesTree : PersistentMerkleTree, notesTree.db = disk.smirk ∧
    (Holds P log notesTree ∨ ∃ before block, log = before ++ [block] ∧ Holds P before notesTree)

/-- **What a node is that committed a ledger**: both stores have it, and its last height is
confirmed. -/
structure NodeShared.At (P : Primitives) (log : List Block) (node : NodeShared) : Prop where
  stores : Stores log node.blockStore
  holds : Holds P log node.notesTree
  height : node.height = log.length

/-- The disk of a node at a ledger keeps the ledger. -/
lemma NodeShared.At.keeps {node : NodeShared} (h : node.At P log) : node.disk.Keeps P log :=
  ⟨h.stores, node.notesTree, rfl, .inl h.holds⟩

/-- A node that starts from loaded data. -/
lemma at_new {setup : Setup} {blockStore : BlockStore} {initialBlock : Block}
    (hstores : Stores log blockStore) (hholds : Holds P log notesTree)
    (hheight : initialBlock.height = log.length) :
    (NodeShared.new P setup.config setup.localPeer setup.validatorSets blockStore notesTree
      initialBlock).At P log :=
  ⟨hstores, hholds, by
    rw [NodeShared.height, NodeShared.new, BlockCache.new_eq (by decide), ← hheight]
    rfl⟩

/-- The height before a positive one. -/
lemma prev_of_pos {height : ℕ} (hpos : 0 < height) (hlt : height < U64) :
    BlockHeight.prev height = height - 1 := by
  have hprev : ∀ n : ℕ, 0 < n → n < 2 ^ 64 → (n + (2 ^ 64 - 1)) % 2 ^ 64 = n - 1 := by
    intro n
    omega
  exact hprev height hpos hlt

/-- The node that a start leaves has the ledger of its directories. -/
def StartsWith (P : Primitives) (setup : Setup) (log : List Block) (disk : Disk) (life : Life) :
    Prop :=
  ∃ notesTree initialBlock,
    life = .up (.new P setup.config setup.localPeer setup.validatorSets disk.blockStore notesTree
      initialBlock) ∧
    Holds P log notesTree ∧ initialBlock.height = log.length ∧
    (initialBlock = .genesis ∨ ∃ height, disk.blockStore.get height = some initialBlock)

variable {disk : Disk} {before : List Block} {setup : Setup}

/-- The start of a node that committed no block. -/
lemma Disk.Keeps.startNode_nil (h : disk.Keeps P []) :
    StartsWith P setup [] disk (startNode P setup .reliable disk) := by
  obtain ⟨notesTree, hdb, hholds⟩ := h.holds
  have hholds : Holds P [] notesTree := by
    refine hholds.resolve_right ?_
    rintro ⟨before, block, heq, -⟩
    simp at heq
  obtain ⟨p, hload, -, -⟩ := hholds.load
  rw [hdb] at hload
  refine ⟨.new, .genesis, ?_, holds_new, rfl, .inl rfl⟩
  simp only [Node.startNode, loadDbAndSmirk, resetDbAndSmirk, Program.run_bind, Program.run_get,
    Program.run_ensure, Program.run_lift, Program.run_modify, Program.run_pure, hload,
    Outcome.mapErr, StartWorld.reliable, if_true, h.stores.maxHeight_nil]

section Last

variable (hstores : Stores (before ++ [block]) disk.blockStore)
  (hlog : Ledger P hashing (before ++ [block])) {p : PersistentMerkleTree}
  (hload : Smirk.Persistent.load P.poseidon disk.smirk = .ok p)

include hstores hlog hload

/-- The start of a node whose tree has all blocks. -/
lemma startNode_of_holds (hholds : Holds P (before ++ [block]) p) :
    StartsWith P setup (before ++ [block]) disk (startNode P setup .reliable disk) := by
  obtain ⟨block', hget, hsame⟩ := hstores.get hlog (List.mem_append_right _ List.mem_cons_self)
  have hroot : p.tree.rootHash P.poseidon = block'.rootHash := by
    rw [hholds.rootHash_eq, hsame.root, hlog.last.root]
  have hmax := hstores.maxHeight_concat hlog
  rw [← hsame.height_eq] at hmax hget
  refine ⟨p, block', ?_, hholds, ?_, .inr ⟨_, hget⟩⟩
  · rw [Node.startNode, loadDbAndSmirk_of_root hload hmax hget hroot]
  · rw [hsame.height_eq, hlog.last.height, List.length_append, List.length_singleton]

/-- **The start of a node that stopped between its two writes**: the last block has no leaves, or it
is applied to the tree, or it is the first one and the node does not start.

**Proof sketch.** If the root of the tree is that of the last block, then the block has no leaves,
as equal roots are of equal leaves. Otherwise the block is replayed, which inserts its leaves,
unless there is no block before it. -/
lemma startNode_of_before (hcf : hashing.CollisionFree P)
    (hbad : setup.config.badBlocks = []) (hholds : Holds P before p) :
    StartsWith P setup (before ++ [block]) disk (startNode P setup .reliable disk) ∨
      startNode P setup .reliable disk = .down disk := by
  obtain ⟨block', hget, hsame⟩ := hstores.get hlog (List.mem_append_right _ List.mem_cons_self)
  have hblock := hlog.last
  have hmax := hstores.maxHeight_concat hlog
  have hheight := hsame.height_eq
  by_cases hroot : p.tree.rootHash P.poseidon = block'.rootHash
  · -- the block does not change the root, so that it has no leaves
    refine .inl (startNode_of_holds hstores hlog hload ⟨hholds.inv, hholds.written, fun e k => ?_⟩)
    have hroots : referenceRoot P (ledgerLeaves (before ++ [block])) =
        referenceRoot P (ledgerLeaves before) := by
      rw [← hblock.root, ← hsame.root, ← hroot, hholds.rootHash_eq]
    have hempty : ∀ e, e ∉ block.content.state.leavesNonNull := by
      intro e hleaf
      have hin : e ∈ ledgerLeaves (before ++ [block]) := by
        rw [ledgerLeaves_concat]
        exact List.mem_append_right _ hleaf
      exact hblock.new e hleaf (mem_of_referenceRoot_eq hcf (fun _ => ne_null_of_mem_ledgerLeaves)
        hblock.distinct hblock.pairs (hlog.of_start (List.prefix_append _ _)).pairs hroots hin)
    rw [hholds.recorded]
    constructor
    · rintro ⟨entry, hmem, hrest⟩
      exact ⟨entry, List.mem_append_left _ hmem, hrest⟩
    · rintro ⟨entry, hmem, hk, hleaf⟩
      rcases List.mem_append.1 hmem with hmem | hmem
      · exact ⟨entry, hmem, hk, hleaf⟩
      · obtain rfl := List.mem_singleton.1 hmem
        exact absurd hleaf (hempty e)
  · rw [← hheight] at hmax hget
    rcases List.eq_nil_or_concat before with rfl | ⟨older, previous, rfl⟩
    · -- the genesis block is not stored
      have hnone : disk.blockStore.get block'.height.prev = none := by
        have hzero : block'.height.prev = 0 := by
          rw [hheight, hblock.height]
          decide
        rw [hzero]
        rcases hsome : disk.blockStore.get 0 with _ | stored
        · rfl
        · exact absurd (hstores.height_le hlog hsome).1 (lt_irrefl 0)
      refine .inr ?_
      rw [Node.startNode, loadDbAndSmirk_eq_panic hload hmax hget hroot hnone]
    · -- the block before has the root of the tree
      rw [List.concat_eq_append] at *
      have hbefore := (hlog.of_start (List.prefix_append _ _)).last
      obtain ⟨previous', hprevious, hsame'⟩ := hstores.get hlog
        (List.mem_append_left _ (List.mem_append_right _ List.mem_cons_self))
      have hprev : block'.height.prev = previous.height := by
        have hlt : block.height < U64 := hblock.covers.fits.height
        have hpos : 0 < block.height := hlog.height_pos (List.mem_append_right _ List.mem_cons_self)
        rw [hheight, hbefore.height, prev_of_pos hpos hlt, hblock.height, List.length_append,
          List.length_singleton]
        rfl
      rw [← hprev] at hprevious
      have hroot' : p.tree.rootHash P.poseidon = previous'.rootHash := by
        rw [hholds.rootHash_eq, hsame'.root, hbefore.root]
      obtain ⟨tree, hrun, -, -⟩ :=
        applyBlockToTree_of_takes hholds.inv (hholds.takes hblock hsame) block'.height
      have hafter := hholds.apply hblock hsame hrun
      have happlied : tree.tree.rootHash P.poseidon = block'.rootHash := by
        rw [hafter.rootHash_eq, hsame.root, hblock.root]
      refine .inl ⟨tree, block', ?_, hafter, ?_, .inr ⟨_, hget⟩⟩
      · have hload' := @loadDbAndSmirk_of_previous P setup.config _ _ _ hload hmax hget hroot
          previous' hprevious hroot' tree (by rw [hbad]; exact hrun) happlied
        rw [Node.startNode]
        revert hload'
        rcases loadDbAndSmirk P .reliable setup.config disk with ⟨outcome, disk'⟩
        rintro rfl
        rfl
      · rw [hheight, hblock.height, @List.length_append _ _ [block], List.length_singleton]

end Last

/-- **What a node makes of its directories** when it is started: it has their ledger, or it does not
start and leaves them as they are. -/
theorem Disk.Keeps.startNode (h : disk.Keeps P log) (hlog : Ledger P hashing log)
    (hcf : hashing.CollisionFree P) (hbad : setup.config.badBlocks = []) :
    StartsWith P setup log disk (Node.startNode P setup .reliable disk) ∨
      Node.startNode P setup .reliable disk = .down disk := by
  rcases List.eq_nil_or_concat log with rfl | ⟨before, block, rfl⟩
  · exact .inl h.startNode_nil
  · rw [List.concat_eq_append] at *
    obtain ⟨notesTree, hdb, hholds | ⟨before', block', heq, hholds⟩⟩ := h.holds
    · obtain ⟨p, hload, hp, -⟩ := hholds.load
      rw [hdb] at hload
      exact .inl (startNode_of_holds h.stores hlog hload hp)
    · obtain ⟨rfl, -⟩ := List.append_inj' heq rfl
      obtain ⟨p, hload, hp, -⟩ := hholds.load
      rw [hdb] at hload
      exact startNode_of_before h.stores hlog hload hcf hbad hp

end Disk

end TempoRollup.Node
