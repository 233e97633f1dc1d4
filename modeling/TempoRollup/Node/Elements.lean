import TempoRollup.Node.Load
import TempoRollup.Node.Snapshot

set_option relaxedAutoImplicit false
set_option autoImplicit false

/-!
# Looking elements up

`node/src/rpc/routes/element.rs`: an element of the notes tree is looked up through the height that
the tree records for it, in the block that is stored there. Commits, recovery and fast sync all
write these heights.

## Main definitions

* `getElementResponse`, `listElements`.
* `ElementStep`, `elementStep` — runs of a node over commits, fast syncs and restarts.
* `Located` — every recorded height is that of a stored block with the element.
* `TakesNothing` — the condition on the steps.

## Main results

* `Located.getElementResponse`, `Located.listElements` — then no lookup fails.
* `located_along` — over every run whose fast syncs take nothing over, every state is located.
* `not_located_fastSync` — an element that was taken over is not found.

## Design

The node commits the block after its confirmed height: the tick worker takes it from the cache and
confirms it first, while a leader commits its own block and confirms it afterwards. The query
string of `list_elements` is parsed already.
-/

open Exec

namespace TempoRollup.Node

/-! ## The routes -/

/-- The errors of the routes. -/
inductive ElementError
  | elementNotInTree (element : Element)
  | blockNotFound (block : BlockHeight)
  | elementNotInTxn (element : Element) (blockHeight : BlockHeight)
  | blockStore
  deriving DecidableEq, Repr

/-- `ElementResponse`. -/
structure ElementResponse where
  element : Element
  height : BlockHeight
  rootHash : Element
  txnHash : CryptoHash
  deriving DecidableEq, Repr

section Routes

variable (P : Primitives)

/-- `get_element_response`. -/
def getElementResponse (storeReads : Bool) (element : Element) (self : NodeShared) :
    Outcome ElementError ElementResponse :=
  match self.notesTree.tree.entries[element]? with
  | none => .err (.elementNotInTree element)
  | some insertedIn =>
    if !storeReads then .err .blockStore
    else
      match self.blockStore.get insertedIn with
      | none => .err (.blockNotFound insertedIn)
      | some block =>
        match block.content.state.txns.find? fun txn => txn.leaves.contains element with
        | none => .err (.elementNotInTxn element block.height)
        | some txn => .ok ⟨element, insertedIn, block.rootHash, txn.hash P⟩

/-- `list_elements`: elements that are not in the tree are left out, and every other error is
returned. -/
def listElements (storeReads : Bool) (self : NodeShared) :
    List Element → Outcome ElementError (List ElementResponse)
  | [] => .ok []
  | element :: elements =>
    match getElementResponse P storeReads element self with
    | .ok response => do
      let responses ← listElements storeReads self elements
      pure (response :: responses)
    | .err (.elementNotInTree _) => listElements storeReads self elements
    | .err e => .err e
    | .panic => .panic

end Routes

/-! ## Located elements -/

/-- The recorded heights point to stored blocks with the elements. -/
def Located (heights : Std.TreeMap Element BlockHeight) (blockStore : BlockStore) : Prop :=
  ∀ (e : Element) (k : ℕ), heights[e]? = some k →
    ∃ block, blockStore.get k = some block ∧
      ∃ txn ∈ block.content.state.txns, e ∈ txn.leaves

section Lookup

variable {P : Primitives} {self : NodeShared} {element : Element}

/-- The answer for an element at a height. -/
def Answers (P : Primitives) (self : NodeShared) (element : Element)
    (response : ElementResponse) : Prop :=
  response.element = element ∧
    self.notesTree.tree.entries[element]? = some response.height ∧
    ∃ block, self.blockStore.get response.height = some block ∧
      response.rootHash = block.rootHash ∧
      ∃ txn ∈ block.content.state.txns, element ∈ txn.leaves ∧ response.txnHash = txn.hash P

/-- **A located element is found.** -/
theorem Located.getElementResponse (h : Located self.notesTree.tree.entries self.blockStore)
    (hmem : element ∈ self.notesTree.tree.entries.keys) :
    ∃ response, getElementResponse P true element self = .ok response ∧
      Answers P self element response := by
  obtain ⟨k, hget⟩ := mem_keys_iff.1 hmem
  obtain ⟨block, hblock, txn, htxn, hleaf⟩ := h element k hget
  have hfind : (block.content.state.txns.find? fun txn => txn.leaves.contains element).isSome := by
    rw [List.find?_isSome]
    exact ⟨txn, htxn, List.contains_iff_mem.2 hleaf⟩
  obtain ⟨found, hfound⟩ := Option.isSome_iff_exists.1 hfind
  have hcontains := List.find?_some hfound
  refine ⟨⟨element, k, block.rootHash, found.hash P⟩, ?_, rfl, hget, block, hblock, rfl, found,
    List.mem_of_find?_eq_some hfound, List.contains_iff_mem.1 hcontains, rfl⟩
  unfold Node.getElementResponse
  rw [hget]
  simp only [Bool.not_true, Bool.false_eq_true, if_false, hblock, hfound]

/-- **A list of elements is answered**, with one response for each that is in the tree. -/
theorem Located.listElements (h : Located self.notesTree.tree.entries self.blockStore)
    (elements : List Element) :
    ∃ responses, listElements P true self elements = .ok responses ∧
      List.Forall₂ (Answers P self)
        (elements.filter fun e => self.notesTree.tree.containsElement e) responses := by
  induction elements with
  | nil => exact ⟨[], rfl, .nil⟩
  | cons element elements ih =>
    obtain ⟨responses, hok, hall⟩ := ih
    by_cases hmem : element ∈ self.notesTree.tree.entries.keys
    · obtain ⟨response, hresponse, hanswers⟩ := @Located.getElementResponse P self element h hmem
      refine ⟨response :: responses, ?_, ?_⟩
      · rw [Node.listElements, hresponse]
        simp only [hok, Outcome.ok_bind]
        rfl
      · rw [List.filter_cons_of_pos (containsElement_iff.2 hmem)]
        exact .cons hanswers hall
    · have hnone : self.notesTree.tree.entries[element]? = none := by
        rw [← Option.not_isSome_iff_eq_none, ← Std.TreeMap.mem_iff_isSome_getElem?,
          ← Std.TreeMap.mem_keys]
        exact hmem
      refine ⟨responses, ?_, ?_⟩
      · rw [Node.listElements, Node.getElementResponse, hnone]
        exact hok
      · rw [List.filter_cons_of_neg (mt containsElement_iff.1 hmem)]
        exact hall

end Lookup

/-! ## Runs -/

/-- What happens to the stores of a node. -/
inductive ElementStep
  /-- The block after the confirmed height is validated and committed; `own` says that the node
  made it itself. -/
  | commit (world : World) (block : Block) (own : Bool)
  /-- The process ends within `commit_proposal`. -/
  | interrupt (blockReads : Bool) (block : Block) (treeWritten : Bool)
  | snapshotChunkFast (world : World) (block : Option Block) (elements : List Element)
  /-- All the rest, slow sync among it: neither the stores nor the confirmed height change. -/
  | others (node : NodeShared)
  | stop
  | start (storage : StartWorld)

section Steps

variable (P : Primitives)

/-- The commit of the next block. The tick worker confirms the block before it commits it, and a
leader afterwards. -/
def commitAt (world : World) (block : Block) (own : Bool) (self : NodeShared) : NodeShared :=
  if own then
    match commitProposal P world block self with
    | (.ok (), self) =>
      { self with blockCache := (self.blockCache.insert P block).confirm block.height }
    | (_, self) => self
  else
    (commitProposal P world block
      { self with blockCache := self.blockCache.confirm block.height }).2

/-- The node may commit a block: it comes after the confirmed height, and it is valid. -/
def NodeShared.mayCommit (self : NodeShared) (blockReads : Bool) (block : Block) : Bool :=
  block.height == self.height + 1 &&
    (match self.validateBlock P blockReads block with
      | .ok () => true
      | _ => false)

/-- One step. -/
def elementStep (setup : Setup) : Life → ElementStep → Life
  | .up self, .commit world block own =>
    if self.mayCommit P world.blockReads block then .up (commitAt P world block own self)
    else .up self
  | .up self, .interrupt blockReads block treeWritten =>
    if self.mayCommit P blockReads block then .down (commitInterrupted P block treeWritten self)
    else .up self
  | .up self, .snapshotChunkFast world block elements =>
    .up (handleSnapshotChunkFast P world block elements self).2
  | .up self, .others node =>
    if node.height = self.height then
      .up { node with
        config := self.config
        blockStore := self.blockStore
        notesTree := self.notesTree }
    else .up self
  | .up self, .stop => .down self.disk
  | .down disk, .start storage => startNode P setup storage disk
  | life, _ => life

end Steps

/-- **The condition on a step**: a fast sync that passes the checks brings nothing but the leaves of
its block, which comes after the confirmed height; and the database of the tree can be written
when a leader commits its own block. -/
def TakesNothing (P : Primitives) : Life → ElementStep → Prop
  | .up self, .snapshotChunkFast _ (some block) elements =>
    Adopts P self.notesTree block elements →
      olderElements self.notesTree block elements = [] ∧ self.height ≤ block.height.prev
  | .up _, .commit world _ true => world.treeWrites = true
  | _, _ => True

/-! ## The invariant -/

/-- The database has no height that the tree does not have. -/
def Written (notesTree : PersistentMerkleTree) : Prop :=
  ∀ (e : Element) (k : ℕ), notesTree.db[e]? = some k → notesTree.tree.entries[e]? = some k

/-- The invariant of a node that runs: its elements are located, at confirmed heights. -/
structure Traced (P : Primitives) (blockStore : BlockStore) (notesTree : PersistentMerkleTree)
    (height : ℕ) : Prop where
  store : blockStore.Wf
  tree : notesTree.tree.Inv P.poseidon
  written : Written notesTree
  located : Located notesTree.tree.entries blockStore
  confirmed : ∀ (e : Element) (k : ℕ), notesTree.tree.entries[e]? = some k → k ≤ height

/-- The invariant of a disk. -/
structure Disk.Traced (disk : Disk) : Prop where
  inv : disk.Inv
  located : Located disk.smirk disk.blockStore

/-- The invariant of a run. -/
def Life.Traced (P : Primitives) : Life → Prop
  | .up node => Node.Traced P node.blockStore node.notesTree node.height
  | .down disk => disk.Traced

section Invariant

variable {P : Primitives} {self : NodeShared} {block : Block} {notesTree : PersistentMerkleTree}
  {blockStore : BlockStore}

/-- Elements of the database are elements of the tree. -/
lemma Written.backed (h : Written notesTree) (hinv : notesTree.tree.Inv P.poseidon) :
    notesTree.Backed P.poseidon := by
  refine ⟨hinv, fun e he => ?_⟩
  rw [Std.TreeMap.mem_keys, Std.TreeMap.mem_iff_isSome_getElem?, Option.isSome_iff_exists] at he
  obtain ⟨k, hk⟩ := he
  exact mem_keys_iff.2 ⟨k, h e k hk⟩

/-- **However the application of a block ends**, old elements keep their heights, and new ones are
leaves of the block with its height. If the database can be written, an application that does not
return changes nothing.

**Proof sketch.** A block with a spent leaf, or with leaves that make no batch, changes nothing. An
insertion that returns records the new leaves with the height; one whose write fails changes the
memory only, and one that finds a collision changes nothing. -/
lemma applyBlockToTree_written (hinv : notesTree.tree.Inv P.poseidon)
    (hwritten : Written notesTree) (treeWrites : Bool) (state : BlockState) (currentHeight : ℕ)
    (ignoreCollisions : Bool) :
    let applied := applyBlockToTree P treeWrites state currentHeight ignoreCollisions notesTree
    applied.2.tree.Inv P.poseidon ∧ Written applied.2 ∧
      (∀ (e : Element) (k : ℕ), applied.2.tree.entries[e]? = some k →
        notesTree.tree.entries[e]? = some k ∨ (e ∈ state.leavesNonNull ∧ k = currentHeight)) ∧
      (treeWrites = true → applied.1 ≠ .ok () → applied.2 = notesTree) := by
  intro applied
  have hsame : applied.2 = notesTree → applied.2.tree.Inv P.poseidon ∧ Written applied.2 ∧
      (∀ (e : Element) (k : ℕ), applied.2.tree.entries[e]? = some k →
        notesTree.tree.entries[e]? = some k ∨ (e ∈ state.leavesNonNull ∧ k = currentHeight)) ∧
      (treeWrites = true → applied.1 ≠ .ok () → applied.2 = notesTree) := by
    intro heq
    rw [heq]
    exact ⟨hinv, hwritten, fun _ _ => .inl, fun _ _ => rfl⟩
  by_cases hunspent : ignoreCollisions = false →
      ∀ leaf ∈ state.leavesNonNull, notesTree.tree.containsElement leaf = false
  · have happlied : applied = _ := applyBlockToTree_eq hunspent currentHeight
    simp only [Program.run_bind, Program.run_lift] at happlied
    cases hbatch : (Smirk.Batch.fromEntries
      ((newLeaves notesTree state ignoreCollisions).map fun leaf => (leaf, currentHeight)) :
        Outcome Smirk.CollisionError (Smirk.Batch MERKLE_TREE_DEPTH BlockHeight)) with
    | ok batch =>
      rw [hbatch] at happlied
      have hfst : applied.1 = .ok () ↔
          (Smirk.Persistent.insertBatch P.poseidon treeWrites batch notesTree).1 = .ok () := by
        rw [happlied]
        exact Program.fst_mapErr_eq_ok _ _ _ _
      have hsnd : applied.2 =
          (Smirk.Persistent.insertBatch P.poseidon treeWrites batch notesTree).2 := by
        rw [happlied]
        exact Program.snd_mapErr _ _ _
      have hentries := Smirk.Batch.entries_of_fromEntries hbatch
      have hmap : batch.entries.map Prod.fst = newLeaves notesTree state ignoreCollisions := by
        rw [hentries, List.map_map]
        exact List.map_id _
      rcases Smirk.Persistent.insertBatch_cases MERKLE_TREE_DEPTH_pos MERKLE_TREE_DEPTH_le hinv
        treeWrites batch with hold | ⟨tree, htree, hfresh, hinserted, hcases⟩
      · exact hsame (hsnd.trans hold)
      · have hnodup : (batch.entries.map Prod.fst).Nodup :=
          hfresh.distinct.imp fun hne heq => hne (by rw [heq])
        have hget : ∀ (m : Std.TreeMap Element BlockHeight) (e : Element) (k : ℕ),
            (Smirk.Tree.insertEntries m batch.entries)[e]? = some k ↔
              (e, k) ∈ batch.entries ∨
                (e ∉ newLeaves notesTree state ignoreCollisions ∧ m[e]? = some k) := by
          intro m e k
          rw [Smirk.Tree.getElem?_insertEntries hnodup, hmap]
        have hnew : ∀ (e : Element) (k : ℕ), (e, k) ∈ batch.entries →
            e ∈ state.leavesNonNull ∧ k = currentHeight := by
          intro e k hin
          rw [hentries] at hin
          obtain ⟨leaf, hleaf, heq⟩ := List.mem_map.1 hin
          cases heq
          exact ⟨(not_containsElement_of_mem_newLeaves hunspent hleaf).1, rfl⟩
        have hrecorded : ∀ (e : Element) (k : ℕ), tree.entries[e]? = some k →
            notesTree.tree.entries[e]? = some k ∨
            (e ∈ state.leavesNonNull ∧ k = currentHeight) := by
          intro e k htree
          rw [hinserted, hget] at htree
          exact htree.symm.imp And.right (hnew e k)
        -- an element that the database had is not in the batch
        have hkept : ∀ (e : Element) (k : ℕ), notesTree.db[e]? = some k →
            tree.entries[e]? = some k := by
          intro e k hdb
          have hold := hwritten e k hdb
          rw [hinserted, hget]
          refine .inr ⟨fun hin => ?_, hold⟩
          rw [← hmap] at hin
          exact hfresh.free e (mem_keys_iff.2 ⟨k, hold⟩) e hin rfl
        rcases hcases with hok | ⟨hwrites, hsnd'⟩
        · rw [hok] at hsnd hfst
          rw [hsnd]
          refine ⟨htree, fun e k hdb => ?_, hrecorded, fun _ hne => absurd (hfst.2 rfl) hne⟩
          rcases (hget _ e k).1 hdb with hin | ⟨-, hdb⟩
          · rw [hinserted, hget]
            exact .inl hin
          · exact hkept e k hdb
        · rw [hsnd, hsnd']
          refine ⟨htree, hkept, hrecorded, fun hwrites' => ?_⟩
          rw [hwrites] at hwrites'
          cases hwrites'
    | err e =>
      rw [hbatch] at happlied
      exact hsame (congrArg Prod.snd happlied)
    | panic =>
      rw [hbatch] at happlied
      exact hsame (congrArg Prod.snd happlied)
  · have hspent := Bool.eq_false_iff.2 (mt unspent_iff.1 hunspent)
    refine hsame ?_
    simp only [applied, applyBlockToTree, Program.run_bind, Program.run_get, Program.run_assert,
      hspent, Bool.false_eq_true, if_false]

/-- **However a commit ends**: nothing is written, or the block is stored and applied to the
tree. -/
lemma commitProposal_stores (world : World) :
    let r := commitProposal P world block self
    let applied := applyBlockToTree P world.treeWrites block.content.state block.height
      (self.config.badBlocks.contains block.height) self.notesTree
    r.2.blockCache = self.blockCache ∧
      ((r.1 ≠ .ok () ∧ r.2.blockStore = self.blockStore ∧ r.2.notesTree = self.notesTree) ∨
        (r.2.blockStore = self.blockStore.set block ∧ r.2.notesTree = applied.2 ∧
          (applied.1 = .ok () → r.1 = .ok ()))) := by
  intro r applied
  by_cases hunspent : self.config.badBlocks.contains block.height = false →
      ∀ leaf ∈ block.content.state.leavesNonNull,
        self.notesTree.tree.containsElement leaf = false
  · cases hstore : world.storeWrites with
    | false =>
      simp only [r, commitProposal, Program.run_bind, Program.run_get, Program.run_assert,
        unspent_iff.2 hunspent, if_true, Program.run_ensure, hstore, Bool.false_eq_true, if_false]
      exact ⟨trivial, .inl ⟨(fun h => by cases h), trivial, trivial⟩⟩
    | true =>
      have hrun : r = _ := commitProposal_run hstore hunspent
      rw [hrun]
      change _ ∧ (_ ∨ (_ ∧ _ = applied.2 ∧ (applied.1 = .ok () → _)))
      rcases happlied : applied with ⟨⟨⟩ | e | _, notesTree'⟩
      · rw [show applyBlockToTree P world.treeWrites block.content.state block.height
          (self.config.badBlocks.contains block.height) self.notesTree = _ from happlied]
        exact ⟨rfl, .inr ⟨rfl, rfl, fun _ => rfl⟩⟩
      · rw [show applyBlockToTree P world.treeWrites block.content.state block.height
          (self.config.badBlocks.contains block.height) self.notesTree = _ from happlied]
        exact ⟨rfl, .inr ⟨rfl, rfl, fun h => by cases h⟩⟩
      · rw [show applyBlockToTree P world.treeWrites block.content.state block.height
          (self.config.badBlocks.contains block.height) self.notesTree = _ from happlied]
        exact ⟨rfl, .inr ⟨rfl, rfl, fun h => by cases h⟩⟩
  · have hspent := Bool.eq_false_iff.2 (mt unspent_iff.1 hunspent)
    simp only [r, commitProposal, Program.run_bind, Program.run_get, Program.run_assert, hspent,
      Bool.false_eq_true, if_false]
    exact ⟨trivial, .inl ⟨(fun h => by cases h), trivial, trivial⟩⟩

/-- A leaf of a block that is not zero is a leaf of one of its transactions. -/
lemma exists_txn_of_mem_leavesNonNull {state : BlockState} {e : Element}
    (he : e ∈ state.leavesNonNull) : ∃ txn ∈ state.txns, e ∈ txn.leaves :=
  List.mem_flatMap.1 (List.mem_filter.1 he).1

/-- The elements stay located when a block is stored above them, and its leaves come in. -/
lemma Located.store {heights heights' : Std.TreeMap Element BlockHeight} {n : ℕ}
    (h : Located heights blockStore)
    (hle : ∀ (e : Element) (k : ℕ), heights[e]? = some k → k ≤ n) (hn : n < block.height)
    (hnew : ∀ (e : Element) (k : ℕ), heights'[e]? = some k →
      heights[e]? = some k ∨ (e ∈ block.content.state.leavesNonNull ∧ k = block.height)) :
    Located heights' (blockStore.set block) := by
  intro e k hget
  rw [BlockStore.get_set]
  rcases hnew e k hget with hold | ⟨hleaf, rfl⟩
  · rw [if_neg (show block.height ≠ k from fun heq =>
      absurd (hle e k hold) (Nat.not_le.2 (heq ▸ hn)))]
    exact h e k hold
  · rw [if_pos rfl]
    exact ⟨block, rfl, exists_txn_of_mem_leavesNonNull hleaf⟩

/-- The block after the confirmed height. -/
lemma lt_of_mayCommit {blockReads : Bool} (h : self.mayCommit P blockReads block = true) :
    self.height < block.height := by
  rw [NodeShared.mayCommit, Bool.and_eq_true, beq_iff_eq] at h
  rw [h.1]
  exact Nat.lt_succ_self _

section Traced

variable {n m : ℕ}

/-- What is traced up to a height is traced up to a greater one. -/
lemma Traced.mono (h : Traced P blockStore notesTree n) (hle : n ≤ m) :
    Traced P blockStore notesTree m :=
  ⟨h.store, h.tree, h.written, h.located, fun e k hget => (h.confirmed e k hget).trans hle⟩

/-- A block above the confirmed height is stored. -/
lemma Traced.set (h : Traced P blockStore notesTree n) (hlt : n < block.height) :
    Traced P (blockStore.set block) notesTree n :=
  ⟨h.store.set block, h.tree, h.written,
    h.located.store h.confirmed hlt fun _ _ hget => .inl hget, h.confirmed⟩

/-- A block above the confirmed height is stored and applied, however this ends. -/
lemma Traced.apply (h : Traced P blockStore notesTree n) (hlt : n < block.height)
    (treeWrites ignoreCollisions : Bool) :
    Traced P (blockStore.set block)
      (applyBlockToTree P treeWrites block.content.state block.height ignoreCollisions
        notesTree).2 block.height := by
  obtain ⟨htree, hwritten, hnew, -⟩ := applyBlockToTree_written h.tree h.written treeWrites
    block.content.state block.height ignoreCollisions
  refine ⟨h.store.set block, htree, hwritten, h.located.store h.confirmed hlt hnew, ?_⟩
  intro e k hget
  rcases hnew e k hget with hold | ⟨-, rfl⟩
  · exact (h.confirmed e k hold).trans hlt.le
  · exact le_refl _

/-- The disk of a node. -/
lemma Traced.disk (h : Traced P blockStore notesTree n) :
    Disk.Traced ⟨blockStore, notesTree.db⟩ :=
  ⟨Disk.inv_of_backed h.store (h.written.backed h.tree),
    fun e k hget => h.located e k (h.written e k hget)⟩

/-- **The step of a commit.**

**Proof sketch.** A commit stores the block before its leaves are inserted, so that what is inserted
has the height of a stored block, whichever of the two ways the block came. -/
lemma Traced.commitAt {world : World} {own : Bool}
    (h : Traced P self.blockStore self.notesTree self.height)
    (hlt : self.height < block.height) (hwrites : own = true → world.treeWrites = true) :
    Traced P (commitAt P world block own self).blockStore
      (commitAt P world block own self).notesTree (commitAt P world block own self).height := by
  unfold Node.commitAt
  cases own with
  | false =>
    rw [if_neg Bool.false_ne_true]
    have hconfirmed : (self.blockCache.confirm block.height).height = block.height :=
      (self.blockCache.confirm_frame block.height).1
    obtain ⟨hcache, hcases⟩ := @commitProposal_stores P
      { self with blockCache := self.blockCache.confirm block.height } block world
    rw [NodeShared.height, hcache, hconfirmed]
    rcases hcases with ⟨-, hstore, htree⟩ | ⟨hstore, htree, -⟩
    · rw [hstore, htree]
      exact h.mono hlt.le
    · rw [hstore, htree]
      exact h.apply hlt _ _
  | true =>
    rw [if_pos rfl]
    obtain ⟨hcache, hcases⟩ := @commitProposal_stores P self block world
    have hfailed : (commitProposal P world block self).1 ≠ .ok () →
        Traced P (commitProposal P world block self).2.blockStore
          (commitProposal P world block self).2.notesTree
          (commitProposal P world block self).2.height := by
      intro hne
      rw [NodeShared.height, hcache]
      rcases hcases with ⟨-, hstore, htree⟩ | ⟨hstore, htree, hok⟩
      · rw [hstore, htree]
        exact h
      · -- the tree refused the block, and stays as it was
        have hsame := (applyBlockToTree_written h.tree h.written world.treeWrites
          block.content.state block.height (self.config.badBlocks.contains block.height)).2.2.2
          (hwrites rfl) fun happlied => hne (hok happlied)
        rw [hstore, htree, hsame]
        exact h.set hlt
    rcases hrun : commitProposal P world block self with ⟨⟨⟩ | e | _, after⟩
    · rw [hrun] at hcases
      have hconfirmed : ((after.blockCache.insert P block).confirm block.height).height =
          block.height := (BlockCache.confirm_frame block.height).1
      simp only
      rw [NodeShared.height, hconfirmed]
      rcases hcases with ⟨hne, -⟩ | ⟨hstore, htree, -⟩
      · exact absurd rfl hne
      · simp only at hstore htree
        rw [hstore, htree]
        exact h.apply hlt _ _
    · rw [hrun] at hfailed
      exact hfailed fun h => by cases h
    · rw [hrun] at hfailed
      exact hfailed fun h => by cases h

/-- **The step of an interrupted commit.** -/
lemma Traced.commitInterrupted (h : Traced P self.blockStore self.notesTree self.height)
    (hlt : self.height < block.height) (treeWritten : Bool) :
    (commitInterrupted P block treeWritten self).Traced := by
  unfold Node.commitInterrupted
  cases treeWritten with
  | false =>
    rw [if_neg Bool.false_ne_true]
    exact (h.set hlt).disk
  | true =>
    rw [if_pos rfl]
    exact (h.apply hlt true _).disk

/-- **The step of a chunk** that takes nothing over. -/
lemma Traced.handleSnapshotChunkFast {world : World} {elements : List Element}
    (h : Traced P self.blockStore self.notesTree self.height)
    (hnothing : Adopts P self.notesTree block elements →
      olderElements self.notesTree block elements = [] ∧ self.height ≤ block.height.prev) :
    Traced P (handleSnapshotChunkFast P world (some block) elements self).2.blockStore
      (handleSnapshotChunkFast P world (some block) elements self).2.notesTree
      (handleSnapshotChunkFast P world (some block) elements self).2.height := by
  by_cases hadopts : Adopts P self.notesTree block elements
  · obtain ⟨hnil, hle⟩ := hnothing hadopts
    obtain ⟨batch, hcheck⟩ := hadopts.checkElements
    obtain ⟨-, -, helements⟩ := checkElements_eq_some hcheck
    rw [hnil] at helements
    have hinserted := @insertBatch_of_nil P world self batch helements
    obtain ⟨htree, hheight⟩ := @adoptElements_spec P world self block batch
    have hkeeps := @adoptElements_keeps P world block batch self
    rw [Prod.mk.injEq] at hkeeps
    rw [handleSnapshotChunkFast_of_check hcheck, hkeeps.2, htree,
      hheight (congrArg Prod.fst hinserted), hinserted]
    exact h.mono hle
  · rw [handleSnapshotChunkFast_of_not_adopts hadopts]
    exact h

/-! ### Restarts -/

/-- What a start leaves: a traced node that starts from its last block, or a traced disk. -/
def Starts (P : Primitives) (r : Outcome Error LoadedData × Disk) : Prop :=
  match r with
  | (.ok data, _) => Traced P data.blockStore data.persistentTree data.block.height
  | (.err _, disk) => disk.Traced
  | (.panic, disk) => disk.Traced

/-- An empty tree is traced. -/
lemma traced_new (hstore : blockStore.Wf) (n : ℕ) : Traced P blockStore .new n := by
  refine ⟨hstore, (Smirk.Persistent.inv_new MERKLE_TREE_DEPTH_pos).tree, ?_, ?_, ?_⟩
  · intro e k hget
    simp [Smirk.Persistent.new] at hget
  · intro e k hget
    simp [Smirk.Persistent.new, Smirk.Tree.new] at hget
  · intro e k hget
    simp [Smirk.Persistent.new, Smirk.Tree.new] at hget

/-- The directories are moved away, and the node starts with an empty tree. -/
lemma starts_reset {disk : Disk} (h : disk.Traced) (renames db : Bool) {data : LoadedData}
    (hdata : Traced P data.blockStore data.persistentTree data.block.height) :
    Starts P ((do
      resetDbAndSmirk renames db true
      pure data : Program Disk Error LoadedData) disk) := by
  simp only [resetDbAndSmirk, Program.run_bind, Program.run_ensure, Program.run_modify,
    Program.run_pure]
  cases renames with
  | false => exact h
  | true => exact hdata

/-- The records of a disk are loaded, with their heights. -/
lemma Disk.Traced.load {disk : Disk} (h : disk.Traced) :
    ∃ p : PersistentMerkleTree, Smirk.Persistent.load P.poseidon disk.smirk = .ok p ∧
      p.tree.Inv P.poseidon ∧ Written p ∧ p.db = disk.smirk ∧
      Located p.tree.entries disk.blockStore := by
  obtain ⟨p, hok, hinv, hdb, hentries⟩ := @Smirk.Persistent.load_entries MERKLE_TREE_DEPTH
    BlockHeight P.poseidon MERKLE_TREE_DEPTH_pos MERKLE_TREE_DEPTH_le disk.smirk h.inv.ne_null
    h.inv.distinct
  refine ⟨p, hok, hinv.tree, fun e k hget => ?_, hdb, fun e k hget => ?_⟩
  · rw [hdb] at hget
    exact (hentries e k).2 hget
  · exact h.located e k ((hentries e k).1 hget)

/-- The last block is applied to the tree again, however this ends. -/
lemma Traced.replay (h : Traced P blockStore notesTree block.height)
    (hblock : blockStore.get block.height = some block) (treeWrites ignoreCollisions : Bool) :
    Traced P blockStore (applyBlockToTree P treeWrites block.content.state block.height
      ignoreCollisions notesTree).2 block.height := by
  obtain ⟨htree, hwritten, hnew, -⟩ := applyBlockToTree_written h.tree h.written treeWrites
    block.content.state block.height ignoreCollisions
  refine ⟨h.store, htree, hwritten, fun e k hget => ?_, fun e k hget => ?_⟩
  · rcases hnew e k hget with hold | ⟨hleaf, rfl⟩
    · exact h.located e k hold
    · exact ⟨block, hblock, exists_txn_of_mem_leavesNonNull hleaf⟩
  · rcases hnew e k hget with hold | ⟨-, rfl⟩
    · exact h.confirmed e k hold
    · exact le_refl _

/-- A start that replays the last block leads to a traced node. -/
lemma starts_replay {disk : Disk} (storage : StartWorld) (config : Config)
    (h : Traced P disk.blockStore notesTree block.height)
    (hblock : disk.blockStore.get block.height = some block) :
    Starts P ((do
      let tree ← replayBlock P storage config notesTree block block.height
      pure ⟨disk.blockStore, tree, block⟩ : Program Disk Error LoadedData) disk) := by
  have happlied := h.replay hblock storage.treeWrites (config.badBlocks.contains block.height)
  simp only [replayBlock, Program.run_bind, Program.run_modify, Program.run_lift,
    Program.run_assert]
  revert happlied
  generalize applyBlockToTree P storage.treeWrites block.content.state block.height
    (config.badBlocks.contains block.height) notesTree = applied
  intro happlied
  rcases applied with ⟨_ | e | _, tree'⟩
  · simp only
    split_ifs
    · exact happlied
    · exact happlied.disk
  · exact happlied.disk
  · exact happlied.disk

/-- **What a start leaves.** -/
lemma starts_loadDbAndSmirk {disk : Disk} (h : disk.Traced) (storage : StartWorld)
    (config : Config) : Starts P (loadDbAndSmirk P storage config disk) := by
  obtain ⟨p, hload, hinv, hwritten, hdb, hlocated⟩ := @Disk.Traced.load P disk h
  unfold loadDbAndSmirk
  simp only [Program.run_bind, Program.run_get, Program.run_ensure]
  cases storage.storeReads with
  | false => exact h
  | true =>
    cases storage.smirkReads with
    | false => exact h
    | true =>
      simp only [if_true, Program.run_lift, hload, Outcome.mapErr]
      cases hmax : disk.blockStore.maxHeight with
      | none => exact starts_reset h _ _ (traced_new h.inv.store _)
      | some maxHeight =>
        obtain ⟨block, hblock⟩ := h.inv.store.stored maxHeight hmax
        have hheight : block.height = maxHeight := h.inv.store.keyed maxHeight block hblock
        -- every recorded height is that of a stored block
        have hconfirmed : ∀ (e : Element) (k : ℕ), p.tree.entries[e]? = some k → k ≤ maxHeight := by
          intro e k hget
          obtain ⟨stored, hstored, -⟩ := hlocated e k hget
          obtain ⟨max, hmax', hle⟩ := h.inv.store.le_max k stored hstored
          rw [hmax] at hmax'
          obtain rfl := Option.some.inj hmax'
          exact hle
        have htraced : Traced P disk.blockStore p maxHeight :=
          ⟨h.inv.store, hinv, hwritten, hlocated, hconfirmed⟩
        subst hheight
        simp only [Program.run_bind, Program.run_lift, hblock, Outcome.ofOption]
        by_cases hsame : p.tree.rootHash P.poseidon = block.rootHash
        · rw [if_pos hsame]
          exact htraced
        · rw [if_neg hsame, Program.run_bind, Program.run_lift]
          cases hprevious : disk.blockStore.get block.height.prev with
          | none => exact h
          | some previousBlock =>
            simp only
            by_cases hbefore : p.tree.rootHash P.poseidon = previousBlock.rootHash
            · rw [if_pos hbefore]
              exact starts_replay storage config htraced hblock
            · rw [if_neg hbefore]
              exact starts_reset h _ _ (traced_new BlockStore.wf_empty _)

/-- **The step of a start.** -/
lemma Disk.Traced.startNode {disk : Disk} (h : disk.Traced) (setup : Setup)
    (storage : StartWorld) : (startNode P setup storage disk).Traced P := by
  have hstarts := @starts_loadDbAndSmirk P disk h storage setup.config
  unfold Node.startNode
  rcases hrun : loadDbAndSmirk P storage setup.config disk with ⟨data | e | _, disk'⟩
  · rw [hrun] at hstarts
    have hheight : (NodeShared.new P setup.config setup.localPeer setup.validatorSets
        data.blockStore data.persistentTree data.block).height = data.block.height := by
      rw [NodeShared.height, NodeShared.new, BlockCache.new_eq (by omega)]
      rfl
    show Node.Traced P _ _ _
    rw [hheight]
    exact hstarts
  · rw [hrun] at hstarts
    exact hstarts
  · rw [hrun] at hstarts
    exact hstarts

/-- **Every step keeps the elements located**, when it takes nothing over. -/
lemma Life.Traced.step {setup : Setup} {life : Life} (h : life.Traced P) {step : ElementStep}
    (hnothing : TakesNothing P life step) : (elementStep P setup life step).Traced P := by
  cases life with
  | up self =>
    have hself : Node.Traced P self.blockStore self.notesTree self.height := h
    cases step with
    | commit world block own =>
      rw [elementStep]
      split_ifs with hmay
      · refine hself.commitAt (lt_of_mayCommit hmay) fun hown => ?_
        rw [hown] at hnothing
        exact hnothing
      · exact h
    | interrupt blockReads block treeWritten =>
      rw [elementStep]
      split_ifs with hmay
      · exact hself.commitInterrupted (lt_of_mayCommit hmay) treeWritten
      · exact h
    | snapshotChunkFast world block elements =>
      cases block with
      | none => exact h
      | some block => exact hself.handleSnapshotChunkFast hnothing
    | others node =>
      rw [elementStep]
      split_ifs with hheight
      · show Node.Traced P _ _ node.height
        rw [hheight]
        exact hself
      · exact h
    | stop => exact hself.disk
    | start storage => exact h
  | down disk =>
    cases step with
    | start storage => exact Disk.Traced.startNode h setup storage
    | commit _ _ _ => exact h
    | interrupt _ _ _ => exact h
    | snapshotChunkFast _ _ _ => exact h
    | others _ => exact h
    | stop => exact h

end Traced

end Invariant

/-- **Every element is found in every state of a run.** Over any run of commits, interrupted
commits, fast syncs and restarts from an empty disk, in which no fast sync takes an element over:
every element of the tree of a running node has the height of a stored block that has it among the
leaves of a transaction, and no lookup of it fails.

**Proof sketch.** Every step that takes nothing over keeps the trees traced (`Life.Traced.step`):
what is in the tree was a leaf of a stored block when it was inserted, and has its height. -/
theorem located_along (P : Primitives) (setup : Setup) (steps : List ElementStep)
    (hsteps : Runs.Along (elementStep P setup) (TakesNothing P) (.down .empty) steps)
    (node : NodeShared)
    (hnode : .up node ∈ Runs.states (elementStep P setup) (.down .empty) steps) :
    Located node.notesTree.tree.entries node.blockStore ∧
      (∀ element ∈ node.notesTree.tree.entries.keys,
        ∃ response, getElementResponse P true element node = .ok response ∧
          Answers P node element response) ∧
      ∀ elements, ∃ responses, listElements P true node elements = .ok responses ∧
        List.Forall₂ (Answers P node)
          (elements.filter fun e => node.notesTree.tree.containsElement e) responses := by
  have hempty : (Life.down .empty).Traced P := by
    refine ⟨Disk.inv_empty, fun e k hget => ?_⟩
    simp [Disk.empty] at hget
  have htraced : (Life.up node).Traced P :=
    @Runs.forall_states _ _ (elementStep P setup) (Life.Traced P) (TakesNothing P) (fun _ => True)
      (fun _ _ _ h hnothing => h.step hnothing) _ hempty _ (fun _ _ => trivial) hsteps _ hnode
  have hlocated : Located node.notesTree.tree.entries node.blockStore := Node.Traced.located htraced
  exact ⟨hlocated, fun _ => hlocated.getElementResponse, hlocated.listElements⟩

/-! ### Elements that were taken over -/

namespace TakenOver

open TwoMints

/-- What the prover is started with. -/
def setup : Setup where
  config := { mode := .prover, badBlocks := [], blockTxnsCount := 1, safeEthHeightOffset := 0 }
  localPeer := 0
  validatorSets := [⟨0, [0]⟩]

/-- A new prover is taken to the third block. -/
def steps : List ElementStep :=
  [.start .reliable,
    .snapshotChunkFast WentOver.world (some (chain.block 3)) (chunkElements 3 (WentOver.archive 3))]

/-- The prover after the chunk. -/
def synced : NodeShared :=
  (handleSnapshotChunkFast primitives WentOver.world (some (chain.block 3))
    (chunkElements 3 (WentOver.archive 3)) WentOver.prover).2

/-- The prover of the sample starts from genesis. -/
lemma start_eq :
    elementStep primitives setup (.down .empty) (.start .reliable) = .up WentOver.prover := rfl

/-- A leader commits the first block. -/
def commits : List ElementStep :=
  [.start .reliable, .commit WentOver.world (chain.block 1) true]

/-- The prover may commit the first block. -/
lemma mayCommit_first :
    WentOver.prover.mayCommit primitives WentOver.world.blockReads (chain.block 1) = true := by
  have hvalid : WentOver.prover.validateBlock primitives WentOver.world.blockReads
      (chain.block 1) = .ok () := validate_first
  rw [NodeShared.mayCommit, hvalid]
  rfl

/-- The leader after the commit. -/
lemma committed_mem_states :
    ∃ node, .up node ∈ Runs.states (elementStep primitives setup) (.down .empty) commits ∧
      14 ∈ node.notesTree.tree.entries.keys := by
  obtain ⟨hreaches, hat, -, -⟩ := WentOver.reaches_archive (show 0 ≤ 3 by omega)
  obtain ⟨-, hat', -, -⟩ := @Reaches.commit_next _ _ _ _ _ WentOver.world hreaches hat
    (show 0 < chain.tip by decide) rfl rfl
  have hstep : ∃ node, elementStep primitives setup (.up WentOver.prover)
      (.commit WentOver.world (chain.block 1) true) = .up node ∧
        node.notesTree =
          (commitProposal primitives WentOver.world (chain.block 1)
            WentOver.prover).2.notesTree := by
    rw [elementStep, if_pos mayCommit_first, commitAt, if_pos rfl]
    rcases commitProposal primitives WentOver.world (chain.block 1) WentOver.prover with
      ⟨_ | _ | _, node⟩
    · exact ⟨_, rfl, rfl⟩
    · exact ⟨_, rfl, rfl⟩
    · exact ⟨_, rfl, rfl⟩
  obtain ⟨node, hnode, htree⟩ := hstep
  refine ⟨node, ?_, ?_⟩
  · rw [commits, Runs.states, start_eq, Runs.states, hnode]
    exact List.mem_cons_of_mem _ (List.mem_cons_of_mem _ List.mem_cons_self)
  · rw [htree]
    exact (hat'.keys 14).2 ((mem_elements_one 14).2 rfl)

/-- The states of the sample run. -/
lemma states_steps :
    Runs.states (elementStep primitives setup) (.down .empty) steps =
      [.down .empty, .up WentOver.prover, .up synced] := by
  rw [steps, Runs.states, start_eq]
  rfl

/-- The first note has height zero, where nothing is stored. -/
lemma entries_synced :
    synced.notesTree.tree.entries[(14 : Element)]? = some 0 ∧ synced.blockStore.get 0 = none := by
  obtain ⟨hself, hat, -, -⟩ := WentOver.reaches_archive (show 0 ≤ 3 by omega)
  obtain ⟨hsource, -, -, hstored⟩ := WentOver.reaches_archive (le_refl 3)
  obtain ⟨after, haccepts, -⟩ := (WentOver.delivers_three (show 0 ≤ 2 by omega)).accepted
  have hsynced : synced = after := congrArg Prod.snd haccepts.2
  rw [hsynced]
  have htracks := (Reaches.fastSync hself hat hsource (by omega)
    (hstored 3 (by omega) (le_refl _)) (WentOver.servable_three 0) haccepts).tracks
  refine ⟨(htracks.imported 14).2 ⟨_, List.mem_cons_self, ?_⟩, ?_⟩
  · refine ⟨(mem_elements_two 14).2 (.inl rfl), ?_, List.not_mem_nil⟩
    rw [Chain.elements_zero]
    exact List.not_mem_nil
  · rw [(haccepts.spec hat.inv).2.2.1]
    rfl

end TakenOver

/-- A leader finds the note of the first block after its commit. -/
theorem located_along_commit :
    ∃ node, .up node ∈
        Runs.states (elementStep TwoMints.primitives TakenOver.setup) (.down .empty)
          TakenOver.commits ∧
      ∃ response, getElementResponse TwoMints.primitives true 14 node = .ok response ∧
        Answers TwoMints.primitives node 14 response := by
  obtain ⟨node, hnode, hmem⟩ := TakenOver.committed_mem_states
  exact ⟨node, hnode, (located_along TwoMints.primitives TakenOver.setup TakenOver.commits
    ⟨trivial, rfl, trivial⟩ node hnode).2.1 14 hmem⟩

/-- **An element that was taken over is not found**: a new prover is taken to the third block of a
chain by an honest node. The note of the first block is in its tree, but at height zero, and the
lookup fails. -/
theorem not_located_fastSync :
    .up TakenOver.synced ∈
        Runs.states (elementStep TwoMints.primitives TakenOver.setup) (.down .empty)
          TakenOver.steps ∧
      14 ∈ TakenOver.synced.notesTree.tree.entries.keys ∧
      getElementResponse TwoMints.primitives true 14 TakenOver.synced =
        .err (.blockNotFound 0) ∧
      listElements TwoMints.primitives true TakenOver.synced [14] = .err (.blockNotFound 0) ∧
      ¬ Located TakenOver.synced.notesTree.tree.entries TakenOver.synced.blockStore := by
  obtain ⟨hget, hnone⟩ := TakenOver.entries_synced
  have hlookup : getElementResponse TwoMints.primitives true 14 TakenOver.synced =
      .err (.blockNotFound 0) := by
    unfold getElementResponse
    rw [hget]
    simp only [Bool.not_true, Bool.false_eq_true, if_false, hnone]
  refine ⟨?_, mem_keys_iff.2 ⟨0, hget⟩, hlookup, ?_, fun hlocated => ?_⟩
  · rw [TakenOver.states_steps]
    exact List.mem_cons_of_mem _ (List.mem_cons_of_mem _ List.mem_cons_self)
  · rw [listElements, hlookup]
  · obtain ⟨block, hblock, -⟩ := hlocated 14 0 hget
    rw [hnone] at hblock
    cases hblock

end TempoRollup.Node
