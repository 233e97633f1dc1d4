import TempoRollup.Circuits.Utxo
import TempoRollup.Smirk.Tree

set_option relaxedAutoImplicit false
set_option autoImplicit false

/-!
# The batch of the prover

`prover/src/lib.rs`: how the prover turns the leaves of a group of transactions into the witness
of the batch insert circuit. It inserts the leaves in its tree one by one and takes the path of
each; a zero leaf is padding and gets the path of the empty slot 0 in the tree before the first
insertion.

## Main definitions

* `Transaction`, `Transaction.leaves` — the leaves among the public inputs of a transaction.
* `genInsert`, `genInserts`, `genBatch` — the witness of the batch insert circuit.

## Main results

* `computeRootFromLeaf_eq` — the root that the path of an element gives to a leaf.
* `genInsert_of_fresh` — one leaf: its insert leads from the root before it to the root after it.
* `genInserts_spec` — the inserts of all leaves link to each other.
* `genBatch_satisfies` — the batch satisfies its circuit, from the root of the tree before the
  leaves to the root after them.
-/

open Exec
open TempoRollup.Circuits TempoRollup.Smirk

namespace TempoRollup.Prover

/-! ## The code -/

/-- `MERKLE_TREE_PATH_DEPTH`. -/
def MERKLE_TREE_PATH_DEPTH : ℕ := 160

/-- `MERKLE_TREE_DEPTH`. -/
def MERKLE_TREE_DEPTH : ℕ := 161

/-- `UTXO_AGGREGATIONS`. -/
def UTXO_AGGREGATIONS : ℕ := 2

/-- `UTXO_AGG_NUMBER`. -/
def UTXO_AGG_NUMBER : ℕ := 3

/-- `UTXO_INPUTS`. -/
def UTXO_INPUTS : ℕ := 2

/-- `UTXO_OUTPUTS`. -/
def UTXO_OUTPUTS : ℕ := 2

/-- `UTXO_AGG_LEAVES`. -/
def UTXO_AGG_LEAVES : ℕ := UTXO_AGG_NUMBER * (UTXO_INPUTS + UTXO_OUTPUTS)

/-- `MAXIMUM_TXNS`. -/
def MAXIMUM_TXNS : ℕ := UTXO_AGG_NUMBER * UTXO_AGGREGATIONS

/-- `MerkleTree`; the metadata of an element is the height it was inserted at. -/
abbrev MerkleTree : Type := Tree MERKLE_TREE_DEPTH ℕ

/-- `Error`, as far as the modelled functions return it. -/
inductive Error
  | smirkCollision (e : CollisionError)
  | zk
  deriving DecidableEq, Repr

/-- `Transaction`, with its `SnarkWitness` of version 1. -/
structure Transaction where
  /-- The columns of public inputs. -/
  instances : List (List Element)
  proof : List (BitVec 8)
  deriving DecidableEq, Repr

/-- The leaves among the public inputs: all after the recent root and the mint or burn; an index
into no column panics. -/
def Transaction.leaves (self : Transaction) : Outcome Error (List Element) := do
  let instances ← Outcome.ofOption self.instances.head?
  pure ((instances.drop 3).map fun f => Element.fromBase f.toBase)

/-- The leaves of a list of transactions, in order. -/
def extractLeaves : List Transaction → Outcome Error (List Element)
  | [] => pure []
  | txn :: txns => do
    let elements ← txn.leaves
    let leaves ← extractLeaves txns
    pure (elements ++ leaves)

/-- The depth of the tree is within that of a path. -/
lemma MERKLE_TREE_DEPTH_le : MERKLE_TREE_DEPTH ≤ 257 := by decide

/-- `MerklePath::new` of the siblings of a path in the tree. -/
def merklePath (path : Path MERKLE_TREE_DEPTH) : Outcome Error (MerklePath MERKLE_TREE_DEPTH) :=
  let fpath := path.siblingsDeepestFirst.take MERKLE_TREE_PATH_DEPTH
  if h : fpath.length = MERKLE_TREE_DEPTH - 1 then .ok ⟨fpath, h, MERKLE_TREE_DEPTH_le⟩
  else .panic

section Code

variable (H : List Fr → Fr) (paddingPath : Path MERKLE_TREE_DEPTH) (currentBlock : ℕ)

/-- One round of the loop of `gen_batch` over the leaves. -/
def genInsert (leaf : Element) : Program MerkleTree Error (Insert MERKLE_TREE_DEPTH) := do
  let path ←
    if leaf = Element.NULL_HASH then pure paddingPath
    else do
      (Tree.insert H leaf currentBlock).mapErr Error.smirkCollision
      let tree ← Program.get
      Program.lift (tree.pathFor H leaf).unwrap
  let mp ← Program.lift (merklePath path)
  pure { leaf := leaf, path := mp }

/-- The loop of `gen_batch` over the leaves. -/
def genInserts : List Element → Program MerkleTree Error (List (Insert MERKLE_TREE_DEPTH))
  | [] => pure []
  | leaf :: leaves => do
    let insert ← genInsert H paddingPath currentBlock leaf
    let inserts ← genInserts leaves
    pure (insert :: inserts)

end Code

/-- What `gen_batch` returns. -/
structure GenBatch where
  insertsLen : ℕ
  oldTree : Element
  newTree : Element
  batch : Circuits.Batch MERKLE_TREE_DEPTH

/-- `gen_batch`: the number of inserts has to be that of the circuit. -/
def genBatch (H : List Fr → Fr) (txns : List Transaction) (currentBlock : ℕ) :
    Program MerkleTree Error GenBatch := do
  let tree ← Program.get
  let oldTree := tree.rootHash H
  let paddingPath ← Program.lift (tree.pathFor H ((Note.paddingNote H).commitment H)).unwrap
  let leaves ← Program.lift (extractLeaves txns)
  let inserts ← genInserts H paddingPath currentBlock leaves
  let tree ← Program.get
  let newTree := tree.rootHash H
  Program.assert (inserts.length = UTXO_AGG_LEAVES)
  pure { insertsLen := inserts.length, oldTree, newTree, batch := ⟨inserts⟩ }

/-! ## Paths and roots in the field -/

section Roots

variable {H : List Fr → Fr}

/-- The slots of a tree, read in the field. -/
def fieldTree (tree : MerkleTree) (s : ℕ) : Fr :=
  (occupant (MERKLE_TREE_DEPTH - 1) tree.entries.keys s).toBase

/-- The root of a tree of field elements under the hash of the circuits. -/
def fieldRoot (H : List Fr → Fr) (T : ℕ → Fr) : Fr :=
  SparseMerkle.root (fun l r => H [l, r]) T (MERKLE_TREE_DEPTH - 1)

/-- The hash of two elements is the hash of their field elements. -/
lemma toBase_merge (H : List Fr → Fr) (a b : Element) :
    (merge H a b).toBase = H [a.toBase, b.toBase] :=
  Element.toBase_fromBase _

/-- The root of a tree in the field. -/
lemma toBase_rootHash {tree : MerkleTree} (h : tree.Inv H) :
    (tree.rootHash H).toBase = fieldRoot H (fieldTree tree) := by
  have hmap : fieldRoot H (fieldTree tree) =
      (SparseMerkle.root (merge H) (occupant (MERKLE_TREE_DEPTH - 1) tree.entries.keys)
        (MERKLE_TREE_DEPTH - 1)).toBase :=
    SparseMerkle.root_map _ Element.toBase (toBase_merge H) _ _
  rw [h.rootHash_eq, hmap]

/-- The path of a slot in the tree, as the circuits read it. -/
lemma entries_eq {tree : MerkleTree} {e : Element} {mp : MerklePath MERKLE_TREE_DEPTH}
    (hsib : mp.siblings =
      (SparseMerkle.path (merge H) (occupant (MERKLE_TREE_DEPTH - 1) tree.entries.keys) 0
        (e.slot (MERKLE_TREE_DEPTH - 1)) (MERKLE_TREE_DEPTH - 1)).map Prod.fst) :
    mp.entries e =
      SparseMerkle.path (fun l r => H [l, r]) (fieldTree tree) 0 (e.slot (MERKLE_TREE_DEPTH - 1))
        (MERKLE_TREE_DEPTH - 1) := by
  have hfst : (SparseMerkle.path (fun l r => H [l, r]) (fieldTree tree) 0
      (e.slot (MERKLE_TREE_DEPTH - 1)) (MERKLE_TREE_DEPTH - 1)).map Prod.fst =
        mp.siblings.map Element.toBase := by
    rw [hsib]
    exact SparseMerkle.map_fst_path_map _ Element.toBase (toBase_merge H) _ _ _ _
  have hsnd := SparseMerkle.map_snd_path (fun l r => H [l, r]) (fieldTree tree) 0
    (e.slot (MERKLE_TREE_DEPTH - 1)) (MERKLE_TREE_DEPTH - 1)
  rw [Element.slot, Bits.toLE_mod, ← Element.slot, ← e.reverse_lsb (by decide)] at hsnd
  rw [MerklePath.entries, MerklePath.leastSignificantBits, ← hfst, ← hsnd]
  rw [List.zip_map', List.map_id']

/-- **The root of a leaf.** The path of an element takes a leaf to the root of the tree with that
leaf in the element's slot. -/
theorem computeRootFromLeaf_eq {tree : MerkleTree} {e : Element}
    {mp : MerklePath MERKLE_TREE_DEPTH}
    (hsib : mp.siblings =
      (SparseMerkle.path (merge H) (occupant (MERKLE_TREE_DEPTH - 1) tree.entries.keys) 0
        (e.slot (MERKLE_TREE_DEPTH - 1)) (MERKLE_TREE_DEPTH - 1)).map Prod.fst) (leaf : Element) :
    (mp.computeRootFromLeaf H e leaf).toBase =
      fieldRoot H (Function.update (fieldTree tree) (e.slot (MERKLE_TREE_DEPTH - 1))
        leaf.toBase) := by
  have hfold := MerklePath.toBase_computeRootFromLeaf (Utxo.honestEnv H []) mp e leaf
  rw [entries_eq hsib] at hfold
  exact hfold.trans (SparseMerkle.foldPath_path_update _ _ _ _ (e.slot_lt _) _)

/-- The siblings of a path are those that the circuit takes. -/
lemma merklePath_eq_ok (path : Path MERKLE_TREE_DEPTH) :
    ∃ mp, merklePath path = .ok mp ∧ mp.siblings = path.siblingsDeepestFirst := by
  have hlen : path.siblingsDeepestFirst.length = MERKLE_TREE_DEPTH - 1 := by
    rw [Path.siblingsDeepestFirst, List.length_take, path.length_siblings]
    decide
  have htake : path.siblingsDeepestFirst.take MERKLE_TREE_PATH_DEPTH =
      path.siblingsDeepestFirst := by
    refine List.take_of_length_le ?_
    rw [hlen]
    decide
  have hfit : (path.siblingsDeepestFirst.take MERKLE_TREE_PATH_DEPTH).length =
      MERKLE_TREE_DEPTH - 1 := by
    rw [htake, hlen]
  exact ⟨_, dif_pos hfit, htake⟩

end Roots

/-! ## The inserts -/

section Inserts

variable {H : List Fr → Fr} {paddingPath : Path MERKLE_TREE_DEPTH} {currentBlock : ℕ}
  {tree : MerkleTree}

/-- A zero leaf leaves the tree alone and takes the padding path. -/
lemma genInsert_zero (H : List Fr → Fr) (paddingPath : Path MERKLE_TREE_DEPTH)
    (currentBlock : ℕ) (tree : MerkleTree) :
    ∃ insert, genInsert H paddingPath currentBlock 0 tree = (.ok insert, tree) ∧
      insert.leaf = 0 ∧ insert.path.siblings = paddingPath.siblingsDeepestFirst := by
  obtain ⟨mp, hmp, hsib⟩ := merklePath_eq_ok paddingPath
  refine ⟨⟨0, mp⟩, ?_, rfl, hsib⟩
  have hnull : (0 : Element) = Element.NULL_HASH := rfl
  rw [genInsert, if_pos hnull]
  simp [Program.run_bind, hmp]
  rfl

/-- **One leaf.** A new leaf is inserted in the tree; its insert leads from the root of the tree
before it to the root after it.

**Proof sketch.** The path is taken in the tree after the insertion. It leads from the leaf to the
root after it, and from the null leaf to the root of the tree that has nothing in the slot, which is
the tree before. -/
theorem genInsert_of_fresh (paddingPath : Path MERKLE_TREE_DEPTH) (currentBlock : ℕ)
    (h : tree.Inv H) {leaf : Element} (hfresh : tree.Fresh [leaf]) :
    ∃ insert tree', genInsert H paddingPath currentBlock leaf tree = (.ok insert, tree') ∧
      tree'.Inv H ∧ tree'.entries = tree.entries.insert leaf currentBlock ∧
      insert.leaf = leaf ∧ insert.computeNullRoot H = (tree.rootHash H).toBase ∧
      insert.computeLeafRoot H = (tree'.rootHash H).toBase := by
  have hne : leaf ≠ Element.NULL_HASH := hfresh.ne_null leaf List.mem_cons_self
  have hbatch : tree.Fresh (Batch.single leaf currentBlock : Batch MERKLE_TREE_DEPTH ℕ).elements :=
    hfresh
  obtain ⟨tree', hinsert, hinv, hentries⟩ := Tree.insertBatch_of_fresh (by decide) (by decide) h
    hbatch
  have hentries' : tree'.entries = tree.entries.insert leaf currentBlock := hentries
  obtain ⟨path, hpath, -, -, hsib⟩ := Tree.pathFor_spec (by decide) (by decide) hinv leaf
  obtain ⟨mp, hmp, hmpsib⟩ := merklePath_eq_ok path
  have hroot := computeRootFromLeaf_eq (hmpsib.trans hsib)
  -- the tree after the leaf, and the tree before it, which has nothing in the leaf's slot
  have hmem : ∀ a, a ∈ tree'.entries.keys ↔ a ∈ tree.entries.keys ∨ a = leaf := by
    intro a
    rw [hentries', Std.TreeMap.mem_keys, Std.TreeMap.mem_keys, Std.TreeMap.mem_insert,
      Std.LawfulEqCmp.compare_eq_iff_eq, or_comm, eq_comm]
  have hfull : fieldTree tree' (leaf.slot (MERKLE_TREE_DEPTH - 1)) = leaf.toBase := by
    rw [fieldTree, occupant_of_mem hinv.distinct ((hmem leaf).2 (.inr rfl))]
  have hold : Function.update (fieldTree tree') (leaf.slot (MERKLE_TREE_DEPTH - 1))
      (0 : Element).toBase = fieldTree tree := by
    funext s
    by_cases hs : s = leaf.slot (MERKLE_TREE_DEPTH - 1)
    · rw [hs, Function.update_self, fieldTree, occupant_of_forall_ne fun e he =>
        (hfresh.free e he leaf List.mem_cons_self).symm]
      rfl
    · rw [Function.update_of_ne hs, fieldTree, fieldTree,
        occupant_insert_of_ne h.distinct hmem hs]
  refine ⟨⟨leaf, mp⟩, tree', ?_, hinv, hentries', rfl, ?_, ?_⟩
  · have hrun : Tree.insert H leaf currentBlock tree = (.ok (), tree') := hinsert
    rw [genInsert, if_neg hne]
    simp [Program.run_bind, Program.mapErr, hrun, hpath, Outcome.unwrap, hmp]
    rfl
  · rw [Insert.computeNullRoot, MerklePath.computeNullRoot, hroot, hold, toBase_rootHash h]
  · rw [Insert.computeLeafRoot, MerklePath.computeRoot, hroot, ← hfull, Function.update_eq_self,
      toBase_rootHash hinv]

/-- The leaves that are inserted. -/
def nonNull (leaves : List Element) : List Element :=
  leaves.filter fun leaf => leaf != Element.NULL_HASH

/-- The inserts that the loop makes of the leaves, from the root of one tree to that of another. -/
structure InsertsOf (H : List Fr → Fr) (paddingPath : Path MERKLE_TREE_DEPTH)
    (leaves : List Element) (tree tree' : MerkleTree)
    (inserts : List (Insert MERKLE_TREE_DEPTH)) : Prop where
  leaf_eq : inserts.map Insert.leaf = leaves
  padding : ∀ i ∈ inserts, i.leaf = 0 → i.path.siblings = paddingPath.siblingsDeepestFirst
  links : Circuits.Batch.Links H (tree.rootHash H).toBase inserts
  root_eq : inserts.foldl (Insert.rootAfter H) (tree.rootHash H).toBase = (tree'.rootHash H).toBase

/-- One more insert in front. -/
lemma InsertsOf.cons {leaf : Element} {leaves : List Element} {tree₁ tree' : MerkleTree}
    {insert : Insert MERKLE_TREE_DEPTH} {inserts : List (Insert MERKLE_TREE_DEPTH)}
    (hleaf : insert.leaf = leaf)
    (hpadding : insert.leaf = 0 → insert.path.siblings = paddingPath.siblingsDeepestFirst)
    (hlink : insert.isPadding H = false → insert.computeNullRoot H = (tree.rootHash H).toBase)
    (hroot : insert.rootAfter H (tree.rootHash H).toBase = (tree₁.rootHash H).toBase)
    (h : InsertsOf H paddingPath leaves tree₁ tree' inserts) :
    InsertsOf H paddingPath (leaf :: leaves) tree tree' (insert :: inserts) where
  leaf_eq := by rw [List.map_cons, hleaf, h.leaf_eq]
  padding := List.forall_mem_cons.2 ⟨hpadding, h.padding⟩
  links := ⟨hlink, by rw [hroot]; exact h.links⟩
  root_eq := by rw [List.foldl_cons, hroot, h.root_eq]

/-- The first of fresh leaves is fresh. -/
lemma fresh_head {leaf : Element} {leaves : List Element} (h : tree.Fresh (leaf :: leaves)) :
    tree.Fresh [leaf] where
  ne_null := List.forall_mem_singleton.2 (h.ne_null leaf List.mem_cons_self)
  distinct := List.pairwise_singleton _ _
  free e he := List.forall_mem_singleton.2 (h.free e he leaf List.mem_cons_self)

/-- Once the first leaf is inserted, the rest is new for the tree. -/
lemma fresh_tail {leaf : Element} {leaves : List Element} {tree' : MerkleTree}
    (h : tree.Fresh (leaf :: leaves))
    (hentries : tree'.entries = tree.entries.insert leaf currentBlock) : tree'.Fresh leaves where
  ne_null e he := h.ne_null e (List.mem_cons_of_mem _ he)
  distinct := (List.pairwise_cons.1 h.distinct).2
  free e he b hb := by
    rw [hentries, Std.TreeMap.mem_keys, Std.TreeMap.mem_insert,
      Std.LawfulEqCmp.compare_eq_iff_eq] at he
    rcases he with rfl | he
    · exact ((List.pairwise_cons.1 h.distinct).1 b hb).symm
    · exact h.free e (Std.TreeMap.mem_keys.2 he) b (List.mem_cons_of_mem _ hb)

/-- **The loop over the leaves**, by induction on the leaves: it ends, the tree has the new
leaves, and the inserts link to each other.

**Proof sketch.** A zero leaf leaves the tree and the root as they are; another one is inserted by
`genInsert_of_fresh`. -/
theorem genInserts_spec (paddingPath : Path MERKLE_TREE_DEPTH) (currentBlock : ℕ)
    (h : tree.Inv H) (leaves : List Element) (hfresh : tree.Fresh (nonNull leaves)) :
    ∃ inserts tree', genInserts H paddingPath currentBlock leaves tree = (.ok inserts, tree') ∧
      tree'.Inv H ∧
      tree'.entries = Tree.insertEntries tree.entries
        ((nonNull leaves).map fun leaf => (leaf, currentBlock)) ∧
      InsertsOf H paddingPath leaves tree tree' inserts := by
  induction leaves generalizing tree with
  | nil => exact ⟨[], tree, rfl, h, rfl, rfl, by simp, trivial, rfl⟩
  | cons leaf leaves ih =>
    by_cases h0 : leaf = 0
    · -- padding: the tree and the root stay
      subst h0
      have hskip : nonNull ((0 : Element) :: leaves) = nonNull leaves := rfl
      rw [hskip] at hfresh ⊢
      obtain ⟨insert, hrun, hleaf, hsib⟩ := genInsert_zero H paddingPath currentBlock tree
      obtain ⟨inserts, tree', hruns, hinv, hentries, hof⟩ := ih h hfresh
      have hpad : insert.isPadding H = true := beq_iff_eq.2 hleaf
      refine ⟨insert :: inserts, tree', ?_, hinv, hentries,
        hof.cons hleaf (fun _ => hsib) (fun hnot => ?_) ?_⟩
      · exact Program.bind_eq_ok.2 ⟨insert, tree, hrun,
          Program.bind_eq_ok.2 ⟨inserts, tree', hruns, rfl⟩⟩
      · rw [hpad] at hnot
        cases hnot
      · rw [Insert.rootAfter, if_pos hpad]
    · have hkeep : nonNull (leaf :: leaves) = leaf :: nonNull leaves :=
        List.filter_cons_of_pos (bne_iff_ne.2 h0)
      rw [hkeep] at hfresh ⊢
      obtain ⟨insert, tree₁, hrun, hinv₁, hentries₁, hleaf, hold, hnew⟩ :=
        genInsert_of_fresh paddingPath currentBlock h (fresh_head hfresh)
      obtain ⟨inserts, tree', hruns, hinv, hentries, hof⟩ := ih hinv₁
        (fresh_tail hfresh hentries₁)
      have hpad : insert.isPadding H = false := beq_eq_false_iff_ne.2 (by rw [hleaf]; exact h0)
      refine ⟨insert :: inserts, tree', ?_, hinv, ?_,
        hof.cons hleaf (fun hzero => absurd (hleaf ▸ hzero) h0) (fun _ => hold) ?_⟩
      · exact Program.bind_eq_ok.2 ⟨insert, tree₁, hrun,
          Program.bind_eq_ok.2 ⟨inserts, tree', hruns, rfl⟩⟩
      · rw [hentries, hentries₁]
        rfl
      · rw [Insert.rootAfter, hpad, hnew]
        rfl

end Inserts

/-! ## The batch -/

/-- A UTXO proof has one column of seven public inputs: the recent root, the hash and the value of
the mint or burn, and four leaves. -/
def Transaction.IsUtxo (self : Transaction) : Prop :=
  ∃ instances, self.instances = [instances] ∧ instances.length = 7

/-- The leaves of the first column, as canonical elements. -/
def Transaction.utxoLeaves (self : Transaction) : List Element :=
  ((self.instances.headD []).drop 3).map fun f => Element.fromBase f.toBase

/-- The leaves of UTXO transactions are extracted, four for each. -/
lemma extractLeaves_eq_ok {txns : List Transaction} (h : ∀ txn ∈ txns, txn.IsUtxo) :
    extractLeaves txns = .ok (txns.flatMap Transaction.utxoLeaves) ∧
      (txns.flatMap Transaction.utxoLeaves).length = txns.length * 4 := by
  induction txns with
  | nil => exact ⟨rfl, rfl⟩
  | cons txn txns ih =>
    obtain ⟨⟨instances, hinst, hlen⟩, hrest⟩ := List.forall_mem_cons.1 h
    obtain ⟨hleaves, hcount⟩ := ih hrest
    constructor
    · rw [extractLeaves, hleaves, List.flatMap_cons, Transaction.leaves, Transaction.utxoLeaves,
        hinst]
      rfl
    · rw [List.flatMap_cons, List.length_append, hcount, Transaction.utxoLeaves, hinst,
        List.length_cons]
      simp [hlen]
      omega

/-- The leaves of UTXO transactions are canonical. -/
lemma isCanonical_of_mem_utxoLeaves {txns : List Transaction} {leaf : Element}
    (h : leaf ∈ txns.flatMap Transaction.utxoLeaves) : leaf.isCanonical = true := by
  obtain ⟨txn, -, hleaf⟩ := List.mem_flatMap.1 h
  obtain ⟨f, -, rfl⟩ := List.mem_map.1 hleaf
  exact Element.isCanonical_fromBase _

/-- The first insert starts at the root of the tree, padding or not, if slot 0 is empty. -/
lemma InsertsOf.oldRoot_eq {H : List Fr → Fr} {paddingPath : Path MERKLE_TREE_DEPTH}
    {leaves : List Element} {tree tree' : MerkleTree} {inserts : List (Insert MERKLE_TREE_DEPTH)}
    (hof : InsertsOf H paddingPath leaves tree tree' inserts) (h : tree.Inv H)
    (hslot : ∀ e ∈ tree.entries.keys, e.slot (MERKLE_TREE_DEPTH - 1) ≠ 0)
    (hpath : tree.pathFor H 0 = .ok paddingPath) (hne : inserts ≠ []) :
    (Circuits.Batch.mk inserts).oldRoot H = (tree.rootHash H).toBase := by
  obtain ⟨insert, inserts, rfl⟩ := List.exists_cons_of_ne_nil hne
  change insert.computeNullRoot H = _
  by_cases h0 : insert.leaf = 0
  · -- the path of the empty slot 0 takes the null leaf to the root
    obtain ⟨path, hpath', -, -, hsib⟩ := Tree.pathFor_spec (by decide) (by decide) h 0
    obtain rfl : path = paddingPath := Outcome.ok.inj (hpath'.symm.trans hpath)
    have hnull : fieldTree tree ((0 : Element).slot (MERKLE_TREE_DEPTH - 1)) =
        (0 : Element).toBase := by
      rw [fieldTree, occupant_of_forall_ne fun e he => by simpa [Element.slot] using hslot e he]
      rfl
    rw [Insert.computeNullRoot, MerklePath.computeNullRoot, h0,
      computeRootFromLeaf_eq ((hof.padding insert List.mem_cons_self h0).trans hsib), ← hnull,
      Function.update_eq_self, toBase_rootHash h]
  · exact hof.links.1 (beq_eq_false_iff_ne.2 h0)

/-- **Completeness of the prover.** Whatever the pattern of zero leaves, if the other leaves of
the transactions have slots of their own that are empty in the tree, and slot 0 is empty, then
`gen_batch` returns a batch that satisfies every constraint of the batch insert circuit on its
public inputs, and its roots are those of the tree before and after the leaves.

**Proof sketch.** The inserts are as many as the leaves, canonical, and linked from the root before
to the root after (`genInserts_spec`), and that is what the constraints of the batch ask for
(`enforceConstraints_of_links`). -/
theorem genBatch_satisfies (H : List Fr → Fr) {tree : MerkleTree} (htree : tree.Inv H)
    (txns : List Transaction) (hlen : txns.length = UTXO_AGG_NUMBER)
    (hutxo : ∀ txn ∈ txns, txn.IsUtxo) (currentBlock : ℕ)
    (hfresh : tree.Fresh (nonNull (txns.flatMap Transaction.utxoLeaves)))
    (hslot : ∀ e ∈ tree.entries.keys, e.slot (MERKLE_TREE_DEPTH - 1) ≠ 0) :
    ∃ (batch : Circuits.Batch MERKLE_TREE_DEPTH) (tree' : MerkleTree),
      genBatch H txns currentBlock tree =
        (.ok { insertsLen := UTXO_AGG_LEAVES, oldTree := tree.rootHash H,
               newTree := tree'.rootHash H, batch := batch }, tree') ∧
      tree'.Inv H ∧
      tree'.entries = Tree.insertEntries tree.entries
        ((nonNull (txns.flatMap Transaction.utxoLeaves)).map fun leaf => (leaf, currentBlock)) ∧
      batch.oldRoot H = (tree.rootHash H).toBase ∧
      batch.newRoot H = (tree'.rootHash H).toBase ∧
      ∃ cells, batch.synthesize H (Utxo.honestEnv H (batch.publicInputs H)) cells ∧
        cells.oldRoot = (tree.rootHash H).toBase ∧
        cells.newRoot = (tree'.rootHash H).toBase ∧
        cells.leafs = (txns.flatMap Transaction.utxoLeaves).map Element.toBase := by
  obtain ⟨hleaves, hcount⟩ := extractLeaves_eq_ok hutxo
  obtain ⟨paddingPath, hpath, -⟩ := Tree.pathFor_spec (by decide) (by decide) htree 0
  obtain ⟨inserts, tree', hruns, hinv, hentries, hof⟩ :=
    genInserts_spec paddingPath currentBlock htree _ hfresh
  have hinserts : inserts.length = UTXO_AGG_LEAVES := by
    rw [← List.length_map Insert.leaf, hof.leaf_eq, hcount, hlen]
    rfl
  have hne : inserts ≠ [] := by
    rintro rfl
    cases hinserts
  have hold := hof.oldRoot_eq htree hslot hpath hne
  have hnew : (Circuits.Batch.mk inserts).newRoot H = (tree'.rootHash H).toBase := by
    rw [Batch.newRoot_eq_foldl, hold, hof.root_eq]
  have hcanon : ∀ i ∈ inserts, i.leaf.isCanonical = true := by
    intro i hi
    have hmem : i.leaf ∈ txns.flatMap Transaction.utxoLeaves := by
      rw [← hof.leaf_eq]
      exact List.mem_map_of_mem hi
    exact isCanonical_of_mem_utxoLeaves hmem
  have hlinks : Batch.Links H ((Circuits.Batch.mk inserts).oldRoot H) inserts := by
    rw [hold]
    exact hof.links
  obtain ⟨cells, hcells, hcold, hcnew, hcleafs⟩ := Batch.synthesize_of_links
    (show (Utxo.honestEnv H ((Circuits.Batch.mk inserts).publicInputs H)).hashed = Set.univ from
      rfl) ⟨inserts⟩ rfl hne hcanon hlinks
  refine ⟨⟨inserts⟩, tree', ?_, hinv, hentries, hold, hnew, cells, hcells, hcold.trans hold,
    hcnew.trans hnew, ?_⟩
  · have hpadding : (tree.pathFor H ((Note.paddingNote H).commitment H)).unwrap =
        (.ok paddingPath : Outcome Error _) := by
      rw [Note.commitment_paddingNote, hpath]
      rfl
    simp only [genBatch, Program.run_bind, Program.run_get, Program.run_lift, hpadding, hleaves,
      hruns, Program.run_assert, hinserts, decide_true, if_true, Program.run_pure]
  · rw [hcleafs, Circuits.Batch.leafs, ← hof.leaf_eq, List.map_map]
    rfl

/-- Three transactions, with padding before, between and after their leaves. -/
def sampleTxns : List Transaction :=
  [⟨[[0, 0, 0, 0, 0, 5, 0]], []⟩, ⟨[[0, 0, 0, 0, 0, 0, 0]], []⟩, ⟨[[0, 0, 0, 6, 0, 0, 7]], []⟩]

/-- The leaves of the sample transactions that are not null. -/
lemma nonNull_sampleTxns :
    nonNull (sampleTxns.flatMap Transaction.utxoLeaves) = [5, 6, 7] := by
  decide +kernel

/-- The batch of the sample transactions satisfies its circuit, from the empty tree to the tree with
their leaves. -/
theorem genBatch_satisfies_sampleTxns :
    ∃ (batch : Circuits.Batch MERKLE_TREE_DEPTH) (tree' : MerkleTree),
      tree'.entries.keys = [5, 6, 7] ∧
      batch.oldRoot Tree.sampleHash = ((Tree.new : MerkleTree).rootHash Tree.sampleHash).toBase ∧
      batch.newRoot Tree.sampleHash = (tree'.rootHash Tree.sampleHash).toBase ∧
      ∃ cells, batch.synthesize Tree.sampleHash
        (Utxo.honestEnv Tree.sampleHash (batch.publicInputs Tree.sampleHash)) cells := by
  have hkeys : (Tree.new : MerkleTree).entries.keys = [] := rfl
  have hutxo : ∀ txn ∈ sampleTxns, txn.IsUtxo := by
    simp [sampleTxns, Transaction.IsUtxo]
  have hfresh : (Tree.new : MerkleTree).Fresh
      (nonNull (sampleTxns.flatMap Transaction.utxoLeaves)) := by
    rw [nonNull_sampleTxns]
    refine ⟨by simp [Element.NULL_HASH], ?_, by simp [hkeys]⟩
    decide +kernel
  obtain ⟨batch, tree', -, -, hentries, hold, hnew, cells, hcells, -⟩ :=
    genBatch_satisfies Tree.sampleHash (Tree.inv_new (by decide)) sampleTxns rfl hutxo 1 hfresh
      (by simp [hkeys])
  refine ⟨batch, tree', ?_, hold, hnew, cells, hcells⟩
  rw [hentries, nonNull_sampleTxns]
  decide +kernel

end TempoRollup.Prover
