import TempoRollup.Contract.Backing
import TempoRollup.Contract.Endorsed
import TempoRollup.Node.Spending

set_option relaxedAutoImplicit false
set_option autoImplicit false

/-!
# The backing of the ledger

The notes tree that a node holds, against the tokens of the contract. The signatures of the
validators put the contract at a place of the ledger, and the proofs make its root the root of the
notes of satisfied transactions; a root determines its tree, so the tree of the nodes at that place
is the tree of those notes.

## Main definitions

* `ledgerTree` — the tree of a ledger, as the circuits read it.

## Main results

* `noteTree_eq_ledgerTree` — the notes behind the contract are the leaves of the ledger.
* `Vault.ledger_backed` — the unspent notes of the ledger are covered by the balance.
-/

open Exec ConstraintSystem
open TempoRollup.Circuits

namespace TempoRollup.Contract

open Node (Primitives Hashing Ledger Block ApprovalContent MERKLE_TREE_DEPTH signedMessage
  ledgerLeaves referenceRoot treePairs)

/-! ## The tree of a ledger in the field -/

section Tree

variable {P : Primitives} {hashing : Hashing} {log pre : List Block} {env : ConstraintSystem.Env Fr}

/-- The tree of a ledger, as the circuits read it. -/
def ledgerTree (log : List Block) (s : ℕ) : Fr :=
  (Smirk.occupant (MERKLE_TREE_DEPTH - 1) (ledgerLeaves log) s).toBase

/-- The pairs of nodes that the nodes of the network hash are among the messages of the circuits. -/
structure SharesHash (P : Primitives) (hashing : Hashing) (env : ConstraintSystem.Env Fr) :
    Prop where
  hash : env.hash = P.poseidon
  pairs : ∀ q ∈ hashing.pairs, [q.1.toBase, q.2.toBase] ∈ env.hashed

/-- The hash of two elements is the hash of their field elements. -/
lemma SharesHash.toBase_merge (h : SharesHash P hashing env) (a b : Element) :
    (Smirk.merge P.poseidon a b).toBase = hash2 env a.toBase b.toBase := by
  rw [hash2, h.hash]
  exact Element.toBase_fromBase _

/-- The circuits' root of the ledger's tree is the nodes' root. -/
lemma SharesHash.treeRoot_ledgerTree (h : SharesHash P hashing env) (log : List Block) :
    treeRoot env MERKLE_TREE_DEPTH (ledgerTree log) =
      (referenceRoot P (ledgerLeaves log)).toBase :=
  SparseMerkle.root_map (hash2 env) Element.toBase h.toBase_merge _ _

/-- What the ledger's tree hashes is hashed in the environment. -/
lemma SharesHash.treeHashed_ledgerTree (h : SharesHash P hashing env)
    (hpairs : treePairs P (ledgerLeaves log) ⊆ hashing.pairs) :
    TreeHashed env MERKLE_TREE_DEPTH (ledgerTree log) := by
  rintro q ⟨k, i, hk, hi, rfl⟩
  have hnode := h.pairs _ (hpairs ⟨k, i, hk, hi, rfl⟩)
  rwa [← SparseMerkle.node_map (hash2 env) Element.toBase h.toBase_merge,
    ← SparseMerkle.node_map (hash2 env) Element.toBase h.toBase_merge] at hnode

/-- The tree of the empty ledger is empty. -/
lemma ledgerTree_nil : ledgerTree [] = fun _ => 0 := by
  funext s
  exact Element.toBase_zero

/-- A leaf of the field tree of a ledger is one of its leaves, in its slot. -/
lemma exists_mem_of_ledgerTree_ne_zero {s : ℕ} (h : ledgerTree log s ≠ 0) :
    ∃ e ∈ ledgerLeaves log, e.toBase = ledgerTree log s ∧ s < 2 ^ (MERKLE_TREE_DEPTH - 1) := by
  rcases Smirk.occupant_cases (MERKLE_TREE_DEPTH - 1) (ledgerLeaves log) s with
    ⟨hmem, hslot⟩ | ⟨hnull, -⟩
  · exact ⟨_, hmem, rfl, hslot ▸ Element.slot_lt _ _⟩
  · rw [ledgerTree, hnull] at h
    exact absurd Element.toBase_zero h

/-- A leaf of a ledger is in its slot of the field tree. -/
lemma ledgerTree_slot (hlog : Ledger P hashing log) {e : Element} (he : e ∈ ledgerLeaves log) :
    ledgerTree log (e.slot (MERKLE_TREE_DEPTH - 1)) = e.toBase := by
  rw [ledgerTree, Smirk.occupant_of_mem hlog.distinct he]

end Tree

/-! ## The notes behind the contract -/

namespace Vault

section Notes

variable {T : Type} {token : ERC20 T} {contract : Address} {verifiers : Verifiers}
  {plonkVerifier : Bytes → List Element → Bool} {env : ConstraintSystem.Env Fr} {P : Primitives}
  {hashing : Hashing} {log pre : List Block} {blocks : List BlockProof} {v : Vault T}
  {ts : List (TxnAssignment MERKLE_TREE_DEPTH)} {history : List (ℕ → Fr)}

/-- **The notes behind the contract are the leaves of the ledger**: the two trees have one root, and
nothing collides. -/
theorem Backed.noteTree_eq_ledgerTree (hb : Backed env blocks v ts history)
    (hcf : env.CollisionFree) (hshares : SharesHash P hashing env) (hpre : Ledger P hashing pre)
    (hsettled : v.storage.Settled P pre) : noteTree ts = ledgerTree pre := by
  have hroot : treeRoot env MERKLE_TREE_DEPTH (noteTree ts) =
      treeRoot env MERKLE_TREE_DEPTH (ledgerTree pre) := by
    rw [hshares.treeRoot_ledgerTree, ← hsettled.root]
    exact hb.root.symm
  have hin : ∀ s < 2 ^ (MERKLE_TREE_DEPTH - 1), noteTree ts s = ledgerTree pre s :=
    SparseMerkle.eq_of_root_eq (injOn_hash2 hcf.injOn) (hb.notes.history_hashed _ hb.current)
      (hshares.treeHashed_ledgerTree hpre.pairs) hroot
  funext s
  rcases lt_or_ge s (2 ^ (MERKLE_TREE_DEPTH - 1)) with hlt | hge
  · exact hin s hlt
  · -- neither tree has leaves outside of its slots
    have hnotes : noteTree ts s = 0 := by
      by_contra hne
      exact absurd (hb.notes.placed s hne ▸ slotOf_lt _ _) (not_lt.2 hge)
    have hledger : ledgerTree pre s = 0 := by
      by_contra hne
      obtain ⟨-, -, -, hlt⟩ := exists_mem_of_ledgerTree_ne_zero hne
      exact absurd hlt (not_lt.2 hge)
    rw [hnotes, hledger]

/-- The leaves of the transactions behind the contract are those of the ledger. -/
lemma Backed.mem_leaves_iff (hb : Backed env blocks v ts history) (hpre : Ledger P hashing pre)
    (htree : noteTree ts = ledgerTree pre) {leaf : Fr} (hne : leaf ≠ 0) :
    leaf ∈ ts.flatMap TxnAssignment.leaves ↔ ∃ e ∈ ledgerLeaves pre, e.toBase = leaf := by
  constructor
  · intro hmem
    have hslot : noteTree ts (slotOf MERKLE_TREE_DEPTH leaf) = leaf := (hb.fills.mem hmem hne).2
    rw [htree] at hslot
    obtain ⟨e, he, heq, -⟩ := exists_mem_of_ledgerTree_ne_zero (hslot.symm ▸ hne)
    exact ⟨e, he, heq.trans hslot⟩
  · rintro ⟨e, he, rfl⟩
    have hslot := ledgerTree_slot hpre he
    rw [← htree] at hslot
    rcases insertLeaves_eq_or_mem MERKLE_TREE_DEPTH (fun _ => 0) (ts.flatMap TxnAssignment.leaves)
      (e.slot (MERKLE_TREE_DEPTH - 1)) with hzero | hmem
    · exact absurd (hslot.symm.trans hzero) hne
    · rwa [← hslot]

end Notes

/-! ### A sample: the mint of a block of the nodes is rolled up -/

namespace MintBlockRun

open Node.MintCluster (primitives)
open Node.Regrouped (sumHash)

/-- A padding note. -/
def padding : NoteWitness := ⟨0, 5, 14, 0, 0⟩

/-- The note that is minted, which the nodes have in their tree. -/
def note : NoteWitness := ⟨5, 2, 0, 0, 1⟩

/-- The messages of the notes and of a padding input. -/
def others : List (List Fr) := [note.message, padding.message, [4, 0], [0, 4, 14, 0]]

/-- The environment of the run: both trees of the nodes are hashed. -/
def env : ConstraintSystem.Env Fr where
  prover := .malicious
  instances := []
  hash := sumHash
  hashed := {l | (∃ q ∈ Node.MintCluster.hashing.pairs, l = [q.1.toBase, q.2.toBase]) ∨ l ∈ others}

/-- The other messages are hashed. -/
lemma others_hashed {l : List Fr} (h : l ∈ others) : l ∈ env.hashed := .inr h

/-- The digests of the trees, as numbers. -/
lemma exists_level {q : Element × Element} (hq : q ∈ Node.MintCluster.hashing.pairs) :
    ∃ k < 160, ∃ noted, q = Node.MintCluster.levelPair k noted ∧
      (env.hash [q.1.toBase, q.2.toBase]).val = Node.MintCluster.levelDigest k noted := by
  obtain ⟨k, hk, noted, rfl, hdigest⟩ := Node.MintCluster.exists_level hq
  refine ⟨k, hk, noted, rfl, ?_⟩
  have hbound : 2 ^ (k + 1) ≤ 2 ^ 160 := Nat.pow_le_pow_right (by omega) (by omega)
  have hM := Element.lt_MODULUS
  have hlt : Node.MintCluster.levelDigest k noted < 2 ^ 161 := by
    unfold Node.MintCluster.levelDigest
    split_ifs <;> omega
  have hmerge := (Element.toBase_fromBase (env.hash [(Node.MintCluster.levelPair k noted).1.toBase,
    (Node.MintCluster.levelPair k noted).2.toBase])).symm.trans (congrArg Element.toBase hdigest)
  rw [hmerge, Element.toBase, BitVec.toNat_ofNat, Nat.mod_eq_of_lt (by omega),
    ZMod.val_natCast_of_lt (by omega)]

/-- Their digests are small and known. -/
lemma val_hash_others : ∀ l ∈ others, (env.hash l).val ∈ [10, 20, 5, 19] := by decide

/-- The trees have no digest in common with notes, addresses and nullifiers. -/
lemma levelDigest_ne (k : ℕ) (noted : Bool) :
    Node.MintCluster.levelDigest k noted ∉ [0, 10, 20, 5, 19] := by
  simp only [Node.MintCluster.levelDigest, List.mem_cons, List.not_mem_nil, or_false]
  rcases Nat.lt_or_ge k 4 with hlt | hge
  · interval_cases k <;> cases noted <;> simp
  · have hle : 2 ^ 5 ≤ 2 ^ (k + 1) := Nat.pow_le_pow_right (by omega) (by omega)
    generalize (if noted = true then 10 else 0) = extra
    omega

/-- No pair of the tree has the digest of another message. -/
lemma hash_ne_of_others {q : Element × Element} (hq : q ∈ Node.MintCluster.hashing.pairs)
    {l : List Fr} (hl : l ∈ others) : env.hash [q.1.toBase, q.2.toBase] ≠ env.hash l := by
  intro h
  obtain ⟨k, -, noted, -, hdigest⟩ := exists_level hq
  rw [h] at hdigest
  exact levelDigest_ne k noted (hdigest ▸ List.mem_cons_of_mem _ (val_hash_others l hl))

/-- Nothing that is hashed collides, and nothing hashes to zero. -/
lemma collisionFree : env.CollisionFree where
  injOn := by
    rintro l (⟨q, hq, rfl⟩ | hl) l' (⟨q', hq', rfl⟩ | hl') h
    · obtain ⟨k, -, noted, rfl, hdigest⟩ := exists_level hq
      obtain ⟨k', -, noted', rfl, hdigest'⟩ := exists_level hq'
      rw [h] at hdigest
      obtain ⟨rfl, rfl⟩ := Node.MintCluster.levelDigest_inj (hdigest.symm.trans hdigest')
      rfl
    · exact absurd h (hash_ne_of_others hq hl')
    · exact absurd h.symm (hash_ne_of_others hq' hl)
    · have hall : ∀ l ∈ others, ∀ l' ∈ others, env.hash l = env.hash l' → l = l' := by decide
      exact hall l hl l' hl' h
  ne_zero := by
    rintro l (⟨q, hq, rfl⟩ | hl) hzero
    · obtain ⟨k, -, noted, -, hdigest⟩ := exists_level hq
      rw [hzero, ZMod.val_zero] at hdigest
      exact levelDigest_ne k noted (hdigest ▸ List.mem_cons_self)
    · have hval := val_hash_others l hl
      rw [hzero, ZMod.val_zero] at hval
      exact absurd hval (by decide)

/-! The ledger: the block of the nodes that mints the note. -/

/-- The entry of the ledger. -/
def entry : Node.Block := Node.MintCluster.block

/-- The root of the empty tree. -/
def emptyRoot : Element := BitVec.ofNat 256 (2 ^ 160 - 1)

/-- The root of the tree with the note. -/
def root : Element := BitVec.ofNat 256 (2 ^ 160 + 9)

/-- The root of the tree without leaves. -/
lemma referenceRoot_nil : referenceRoot primitives [] = emptyRoot :=
  Node.SmallCluster.node_empty le_rfl

/-- The root of the tree with the note. -/
lemma referenceRoot_note : referenceRoot primitives [10] = root :=
  Node.MintCluster.node_note le_rfl

/-- The only leaf of the ledger is the note. -/
lemma ledgerLeaves_entry : ledgerLeaves [entry] = [10] := by
  rw [ledgerLeaves, List.flatMap_singleton]
  exact Node.MintCluster.leavesNonNull_block

/-- The block, as a prover submits it; three validators have signed. -/
def block : BlockProof where
  aggrProof := []
  aggrInstances _ := 0
  oldRoot := emptyRoot
  newRoot := root
  utxoHashes i := if i.val = 0 then ⟨0, 10, 5⟩ else ⟨0, 0, 0⟩
  otherHashFromBlockHash := entry.content.headerHash primitives
  height := 1
  signatures := [⟨0, 0, 27⟩, ⟨1, 0, 27⟩, ⟨2, 0, 27⟩]

/-- The pairs of both trees, and the messages of the block and of its endorsement. -/
def hashing : Hashing where
  pairs := Node.MintCluster.hashing.pairs
  messages := {m | m = entry.content.headerMessage ∨ m ∈ block.messages primitives}

/-- No two messages of the sample have one digest. -/
lemma injOn_keccak256 : Set.InjOn primitives.keccak256 hashing.messages := by
  have hpairwise : (entry.content.headerMessage :: block.messages primitives).Pairwise
      fun m m' => primitives.keccak256 m ≠ primitives.keccak256 m' := by
    decide +kernel
  have : Std.Symm fun m m' => primitives.keccak256 m ≠ primitives.keccak256 m' :=
    ⟨fun _ _ => Ne.symm⟩
  intro m hm m' hm' h
  by_contra hne
  exact hpairwise.forall (List.mem_cons.2 hm) (List.mem_cons.2 hm') hne h

/-- The messages of the entry are among those of the sample. -/
lemma messages_entry : entry.content.messages primitives ⊆ hashing.messages := by
  rintro m (rfl | rfl)
  · exact .inl rfl
  · refine .inr ?_
    rw [message_eq]
    exact List.mem_cons_self

/-- The entry extends the empty ledger. -/
lemma extends_entry : Node.Extends primitives hashing [] entry := by
  have hleaves : entry.content.state.leavesNonNull = [10] := Node.MintCluster.leavesNonNull_block
  have hledger : ledgerLeaves ([] ++ [entry]) = [10] := ledgerLeaves_entry
  refine ⟨rfl, ⟨Node.MintCluster.covers_block.fits, messages_entry⟩, ?_, ?_, ?_, ?_, ?_⟩
  · rw [hleaves]
    exact List.nodup_singleton _
  · exact fun _ _ h => absurd h List.not_mem_nil
  · rw [hledger]
    intro e he e' he' _
    rw [List.mem_singleton.1 he, List.mem_singleton.1 he']
  · rw [hledger, referenceRoot_note]
    rfl
  · rw [hledger]
    exact Set.subset_union_right

/-- The entry alone is a ledger. -/
lemma ledger : Ledger primitives hashing [entry] :=
  (Ledger.nil Set.subset_union_left).concat extends_entry

/-- Circuits and nodes hash alike. -/
lemma sharesHash : SharesHash primitives hashing env where
  hash := rfl
  pairs q hq := .inl ⟨q, hq, rfl⟩

/-! The circuits: the mint, and five padding transactions. -/

/-- The tree with the note, as the circuits read it. -/
lemma ledgerTree_entry : ledgerTree [entry] =
    Function.update (fun _ => 0) (slotOf MERKLE_TREE_DEPTH 10) 10 := by
  funext s
  have hcanon : Element.fromBase 10 = 10 := by decide
  rw [ledgerTree, ledgerLeaves_entry, Smirk.occupant, List.find?_cons, List.find?_nil, slotOf,
    hcanon]
  by_cases hs : s = (10 : Element).slot (MERKLE_TREE_DEPTH - 1)
  · subst hs
    rw [Function.update_self, beq_self_eq_true]
    decide
  · rw [Function.update_of_ne hs, beq_false_of_ne fun heq => hs heq.symm]
    exact Element.toBase_zero

/-- The empty tree is hashed. -/
lemma treeHashed_empty : TreeHashed env MERKLE_TREE_DEPTH fun _ => 0 := by
  rw [← ledgerTree_nil]
  exact sharesHash.treeHashed_ledgerTree Set.subset_union_left

/-- The tree with the note is hashed. -/
lemma treeHashed_note : TreeHashed env MERKLE_TREE_DEPTH
    (Function.update (fun _ => 0) (slotOf MERKLE_TREE_DEPTH 10) 10) := by
  rw [← ledgerTree_entry]
  refine sharesHash.treeHashed_ledgerTree ?_
  rw [ledgerLeaves_entry]
  exact Set.subset_union_right

/-- The circuits' root of the empty tree. -/
lemma treeRoot_empty : treeRoot env MERKLE_TREE_DEPTH (fun _ => 0) = emptyRoot.toBase := by
  rw [← ledgerTree_nil, sharesHash.treeRoot_ledgerTree, ledgerLeaves, List.flatMap_nil,
    referenceRoot_nil]

/-- The circuits' root of the tree with the note. -/
lemma treeRoot_note : treeRoot env MERKLE_TREE_DEPTH
    (Function.update (fun _ => 0) (slotOf MERKLE_TREE_DEPTH 10) 10) = root.toBase := by
  rw [← ledgerTree_entry, sharesHash.treeRoot_ledgerTree, ledgerLeaves_entry, referenceRoot_note]

/-- The path of slot 0 of the empty tree. -/
def path : List (Fr × Bool) :=
  SparseMerkle.path (hash2 env) (fun _ => 0) 0 0 (MERKLE_TREE_DEPTH - 1)

/-- A padding input. -/
def input : InputWitness := ⟨padding, 4, path⟩

/-- The padding input is valid at full depth. -/
lemma valid_input : input.Valid env MERKLE_TREE_DEPTH where
  message_mem := others_hashed (show padding.message ∈ others by decide)
  length_path := SparseMerkle.length_path _ _ _ _ _
  path_hashed := by
    intro q hq
    have hpairs := SparseMerkle.mem_nodePairs_of_mem_pathPairs (hash2 env) (fun _ => 0)
      (MERKLE_TREE_DEPTH - 1) 0 0 (by positivity) q hq
    rw [Nat.zero_add] at hpairs
    exact treeHashed_empty hpairs
  address_mem := others_hashed (show [4, 0] ∈ others by decide)
  address_eq := by decide
  nullifier_mem := others_hashed (show [0, 4, 14, 0] ∈ others by decide)

/-- A transaction of the block, with padding inputs. -/
def txn (w : UtxoWitness) (instances : List Fr) : TxnAssignment MERKLE_TREE_DEPTH where
  utxo := Utxo.mintOf (fun _ => 1) (by decide) (⟨0, 0, 0, 0⟩, ⟨0, 0, 0, 0⟩)
  instances := instances
  cells := w.cells { env with instances := instances }

/-- A transaction with valid inputs is satisfied when its column is its own. -/
lemma satisfied_txn {w : UtxoWitness} {instances : List Fr}
    (hw : w.Valid { env with instances := instances } MERKLE_TREE_DEPTH)
    (hx : w.Exposes { env with instances := instances }) : (txn w instances).Satisfied env :=
  (Utxo.synthesize_iff _ _ _).2 ⟨w, hw, hx, rfl, fun hhonest => by cases hhonest⟩

/-- The public inputs of the mint. -/
def mintColumn : List Fr := [0, 10, 5, 0, 0, 10, 0]

/-- The public inputs of padding. -/
def paddingColumn : List Fr := [0, 0, 0, 0, 0, 0, 0]

/-- The mint and the padding have witnesses. -/
lemma utxoColumns {utxo : List Fr} (h : utxo = mintColumn ∨ utxo = paddingColumn) :
    UtxoColumns env MERKLE_TREE_DEPTH [utxo] := by
  have hnote := others_hashed (show note.message ∈ others by decide)
  have hpadding := others_hashed (show padding.message ∈ others by decide)
  rcases h with rfl | rfl
  · refine ⟨txn ⟨0, 2, input, input, note, padding⟩ mintColumn, rfl, satisfied_txn
      ⟨valid_input.with_instances _, valid_input.with_instances _, hnote, hpadding, ?_, ?_, ?_⟩
      ⟨?_, ?_, ?_, ?_, ?_, ?_, ?_, ?_⟩⟩
    all_goals decide
  · refine ⟨txn ⟨0, 1, input, input, padding, padding⟩ paddingColumn, rfl, satisfied_txn
      ⟨valid_input.with_instances _, valid_input.with_instances _, hpadding, hpadding, ?_, ?_, ?_⟩
      ⟨?_, ?_, ?_, ?_, ?_, ?_, ?_, ?_⟩⟩
    all_goals decide

/-- The insert of the prover's own code, which the assignment does not follow. -/
def insert : Insert MERKLE_TREE_DEPTH :=
  ⟨0, ⟨List.replicate (MERKLE_TREE_DEPTH - 1) 0, List.length_replicate, by decide⟩⟩

/-- A padding round keeps the root. -/
lemma round_zero (root : Fr) (instances : List Fr) :
    Batch.enforceInsert 0 root insert { env with instances := instances }
      { newLeaf := 0, oldRoot := root, newRoot := root,
        isPadding := bit (decide ((0 : Fr) = 0)) } := by
  have htree : Function.update (fun _ => 0) (slotOf MERKLE_TREE_DEPTH 0) 0 =
      fun _ => (0 : Fr) := by
    funext s
    rw [Function.update_apply, ite_self]
  obtain ⟨hw, -, -⟩ := @InsertWitness.valid_ofTree env _ _ 0 treeHashed_empty
    (htree.symm ▸ treeHashed_empty) rfl
  have hzero : (InsertWitness.ofTree env MERKLE_TREE_DEPTH (fun _ => 0) 0).leaf = 0 := rfl
  refine (Batch.enforceInsert_iff _ _ _ _).2
    ⟨InsertWitness.ofTree env MERKLE_TREE_DEPTH (fun _ => 0) 0,
      ⟨hw.length_siblings, hw.null_hashed, hw.leaf_hashed⟩, fun h => absurd rfl h, ?_,
      fun hhonest => by cases hhonest⟩
  rw [if_pos hzero]
  rfl

/-- The round of the note leads from the root of the empty tree to that of the tree with it. -/
lemma round_note (instances : List Fr) :
    Batch.enforceInsert 0 emptyRoot.toBase insert { env with instances := instances }
      { newLeaf := 10, oldRoot := emptyRoot.toBase, newRoot := root.toBase,
        isPadding := bit (decide ((10 : Fr) = 0)) } := by
  have hinsert : insertLeaf MERKLE_TREE_DEPTH (fun _ => 0) 10 =
      Function.update (fun _ => 0) (slotOf MERKLE_TREE_DEPTH 10) 10 :=
    if_neg (by decide : (10 : Fr) ≠ 0)
  have hround := @Batch.enforceInsert_ofTree { env with instances := instances } _ rfl _ 10
    treeHashed_empty (hinsert ▸ treeHashed_note) rfl insert
  rw [hinsert] at hround
  exact treeRoot_empty ▸ treeRoot_note ▸ hround

/-- The mint of the first group. -/
lemma enforceInserts_mint (instances : List Fr) :
    ∃ cells, Batch.enforceInserts 0 emptyRoot.toBase (List.replicate 12 insert)
        { env with instances := instances } cells ∧
      cells.map InsertConstraintCells.newLeaf = [0, 0, 10] ++ List.replicate 9 0 ∧
      (cells.map InsertConstraintCells.newRoot).getLastD emptyRoot.toBase = root.toBase := by
  obtain ⟨cells, hcells, hleafs, hroots⟩ :=
    enforceInserts_padding round_zero root.toBase instances 9
  refine ⟨_ :: _ :: _ :: cells, ⟨_, round_zero _ _, _, ⟨_, round_zero _ _, _,
    ⟨_, round_note _, cells, hcells, rfl⟩, rfl⟩, rfl⟩, ?_, ?_⟩
  · simp only [List.map_cons, hleafs]
    rfl
  · simp only [List.map_cons, List.getLastD_cons, hroots]

/-- The proofs of the first group. -/
def first : List (List Fr) := [mintColumn, paddingColumn, paddingColumn]

/-- The proofs of the second group. -/
def second : List (List Fr) := [paddingColumn, paddingColumn, paddingColumn]

/-- The columns of the two groups. -/
def groups : List (List Fr) :=
  [column emptyRoot.toBase root.toBase (utxoValues first),
    column root.toBase root.toBase (utxoValues second)]

/-- Every group of the block has a witness. -/
lemma groupColumns {column : List Fr} (h : column ∈ groups) :
    GroupColumns env MERKLE_TREE_DEPTH [column] := by
  have hmint := utxoColumns (.inl rfl)
  have hpadding := utxoColumns (.inr rfl)
  simp only [groups, List.mem_cons, List.not_mem_nil, or_false] at h
  rcases h with rfl | rfl
  · refine ⟨group insert first rfl, _, _, rfl, ?_, satisfied_group rfl rfl ?_ ?_
      (enforceInserts_mint _)⟩
    · simp [group, first, Snark.numInstance, mintColumn, paddingColumn]
    · simp [first, mintColumn, paddingColumn]
    · simp [first, hmint, hpadding]
  · refine ⟨group insert second rfl, _, _, rfl, ?_, satisfied_group rfl rfl ?_ ?_
      (enforceInserts_padding round_zero root.toBase _ 12)⟩
    · simp [group, second, Snark.numInstance, paddingColumn]
    · simp [second, paddingColumn]
    · simp [second, hpadding]

/-- The rows of the six transactions. -/
def rows : List Fr := [0, 10, 5] ++ List.replicate 15 0

/-- The groups are aggregated with their roots linked. -/
lemma aggregationColumns : AggregationColumns env 2 23 (GroupColumns env MERKLE_TREE_DEPTH)
    [column emptyRoot.toBase root.toBase rows] := by
  refine ⟨agg groups rfl, _, _, rfl, ?_,
    satisfied_agg rfl (List.cons_ne_nil _ _) ?_ (fun _ => groupColumns) rfl ⟨rfl, rfl, rfl⟩ rfl⟩
  · simp [agg, Snark.numInstance, groups, column, utxoValues, first, second, mintColumn,
      paddingColumn]
  · simp [groups, column]

/-- The proofs of the block have witnesses. -/
lemma aggregates_block : block.Aggregates env MERKLE_TREE_DEPTH := by
  have hinputs : block.publicInputs = column emptyRoot.toBase root.toBase rows := by rfl
  rw [BlockProof.Aggregates, hinputs]
  refine ⟨agg [column emptyRoot.toBase root.toBase rows] rfl, _, _, rfl, ?_,
    satisfied_agg rfl (List.cons_ne_nil _ _) ?_ ?_ rfl ⟨rfl, rfl⟩ rfl⟩
  · simp [agg, Snark.numInstance, column, rows]
  · simp [column]
  · exact List.forall_mem_singleton.2 aggregationColumns

/-! The contract: the mint is registered, and the block is verified. -/

/-- Verifiers that accept the registration of the note only. -/
def verifiers : Verifiers where
  mint _ instances := instances == [10, 5, 0]
  burn _ _ := false
  burnTo _ _ := false

/-- The verifiers of the sample accept only what has a witness. -/
lemma sound_verifiers : verifiers.Sound env.hash env.hashed where
  mint proof instances h := by
    obtain rfl : instances = [10, 5, 0] := by simpa [verifiers] using h
    refine ⟨⟨[⟨0, 0, 0, 0⟩]⟩, rfl, (Circuits.Mint.synthesize_iff _ _ _).2 ?_⟩
    simp only [List.zipIdx_singleton, List.mem_singleton, forall_eq]
    refine ⟨note, ?_, (fun hhonest => by cases hhonest), ?_, ?_, ?_⟩
    · exact others_hashed (show note.message ∈ others by decide)
    all_goals decide
  burn _ _ h := by cases h
  burnTo _ _ h := by cases h

/-- A verifier that accepts the proof of the block. -/
def plonkVerifier (_ : Bytes) (instances : List Element) : Bool :=
  instances.map Element.toBase = column emptyRoot.toBase root.toBase rows

/-- The message that the validators signed. -/
def signed : Element := primitives.keccak256 (sigMessage
  (primitives.keccak256 (acceptMessage 1 (entry.hash primitives))))

/-- Their signatures are recovered, and no other ones. -/
def recover (msg : Element) (_ : BitVec 8) (r _ : Element) : Option Address :=
  if msg = signed ∧ r.toNat < 3 then some (3 + BitVec.ofNat 160 r.toNat) else none

/-- Two of the three validators sign what they like. -/
def honest (signer : Address) : Bool := signer == 3

/-- Only the validator signs, and it signs for the entry only. -/
lemma unforgeable : Unforgeable primitives hashing [entry] honest recover := by
  intro msg v r s signer h _
  have hmsg : msg = signed := by
    by_contra hne
    rw [recover, if_neg fun hand => hne hand.1] at h
    cases h
  have hendorsed : (ApprovalContent.newEndorsement (entry.hash primitives)
      (Node.BlockHeight.next entry.height)).message =
        some (acceptMessage 1 (entry.hash primitives)) := endorsement_message _ _
  have hroot : block.newRoot = entry.content.state.rootHash := rfl
  have hheight : block.height = entry.content.header.height := rfl
  have hother : block.otherHashFromBlockHash = entry.content.headerHash primitives := rfl
  have hmessages := BlockProof.messages_eq primitives block entry hroot hheight hother
  have hfirst : block.height = 1 := rfl
  rw [← hheight, hfirst] at hmessages
  rw [hmsg, signed, ← signedMessage_eq]
  refine .endorsement List.mem_cons_self hendorsed (.inr ?_) (.inr ?_)
  · rw [hmessages]
    simp
  · rw [hmessages]
    simp

/-- The contract after its deployment. -/
def start : Vault Bank.Sample.Ledger where
  storage := (initializeRollup 1 [3, 4, 5] emptyRoot .empty).2
  token := Bank.Sample.start.token
  events := []

/-- The contract after the registration of the mint. -/
def registered : Vault Bank.Sample.Ledger :=
  (Program.atomically (onWorld (Bank.call Bank.Sample.token 1 verifiers (Bank.Sample.env 2)
    (.mint [] 10 5 0))) start).2

/-- The prover's call. -/
def ext : BlockExternal where
  msgSender := 1
  txns _ := ⟨0, true, true, true, true, fun _ => false, fun _ => false, true, fun _ _ _ => 0, false,
    .initial⟩
  keccak256 := primitives.keccak256
  recover := recover
  aggregateVerifies := AggregateVerifier.verify plonkVerifier

/-- The contract after the block. -/
def settled : Vault Bank.Sample.Ledger :=
  (verifyBlock2 Bank.Sample.token 1 ext (fun _ => Bank.Sample.env 1) block registered).2

/-- The block is verified once its mint is registered. -/
lemma isOk_verifyBlock2_registered : (verifyBlock2 Bank.Sample.token 1 ext
    (fun _ => Bank.Sample.env 1) block registered).1.isOk = true := by
  decide +kernel

/-- The contract accepts the block. -/
lemma verifyBlock2_registered : verifyBlock2 Bank.Sample.token 1 ext
    (fun _ => Bank.Sample.env 1) block registered = (.ok (), settled) := by
  have hok := isOk_verifyBlock2_registered
  rw [settled]
  generalize verifyBlock2 Bank.Sample.token 1 ext (fun _ => Bank.Sample.env 1) block registered =
    result at hok
  obtain ⟨_ | _ | _, after⟩ := result
  · rfl
  · cases hok
  · cases hok

/-- The note is minted, and the five tokens that were paid for it are the contract's. -/
lemma settled_eq : settled.storage.blockHeight = 1 ∧ Bank.pendingMints settled.events = 0 ∧
    Bank.Sample.token.balanceOf settled.token 1 = 5 := by
  decide +kernel

/-- The run of the sample settles the block. -/
lemma settles : Settles primitives hashing recover Bank.Sample.token 1 verifiers plonkVerifier
    start [block] settled := by
  have hsigner : ∀ msgSender, (Bank.Sample.env msgSender).signer ≠ 1 := fun _ =>
    (by decide : (0 : Address) ≠ 1)
  have hrouter : ∀ msgSender, (Bank.Sample.env msgSender).RoutersOpen Bank.Sample.token 1
      verifiers := fun _ _ _ w => .refl true w
  have hregistered : Reaches Bank.Sample.token 1 verifiers plonkVerifier start [] registered :=
    (Reaches.refl start).call (Bank.Sample.env 2) (.mint [] 10 5 0) trivial (hsigner 2) (hrouter 2)
  exact ((Settles.refl start).other hregistered).block ext rfl rfl rfl (fun _ => Bank.Sample.env 1)
    (fun _ => hsigner 1) (fun _ => hrouter 1) block (fun m hm => .inr hm)
    verifyBlock2_registered

/-- A quorum of the three validators has the honest one among its members. -/
lemma trusted : ∀ set ∈ settled.storage.validatorSets, set.Trusted honest := by
  have hsets : settled.storage.validatorSets.map ValidatorSet.validatorsArray = [[3, 4, 5]] := by
    decide +kernel
  intro set hset
  have hmem : set.validatorsArray ∈ [[3, 4, 5]] := hsets ▸ List.mem_map_of_mem hset
  rw [ValidatorSet.Trusted, List.mem_singleton.1 hmem]
  decide

end MintBlockRun

end Vault

end TempoRollup.Contract
