import TempoRollup.Circuits.Spend
import TempoRollup.Node.Cluster

set_option relaxedAutoImplicit false
set_option autoImplicit false
set_option maxRecDepth 20000

/-!
# Spending the notes of a cluster

The holder of a note asks a node for the path of its commitment, with `get_merkle_paths` of
`node/src/node.rs`, makes a transaction with it, and submits the transaction to any node. The root
of the path stays recent for the next blocks, so that other nodes, and later ones, take it too.

## Main definitions

* `getMerklePaths`.
* `UtxoProof.fromSnarkWitness`, `proveTransaction` — from a circuit to a transaction.
* `Spends` — a transfer or a burn with paths that a node gave.
* `BurnRegistered` — the contract has a burn at the safe height.

## Main results

* `NodeShared.At.getMerklePaths` — a node has the path of each of its elements.
* `Spends.satisfied` — the holder's own witness satisfies the circuit.
* `Cluster.notes_spendable` — in every run, other nodes accept the transaction later on.

## Design

Proof creation is third-party code; of it is asked that the proofs of satisfied circuits verify.
-/

open Exec

namespace TempoRollup.Node

open Circuits (Utxo InputNote MerklePath)

/-! ## From a note to a transaction -/

/-- The notes tree is within the depth of a path. -/
lemma depth_le : MERKLE_TREE_DEPTH ≤ 257 := by decide

section Spending

variable (P : Primitives)

/-- `get_merkle_paths`. -/
def getMerklePaths (elements : List Element) (self : NodeShared) :
    Outcome ElementError (List (List Element)) :=
  elements.mapM fun e =>
    if !self.notesTree.tree.containsElement e then .err (.elementNotInTree e)
    else do
      let path ← (self.notesTree.tree.pathFor P.poseidon e).unwrap
      pure path.siblingsDeepestFirst

/-- `UTXOProof::from_snark_witness`: an index out of bounds panics. -/
def UtxoProof.fromSnarkWitness {ε : Type} (instances : List Element) (proof : Bytes) :
    Outcome ε UtxoProof :=
  match instances with
  | recentRoot :: mbHash :: mbValue :: input1 :: input2 :: output1 :: output2 :: _ =>
    .ok ⟨recentRoot, mbHash, mbValue, (input1, input2), (output1, output2), proof⟩
  | _ => .panic

/-- Proof creation, of a circuit with its witness and an instance column. -/
abbrev Create : Type := Utxo MERKLE_TREE_DEPTH × List Fr → Bytes

/-- `Utxo::snark`, `Snark::to_witness` and `UTXOProof::from_snark_witness`. -/
def proveTransaction (create : Create) (u : Utxo MERKLE_TREE_DEPTH) : Outcome Error UtxoProof :=
  let snark := u.snark P.poseidon
  UtxoProof.fromSnarkWitness (snark.2.map Element.fromBase) (create snark)

/-- The proofs of satisfied circuits verify. -/
def Create.Complete (create : Create) : Prop :=
  ∀ (u : Utxo MERKLE_TREE_DEPTH) (instances : List Fr), u.Satisfied P.poseidon instances →
    P.verifyProof (create (u, instances)) instances = some true

/-- A note of a holder, with the path that a node gave. -/
structure NodeShared.Gives (node : NodeShared) (n : InputNote MERKLE_TREE_DEPTH) : Prop
    extends n.WellFormed P.poseidon where
  path : getMerklePaths P [n.note.commitment P.poseidon] node = .ok [n.merklePath.siblings]

/-- **What a holder spends** with the paths of a node: one or two notes in a transfer, or one note
in a burn. -/
inductive Spends (node : NodeShared) : Utxo MERKLE_TREE_DEPTH → Prop
  | transfer {inputs : InputNote MERKLE_TREE_DEPTH × InputNote MERKLE_TREE_DEPTH}
    {outputs : Circuits.Note × Circuits.Note} (hin1 : node.Gives P inputs.1)
    (hin2 : node.Gives P inputs.2 ∨
      inputs.2 = InputNote.paddingNote P.poseidon depth_le)
    (h1 : outputs.1.value.toNat < 2 ^ 240) (h2 : outputs.2.value.toNat < 2 ^ 240)
    (hbalance : inputs.1.note.value.toNat + inputs.2.note.value.toNat =
      outputs.1.value.toNat + outputs.2.value.toNat) :
    Spends node (.newTransfer inputs outputs (inputs.1.recentRoot P.poseidon))
  | burn {inputNote : InputNote MERKLE_TREE_DEPTH} (hin : node.Gives P inputNote) :
    Spends node (.newBurn P.poseidon depth_le inputNote
      (inputNote.recentRoot P.poseidon))

end Spending

/-- The contract has the burn at the safe height. -/
def BurnRegistered (eth : EthView) (safeEthHeightOffset : ℕ) (key : Element) : Prop :=
  ∃ ethBlock rollup, eth.blockNumber = some ethBlock ∧
    eth.rollupAt (ethBlock - safeEthHeightOffset) = some rollup ∧ rollup.hasBurn key = true

section Runs

variable {P : Primitives} {hashing : Hashing} {log pre pre' : List Block}
  {node node' : NodeShared} {create : Create} {u : Utxo MERKLE_TREE_DEPTH} {txn : UtxoProof}

/-! ## The path of a note -/

/-- **A node has the path of each of its canonical elements**, and it leads to the root. -/
theorem NodeShared.At.getMerklePaths (h : node.At P pre) {e : Element}
    (he : e ∈ node.notesTree.tree.entries.keys) (hcanon : e.isCanonical = true) :
    ∃ path : MerklePath MERKLE_TREE_DEPTH,
      Node.getMerklePaths P [e] node = .ok [path.siblings] ∧
      path.computeRoot P.poseidon e = node.notesTree.tree.rootHash P.poseidon := by
  obtain ⟨treePath, path, hpath, hsiblings, hroot⟩ :=
    MerklePath.exists_of_mem MERKLE_TREE_DEPTH_pos depth_le h.holds.inv.tree he hcanon
  refine ⟨path, ?_, hroot⟩
  have hcontains := containsElement_iff.2 he
  unfold Node.getMerklePaths
  rw [List.mapM_cons, hcontains, hpath, hsiblings]
  rfl

/-- What a node gave a path for is in its tree, and the path leads to its root. -/
lemma NodeShared.Gives.spendable {n : InputNote MERKLE_TREE_DEPTH} (hn : node.Gives P n)
    (h : node.At P pre) :
    n.Spendable P.poseidon (node.notesTree.tree.rootHash P.poseidon) ∧
      n.note.commitment P.poseidon ∈ node.notesTree.tree.entries.keys := by
  have hpath := hn.path
  by_cases hcontains :
      node.notesTree.tree.containsElement (n.note.commitment P.poseidon) = true
  · have hmem := containsElement_iff.1 hcontains
    have hcanon := Circuits.Note.isCanonical_commitment P.poseidon n.note
    obtain ⟨path, hgiven, hroot⟩ := h.getMerklePaths hmem hcanon
    rw [hgiven] at hpath
    have hsiblings := List.singleton_inj.1 (Outcome.ok.inj hpath)
    refine ⟨⟨hn.toWellFormed, ?_, ?_⟩, hmem⟩
    · exact ne_null_of_mem_ledgerLeaves ((h.holds.mem_keys _).1 hmem)
    · rw [← hroot]
      unfold InputNote.recentRoot MerklePath.computeRoot MerklePath.computeRootFromLeaf
        MerklePath.entries
      rw [hsiblings]
  · unfold Node.getMerklePaths at hpath
    rw [Bool.not_eq_true] at hcontains
    rw [List.mapM_cons, hcontains] at hpath
    cases hpath

/-! ## The transaction of a holder -/

/-- What a spend is to the circuit: well formed, of notes that can be spent against the root of the
node. -/
structure SpendsAgainst (P : Primitives) (root : Element) (u : Utxo MERKLE_TREE_DEPTH) : Prop where
  wellFormed : u.WellFormed P.poseidon
  root_eq : u.root = root
  canonical : root.isCanonical = true
  in1 : u.inputs.1.Spendable P.poseidon root
  in2 : u.inputs.2.Takes P.poseidon depth_le root
  kind : u.kind = .transfer ∨
    u = .newBurn P.poseidon depth_le u.inputs.1 root

/-- What is spent with a node's paths is spent against that node's root. -/
lemma Spends.against (h : node.At P pre) (hspends : Spends P node u) :
    SpendsAgainst P (node.notesTree.tree.rootHash P.poseidon) u := by
  have hcanon : ∀ n : InputNote MERKLE_TREE_DEPTH,
      (n.recentRoot P.poseidon).isCanonical = true := fun n => Element.isCanonical_fromBase _
  cases hspends with
  | @transfer inputs outputs hin1 hin2 h1 h2 hbalance =>
    have hspend1 := (hin1.spendable h).1
    have htakes2 : inputs.2.Takes P.poseidon depth_le
        (node.notesTree.tree.rootHash P.poseidon) := hin2.imp (fun hin2 => (hin2.spendable h).1) id
    have hroot := hspend1.recentRoot_eq
    have hcanonRoot := hcanon inputs.1
    rw [hroot] at hcanonRoot ⊢
    exact ⟨Utxo.wellFormed_newTransfer (.inl hspend1) htakes2 h1 h2 hbalance, rfl, hcanonRoot,
      hspend1, htakes2, .inl rfl⟩
  | @burn inputNote hin =>
    have hspend := (hin.spendable h).1
    have hroot := hspend.recentRoot_eq
    have hcanonRoot := hcanon inputNote
    rw [hroot] at hcanonRoot ⊢
    exact ⟨Utxo.wellFormed_newBurn hspend, rfl, hcanonRoot, hspend, .inr rfl, .inr rfl⟩

namespace SpendsAgainst

variable {root : Element}

/-- **The witness of a holder** satisfies the circuit with its own public inputs. -/
theorem satisfied (h : SpendsAgainst P root u) :
    u.Satisfied P.poseidon (u.publicInputs P.poseidon) := by
  obtain ⟨hwf, rfl, -, hin1, hin2, hkind⟩ := h
  refine Utxo.satisfied_publicInputs hwf hin1 hin2 (fun hmint => ?_) (fun hburn => ?_)
  · rcases hkind with htransfer | hburn
    · rw [htransfer] at hmint
      cases hmint
    · rw [hburn] at hmint
      cases hmint
  · rcases hkind with htransfer | heq
    · rw [htransfer] at hburn
      cases hburn
    · rw [heq]
      rfl

/-- **The transaction that a holder proves**: it has the public inputs of the circuit. -/
lemma proveTransaction_eq (h : SpendsAgainst P root u) (create : Create) :
    ∃ txn, proveTransaction P create u = .ok txn ∧
      txn.proof = create (u, u.publicInputs P.poseidon) ∧
      txn.instances.map Element.toBase = u.publicInputs P.poseidon ∧
      txn.leaves = (u.leafs P.poseidon).map Element.fromBase ∧ txn.recentRoot = root ∧
      (u.kind = .transfer → txn.mbHash = 0) ∧
      (u.kind = .burn → txn.burnLeaves ∧ txn.mbHash = txn.inputLeaves.1 ∧
        txn.inputLeaves.1 = u.inputs.1.nullifer P.poseidon) := by
  refine ⟨_, rfl, rfl, ?_, rfl, ?_, fun htransfer => ?_, fun hburn => ?_⟩
  · simp [UtxoProof.instances, UtxoProof.leaves, Utxo.publicInputs]
  · rw [← h.root_eq]
    exact Element.fromBase_toBase (h.root_eq ▸ h.canonical)
  · simp [htransfer]
  · have hnullifer : (u.inputs.1.nullifer P.poseidon).isCanonical = true := by
      unfold InputNote.nullifer Circuits.Note.nullifier
      split_ifs
      · exact Circuits.Note.isCanonical_commitment _ _
      · exact isCanonical_hashMerge _ _
    have hfirst : Element.fromBase (u.inputs.1.nullifer P.poseidon).toBase =
      u.inputs.1.nullifer P.poseidon := Element.fromBase_toBase hnullifer
    have heq := h.kind.resolve_left (by rw [hburn]; decide)
    refine ⟨⟨?_, ?_⟩, ?_, hfirst⟩
    · rw [heq]
      exact Element.fromBase_zero
    · rw [heq]
      exact Prod.ext Element.fromBase_zero Element.fromBase_zero
    · simp [hburn]

end SpendsAgainst

/-! ## Recent roots -/

/-- The root of a stored block in the window is recent. -/
lemma mem_recentRoots_of_get {store : BlockStore} {height stored : BlockHeight} {block : Block}
    (hget : store.get stored = some block) (hlow : height.next - RECENT_ROOT_COUNT ≤ stored)
    (hnext : stored < height.next) : block.rootHash ∈ recentRoots height store := by
  refine List.mem_map.2 ⟨block, List.mem_map.2 ⟨(stored, block), ?_, rfl⟩, rfl⟩
  rw [List.mem_filter, Std.TreeMap.mem_toList_iff_getElem?_eq_some, decide_eq_true_eq]
  exact ⟨hget, hlow, hnext⟩

/-- **The root of a node stays recent** for the nodes with up to 63 blocks more. -/
lemma NodeShared.At.root_mem_recentRoots (h : node.At P pre) (hlog : Ledger P hashing log)
    (hpre : pre <+: log) (hne : pre ≠ []) (h' : node'.At P pre') (hpre' : pre' <+: log)
    (hle : node.height ≤ node'.height) (hwindow : node'.height < node.height + RECENT_ROOT_COUNT)
    (hu64 : node'.height + 1 < U64) :
    node.notesTree.tree.rootHash P.poseidon ∈ recentRoots node'.height node'.blockStore := by
  have hsub : pre <+: pre' := List.prefix_of_prefix_length_le hpre hpre' (by
    rw [← h.height, ← h'.height]
    exact hle)
  obtain ⟨before, block, rfl⟩ := (List.eq_nil_or_concat pre).resolve_left hne
  rw [List.concat_eq_append] at *
  have hblock := (hlog.of_start hpre).last
  obtain ⟨block', hget, hsame⟩ := h'.stores.get (hlog.of_start hpre')
    (hsub.subset (List.mem_append_right _ List.mem_cons_self))
  have hheight : block.height = node.height := by
    rw [hblock.height, h.height, List.length_append, List.length_singleton]
  have hnext : BlockHeight.next node'.height = node'.height + 1 := Nat.mod_eq_of_lt hu64
  have hroot : node.notesTree.tree.rootHash P.poseidon = block'.rootHash := by
    rw [h.holds.rootHash_eq, hsame.root, hblock.root]
  have hlow : ∀ low high window : ℕ, high < low + window → high + 1 - window ≤ low := by omega
  rw [hroot]
  refine mem_recentRoots_of_get hget ?_ ?_
  · rw [hnext, hheight]
    exact hlow _ _ _ hwindow
  · rw [hnext, hheight]
    exact Nat.lt_succ_of_le hle

/-! ## What other nodes accept -/

/-- **A spend is accepted** by a node that finds its root recent and does not have its leaves. -/
lemma SpendsAgainst.accepted {root : Element} (h : SpendsAgainst P root u)
    (hcreate : create.Complete P) (htxn : proveTransaction P create u = .ok txn)
    (hroot : root ∈ recentRoots node'.height node'.blockStore)
    (hnew : ∀ leaf ∈ u.leafs P.poseidon,
      Element.fromBase leaf ∉ node'.notesTree.tree.entries.keys) {eth : EthView}
    (hburn : u.kind = .burn → BurnRegistered eth node'.config.safeEthHeightOffset
      (u.inputs.1.nullifer P.poseidon)) :
    node'.validateTransaction P true eth txn = .ok () := by
  obtain ⟨txn', htxn', hproof, hinstances, hleaves, hrecent, htransfer, hofBurn⟩ :=
    h.proveTransaction_eq create
  obtain rfl := Outcome.ok.inj (htxn.symm.trans htxn')
  refine validateTransaction_eq_ok_iff.2 ⟨fun hhash _ => ?_, ⟨?_, ?_, ?_⟩, ?_⟩
  · -- only a burn has a hash
    have hkind : u.kind = .burn := by
      rcases h.kind with hkind | heq
      · exact absurd (htransfer hkind) hhash
      · rw [heq]
        rfl
    obtain ⟨ethBlock, rollup, hnumber, hat, hhas⟩ := hburn hkind
    obtain ⟨hburns, hmb, hnull⟩ := hofBurn hkind
    have hmint : ¬ txn.mintLeaves := fun hmint => hhash (by rw [hmb, hmint.1])
    unfold checkContract
    rw [hnumber]
    simp only [if_neg hmint, if_pos hburns, hat, hnull, hhas, if_true]
  · rw [hproof, hinstances]
    exact hcreate u _ h.satisfied
  · rw [hleaves, List.forall_mem_map]
    intro leaf _
    exact (Element.isCanonical_iff _).1 (Element.isCanonical_fromBase leaf)
  · rw [hleaves, List.forall_mem_map]
    intro leaf hleaf _
    rw [← Bool.not_eq_true, containsElement_iff]
    exact hnew leaf hleaf
  · unfold checkRecentRoot
    rw [hrecent, List.contains_iff_mem.2 hroot]
    simp

/-! ## Runs of a cluster -/

namespace Cluster

variable {ι : Type} [DecidableEq ι] {setups : Setups ι}

/-- A step adds to the ledger, or leaves it. -/
lemma log_step (self : Cluster ι) (op : ClusterStep ι) :
    self.log <+: (self.step P setups op).log := by
  cases op with
  | propose world =>
    cases hlife : self.validator with
    | down disk =>
      simp only [Cluster.step, hlife]
      exact List.prefix_rfl
    | up node =>
      simp only [Cluster.step, hlife]
      rcases proposeTick P world node with ⟨block | e | _, node'⟩
      · exact List.prefix_append _ _
      · exact List.prefix_rfl
      · exact List.prefix_rfl
  | proposeInterrupted world treeWritten =>
    cases hlife : self.validator with
    | down disk =>
      simp only [Cluster.step, hlife]
      exact List.prefix_rfl
    | up node =>
      simp only [Cluster.step, hlife]
      rcases proposeTick P world node with ⟨block | e | _, node'⟩
      · exact List.prefix_append _ _
      · exact List.prefix_rfl
      · exact List.prefix_rfl
  | _ => exact List.prefix_rfl

/-- The ledger only grows along a run. -/
lemma log_foldl (self : Cluster ι) (steps : List (ClusterStep ι)) :
    self.log <+: (steps.foldl (step P setups) self).log := by
  induction steps generalizing self with
  | nil => exact List.prefix_rfl
  | cons op steps ih => exact (self.log_step op).trans (ih _)

/-- **Notes can be spent.** In every run of a cluster, a running node has the path of each canonical
element of its tree. Whoever holds the keys of one or two notes of the tree makes a transfer or a
burn with these paths: the witness satisfies the circuit with the transaction's own public inputs,
and every node that runs then or later, with up to 63 blocks more, accepts the transaction, as long
as it does not have its leaves and, for a burn, the contract has the burn. It is asked that the
proofs of satisfied circuits verify.

**Proof sketch.** Both nodes stand at a place of one ledger (`Inv.running`), the later one further
on. The paths of the first lead to its root, so that the witness satisfies the circuit
(`Spends.against`); and this root is among the recent roots of the later one, if it is no more than
63 blocks further. -/
theorem notes_spendable (hcf : hashing.CollisionFree P) (hempty : treePairs P [] ⊆ hashing.pairs)
    (hgenesis : hashing.Covers P .genesis) (hvalidator : setups.validator.config.badBlocks = [])
    (hfollower : ∀ i, (setups.follower i).config.badBlocks = []) (hcreate : create.Complete P)
    (steps later : List (ClusterStep ι))
    (hallowed : Runs.Along (step P setups) (Allowed P hashing) initial (steps ++ later))
    (hrun : (steps.foldl (step P setups) initial).Running node)
    (hrun' : ((steps ++ later).foldl (step P setups) initial).Running node')
    (hle : node.height ≤ node'.height) (hwindow : node'.height < node.height + RECENT_ROOT_COUNT)
    (hu64 : node'.height + 1 < U64) :
    (∀ e ∈ node.notesTree.tree.entries.keys, e.isCanonical = true →
      ∃ path : MerklePath MERKLE_TREE_DEPTH, getMerklePaths P [e] node = .ok [path.siblings]) ∧
    ∀ u, Spends P node u → u.Satisfied P.poseidon (u.publicInputs P.poseidon) ∧
      ∃ txn, proveTransaction P create u = .ok txn ∧ ∀ eth,
        (∀ leaf ∈ u.leafs P.poseidon,
          Element.fromBase leaf ∉ node'.notesTree.tree.entries.keys) →
        (u.kind = .burn → BurnRegistered eth node'.config.safeEthHeightOffset
          (u.inputs.1.nullifer P.poseidon)) →
        node'.validateTransaction P true eth txn = .ok () := by
  have hinv : ∀ ops : List (ClusterStep ι),
      Runs.Along (step P setups) (Allowed P hashing) initial ops →
      (ops.foldl (step P setups) initial).Inv P hashing := fun ops hops =>
    Runs.forall_states (fun s op _ hinv hop => hinv.step hcf hgenesis hvalidator hfollower hop)
      (Inv.initial hempty) (fun _ _ => trivial) hops _ (Runs.foldl_mem_states _ _)
  have hnow := hinv steps ((Runs.along_append _ _ _).1 hallowed).1
  have hthen := hinv (steps ++ later) hallowed
  obtain ⟨pre, hpre, hnode⟩ := hnow.running hrun
  obtain ⟨pre', hpre', hnode'⟩ := hthen.running hrun'
  have hgrown : (steps.foldl (step P setups) initial).log <+:
      ((steps ++ later).foldl (step P setups) initial).log := by
    rw [List.foldl_append]
    exact log_foldl _ later
  refine ⟨fun e he hcanon => ?_, fun u hspends => ?_⟩
  · obtain ⟨path, hpath, -⟩ := hnode.getMerklePaths he hcanon
    exact ⟨path, hpath⟩
  · have hagainst := hspends.against hnode
    obtain ⟨txn, htxn, -⟩ := hagainst.proveTransaction_eq create
    refine ⟨hagainst.satisfied, txn, htxn, fun eth hnew hburn => ?_⟩
    have hne : pre ≠ [] := by
      rintro rfl
      obtain ⟨n, hn⟩ : ∃ n, node.Gives P n := by
        cases hspends with
        | transfer hin1 => exact ⟨_, hin1⟩
        | burn hin => exact ⟨_, hin⟩
      have hmem := (hnode.holds.mem_keys _).1 (hn.spendable hnode).2
      simp [ledgerLeaves] at hmem
    exact hagainst.accepted hcreate htxn (hnode.root_mem_recentRoots hthen.ledger
      (hpre.trans hgrown) hne hnode' hpre' hle hwindow hu64) hnew hburn

end Cluster

end Runs

/-! ### A note that is minted and spent -/

namespace MintCluster

/-- The primitives of the small cluster, with a verifier that accepts. -/
def primitives : Primitives := { SmallCluster.primitives with verifyProof := fun _ _ => some true }

/-- A note with commitment 10, of the key 1. -/
def note : Circuits.Note := ⟨2, 0, 5, 0⟩

/-- The mint of the note. -/
def mint : UtxoProof := mintProof Regrouped.sumHash (note, ⟨0, 0, 0, 0⟩)

/-- The contract with the mint. -/
def contract : Contract.Rollup :=
  { Contract.Rollup.initial with mints := fun key => if key = 10 then 5 else 0 }

/-- Storage that works, and the contract with the mint. -/
def world : World := .reliable fun _ => .constant contract

/-- The validator as it starts from genesis. -/
def started : NodeShared :=
  .new primitives (SmallCluster.setup .validator).config SmallCluster.leader
    [⟨0, [SmallCluster.leader]⟩] .empty .new .genesis

/-- The validator with the mint in its mempool. -/
def funded : NodeShared :=
  { started with mempool := started.mempool.add (mint.hash primitives) mint mint.leaves }

/-- The block of the mint. -/
def block : Block :=
  proposedBlock primitives (Block.genesis.hash primitives) 1
    [⟨.newEndorsement (Block.genesis.hash primitives) 1, .default, SmallCluster.leader⟩]
    (BitVec.ofNat 256 (2 ^ 160 + 9)) [mint]

/-- The validator after its tick. -/
def proposed : NodeShared := (proposeTick primitives world funded).2

/-- The tick proposes the block and commits it. -/
lemma tick_funded : (proposeTick primitives world funded).1 = .ok block ∧
    proposed.height = 1 ∧ proposed.notesTree.tree.entries.keys = [10] := by
  decide +kernel

/-- The tick of the validator returns the block. -/
lemma proposeTick_funded : proposeTick primitives world funded = (.ok block, proposed) :=
  calc proposeTick primitives world funded
    _ = ((proposeTick primitives world funded).1, proposed) := Prod.mk.eta.symm
    _ = (.ok block, proposed) := by rw [tick_funded.1]

/-- The block is the one that is chosen. -/
lemma tickBlock_funded : (tickBlock primitives world funded).1 = .ok block :=
  tickBlock_of_proposeTick proposeTick_funded

/-- The validator proposes the block, before the other node is started. -/
def steps : List (ClusterStep Unit) := [.validatorStart, .validatorOthers funded, .propose world]

/-- The other node after it was started, received the block and committed it. -/
def follower : NodeShared :=
  .new primitives (SmallCluster.setup .prover).config SmallCluster.leader
    [⟨0, [SmallCluster.leader]⟩] .empty .new .genesis

/-- The other node after the delivery. -/
def delivered : NodeShared := (receiveProposal primitives block follower).2

/-- The other node after its commit. -/
def committed : NodeShared := (commitNext primitives world delivered).2

/-- The other node catches up. -/
def later : List (ClusterStep Unit) := [.start (), .deliver () block, .commitNext () world]

/-- The other node has the note, too. -/
lemma commit_delivered : committed.height = 1 ∧ committed.notesTree.tree.entries.keys = [10] := by
  decide +kernel

/-- The pairs of the trees without and with the note, and the messages of the two blocks. -/
def hashing : Hashing where
  pairs := treePairs primitives [] ∪ treePairs primitives [10]
  messages := Block.genesis.content.messages primitives ∪ block.content.messages primitives

/-- The number under a node: the note, if the node is above it. -/
def under (k i : ℕ) : ℕ := if 10 / 2 ^ k = i then 10 else 0

/-- The nodes of the tree with the note. By induction on the level. -/
lemma node_note {k i : ℕ} (hk : k ≤ 160) :
    SparseMerkle.node (Smirk.merge Regrouped.sumHash)
      (Smirk.occupant (MERKLE_TREE_DEPTH - 1) [10]) k i =
        BitVec.ofNat 256 (2 ^ k - 1 + under k i) := by
  induction k generalizing i with
  | zero =>
    have hslot : (10 : Element).slot (MERKLE_TREE_DEPTH - 1) = 10 := by decide
    rw [SparseMerkle.node, Smirk.occupant, List.find?_cons, List.find?_nil, hslot, under]
    by_cases hi : 10 = i
    · subst hi
      rfl
    · rw [show (10 == i) = false from beq_false_of_ne hi, if_neg (by rwa [pow_zero, Nat.div_one])]
      rfl
  | succ k ih =>
    have hbound : 2 ^ k ≤ 2 ^ 160 := Nat.pow_le_pow_right (by omega) (by omega)
    have hpos : 0 < 2 ^ k := by positivity
    have hM := Element.lt_MODULUS
    have hunder : under k (2 * i) + under k (2 * i + 1) = under (k + 1) i := by
      have hhalf : 10 / 2 ^ (k + 1) = 10 / 2 ^ k / 2 := by
        rw [pow_succ, Nat.div_div_eq_div_mul]
      unfold under
      rw [hhalf]
      split_ifs <;> omega
    have hle : ∀ j, under k j ≤ 10 := fun j => by
      unfold under
      split_ifs <;> omega
    have hle1 := hle (2 * i)
    have hle2 := hle (2 * i + 1)
    rw [SparseMerkle.node, ih (by omega), ih (by omega), Regrouped.merge_ofNat (by omega), pow_succ]
    congr 1
    omega

/-- The pair of nodes of a level over the note, or over nothing. -/
def levelPair (k : ℕ) (noted : Bool) : Element × Element :=
  let value := fun i => BitVec.ofNat 256 (2 ^ k - 1 + if noted then under k i else 0)
  (value (2 * (10 / 2 ^ (k + 1))), value (2 * (10 / 2 ^ (k + 1)) + 1))

/-- The digest of a pair of a level. -/
def levelDigest (k : ℕ) (noted : Bool) : ℕ := 2 ^ (k + 1) - 1 + if noted then 10 else 0

/-- The pairs of both trees are those of the levels. -/
lemma exists_level {q : Element × Element} (hq : q ∈ hashing.pairs) :
    ∃ k < 160, ∃ noted, q = levelPair k noted ∧
      Function.uncurry (Smirk.merge Regrouped.sumHash) q =
        BitVec.ofNat 256 (levelDigest k noted) := by
  rcases hq with ⟨k, i, hk, -, rfl⟩ | ⟨k, i, hk, -, rfl⟩
  · have hk : k < 160 := hk
    have hnode := fun j => SmallCluster.node_empty (i := j) (show k ≤ 160 by omega)
    refine ⟨k, hk, false, Prod.ext (hnode _) (hnode _), ?_⟩
    exact SmallCluster.node_empty (i := i) (show k + 1 ≤ 160 by omega)
  · have hk : k < 160 := hk
    have hnode := fun j => node_note (i := j) (show k ≤ 160 by omega)
    have hdigest := node_note (i := i) (show k + 1 ≤ 160 by omega)
    by_cases hi : 10 / 2 ^ (k + 1) = i
    · subst hi
      refine ⟨k, hk, true, Prod.ext (hnode _) (hnode _), ?_⟩
      have htop : under (k + 1) (10 / 2 ^ (k + 1)) = 10 := if_pos rfl
      rw [htop] at hdigest
      exact hdigest
    · have hempty : ∀ j, j / 2 = i → under k j = 0 := by
        rintro j rfl
        refine if_neg fun hj => hi ?_
        rw [pow_succ, ← Nat.div_div_eq_div_mul, hj]
      have htop : under (k + 1) i = 0 := if_neg hi
      rw [htop] at hdigest
      refine ⟨k, hk, false, Prod.ext ?_ ?_, hdigest⟩
      · exact (hnode (2 * i)).trans (by rw [hempty _ (by omega)]; rfl)
      · exact (hnode (2 * i + 1)).trans (by rw [hempty _ (by omega)]; rfl)

/-- Ten is no difference of two powers of two that are greater than one. -/
lemma two_pow_succ_ne_add_ten (a b : ℕ) : 2 ^ (a + 1) ≠ 2 ^ (b + 1) + 10 := by
  intro heq
  rw [pow_succ, pow_succ] at heq
  -- one of two powers that differ by five is odd, so that it is one
  have hhalf : 2 ^ a = 2 ^ b + 5 := by omega
  rcases a with _ | a
  · rw [pow_zero] at hhalf
    omega
  · rcases b with _ | b
    · rcases a with _ | a
      · omega
      · rw [pow_succ, pow_succ, pow_zero] at hhalf
        omega
    · rw [pow_succ, pow_succ] at hhalf
      omega

/-- The digests of the levels differ. -/
lemma levelDigest_inj {k k' : ℕ} {noted noted' : Bool}
    (h : levelDigest k noted = levelDigest k' noted') : k = k' ∧ noted = noted' := by
  have hpos : ∀ n : ℕ, 0 < 2 ^ (n + 1) := fun n => by positivity
  have hk := hpos k
  have hk' := hpos k'
  have hinj : 2 ^ (k + 1) = 2 ^ (k' + 1) → k = k' := fun heq =>
    Nat.succ_injective (Nat.pow_right_injective (le_refl 2) heq)
  unfold levelDigest at h
  cases noted <;> cases noted' <;> simp only [if_true, Bool.false_eq_true, if_false] at h
  · exact ⟨hinj (by omega), rfl⟩
  · exact absurd (show 2 ^ (k + 1) = 2 ^ (k' + 1) + 10 by omega) (two_pow_succ_ne_add_ten _ _)
  · exact absurd (show 2 ^ (k' + 1) = 2 ^ (k + 1) + 10 by omega) (two_pow_succ_ne_add_ten _ _)
  · exact ⟨hinj (by omega), rfl⟩

/-- Nothing that the sample hashes collides. -/
lemma collisionFree : hashing.CollisionFree primitives where
  merge := by
    intro q hq q' hq' h
    obtain ⟨k, hk, noted, rfl, hdigest⟩ := exists_level hq
    obtain ⟨k', hk', noted', rfl, hdigest'⟩ := exists_level hq'
    have hlt : ∀ (m : ℕ) (b : Bool), m < 160 → levelDigest m b < 2 ^ 256 := by
      intro m b hm
      have hbound : 2 ^ (m + 1) ≤ 2 ^ 160 := Nat.pow_le_pow_right (by omega) (by omega)
      unfold levelDigest
      split_ifs <;> omega
    have hval := congrArg BitVec.toNat (hdigest.symm.trans (h.trans hdigest'))
    rw [BitVec.toNat_ofNat, BitVec.toNat_ofNat, Nat.mod_eq_of_lt (hlt k noted hk),
      Nat.mod_eq_of_lt (hlt k' noted' hk')] at hval
    obtain ⟨rfl, rfl⟩ := levelDigest_inj hval
    rfl
  keccak256 := by
    have hpairwise : [Block.genesis.content.headerMessage, Block.genesis.content.message primitives,
        block.content.headerMessage, block.content.message primitives].Pairwise
          fun m m' => primitives.keccak256 m ≠ primitives.keccak256 m' := by
      decide +kernel
    have hmem : ∀ m, m ∈ hashing.messages → m ∈ [Block.genesis.content.headerMessage,
        Block.genesis.content.message primitives, block.content.headerMessage,
        block.content.message primitives] := by
      rintro m ((rfl | rfl) | (rfl | rfl)) <;> simp
    have : Std.Symm fun m m' => primitives.keccak256 m ≠ primitives.keccak256 m' :=
      ⟨fun _ _ => Ne.symm⟩
    intro m hm m' hm' h
    by_contra hne
    exact hpairwise.forall (hmem m hm) (hmem m' hm') hne h

/-- The genesis block is covered. -/
lemma covers_genesis : hashing.Covers primitives .genesis :=
  ⟨⟨by decide, by decide, by decide⟩, Set.subset_union_left⟩

/-- The block of the mint is covered. -/
lemma covers_block : hashing.Covers primitives block :=
  ⟨⟨by decide, by decide, by decide⟩, Set.subset_union_right⟩

/-- The only leaf of the block is the note. -/
lemma leavesNonNull_block : block.content.state.leavesNonNull = [10] := by decide

/-- The block can be committed by a node with an empty tree. -/
lemma committable_block {node : NodeShared} (htree : node.notesTree = .new)
    (hbad : node.config.badBlocks = []) : Committable world node block := by
  refine ⟨rfl, ?_⟩
  rw [hbad, htree]
  refine takes_of_fresh ?_
  rw [leavesNonNull_block]
  refine ⟨fun e he => ?_, List.pairwise_singleton _ _, fun e he => ?_⟩
  · rw [List.mem_singleton.1 he]
    decide
  have hkeys : (Smirk.Persistent.new : PersistentMerkleTree).tree.entries.keys = [] := rfl
  rw [hkeys] at he
  cases he

/-- The validator may propose the block. -/
lemma canPropose : CanPropose primitives hashing world funded := by
  have hchosen : ∀ b mid, tickBlock primitives world funded = (.ok b, mid) →
      b = block ∧ mid.kept = funded.kept := by
    intro b mid h
    have hok := tickBlock_funded
    have hkept := @keeps_tickBlock primitives world funded
    rw [h] at hok hkept
    exact ⟨Outcome.ok.inj hok, hkept⟩
  refine ⟨by decide, fun b mid h _ => ?_, fun b mid h _ => ?_⟩
  · obtain ⟨rfl, hkept⟩ := hchosen b mid h
    simp only [NodeShared.kept, Prod.mk.injEq] at hkept
    obtain ⟨hconfig, -, htree, -⟩ := hkept
    exact committable_block htree (by rw [hconfig]; rfl)
  · obtain ⟨rfl, -⟩ := hchosen b mid h
    refine ⟨covers_block, ?_⟩
    rw [BlockContent.pairs, leavesNonNull_block]
    exact Set.subset_union_right

/-- The validator starts from genesis. -/
lemma step_validatorStart :
    Cluster.initial.step primitives SmallCluster.setups .validatorStart =
      ⟨[], .up started, fun _ => .down .empty⟩ := by
  rw [Cluster.step, Cluster.initial, Life.start, SmallCluster.setups, startNode_empty]
  rfl

/-- The mint enters its mempool. -/
lemma step_validatorOthers :
    Cluster.step primitives SmallCluster.setups ⟨[], .up started, fun _ => .down .empty⟩
      (.validatorOthers funded) = ⟨[], .up funded, fun _ => .down .empty⟩ := rfl

/-- The validator proposes and commits the block. -/
lemma step_propose :
    Cluster.step primitives SmallCluster.setups ⟨[], .up funded, fun _ => .down .empty⟩
      (.propose world) = ⟨[block], .up proposed, fun _ => .down .empty⟩ :=
  Cluster.step_propose_of_ok _ proposeTick_funded

/-- The state when the note is there. -/
lemma run_steps : steps.foldl (Cluster.step primitives SmallCluster.setups) .initial =
    ⟨[block], .up proposed, fun _ => .down .empty⟩ := by
  simp only [steps, List.foldl_cons, List.foldl_nil, step_validatorStart, step_validatorOthers,
    step_propose]

/-- The steps of the other node leave the validator and the ledger alone. -/
lemma step_start :
    Cluster.step primitives SmallCluster.setups ⟨[block], .up proposed, fun _ => .down .empty⟩
      (.start ()) = ⟨[block], .up proposed, fun _ => .up follower⟩ := by
  rw [Cluster.step, SmallCluster.onFollower_eq, Life.start, SmallCluster.setups, startNode_empty]
  rfl

/-- The other node receives the block. -/
lemma step_deliver :
    Cluster.step primitives SmallCluster.setups ⟨[block], .up proposed, fun _ => .up follower⟩
      (.deliver () block) = ⟨[block], .up proposed, fun _ => .up delivered⟩ := by
  rw [Cluster.step, SmallCluster.onFollower_eq, Life.call, delivered]

/-- The other node commits it. -/
lemma step_commitNext :
    Cluster.step primitives SmallCluster.setups ⟨[block], .up proposed, fun _ => .up delivered⟩
      (.commitNext () world) = ⟨[block], .up proposed, fun _ => .up committed⟩ := by
  rw [Cluster.step, SmallCluster.onFollower_eq, Life.call, committed]

/-- The state when the other node has caught up. -/
lemma run_later :
    (steps ++ later).foldl (Cluster.step primitives SmallCluster.setups) .initial =
      ⟨[block], .up proposed, fun _ => .up committed⟩ := by
  rw [List.foldl_append, run_steps]
  simp only [later, List.foldl_cons, List.foldl_nil, step_start, step_deliver, step_commitNext]

/-- The other node can commit what it received. -/
lemma canFollow : CanFollow primitives hashing [block] world delivered := by
  have hnext : ∀ b, delivered.blockCache.getNextCommitBlock = some b → b = block := by
    intro b h
    have hsome : delivered.blockCache.getNextCommitBlock = some block := rfl
    rw [hsome] at h
    exact (Option.some.inj h).symm
  refine ⟨fun b h _ => ?_, fun b h _ => ?_, fun b h _ => ?_⟩
  · rw [hnext b h]
    exact committable_block rfl rfl
  · rw [hnext b h, BlockContent.pairs, leavesNonNull_block]
    exact Set.subset_union_right
  · rw [hnext b h]
    exact ⟨block, List.mem_cons_self, rfl⟩

/-- Every step of the run is allowed. -/
lemma allowed_steps :
    Runs.Along (Cluster.step primitives SmallCluster.setups) (Cluster.Allowed primitives hashing)
      .initial (steps ++ later) := by
  refine ⟨trivial, trivial, ?_, trivial, covers_block, ?_, trivial⟩
  · rw [step_validatorStart, step_validatorOthers]
    rintro node ⟨⟩
    exact canPropose
  · rw [step_validatorStart, step_validatorOthers, step_propose, step_start, step_deliver]
    rintro node ⟨⟩
    exact canFollow

/-- Empty proofs, which the verifier accepts. -/
def create : Create := fun _ => []

/-- The note as an input, with a path. -/
def input (path : MerklePath MERKLE_TREE_DEPTH) : InputNote MERKLE_TREE_DEPTH := ⟨note, 1, path⟩

/-- The transfer of the note to another key. -/
def transfer (path : MerklePath MERKLE_TREE_DEPTH) : Utxo MERKLE_TREE_DEPTH :=
  .newTransfer (input path, InputNote.paddingNote Regrouped.sumHash depth_le)
    (⟨9, 0, 5, 0⟩, Circuits.Note.paddingNote Regrouped.sumHash)
    ((input path).recentRoot Regrouped.sumHash)

/-- The commitment of the note. -/
lemma commitment_note : note.commitment Regrouped.sumHash = 10 := by decide +kernel

/-- The holder of the note makes a transfer with the path. -/
lemma spends_transfer {path : MerklePath MERKLE_TREE_DEPTH}
    (hpath : getMerklePaths primitives [10] proposed = .ok [path.siblings]) :
    Spends primitives proposed (transfer path) := by
  refine .transfer ⟨⟨?_, ?_⟩, ?_⟩ (.inr rfl) ?_ ?_ ?_
  · change Element.isCanonical 5 = true
    decide
  · change Element.toBase 2 = Regrouped.sumHash [Element.toBase 1, 0]
    decide +kernel
  · change getMerklePaths primitives [note.commitment Regrouped.sumHash] proposed = _
    rw [commitment_note]
    exact hpath
  · decide
  · decide
  · rfl

/-- The leaves of the transfer are not in the tree. -/
lemma leafs_transfer (path : MerklePath MERKLE_TREE_DEPTH) :
    ∀ leaf ∈ (transfer path).leafs Regrouped.sumHash,
      Element.fromBase leaf ∉ ([10] : List Element) := by
  have hnullifer : (input path).nullifer Regrouped.sumHash = 12 :=
    (by decide +kernel : note.nullifier Regrouped.sumHash 1 = 12)
  have houtput : Circuits.Note.commitment Regrouped.sumHash ⟨9, 0, 5, 0⟩ = 17 := by
    decide +kernel
  have hpadding : (InputNote.paddingNote Regrouped.sumHash depth_le).nullifer Regrouped.sumHash =
      0 := rfl
  have hleafs : (transfer path).leafs Regrouped.sumHash =
      ([12, 0, 17, 0] : List Element).map Element.toBase := by
    unfold Utxo.leafs transfer Utxo.newTransfer
    rw [hnullifer, houtput, hpadding]
    rfl
  rw [hleafs, List.forall_mem_map]
  have hnew : ∀ e : Element, e.isCanonical = true → e ∉ ([10] : List Element) →
      Element.fromBase e.toBase ∉ ([10] : List Element) := fun e hcanon hnot => by
    rwa [Element.fromBase_toBase hcanon]
  simp only [List.forall_mem_cons]
  exact ⟨hnew 12 (by decide) (by decide), hnew 0 (by decide) (by decide),
    hnew 17 (by decide) (by decide), hnew 0 (by decide) (by decide), by simp⟩

end MintCluster

open MintCluster in
/-- The validator commits the mint of a note, and its holder asks it for the path and makes a
transfer. Another node, which is started later and commits the block that it receives, accepts the
transfer. -/
theorem Cluster.notes_spendable_minted :
    ∃ (path : MerklePath MERKLE_TREE_DEPTH) (txn : UtxoProof),
      getMerklePaths primitives [10] proposed = .ok [path.siblings] ∧
      (transfer path).Satisfied Regrouped.sumHash ((transfer path).publicInputs Regrouped.sumHash) ∧
      proveTransaction primitives create (transfer path) = .ok txn ∧
      committed.validateTransaction primitives true (.constant contract) txn = .ok () := by
  obtain ⟨-, hheight, hkeys⟩ := tick_funded
  obtain ⟨hheight', hkeys'⟩ := commit_delivered
  have hnow : (steps.foldl (step primitives SmallCluster.setups) initial).Running proposed := by
    rw [run_steps]
    exact .inl rfl
  have hlater : ((steps ++ later).foldl (step primitives SmallCluster.setups) initial).Running
      committed := by
    rw [run_later]
    exact .inr ⟨(), rfl⟩
  have hle : proposed.height ≤ committed.height := by rw [hheight, hheight']
  have hwindow : committed.height < proposed.height + RECENT_ROOT_COUNT := by
    rw [hheight, hheight']
    decide
  have hu64 : committed.height + 1 < U64 := by
    rw [hheight']
    decide
  have hcreate : create.Complete primitives := fun _ _ _ => rfl
  obtain ⟨hpaths, hspends⟩ := notes_spendable collisionFree Set.subset_union_left covers_genesis rfl
    (fun _ => rfl) hcreate steps later allowed_steps hnow hlater hle hwindow hu64
  obtain ⟨path, hpath⟩ := hpaths 10 (by rw [hkeys]; exact List.mem_singleton.2 rfl) (by decide)
  obtain ⟨hsatisfied, txn, htxn, haccepted⟩ := hspends (transfer path) (spends_transfer hpath)
  refine ⟨path, txn, hpath, hsatisfied, htxn, haccepted _ ?_ fun hburn => by cases hburn⟩
  rw [hkeys']
  exact leafs_transfer path

end TempoRollup.Node
