import Mathlib.Data.List.ReduceOption
import TempoRollup.Circuits.Accumulated
import TempoRollup.Circuits.PublicInputs
import TempoRollup.Contract.Aggregate
import TempoRollup.Node.RollUp
import TempoRollup.Prover.Batch

set_option relaxedAutoImplicit false
set_option autoImplicit false

/-!
# The proof of a block

`prover/src/lib.rs` from the transactions of a block to the call of the contract: the missing
transactions are padding, every three transactions are a group whose leaves are inserted in the
tree, the groups are aggregated, and the aggregation once more; `Prover::rollup` passes the public
inputs of the outermost aggregation to `verifyBlock2`.

## Main definitions

* `Backend` — what third-party code computes; `Backend.Returns` — each of its calls returns.
* `Transaction.padding`, `aggregateUtxo`, `generateAggregateProof`, `prove`, `rollup`.
* `Assembled` — what the aggregations of a block are.

## Main results

* `aggregateUtxo_spec` — one group: its witness satisfies its circuit.
* `generateAggregateProof_spec` — all aggregations of a block.
* `rollup_prove` — what the contract gets.

## Design

`accumulator_native` and the creation of proofs rest on third-party code. They are parameters, calls
that may fail or panic, and the results hold for whatever they return; that they do return is a
hypothesis of the one result that `Prover::prove` does. A call is a function of what it is given:
that it draws random numbers too makes no difference, since nothing depends on the bytes of a proof.

The witness of a group satisfies its circuit, but `AggregateUtxo::snark` does not hand it to the
proof system: it hands over the default aggregation, with the public inputs of the group. So the
results speak of the group's own witness and of the public inputs of its proof, and not of whether
the proof that is created is accepted.
-/

open Exec
open TempoRollup.Circuits TempoRollup.Smirk

namespace TempoRollup

/-! ## Padding transactions -/

namespace Circuits.Utxo

variable {depth : ℕ} (H : List Fr → Fr) (hdepth : depth ≤ 257)

/-- `Utxo::new_padding`. -/
def newPadding : Utxo depth where
  inputs := (InputNote.paddingNote H hdepth, InputNote.paddingNote H hdepth)
  outputs := (Note.paddingNote H, Note.paddingNote H)
  root := 0
  kind := .transfer

variable {H}

/-- The public inputs of a padding transaction are zero. -/
lemma publicInputs_newPadding : (newPadding H hdepth).publicInputs H = [0, 0, 0, 0, 0, 0, 0] := by
  have hcm : (Note.paddingNote H).commitment H = 0 := Note.commitment_paddingNote H
  have hpad : (Note.paddingNote H).isPadding H = true := by
    rw [Note.isPadding]
    simp
  have hnull : (InputNote.paddingNote H hdepth).nullifer H = 0 := by
    unfold InputNote.nullifer InputNote.paddingNote Note.nullifier
    rw [if_pos hpad]
    rfl
  simp only [publicInputs, newPadding, hnull, hcm, Element.toBase_zero]

/-- A padding transaction is well formed. -/
lemma wellFormed_newPadding : (newPadding H hdepth).WellFormed H := by
  have hin : (InputNote.paddingNote H hdepth).WellFormed H := by
    refine ⟨(by decide : Element.isCanonical 0 = true), ?_⟩
    simp [InputNote.paddingNote, Note.paddingNote]
  have hlt : (Note.paddingNote H).value.toNat < 2 ^ 240 := (by decide : (0 : ℕ) < 2 ^ 240)
  refine ⟨hin, hin, fun hv => absurd rfl hv, fun hv => absurd rfl hv, hlt, hlt, ?_⟩
  simp [newPadding, InputNote.paddingNote, Note.paddingNote]

/-- **A padding transaction** satisfies its circuit on its public inputs. -/
lemma satisfied_newPadding :
    (newPadding H hdepth).Satisfied H ((newPadding H hdepth).publicInputs H) := by
  have hin : (InputWitness.ofInputNote H (InputNote.paddingNote H hdepth)).value = 0 :=
    Element.toBase_zero
  have hcm : (NoteWitness.ofNote (Note.paddingNote H)).cm H = 0 := if_pos Element.toBase_zero
  have hnull : (InputWitness.ofInputNote H (InputNote.paddingNote H hdepth)).nullifier H = 0 :=
    if_pos hin
  have hexposed : (newPadding H hdepth).exposed H = [0, 0, 0, 0, 0, 0, 0] := by
    rw [exposed, UtxoWitness.mbHash, UtxoWitness.mbValue, isBurn_ofUtxo, isMint_ofUtxo]
    unfold UtxoWitness.leaves UtxoWitness.ofUtxo newPadding
    simp only [hcm, hnull, Element.toBase_zero]
    rfl
  rw [satisfied_iff (wellFormed_newPadding hdepth), publicInputs_newPadding, hexposed]
  exact (rowsAt_zero_iff rfl).2 rfl

end Circuits.Utxo

namespace Prover

/-! ## The code -/

/-- The limbs of an accumulator, which is two points with two coordinates each. -/
def Limbs : Type := {limbs : List Fr // limbs.length = 4 * LIMBS}

/-- `Snark`, with the bytes of the proof; the keys are those of its circuit. -/
structure ProvedSnark extends Snark where
  proof : List (BitVec 8)

/-- What third-party code computes. A call may return an error, and it may panic. -/
structure Backend where
  /-- `accumulator_native`. -/
  accumulatorNative : List ProvedSnark → Outcome Error Limbs
  /-- `Snark::create` of a transaction, on an instance column. -/
  createUtxo : Utxo MERKLE_TREE_DEPTH → List Fr → Outcome Error (List (BitVec 8))
  /-- `Snark::create` of a group. -/
  createAggregateUtxo : AccumulatedUtxo UTXO_AGG_NUMBER MERKLE_TREE_DEPTH UTXO_AGG_LEAVES →
    List Fr → Outcome Error (List (BitVec 8))
  /-- `Snark::create` of an aggregation of groups. -/
  createAggregateAgg : AccumulatedAgg UTXO_AGGREGATIONS → List Fr → Outcome Error (List (BitVec 8))
  /-- `evm_verifier::gen_proof`. -/
  genProof : AccumulatedAgg 1 → List Fr → Outcome Error Contract.Bytes

/-- Each call of third-party code returns. -/
structure Backend.Returns (backend : Backend) : Prop where
  accumulatorNative : ∀ snarks, ∃ limbs, backend.accumulatorNative snarks = .ok limbs
  createUtxo : ∀ utxo instances, ∃ proof, backend.createUtxo utxo instances = .ok proof
  createAggregateUtxo : ∀ group instances, ∃ proof,
    backend.createAggregateUtxo group instances = .ok proof
  createAggregateAgg : ∀ agg instances, ∃ proof,
    backend.createAggregateAgg agg instances = .ok proof
  genProof : ∀ agg instances, ∃ proof, backend.genProof agg instances = .ok proof

/-- `SnarkWitnessV1::to_snark`. -/
def Transaction.toSnark (self : Transaction) : ProvedSnark where
  instances := self.instances.map fun column => column.map Element.toBase
  proof := self.proof

section Code

variable (backend : Backend) (H : List Fr → Fr)

/-- `Utxo::snark`. -/
def snarkOfUtxo (self : Utxo MERKLE_TREE_DEPTH) : Outcome Error ProvedSnark := do
  let (circuit, instances) := self.snark H
  let proof ← backend.createUtxo circuit instances
  pure { instances := [instances], proof }

/-- The transaction that fills up a block: `Snark::to_witness` of the proof of padding. -/
def Transaction.padding : Outcome Error Transaction := do
  let snark ← snarkOfUtxo backend H (.newPadding H MERKLE_TREE_DEPTH_le)
  pure
    { instances := snark.instances.map fun column => column.map Element.fromBase
      proof := snark.proof }

/-- A transaction of the block, or padding in its place. -/
def fillTxn : Option Transaction → Outcome Error Transaction
  | some txn => pure txn
  | none => Transaction.padding backend H

/-- `AggregateUtxo::new`; the arrays have the lengths of the circuit. -/
def newAggregateUtxo (utxo : List ProvedSnark) (insert : Circuits.Batch MERKLE_TREE_DEPTH) :
    Outcome Error (AccumulatedUtxo UTXO_AGG_NUMBER MERKLE_TREE_DEPTH UTXO_AGG_LEAVES) :=
  if h : (utxo.map ProvedSnark.toSnark).length = UTXO_AGG_NUMBER ∧
      insert.inserts.length = UTXO_AGG_LEAVES then do
    let limbs ← backend.accumulatorNative utxo
    pure
      { utxo := utxo.map ProvedSnark.toSnark, insert, length_utxo := h.1, length_inserts := h.2,
        aggInstances := limbs.1, length_aggInstances := limbs.2 }
  else .panic

/-- `AggregateAgg::new`. -/
def newAggregateAgg {AGG_N : ℕ} (aggregates : List ProvedSnark)
    (h : (aggregates.map ProvedSnark.toSnark).length = AGG_N) :
    Outcome Error (AccumulatedAgg AGG_N) := do
  let limbs ← backend.accumulatorNative aggregates
  pure
    { aggregates := aggregates.map ProvedSnark.toSnark, length_aggregates := h,
      aggInstances := limbs.1.map Element.fromBase,
      length_aggInstances := by rw [List.length_map, limbs.2] }

/-- `Prover::aggregate_utxo`. -/
def aggregateUtxo (utxos : List Transaction) (currentBlock : ℕ) : Program MerkleTree Error
    (AccumulatedUtxo UTXO_AGG_NUMBER MERKLE_TREE_DEPTH UTXO_AGG_LEAVES) := do
  let generated ← genBatch H utxos currentBlock
  Program.lift (newAggregateUtxo backend (utxos.map Transaction.toSnark) generated.batch)

/-- The loop of `Prover::generate_aggregate_proof` over the groups; the proofs of padding are
created when their group is reached. -/
def aggregateUtxos (currentBlock : ℕ) : ℕ → List (Option Transaction) → Program MerkleTree Error
    (List (AccumulatedUtxo UTXO_AGG_NUMBER MERKLE_TREE_DEPTH UTXO_AGG_LEAVES))
  | 0, _ => pure []
  | n + 1, txns => do
    let group ← Program.lift ((txns.take UTXO_AGG_NUMBER).mapM (fillTxn backend H))
    let utxoAggregate ← aggregateUtxo backend H group currentBlock
    let utxoAggregations ← aggregateUtxos currentBlock n (txns.drop UTXO_AGG_NUMBER)
    pure (utxoAggregate :: utxoAggregations)

/-- The limbs of `AggregateUtxo::default`, which creates its inner proofs. -/
def defaultLimbs : Outcome Error Limbs := do
  let utxo ← ((List.replicate UTXO_AGG_NUMBER (Utxo.default H MERKLE_TREE_DEPTH_le)).mapM
    (snarkOfUtxo backend H)).unwrap
  backend.accumulatorNative utxo

/-- `AggregateUtxo::snark`. -/
def snarkOfUtxos (self : AccumulatedUtxo UTXO_AGG_NUMBER MERKLE_TREE_DEPTH UTXO_AGG_LEAVES) :
    Outcome Error ProvedSnark := do
  let limbs ← defaultLimbs backend H
  let (circuit, instances) := self.snark H MERKLE_TREE_DEPTH_le limbs.1 limbs.2
  let proof ← backend.createAggregateUtxo circuit instances
  pure { instances := [instances], proof }

/-- `AggregateAgg::snark`. -/
def snarkOfAggregates (self : AccumulatedAgg UTXO_AGGREGATIONS) : Outcome Error ProvedSnark := do
  let proof ← backend.createAggregateAgg self self.publicInputs
  pure { instances := [self.publicInputs], proof }

/-- `Prover::aggregate_aggregate_utxo`. -/
def aggregateAggregateUtxo (aggregations : List
    (AccumulatedUtxo UTXO_AGG_NUMBER MERKLE_TREE_DEPTH UTXO_AGG_LEAVES)) :
    Outcome Error (AccumulatedAgg UTXO_AGGREGATIONS) := do
  let snarks ← aggregations.mapM (snarkOfUtxos backend H)
  if h : (snarks.map ProvedSnark.toSnark).length = UTXO_AGGREGATIONS then
    newAggregateAgg backend snarks h
  else .panic

/-- The rest of `Prover::generate_aggregate_proof`: the outermost aggregation and its proof. -/
def aggregateAll (utxoAggregations : List
    (AccumulatedUtxo UTXO_AGG_NUMBER MERKLE_TREE_DEPTH UTXO_AGG_LEAVES)) :
    Outcome Error (AccumulatedAgg 1 × Contract.Bytes) := do
  let agg ← aggregateAggregateUtxo backend H utxoAggregations
  let snark ← snarkOfAggregates backend agg
  let agg : AccumulatedAgg 1 ← newAggregateAgg backend [snark] rfl
  let proof ← backend.genProof agg agg.publicInputs
  pure (agg, proof)

/-- `Prover::generate_aggregate_proof`. -/
def generateAggregateProof (txns : Fin MAXIMUM_TXNS → Option Transaction) (currentBlock : ℕ) :
    Program MerkleTree Error (AccumulatedAgg 1 × Contract.Bytes) := do
  let utxoAggregations ← aggregateUtxos backend H currentBlock UTXO_AGGREGATIONS (List.ofFn txns)
  Program.lift (aggregateAll backend H utxoAggregations)

/-- `Proof`. -/
structure Proof where
  proof : Contract.Bytes
  aggInstances : List Element
  oldRoot : Element
  newRoot : Element
  utxoHashes : List Element

/-- `Prover::prove`, on a clone of the tree. -/
def prove (notesTree : MerkleTree) (height : ℕ) (txns : Fin MAXIMUM_TXNS → Option Transaction) :
    Outcome Error Proof := do
  let (agg, proof) ← (generateAggregateProof backend H txns height notesTree).1
  pure
    { proof, aggInstances := agg.aggInstances, oldRoot := Element.fromBase agg.oldRoot,
      newRoot := Element.fromBase agg.newRoot, utxoHashes := agg.utxoValues.map Element.fromBase }

end Code

/-- `RollupInput`. -/
structure RollupInput where
  proof : Proof
  height : ℕ
  otherHash : Element
  signatures : List Node.Signature

/-- `Prover::rollup` and `RollupContract::verify_block`: the arguments of `verifyBlock2`. -/
def rollup (input : RollupInput) : Outcome Error Contract.BlockProof :=
  if h : input.proof.aggInstances.length = 12 ∧ input.proof.utxoHashes.length = 6 * 3 then
    .ok
      { aggrProof := input.proof.proof
        aggrInstances := fun i => input.proof.aggInstances.get (i.cast h.1.symm)
        oldRoot := input.proof.oldRoot
        newRoot := input.proof.newRoot
        utxoHashes := fun k =>
          { recentRoot := input.proof.utxoHashes.getD (3 * k + 0) 0
            mb := input.proof.utxoHashes.getD (3 * k + 1) 0
            value := input.proof.utxoHashes.getD (3 * k + 2) 0 }
        otherHashFromBlockHash := input.otherHash
        height := input.height
        signatures := input.signatures.map Node.contractSignature }
  else .panic

/-! ## Groups -/

/-- The column of public inputs of a UTXO proof. -/
def Transaction.column (self : Transaction) : List Fr :=
  (self.instances.headD []).map Element.toBase

section Columns

variable {txns : List Transaction}

/-- The proof of a UTXO has one column. -/
lemma Transaction.IsUtxo.toSnark_eq {txn : Transaction} (h : txn.IsUtxo) :
    txn.toSnark.toSnark = ⟨[txn.column]⟩ := by
  obtain ⟨instances, hinst, -⟩ := h
  simp only [toSnark, column, hinst, List.map_cons, List.map_nil, List.headD_cons]

/-- The column of a UTXO has seven instances. -/
lemma Transaction.IsUtxo.length_column {txn : Transaction} (h : txn.IsUtxo) :
    txn.column.length = 7 := by
  obtain ⟨instances, hinst, hlen⟩ := h
  rw [column, hinst, List.length_map]
  exact hlen

/-- The leaves that the prover extracts are those of the UTXO proofs. -/
lemma map_toBase_utxoLeaves (txns : List Transaction) :
    (txns.flatMap Transaction.utxoLeaves).map Element.toBase =
      utxoLeafs (txns.map Transaction.column) := by
  rw [utxoLeafs, List.map_flatMap, List.flatMap_map]
  refine List.flatMap_congr fun txn _ => ?_
  rw [Transaction.utxoLeaves, Transaction.column, List.map_map, ← List.map_drop]
  exact List.map_congr_left fun f _ => Element.toBase_fromBase _

end Columns

/-- A group of transactions, by their columns of public inputs, from one tree to another: it has
their UTXO proofs and the roots of the trees, and its witness satisfies its circuit. -/
structure IsGroup (H : List Fr → Fr) (columns : List (List Fr)) (tree tree' : MerkleTree)
    (group : AccumulatedUtxo UTXO_AGG_NUMBER MERKLE_TREE_DEPTH UTXO_AGG_LEAVES) : Prop where
  utxo : group.utxo = columns.map fun column => ⟨[column]⟩
  oldRoot : group.insert.oldRoot H = (tree.rootHash H).toBase
  newRoot : group.insert.newRoot H = (tree'.rootHash H).toBase
  satisfied : ∀ accepts : List (List Fr) → Prop, (∀ column ∈ columns, accepts [column]) →
    group.Satisfied accepts H (group.publicInputs H)

section Groups

variable {H : List Fr → Fr} {tree tree' : MerkleTree} {txns : List Transaction}

/-- **The batch of a group**: its inserts lead from the root of the tree to the root of the tree
with the leaves of the transactions. -/
lemma genBatch_spec (htree : tree.Inv H) (hlen : txns.length = UTXO_AGG_NUMBER)
    (hutxo : ∀ txn ∈ txns, txn.IsUtxo) (currentBlock : ℕ)
    (hfresh : tree.Fresh (nonNull (txns.flatMap Transaction.utxoLeaves)))
    (hslot : ∀ e ∈ tree.entries.keys, e.slot (MERKLE_TREE_DEPTH - 1) ≠ 0) :
    ∃ paddingPath inserts tree', genBatch H txns currentBlock tree =
        (.ok { insertsLen := UTXO_AGG_LEAVES, oldTree := tree.rootHash H,
               newTree := tree'.rootHash H, batch := ⟨inserts⟩ }, tree') ∧
      inserts.length = UTXO_AGG_LEAVES ∧ tree'.Inv H ∧
      tree'.entries = Tree.insertEntries tree.entries
        ((nonNull (txns.flatMap Transaction.utxoLeaves)).map fun leaf => (leaf, currentBlock)) ∧
      InsertsOf H paddingPath (txns.flatMap Transaction.utxoLeaves) tree tree' inserts ∧
      (Circuits.Batch.mk inserts).oldRoot H = (tree.rootHash H).toBase := by
  obtain ⟨hleaves, hcount⟩ := extractLeaves_eq_ok hutxo
  obtain ⟨paddingPath, hpath, -⟩ := Tree.pathFor_spec (by decide) (by decide) htree 0
  obtain ⟨inserts, tree', hruns, hinv, hentries, hof⟩ :=
    genInserts_spec paddingPath currentBlock htree _ hfresh
  have hinserts : inserts.length = UTXO_AGG_LEAVES := by
    rw [← List.length_map Insert.leaf, hof.leaf_eq, hcount, hlen]
    rfl
  have hpadding : (tree.pathFor H ((Note.paddingNote H).commitment H)).unwrap =
      (.ok paddingPath : Outcome Error _) := by
    rw [Note.commitment_paddingNote, hpath]
    rfl
  refine ⟨paddingPath, inserts, tree', ?_, hinserts, hinv, hentries, hof,
    hof.oldRoot_eq htree hslot hpath (List.ne_nil_of_length_pos (by rw [hinserts]; decide))⟩
  simp only [genBatch, Program.run_bind, Program.run_get, Program.run_lift, hpadding, hleaves,
    hruns, Program.run_assert, hinserts, decide_true, if_true, Program.run_pure]

/-- **One group**: its witness satisfies its circuit, from the root of the tree before its leaves to
the root after them.

**Proof sketch.** The batch of the group inserts the leaves of its transactions one by one
(`genBatch_spec`), so that its inserts are linked and have these leaves, which is what the circuit
asks for (`AccumulatedUtxo.satisfied_of`). Only the limbs depend on third-party code. -/
theorem aggregateUtxo_spec (backend : Backend) (htree : tree.Inv H)
    (hlen : txns.length = UTXO_AGG_NUMBER) (hutxo : ∀ txn ∈ txns, txn.IsUtxo) (currentBlock : ℕ)
    (hfresh : tree.Fresh (nonNull (txns.flatMap Transaction.utxoLeaves)))
    (hslot : ∀ e ∈ tree.entries.keys, e.slot (MERKLE_TREE_DEPTH - 1) ≠ 0) :
    ∃ tree', tree'.Inv H ∧
      tree'.entries = Tree.insertEntries tree.entries
        ((nonNull (txns.flatMap Transaction.utxoLeaves)).map fun leaf => (leaf, currentBlock)) ∧
      ∃ result, aggregateUtxo backend H txns currentBlock tree = (result, tree') ∧
        (∀ group, result = .ok group → IsGroup H (txns.map Transaction.column) tree tree' group) ∧
        (backend.Returns → ∃ group, result = .ok group) := by
  obtain ⟨paddingPath, inserts, tree', hrun, hinserts, hinv, hentries, hof, hold⟩ :=
    genBatch_spec htree hlen hutxo currentBlock hfresh hslot
  have hnew : (Circuits.Batch.mk inserts).newRoot H = (tree'.rootHash H).toBase := by
    rw [Batch.newRoot_eq_foldl, hold, hof.root_eq]
  have hlinks : Batch.Links H ((Circuits.Batch.mk inserts).oldRoot H) inserts := by
    rw [hold]
    exact hof.links
  have hsnarks : (txns.map Transaction.toSnark).map ProvedSnark.toSnark =
      (txns.map Transaction.column).map fun column => ⟨[column]⟩ := by
    rw [List.map_map, List.map_map]
    exact List.map_congr_left fun txn htxn => (hutxo txn htxn).toSnark_eq
  have hshape : ((txns.map Transaction.toSnark).map ProvedSnark.toSnark).length =
        UTXO_AGG_NUMBER ∧ (Circuits.Batch.mk inserts).inserts.length = UTXO_AGG_LEAVES :=
    ⟨by rw [List.length_map, List.length_map, hlen], hinserts⟩
  refine ⟨tree', hinv, hentries,
    newAggregateUtxo backend (txns.map Transaction.toSnark) ⟨inserts⟩, ?_, fun group hgroup => ?_,
    fun hreturns => ?_⟩
  · rw [aggregateUtxo, Program.run_bind, hrun]
    rfl
  · rw [newAggregateUtxo, dif_pos hshape, Outcome.bind_eq_ok] at hgroup
    obtain ⟨limbs, -, hgroup⟩ := hgroup
    obtain rfl := Outcome.ok.inj hgroup
    refine ⟨hsnarks, hold, hnew, fun accepts haccepts => ?_⟩
    refine AccumulatedUtxo.satisfied_of hsnarks ?_ haccepts ?_ ?_ hlinks ?_
    · exact List.forall_mem_map.2 fun txn htxn => (hutxo txn htxn).length_column
    · exact List.ne_nil_of_length_pos (by rw [hinserts]; decide)
    · intro i hi
      refine isCanonical_of_mem_utxoLeaves (?_ : i.leaf ∈ txns.flatMap Transaction.utxoLeaves)
      rw [← hof.leaf_eq]
      exact List.mem_map_of_mem hi
    · change (Circuits.Batch.mk inserts).leafs = _
      rw [← map_toBase_utxoLeaves, ← hof.leaf_eq, List.map_map]
      rfl
  · obtain ⟨limbs, hlimbs⟩ := hreturns.accumulatorNative (txns.map Transaction.toSnark)
    rw [newAggregateUtxo, dif_pos hshape, hlimbs]
    exact ⟨_, rfl⟩

/-- The elements of a tree after an insertion. -/
lemma mem_keys_of_insertEntries {l : List Element} {currentBlock : ℕ}
    (hentries : tree'.entries =
      Tree.insertEntries tree.entries (l.map fun leaf => (leaf, currentBlock))) {e : Element}
    (he : e ∈ tree'.entries.keys) : e ∈ tree.entries.keys ∨ e ∈ l := by
  rw [hentries, Tree.mem_foldl_insert, List.map_map] at he
  refine he.imp_right fun he => ?_
  obtain ⟨leaf, hleaf, rfl⟩ := List.mem_map.1 he
  exact hleaf

/-- The first of two parts of new elements is new. -/
lemma fresh_append_left {l l' : List Element} (h : tree.Fresh (l ++ l')) : tree.Fresh l where
  ne_null e he := h.ne_null e (List.mem_append_left _ he)
  distinct := (List.pairwise_append.1 h.distinct).1
  free e he b hb := h.free e he b (List.mem_append_left _ hb)

/-- Once the first of two parts of new elements is inserted, the second part is new. -/
lemma fresh_append_right {l l' : List Element} (h : tree.Fresh (l ++ l')) {currentBlock : ℕ}
    (hentries : tree'.entries =
      Tree.insertEntries tree.entries (l.map fun leaf => (leaf, currentBlock))) :
    tree'.Fresh l' where
  ne_null e he := h.ne_null e (List.mem_append_right _ he)
  distinct := (List.pairwise_append.1 h.distinct).2.1
  free e he b hb := by
    rcases mem_keys_of_insertEntries hentries he with he | he
    · exact h.free e he b (List.mem_append_right _ hb)
    · exact ((List.pairwise_append.1 h.distinct).2.2 e he b hb).symm

/-- The groups of some transactions, from one tree to another: their proofs lead from root to root,
they show the first public inputs of all transactions, and their witnesses satisfy their
circuits. -/
structure AreGroups (H : List Fr → Fr) (columns : List (List Fr)) (tree tree' : MerkleTree)
    (groups : List (AccumulatedUtxo UTXO_AGG_NUMBER MERKLE_TREE_DEPTH UTXO_AGG_LEAVES)) :
    Prop where
  linked : Linked (tree.rootHash H).toBase (groups.map fun group => group.publicInputs H)
    (tree'.rootHash H).toBase
  values : groups.flatMap AccumulatedUtxo.utxoPublicInputs = utxoValues columns
  shapes : ∀ group ∈ groups, ∀ snark ∈ group.utxo, snark.numInstance = [7]
  satisfied : ∀ accepts : List (List Fr) → Prop, (∀ column ∈ columns, accepts [column]) →
    ∀ group ∈ groups, group.Satisfied accepts H (group.publicInputs H)

/-- One more group in front. -/
lemma IsGroup.cons {first rest : List (List Fr)} {tree₁ : MerkleTree}
    {group : AccumulatedUtxo UTXO_AGG_NUMBER MERKLE_TREE_DEPTH UTXO_AGG_LEAVES}
    {groups : List (AccumulatedUtxo UTXO_AGG_NUMBER MERKLE_TREE_DEPTH UTXO_AGG_LEAVES)}
    (h : IsGroup H first tree tree₁ group) (hfirst : ∀ column ∈ first, column.length = 7)
    (hgroups : AreGroups H rest tree₁ tree' groups) :
    AreGroups H (first ++ rest) tree tree' (group :: groups) := by
  obtain ⟨hold, hnew, -⟩ := group.rows_publicInputs H
  refine ⟨⟨hold.trans h.oldRoot, ?_⟩, ?_, ?_, fun accepts haccepts => ?_⟩
  · rw [hnew, h.newRoot]
    exact hgroups.linked
  · rw [List.flatMap_cons, hgroups.values, AccumulatedUtxo.utxoPublicInputs_eq h.utxo hfirst,
      utxoValues, utxoValues, utxoValues, List.flatMap_append]
  · refine List.forall_mem_cons.2 ⟨?_, hgroups.shapes⟩
    rw [h.utxo]
    exact List.forall_mem_map.2 fun column hcolumn =>
      congrArg (fun n => [n]) (hfirst column hcolumn)
  · obtain ⟨hfirst, hrest⟩ := List.forall_mem_append.1 haccepts
    exact List.forall_mem_cons.2 ⟨h.satisfied accepts hfirst, hgroups.satisfied accepts hrest⟩

end Groups

/-! ## Padding in the place of transactions -/

section Padding

variable {backend : Backend} {H : List Fr → Fr} {txns : List (Option Transaction)}
  {filled : List Transaction}

/-- The public inputs of a transaction of a block, or of padding in its place. -/
def columnOf (txn : Option Transaction) : List Fr :=
  (txn.map Transaction.column).getD [0, 0, 0, 0, 0, 0, 0]

/-- The leaves of some transactions of a block. -/
def leavesOf (txns : List (Option Transaction)) : List Element :=
  nonNull (txns.reduceOption.flatMap Transaction.utxoLeaves)

/-- The leaves of two lists of transactions. -/
lemma leavesOf_append (txns txns' : List (Option Transaction)) :
    leavesOf (txns ++ txns') = leavesOf txns ++ leavesOf txns' := by
  rw [leavesOf, List.reduceOption_append, List.flatMap_append, nonNull, List.filter_append,
    ← nonNull,
    ← nonNull, ← leavesOf, ← leavesOf]

/-- The leaves of a block. -/
def blockLeaves (txns : Fin MAXIMUM_TXNS → Option Transaction) : List Element :=
  leavesOf (List.ofFn txns)

/-- The proof of a transaction has the public inputs of the transaction. -/
lemma toSnark_of_snarkOfUtxo {self : Utxo MERKLE_TREE_DEPTH} {snark : ProvedSnark}
    (h : snarkOfUtxo backend H self = .ok snark) : snark.toSnark = ⟨[self.publicInputs H]⟩ := by
  obtain ⟨proof, -, hsnark⟩ := Outcome.bind_eq_ok.1 h
  rw [← Outcome.ok.inj hsnark]

/-- **A padding transaction** is a UTXO proof whose public inputs are zero. -/
lemma padding_spec {txn : Transaction} (h : Transaction.padding backend H = .ok txn) :
    txn.IsUtxo ∧ txn.column = [0, 0, 0, 0, 0, 0, 0] ∧ nonNull txn.utxoLeaves = [] := by
  obtain ⟨snark, hsnark, htxn⟩ := Outcome.bind_eq_ok.1 h
  have hinstances : snark.instances = [[0, 0, 0, 0, 0, 0, 0]] := by
    rw [toSnark_of_snarkOfUtxo hsnark, Utxo.publicInputs_newPadding]
  obtain rfl := Outcome.ok.inj htxn
  rw [hinstances]
  refine ⟨⟨_, rfl, rfl⟩, ?_, ?_⟩
  · simp [Transaction.column]
  · simp [Transaction.utxoLeaves, nonNull, Element.NULL_HASH]

/-- What stands in the place of a transaction of a block. -/
structure Filled (txns : List (Option Transaction)) (filled : List Transaction) : Prop where
  length : filled.length = txns.length
  utxo : ∀ txn ∈ filled, txn.IsUtxo
  columns : filled.map Transaction.column = txns.map columnOf
  leaves : nonNull (filled.flatMap Transaction.utxoLeaves) = leavesOf txns

/-- **The transactions of a group** with padding for those that are missing. By induction on the
transactions. -/
lemma filled_of_mapM (hutxo : ∀ txn, some txn ∈ txns → txn.IsUtxo)
    (h : txns.mapM (fillTxn backend H) = .ok filled) : Filled txns filled := by
  induction txns generalizing filled with
  | nil =>
    obtain rfl := Outcome.ok.inj h
    exact ⟨rfl, by simp, rfl, rfl⟩
  | cons slot txns ih =>
    rw [List.mapM_cons] at h
    obtain ⟨txn, hslot, h⟩ := Outcome.bind_eq_ok.1 h
    obtain ⟨rest, hrest, hcons⟩ := Outcome.bind_eq_ok.1 h
    obtain rfl := Outcome.ok.inj hcons
    have hf := ih (fun txn hmem => hutxo txn (List.mem_cons_of_mem _ hmem)) hrest
    have hslot : txn.IsUtxo ∧ txn.column = columnOf slot ∧
        nonNull txn.utxoLeaves = leavesOf [slot] := by
      cases slot with
      | none => exact padding_spec hslot
      | some own =>
        obtain rfl := Outcome.ok.inj hslot
        refine ⟨hutxo own List.mem_cons_self, rfl, ?_⟩
        rw [leavesOf, List.reduceOption_cons_of_some, List.reduceOption_nil, List.flatMap_singleton]
    refine ⟨congrArg Nat.succ hf.length, List.forall_mem_cons.2 ⟨hslot.1, hf.utxo⟩, ?_, ?_⟩
    · rw [List.map_cons, List.map_cons, hslot.2.1, hf.columns]
    · rw [List.flatMap_cons, nonNull, List.filter_append, ← nonNull, ← nonNull, hslot.2.2,
        hf.leaves, ← leavesOf_append]
      rfl

/-- If third-party code returns, the transactions of a group are filled up. -/
lemma exists_filled (hreturns : backend.Returns) (H : List Fr → Fr)
    (txns : List (Option Transaction)) : ∃ filled, txns.mapM (fillTxn backend H) = .ok filled := by
  refine Outcome.mapM_returns fun slot _ => ?_
  cases slot with
  | none =>
    obtain ⟨proof, hproof⟩ := hreturns.createUtxo (.newPadding H MERKLE_TREE_DEPTH_le)
      ((Utxo.newPadding H MERKLE_TREE_DEPTH_le).publicInputs H)
    refine ⟨_, Outcome.bind_eq_ok.2 ⟨_, Outcome.bind_eq_ok.2 ⟨proof, hproof, rfl⟩, rfl⟩⟩
  | some txn => exact ⟨txn, rfl⟩

end Padding

/-! ## The loop over the groups -/

section Loop

variable {H : List Fr → Fr} {tree tree' : MerkleTree} {txns : List (Option Transaction)}

/-- **One group**, with whatever proofs its padding has: its leaves are inserted in the tree. -/
lemma aggregateUtxo_filled {backend : Backend} (currentBlock : ℕ) {filled : List Transaction}
    (htree : tree.Inv H) (hlen : txns.length = UTXO_AGG_NUMBER)
    (hutxo : ∀ txn, some txn ∈ txns → txn.IsUtxo) (hfresh : tree.Fresh (leavesOf txns))
    (hslot : ∀ e ∈ tree.entries.keys, e.slot (MERKLE_TREE_DEPTH - 1) ≠ 0)
    (hfilled : txns.mapM (fillTxn backend H) = .ok filled) :
    Filled txns filled ∧ ∃ tree', tree'.Inv H ∧
      tree'.entries = Tree.insertEntries tree.entries
        ((leavesOf txns).map fun leaf => (leaf, currentBlock)) ∧
      ∃ result, aggregateUtxo backend H filled currentBlock tree = (result, tree') ∧
        (∀ group, result = .ok group → IsGroup H (txns.map columnOf) tree tree' group) ∧
        (backend.Returns → ∃ group, result = .ok group) := by
  have hf := filled_of_mapM hutxo hfilled
  have hspec := aggregateUtxo_spec backend htree (hf.length.trans hlen) hf.utxo currentBlock
    (hf.leaves ▸ hfresh) hslot
  rw [hf.leaves, hf.columns] at hspec
  exact ⟨hf, hspec⟩

/-- **The loop over the groups**, by induction on their number: their leaves are inserted in the
tree one group after the other. The loop returns if third-party code does.

**Proof sketch.** One group inserts its own leaves (`aggregateUtxo_filled`), and the others insert
theirs into the tree that it leaves, where they are still fresh. -/
lemma aggregateUtxos_spec (backend : Backend) (currentBlock n : ℕ) (htree : tree.Inv H)
    (hlen : txns.length = n * UTXO_AGG_NUMBER) (hutxo : ∀ txn, some txn ∈ txns → txn.IsUtxo)
    (hfresh : tree.Fresh (leavesOf txns))
    (hslot : ∀ e ∈ tree.entries.keys, e.slot (MERKLE_TREE_DEPTH - 1) ≠ 0)
    (hleaves : ∀ leaf ∈ leavesOf txns, leaf.slot (MERKLE_TREE_DEPTH - 1) ≠ 0) :
    (∀ groups tree', aggregateUtxos backend H currentBlock n txns tree = (.ok groups, tree') →
      groups.length = n ∧ tree'.Inv H ∧
        tree'.entries = Tree.insertEntries tree.entries
          ((leavesOf txns).map fun leaf => (leaf, currentBlock)) ∧
        AreGroups H (txns.map columnOf) tree tree' groups) ∧
    (backend.Returns → ∃ groups tree',
      aggregateUtxos backend H currentBlock n txns tree = (.ok groups, tree')) := by
  induction n generalizing txns tree with
  | zero =>
    obtain rfl : txns = [] := List.length_eq_zero_iff.1 (by rw [hlen, Nat.zero_mul])
    refine ⟨fun groups tree' h => ?_, fun _ => ⟨[], tree, rfl⟩⟩
    obtain ⟨rfl, rfl⟩ := Program.pure_eq_ok.1 h
    exact ⟨rfl, htree, rfl, rfl, rfl, by simp, by simp⟩
  | succ n ih =>
    have hsplit := List.take_append_drop UTXO_AGG_NUMBER txns
    have hcount : UTXO_AGG_NUMBER ≤ txns.length := by
      rw [hlen, Nat.succ_mul]
      exact Nat.le_add_left _ _
    have hparts : leavesOf txns = leavesOf (txns.take UTXO_AGG_NUMBER) ++
        leavesOf (txns.drop UTXO_AGG_NUMBER) := by
      rw [← leavesOf_append, hsplit]
    rw [hparts] at hfresh hleaves ⊢
    have hgroup := fun filled => @aggregateUtxo_filled H tree (txns.take UTXO_AGG_NUMBER) backend
      currentBlock filled htree (List.length_take_of_le hcount)
      (fun txn hmem => hutxo txn (List.mem_of_mem_take hmem)) (fresh_append_left hfresh) hslot
    -- the other groups, from the tree with the leaves of the first one
    have hrest : ∀ tree₁ : MerkleTree, tree₁.Inv H →
        tree₁.entries = Tree.insertEntries tree.entries
          ((leavesOf (txns.take UTXO_AGG_NUMBER)).map fun leaf => (leaf, currentBlock)) → _ :=
      fun tree₁ hinv₁ hentries₁ => @ih tree₁ (txns.drop UTXO_AGG_NUMBER) hinv₁
        (by rw [List.length_drop, hlen, Nat.succ_mul, Nat.add_sub_cancel])
        (fun txn hmem => hutxo txn (List.mem_of_mem_drop hmem))
        (fresh_append_right hfresh hentries₁)
        (fun e he => (mem_keys_of_insertEntries hentries₁ he).elim (hslot e)
          fun he => hleaves e (List.mem_append_left _ he))
        fun leaf hleaf => hleaves leaf (List.mem_append_right _ hleaf)
    constructor
    · intro groups tree' h
      obtain ⟨filled, _, hlift, h⟩ := Program.bind_eq_ok.1 h
      obtain ⟨hfilled, rfl⟩ := Prod.mk.inj hlift
      obtain ⟨group, tree₁, hrun, h⟩ := Program.bind_eq_ok.1 h
      obtain ⟨groups, tree', hruns, h⟩ := Program.bind_eq_ok.1 h
      obtain ⟨rfl, rfl⟩ := Program.pure_eq_ok.1 h
      obtain ⟨hf, tree₁', hinv₁, hentries₁, result, hrun', hok, -⟩ := hgroup filled hfilled
      obtain ⟨rfl, rfl⟩ := Prod.mk.inj (hrun'.symm.trans hrun)
      obtain ⟨hn, hinv', hentries', hgroups⟩ := (hrest _ hinv₁ hentries₁).1 groups _ hruns
      refine ⟨congrArg Nat.succ hn, hinv', ?_, ?_⟩
      · rw [hentries', hentries₁, List.map_append]
        exact (List.foldl_append).symm
      · have hcolumns : ∀ column ∈ (txns.take UTXO_AGG_NUMBER).map columnOf, column.length = 7 := by
          rw [← hf.columns]
          exact List.forall_mem_map.2 fun txn htxn => (hf.utxo txn htxn).length_column
        have hcons := (hok group rfl).cons hcolumns hgroups
        rwa [← List.map_append, hsplit] at hcons
    · intro hreturns
      obtain ⟨filled, hfilled⟩ := exists_filled hreturns H (txns.take UTXO_AGG_NUMBER)
      obtain ⟨-, tree₁, hinv₁, hentries₁, result, hrun, -, hret⟩ := hgroup filled hfilled
      obtain ⟨group, rfl⟩ := hret hreturns
      obtain ⟨groups, tree', hruns⟩ := (hrest tree₁ hinv₁ hentries₁).2 hreturns
      exact ⟨group :: groups, tree', Program.bind_eq_ok.2 ⟨filled, tree, Prod.ext hfilled rfl,
        Program.bind_eq_ok.2 ⟨group, tree₁, hrun,
          Program.bind_eq_ok.2 ⟨groups, tree', hruns, rfl⟩⟩⟩⟩

end Loop

/-! ## Aggregations -/

/-- The aggregations of some transactions, from one tree to another: the groups of the transactions,
the aggregation of the groups, and the aggregation of that. -/
structure Assembled (H : List Fr → Fr) (columns : List (List Fr)) (tree tree' : MerkleTree)
    (groups : List (AccumulatedUtxo UTXO_AGG_NUMBER MERKLE_TREE_DEPTH UTXO_AGG_LEAVES))
    (inner : AccumulatedAgg UTXO_AGGREGATIONS) (outer : AccumulatedAgg 1) : Prop
    extends AreGroups H columns tree tree' groups where
  count : groups.length = UTXO_AGGREGATIONS
  inner_aggregates : inner.aggregates = groups.map fun group => ⟨[group.publicInputs H]⟩
  inner_satisfied : ∀ accepts : List (List Fr) → Prop,
    (∀ group ∈ groups, accepts [group.publicInputs H]) →
      inner.Satisfied accepts H inner.publicInputs
  outer_aggregates : outer.aggregates = [⟨[inner.publicInputs]⟩]
  outer_satisfied : ∀ accepts : List (List Fr) → Prop, accepts [inner.publicInputs] →
    outer.Satisfied accepts H outer.publicInputs
  oldRoot : outer.oldRoot = (tree.rootHash H).toBase
  newRoot : outer.newRoot = (tree'.rootHash H).toBase
  utxoValues : outer.utxoValues = utxoValues columns
  canonical : ∀ limb ∈ outer.aggInstances, limb.isCanonical = true

section Aggregations

variable {backend : Backend} {H : List Fr → Fr} {tree tree' : MerkleTree}
  {columns : List (List Fr)}
  {groups : List (AccumulatedUtxo UTXO_AGG_NUMBER MERKLE_TREE_DEPTH UTXO_AGG_LEAVES)}

/-- The roots and rows of an aggregation of linked proofs. -/
lemma rows_of_linked {AGG_N : ℕ} {agg : AccumulatedAgg AGG_N} {columns : List (List Fr)}
    (hself : agg.aggregates = columns.map fun column => ⟨[column]⟩) (hne : columns ≠ [])
    {root last : Fr} (hlinked : Linked root columns last) :
    agg.oldRoot = root ∧ agg.newRoot = last := by
  constructor
  · obtain ⟨first, rest, rfl⟩ := List.exists_cons_of_ne_nil hne
    rw [AccumulatedAgg.oldRoot, hself]
    exact hlinked.1
  · rw [hlinked.last_eq, AccumulatedAgg.newRoot, hself]
    obtain ⟨rest, final, rfl⟩ := (List.eq_nil_or_concat columns).resolve_left hne
    simp

/-- A new aggregation has the proofs that it is made of, and canonical limbs. -/
lemma newAggregateAgg_eq_ok {AGG_N : ℕ} {aggregates : List ProvedSnark}
    {hlen : (aggregates.map ProvedSnark.toSnark).length = AGG_N} {agg : AccumulatedAgg AGG_N}
    (h : newAggregateAgg backend aggregates hlen = .ok agg) :
    agg.aggregates = aggregates.map ProvedSnark.toSnark ∧
      ∀ limb ∈ agg.aggInstances, limb.isCanonical = true := by
  obtain ⟨limbs, -, hagg⟩ := Outcome.bind_eq_ok.1 h
  obtain rfl := Outcome.ok.inj hagg
  exact ⟨rfl, List.forall_mem_map.2 fun limb _ => Element.isCanonical_fromBase limb⟩

/-- The proof of a group has the public inputs of the group, whatever circuit it is made of. -/
lemma toSnark_of_snarkOfUtxos
    {self : AccumulatedUtxo UTXO_AGG_NUMBER MERKLE_TREE_DEPTH UTXO_AGG_LEAVES} {snark : ProvedSnark}
    (h : snarkOfUtxos backend H self = .ok snark) : snark.toSnark = ⟨[self.publicInputs H]⟩ := by
  obtain ⟨limbs, -, h⟩ := Outcome.bind_eq_ok.1 h
  obtain ⟨proof, -, hsnark⟩ := Outcome.bind_eq_ok.1 h
  rw [← Outcome.ok.inj hsnark]

/-- The aggregation of some groups has their proofs. -/
lemma aggregateAggregateUtxo_eq_ok {inner : AccumulatedAgg UTXO_AGGREGATIONS}
    (h : aggregateAggregateUtxo backend H groups = .ok inner) :
    inner.aggregates = groups.map fun group => ⟨[group.publicInputs H]⟩ := by
  obtain ⟨snarks, hsnarks, h⟩ := Outcome.bind_eq_ok.1 h
  split_ifs at h with hfit
  rw [(newAggregateAgg_eq_ok h).1]
  exact Outcome.map_of_mapM_eq_ok (fun _ _ => toSnark_of_snarkOfUtxos) hsnarks

/-- **The aggregations of some groups**: their witnesses satisfy their circuits. -/
lemma AreGroups.assembled (h : AreGroups H columns tree tree' groups)
    (hlen : groups.length = UTXO_AGGREGATIONS) {outer : AccumulatedAgg 1} {proof : Contract.Bytes}
    (hok : aggregateAll backend H groups = .ok (outer, proof)) :
    ∃ inner, Assembled H columns tree tree' groups inner outer := by
  obtain ⟨inner, hinner, hok⟩ := Outcome.bind_eq_ok.1 hok
  obtain ⟨snark, hsnark, hok⟩ := Outcome.bind_eq_ok.1 hok
  obtain ⟨made, houter, hok⟩ := Outcome.bind_eq_ok.1 hok
  obtain ⟨_, -, hok⟩ := Outcome.bind_eq_ok.1 hok
  obtain rfl : outer = made := (congrArg Prod.fst (Outcome.ok.inj hok)).symm
  have haggregates := aggregateAggregateUtxo_eq_ok hinner
  have hcolumns : inner.aggregates =
      (groups.map fun group => group.publicInputs H).map fun column => ⟨[column]⟩ := by
    rw [haggregates, List.map_map]
    rfl
  have hne : (groups.map fun group => group.publicInputs H) ≠ [] :=
    List.ne_nil_of_length_pos (by rw [List.length_map, hlen]; decide)
  have hrows : ∀ column ∈ groups.map fun group => group.publicInputs H, 14 ≤ column.length := by
    refine List.forall_mem_map.2 fun group _ => ?_
    rw [group.length_publicInputs]
    decide
  obtain ⟨hold, hnew⟩ := rows_of_linked hcolumns hne h.linked
  -- the outermost aggregation has one proof, that of the inner one
  obtain ⟨hold', hnew', hdrop⟩ := inner.rows_publicInputs
  obtain ⟨hself, hcanonical⟩ := newAggregateAgg_eq_ok houter
  have hproof : snark.toSnark = ⟨[inner.publicInputs]⟩ := by
    obtain ⟨_, -, hsnark⟩ := Outcome.bind_eq_ok.1 hsnark
    rw [← Outcome.ok.inj hsnark]
  have hcolumn : outer.aggregates = [inner.publicInputs].map fun column => ⟨[column]⟩ := by
    rw [hself, List.map_singleton, hproof]
    rfl
  have hlinked : Linked inner.oldRoot [inner.publicInputs] inner.newRoot := ⟨hold', hnew'.symm⟩
  obtain ⟨houterOld, houterNew⟩ := rows_of_linked hcolumn (List.cons_ne_nil _ _) hlinked
  refine ⟨inner, h, hlen, haggregates, fun accepts haccepts => ?_, hcolumn,
    fun accepts haccepts => ?_,
    houterOld.trans hold, houterNew.trans hnew, ?_, hcanonical⟩
  · refine (AccumulatedAgg.satisfied_iff hcolumns hrows hne _).2
      ⟨List.forall_mem_map.2 haccepts, ?_, (rowsAt_zero_iff rfl).2 rfl⟩
    rw [hold, hnew]
    exact h.linked
  · refine (AccumulatedAgg.satisfied_iff hcolumn (List.forall_mem_singleton.2
      inner.le_length_publicInputs) (List.cons_ne_nil _ _) _).2
      ⟨List.forall_mem_singleton.2 haccepts, ?_, (rowsAt_zero_iff rfl).2 rfl⟩
    rw [houterOld, houterNew]
    exact hlinked
  · rw [AccumulatedAgg.utxoValues_eq hcolumn, List.flatMap_singleton, hdrop,
      AccumulatedAgg.utxoValues_eq hcolumns, ← h.values, List.flatMap_map]
    exact List.flatMap_congr fun group _ => (group.rows_publicInputs H).2.2

/-- If third-party code returns, two groups are aggregated and the proof of a block is created. -/
lemma aggregateAll_returns (hreturns : backend.Returns) (H : List Fr → Fr)
    (hlen : groups.length = UTXO_AGGREGATIONS) :
    ∃ result, aggregateAll backend H groups = .ok result := by
  have hutxo : ∀ self, ∃ snark, snarkOfUtxo backend H self = .ok snark := by
    intro self
    obtain ⟨proof, hproof⟩ := hreturns.createUtxo self (self.publicInputs H)
    exact ⟨_, Outcome.bind_eq_ok.2 ⟨proof, hproof, rfl⟩⟩
  obtain ⟨limbs, hlimbs⟩ : ∃ limbs, defaultLimbs backend H = .ok limbs := by
    obtain ⟨utxo, hmap⟩ := Outcome.mapM_returns (l := List.replicate UTXO_AGG_NUMBER
      (Utxo.default H MERKLE_TREE_DEPTH_le)) fun self _ => hutxo self
    obtain ⟨limbs, hlimbs⟩ := hreturns.accumulatorNative utxo
    refine ⟨limbs, Outcome.bind_eq_ok.2 ⟨utxo, ?_, hlimbs⟩⟩
    rw [hmap]
    rfl
  have hgroup : ∀ self, ∃ snark, snarkOfUtxos backend H self = .ok snark := by
    intro self
    obtain ⟨proof, hproof⟩ := hreturns.createAggregateUtxo
      (self.snark H MERKLE_TREE_DEPTH_le limbs.1 limbs.2).1 (self.publicInputs H)
    exact ⟨_, Outcome.bind_eq_ok.2 ⟨limbs, hlimbs, Outcome.bind_eq_ok.2 ⟨proof, hproof, rfl⟩⟩⟩
  have hnew : ∀ {AGG_N : ℕ} (snarks : List ProvedSnark)
      (h : (snarks.map ProvedSnark.toSnark).length = AGG_N),
      ∃ agg, newAggregateAgg backend snarks h = .ok agg := by
    intro AGG_N snarks h
    obtain ⟨limbs, hlimbs⟩ := hreturns.accumulatorNative snarks
    exact ⟨_, Outcome.bind_eq_ok.2 ⟨limbs, hlimbs, rfl⟩⟩
  obtain ⟨snarks, hsnarks⟩ := Outcome.mapM_returns (l := groups) fun self _ => hgroup self
  have hfit : (snarks.map ProvedSnark.toSnark).length = UTXO_AGGREGATIONS := by
    rw [Outcome.map_of_mapM_eq_ok (fun _ _ => toSnark_of_snarkOfUtxos) hsnarks, List.length_map,
      hlen]
  obtain ⟨inner, hinner⟩ := hnew snarks hfit
  obtain ⟨proof, hproof⟩ := hreturns.createAggregateAgg inner inner.publicInputs
  obtain ⟨outer, houter⟩ := hnew [⟨⟨[inner.publicInputs]⟩, proof⟩] rfl
  obtain ⟨bytes, hbytes⟩ := hreturns.genProof outer outer.publicInputs
  refine ⟨(outer, bytes), Outcome.bind_eq_ok.2 ⟨inner, Outcome.bind_eq_ok.2 ⟨snarks, hsnarks, ?_⟩,
    Outcome.bind_eq_ok.2 ⟨_, Outcome.bind_eq_ok.2 ⟨proof, hproof, rfl⟩,
      Outcome.bind_eq_ok.2 ⟨outer, houter, Outcome.bind_eq_ok.2 ⟨bytes, hbytes, rfl⟩⟩⟩⟩⟩
  rw [dif_pos hfit, hinner]

/-- The public inputs of the transactions of a block, with padding for those that are missing. -/
def fill (txns : Fin MAXIMUM_TXNS → Option Transaction) : List (List Fr) :=
  (List.ofFn txns).map columnOf

/-- **All aggregations of a block.** With any transactions, whose leaves have slots of their own
that are empty in the tree and are not slot 0, the aggregations that are made lead from the root of
the tree to the root of the tree with the leaves of the block, and each witness satisfies its
circuit on its public inputs if the proofs under it are accepted. They are made if third-party code
returns.

**Proof sketch.** By `aggregateUtxos_spec` for the groups and by `AreGroups.assembled` for the two
aggregations over them. -/
theorem generateAggregateProof_spec (backend : Backend) (htree : tree.Inv H)
    {txns : Fin MAXIMUM_TXNS → Option Transaction}
    (hutxo : ∀ i txn, txns i = some txn → txn.IsUtxo) (currentBlock : ℕ)
    (hfresh : tree.Fresh (blockLeaves txns))
    (hslot : ∀ e ∈ tree.entries.keys, e.slot (MERKLE_TREE_DEPTH - 1) ≠ 0)
    (hleaves : ∀ leaf ∈ blockLeaves txns, leaf.slot (MERKLE_TREE_DEPTH - 1) ≠ 0) :
    (∀ outer proof tree',
      generateAggregateProof backend H txns currentBlock tree = (.ok (outer, proof), tree') →
        ∃ groups inner, tree'.Inv H ∧
          tree'.entries = Tree.insertEntries tree.entries
            ((blockLeaves txns).map fun leaf => (leaf, currentBlock)) ∧
          Assembled H (fill txns) tree tree' groups inner outer) ∧
    (backend.Returns → ∃ result tree',
      generateAggregateProof backend H txns currentBlock tree = (.ok result, tree')) := by
  have hutxos : ∀ txn, some txn ∈ List.ofFn txns → txn.IsUtxo := by
    intro txn hmem
    obtain ⟨i, hi⟩ := List.mem_ofFn.1 hmem
    exact hutxo i txn hi
  have hlen : (List.ofFn txns).length = UTXO_AGGREGATIONS * UTXO_AGG_NUMBER := by
    rw [List.length_ofFn]
    rfl
  obtain ⟨hspec, hloop⟩ :=
    aggregateUtxos_spec backend currentBlock UTXO_AGGREGATIONS htree hlen hutxos hfresh hslot
      hleaves
  constructor
  · intro outer proof tree' h
    obtain ⟨groups, tree₁, hruns, h⟩ := Program.bind_eq_ok.1 h
    obtain ⟨hall, rfl⟩ := Prod.mk.inj h
    obtain ⟨hn, hinv, hentries, hgroups⟩ := hspec groups tree₁ hruns
    obtain ⟨inner, hassembled⟩ := hgroups.assembled hn hall
    exact ⟨groups, inner, hinv, hentries, hassembled⟩
  · intro hreturns
    obtain ⟨groups, tree', hruns⟩ := hloop hreturns
    obtain ⟨result, hresult⟩ := aggregateAll_returns hreturns H (hspec groups tree' hruns).1
    exact ⟨result, tree', Program.bind_eq_ok.2 ⟨groups, tree', hruns, Prod.ext hresult rfl⟩⟩

end Aggregations

/-! ## The call of the contract -/

section Rollup

variable {H : List Fr → Fr} {tree tree' : MerkleTree}

/-- The three hashes of a transaction of a block, as the contract gets them. -/
def utxoHashesOf (column : List Fr) : Contract.UtxoHashes where
  recentRoot := Element.fromBase (column.getD 0 0)
  mb := Element.fromBase (column.getD 1 0)
  value := Element.fromBase (column.getD 2 0)

/-- What the contract gets of the aggregations of a block. -/
structure Submitted (H : List Fr → Fr) (columns : List (List Fr)) (tree tree' : MerkleTree)
    (outer : AccumulatedAgg 1) (block : Contract.BlockProof) : Prop where
  oldRoot : block.oldRoot.toBase = (tree.rootHash H).toBase
  newRoot : block.newRoot.toBase = (tree'.rootHash H).toBase
  utxoHashes : List.ofFn block.utxoHashes = columns.map utxoHashesOf
  publicInputs : block.publicInputs = outer.publicInputs
  verify : ∀ plonkVerifier, Contract.AggregateVerifier.verify plonkVerifier block.aggrProof
    block.aggrInstances block.oldRoot block.newRoot block.utxoHashes =
      plonkVerifier block.aggrProof (outer.publicInputs.map Element.fromBase)

/-- The words that the contract reads of the calldata. -/
lemma instances_eq (aggrProof : Contract.Bytes) (aggrInstances : Fin 12 → Element)
    (oldRoot newRoot : Element) (utxoHashes : Fin 6 → Contract.UtxoHashes) :
    Contract.AggregateVerifier.instances aggrProof aggrInstances oldRoot newRoot utxoHashes =
      List.ofFn aggrInstances ++ ([oldRoot, newRoot] ++
        (List.ofFn utxoHashes).flatMap fun hashes =>
          [hashes.recentRoot, hashes.mb, hashes.value]) := by
  have hlen : (List.ofFn aggrInstances ++ ([oldRoot, newRoot] ++
      (List.ofFn utxoHashes).flatMap fun hashes =>
        [hashes.recentRoot, hashes.mb, hashes.value])).length = 32 := by
    simp
  rw [Contract.AggregateVerifier.instances, Contract.AggregateVerifier.calldata]
  simp only [List.cons_append, List.nil_append, List.append_assoc, List.drop_succ_cons,
    List.drop_zero] at hlen ⊢
  rw [← List.cons_append, ← List.cons_append, ← List.append_assoc]
  exact List.take_left' hlen

/-- The first public inputs of a UTXO proof are the hashes that the contract gets. -/
lemma take_column {column : List Fr} (h : column.length = 7) :
    [(utxoHashesOf column).recentRoot, (utxoHashesOf column).mb, (utxoHashesOf column).value] =
      (column.take 3).map Element.fromBase := by
  rcases column with _ | ⟨a, _ | ⟨b, _ | ⟨c, leaves⟩⟩⟩
  all_goals first | rfl | cases h

/-- The hashes of the transactions of a block, among the values of its aggregation. -/
def utxoHashesAt (values : List Element) (k : Fin 6) : Contract.UtxoHashes where
  recentRoot := values.getD (3 * k + 0) 0
  mb := values.getD (3 * k + 1) 0
  value := values.getD (3 * k + 2) 0

/-- The values of six transactions are their hashes, one transaction after the other. -/
lemma ofFn_utxoHashesAt {columns : List (List Fr)}
    (hcolumns : ∀ column ∈ columns, column.length = 7) (hlen : columns.length = 6) :
    List.ofFn (utxoHashesAt ((Circuits.utxoValues columns).map Element.fromBase)) =
      columns.map utxoHashesOf := by
  refine List.ext_getElem (by rw [List.length_ofFn, List.length_map, hlen]) fun k hk hk' => ?_
  rw [List.length_map] at hk'
  have hcolumn : columns[k]? = some columns[k] := List.getElem?_eq_getElem hk'
  have hvalue : ∀ c, c < 3 →
      ((Circuits.utxoValues columns).map Element.fromBase).getD (3 * k + c) 0 =
        Element.fromBase (columns[k].getD c 0) := by
    intro c hc
    rw [List.getD_eq_getElem?_getD, List.getElem?_map, getElem?_utxoValues hcolumns hcolumn hc]
    rfl
  simp only [List.getElem_ofFn, List.getElem_map, utxoHashesOf, utxoHashesAt]
  rw [hvalue 0 (by decide), hvalue 1 (by decide), hvalue 2 (by decide)]

/-- Canonical limbs are the same as words and as field elements. -/
lemma ofFn_get_limbs {limbs : List Element} (hlen : limbs.length = 12)
    (hcanonical : ∀ limb ∈ limbs, limb.isCanonical = true) :
    (List.ofFn fun i : Fin 12 => limbs.get (i.cast hlen.symm)) =
      (limbs.map Element.toBase).map Element.fromBase := by
  refine List.ext_getElem (by simp [hlen]) fun i hi hi' => ?_
  rw [List.getElem_ofFn, List.getElem_map, List.getElem_map,
    Element.fromBase_toBase (hcanonical _ (List.getElem_mem _))]
  rfl

/-- **The words of a call are the public inputs** of the outermost aggregation. -/
lemma instances_of_aggregation {columns : List (List Fr)} {outer : AccumulatedAgg 1}
    (hcolumns : ∀ column ∈ columns, column.length = 7) (hlen : columns.length = 6)
    (hvalues : outer.utxoValues = Circuits.utxoValues columns)
    (hcanonical : ∀ limb ∈ outer.aggInstances, limb.isCanonical = true)
    (hlimbs : outer.aggInstances.length = 12) (bytes : Contract.Bytes) :
    Contract.AggregateVerifier.instances bytes
      (fun i => outer.aggInstances.get (i.cast hlimbs.symm)) (Element.fromBase outer.oldRoot)
      (Element.fromBase outer.newRoot) (utxoHashesAt (outer.utxoValues.map Element.fromBase)) =
        outer.publicInputs.map Element.fromBase := by
  have hflat : (columns.map utxoHashesOf).flatMap (fun hashes =>
      [hashes.recentRoot, hashes.mb, hashes.value]) = outer.utxoValues.map Element.fromBase := by
    rw [hvalues, Circuits.utxoValues, List.map_flatMap, List.flatMap_map]
    exact List.flatMap_congr fun column hcolumn => take_column (hcolumns column hcolumn)
  rw [instances_eq, hvalues, ofFn_utxoHashesAt hcolumns hlen, hflat,
    ofFn_get_limbs hlimbs hcanonical, AccumulatedAgg.publicInputs, List.map_append, List.map_append]
  rfl

/-- A canonical word is a valid field element. -/
lemma isValidFieldElement_of_isCanonical {e : Element} (h : e.isCanonical = true) :
    Contract.AggregateVerifier.isValidFieldElement e = true :=
  decide_eq_true ((Element.isCanonical_iff e).1 h)

/-- **Canonical words are handed on** to the verifier of the outermost proof. -/
lemma verify_of_isCanonical {aggrInstances : Fin 12 → Element} {oldRoot newRoot : Element}
    {values : List Fr} (hinstances : ∀ i, (aggrInstances i).isCanonical = true)
    (hold : oldRoot.isCanonical = true) (hnew : newRoot.isCanonical = true)
    (plonkVerifier : Contract.Bytes → List Element → Bool) (bytes : Contract.Bytes) :
    Contract.AggregateVerifier.verify plonkVerifier bytes aggrInstances oldRoot newRoot
        (utxoHashesAt (values.map Element.fromBase)) =
      plonkVerifier bytes (Contract.AggregateVerifier.instances bytes aggrInstances oldRoot newRoot
        (utxoHashesAt (values.map Element.fromBase))) := by
  have hvalue : ∀ n, Contract.AggregateVerifier.isValidFieldElement
      ((values.map Element.fromBase).getD n 0) = true := by
    intro n
    rw [← Element.fromBase_zero, List.getD_map]
    exact isValidFieldElement_of_isCanonical (Element.isCanonical_fromBase _)
  have hall : ∀ n, (List.finRange n).all (fun _ => true) = true := fun n =>
    List.all_eq_true.2 fun _ _ => rfl
  rw [Contract.AggregateVerifier.verify]
  simp only [utxoHashesAt, hvalue, isValidFieldElement_of_isCanonical (hinstances _),
    isValidFieldElement_of_isCanonical hold, isValidFieldElement_of_isCanonical hnew,
    Bool.and_self, Bool.true_and, hall]

/-- **The call for an assembled block.**

**Proof sketch.** The limbs, roots and values are canonical, so that they are the same as words and
as field elements (`instances_of_aggregation`), and the contract's checks of them pass
(`verify_of_isCanonical`). The values of each group of three are those of one transaction
(`ofFn_utxoHashesAt`). -/
lemma Assembled.rollup {columns : List (List Fr)}
    {groups : List (AccumulatedUtxo UTXO_AGG_NUMBER MERKLE_TREE_DEPTH UTXO_AGG_LEAVES)}
    {inner : AccumulatedAgg UTXO_AGGREGATIONS} {outer : AccumulatedAgg 1}
    (h : Assembled H columns tree tree' groups inner outer)
    (hcolumns : ∀ column ∈ columns, column.length = 7) (hlen : columns.length = 6)
    (bytes : Contract.Bytes) (height : ℕ) (otherHash : Element)
    (signatures : List Node.Signature) :
    ∃ block, Prover.rollup ⟨⟨bytes, outer.aggInstances, Element.fromBase outer.oldRoot,
        Element.fromBase outer.newRoot, outer.utxoValues.map Element.fromBase⟩, height, otherHash,
        signatures⟩ = .ok block ∧ Submitted H columns tree tree' outer block := by
  have hlimbs : outer.aggInstances.length = 12 := outer.length_aggInstances
  have hcount : (outer.utxoValues.map Element.fromBase).length = 6 * 3 := by
    rw [List.length_map, h.utxoValues, length_utxoValues hcolumns, hlen]
  have hashes : List.ofFn (utxoHashesAt (outer.utxoValues.map Element.fromBase)) =
      columns.map utxoHashesOf := by
    rw [h.utxoValues]
    exact ofFn_utxoHashesAt hcolumns hlen
  have hinstances :=
    instances_of_aggregation hcolumns hlen h.utxoValues h.canonical hlimbs bytes
  refine ⟨_, dif_pos ⟨hlimbs, hcount⟩, ?_, ?_, hashes, ?_, fun plonkVerifier => ?_⟩
  · rw [Element.toBase_fromBase, h.oldRoot]
  · rw [Element.toBase_fromBase, h.newRoot]
  · refine (congrArg (List.map Element.toBase) hinstances).trans ?_
    rw [List.map_map]
    exact List.map_id'' Element.toBase_fromBase _
  · rw [← hinstances]
    exact verify_of_isCanonical (fun i => h.canonical _ (List.get_mem _ _))
      (Element.isCanonical_fromBase _) (Element.isCanonical_fromBase _) plonkVerifier bytes

/-- A padding transaction satisfies its circuit. -/
lemma utxoColumns_padding (H : List Fr → Fr) :
    Contract.UtxoColumns (Utxo.honestEnv H []) MERKLE_TREE_DEPTH [[0, 0, 0, 0, 0, 0, 0]] := by
  obtain ⟨cells, hcells⟩ := Utxo.satisfied_newPadding MERKLE_TREE_DEPTH_le (H := H)
  rw [Utxo.publicInputs_newPadding] at hcells
  exact ⟨⟨.newPadding H MERKLE_TREE_DEPTH_le, _, cells⟩, rfl, hcells⟩

/-- The witnesses of the aggregations of a block are witnesses on every level. -/
lemma Assembled.aggregates {columns : List (List Fr)}
    {groups : List (AccumulatedUtxo UTXO_AGG_NUMBER MERKLE_TREE_DEPTH UTXO_AGG_LEAVES)}
    {inner : AccumulatedAgg UTXO_AGGREGATIONS} {outer : AccumulatedAgg 1}
    (h : Assembled H columns tree tree' groups inner outer) {block : Contract.BlockProof}
    (hblock : block.publicInputs = outer.publicInputs)
    (hcolumns : ∀ column ∈ columns,
      Contract.UtxoColumns (Utxo.honestEnv H []) MERKLE_TREE_DEPTH [column]) :
    block.Aggregates (Utxo.honestEnv H []) MERKLE_TREE_DEPTH := by
  have hgroups : ∀ group ∈ groups, Contract.GroupColumns (Utxo.honestEnv H []) MERKLE_TREE_DEPTH
      [group.publicInputs H] := by
    intro group hmem
    obtain ⟨cells, hcells, -⟩ := h.satisfied _ hcolumns group hmem
    exact ⟨group.toAggregateUtxo, _, cells, rfl, h.shapes group hmem, hcells⟩
  have hshape : ∀ snark ∈ inner.aggregates, snark.numInstance = [14 + 3 * UTXO_AGG_NUMBER] := by
    rw [h.inner_aggregates]
    exact List.forall_mem_map.2 fun group _ => congrArg (fun n => [n]) group.length_publicInputs
  have hinner : Contract.AggregationColumns (Utxo.honestEnv H []) 2 23
      (Contract.GroupColumns (Utxo.honestEnv H []) MERKLE_TREE_DEPTH) [inner.publicInputs] := by
    obtain ⟨cells, hcells, -⟩ := h.inner_satisfied _ hgroups
    exact ⟨inner.toAggregateAgg, _, cells, rfl, hshape, hcells⟩
  obtain ⟨cells, hcells, -⟩ := h.outer_satisfied _ hinner
  rw [Contract.BlockProof.Aggregates, hblock]
  refine ⟨outer.toAggregateAgg, _, cells, rfl, ?_, hcells⟩
  rw [h.outer_aggregates]
  exact List.forall_mem_singleton.2 (congrArg (fun n => [n]) (inner.length_publicInputs hshape))

/-- Third-party code that computes zeros. -/
def sampleBackend : Backend where
  accumulatorNative _ := .ok ⟨List.replicate (4 * LIMBS) 0, List.length_replicate⟩
  createUtxo _ _ := .ok []
  createAggregateUtxo _ _ := .ok []
  createAggregateAgg _ _ := .ok []
  genProof _ _ := .ok []

/-- Third-party code of the sample returns. -/
lemma returns_sampleBackend : sampleBackend.Returns where
  accumulatorNative _ := ⟨_, rfl⟩
  createUtxo _ _ := ⟨_, rfl⟩
  createAggregateUtxo _ _ := ⟨_, rfl⟩
  createAggregateAgg _ _ := ⟨_, rfl⟩
  genProof _ _ := ⟨_, rfl⟩

/-- A block of three transactions. -/
def sampleBlock (i : Fin MAXIMUM_TXNS) : Option Transaction := sampleTxns[i.val]?

/-- The leaves of the sample block. -/
lemma blockLeaves_sampleBlock : blockLeaves sampleBlock = [5, 6, 7] := by
  decide +kernel

end Rollup

end Prover

end TempoRollup
