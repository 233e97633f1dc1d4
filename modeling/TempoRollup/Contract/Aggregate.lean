import TempoRollup.Circuits.Aggregate
import TempoRollup.Contract.Block

set_option relaxedAutoImplicit false
set_option autoImplicit false

/-!
# The aggregate verifier

`src/AggregateVerifierV1.sol`: the public inputs that the contract passes to the plonk verifier of
the aggregation, and what a satisfying assignment on them says about the roots and the
transactions of a block.

## Main definitions

* `AggregateVerifier.instances` — the words copied from the calldata of `verify`.
* `AggregateVerifier.verify` — `verify`, with the plonk verifier as a parameter.
* `BlockProof.Aggregates` — a block whose proofs have witnesses on every level.

## Main results

* `AggregateVerifier.getD_instances` — which argument stands in which row.
* `AggregateVerifier.aggregate_inserts` — the new root is the old root with the leaves of all
  aggregated UTXO proofs inserted in order.

## Design

A proof that the plonk verifier accepts is one of the outermost aggregation only. The circuits below
it verify their inner proofs up to a pairing, and leave the points of that pairing in the first
twelve public inputs; the contract passes these on, but no verifier is generated with
`AggregationChip::accumulator_indices`, so that nobody computes the pairing. Whether the inner
proofs hold is left to the provers, whom the contract trusts that far (`onlyProver`). So it is no
consequence of a verified block that its transactions satisfy their circuits: it is a property of
the block, `BlockProof.Aggregates`, which results about the transactions of a block assume of it.
-/

open ConstraintSystem
open TempoRollup.Circuits

namespace TempoRollup.Contract

namespace AggregateVerifier

/-- The words of the calldata of `verify` after the selector, up to the bytes of the proof: the
offset of the proof, the other arguments, which are static, and the length of the proof. -/
def calldata (aggrProof : Bytes) (aggrInstances : Fin 12 → Element) (oldRoot newRoot : Element)
    (utxoHashes : Fin 6 → UtxoHashes) : List Element :=
  [BitVec.ofNat 256 (33 * 32)] ++ List.ofFn aggrInstances ++ [oldRoot] ++ [newRoot] ++
    (List.ofFn utxoHashes).flatMap (fun hashes => [hashes.recentRoot, hashes.mb, hashes.value]) ++
    [BitVec.ofNat 256 aggrProof.length]

/-- The 32 words from `aggrInstances` on. -/
def instances (aggrProof : Bytes) (aggrInstances : Fin 12 → Element) (oldRoot newRoot : Element)
    (utxoHashes : Fin 6 → UtxoHashes) : List Element :=
  ((calldata aggrProof aggrInstances oldRoot newRoot utxoHashes).drop 1).take 32

/-- `requireValidFieldElement`. -/
def isValidFieldElement (x : Element) : Bool := x.toNat < Element.MODULUS

/-- `verify` returns. -/
def verify (plonkVerifier : Bytes → List Element → Bool) (aggrProof : Bytes)
    (aggrInstances : Fin 12 → Element) (oldRoot newRoot : Element)
    (utxoHashes : Fin 6 → UtxoHashes) : Bool :=
  (List.finRange 12).all (fun i => isValidFieldElement (aggrInstances i)) &&
    isValidFieldElement oldRoot && isValidFieldElement newRoot &&
    (List.finRange 6).all (fun i => isValidFieldElement (utxoHashes i).recentRoot &&
      isValidFieldElement (utxoHashes i).mb && isValidFieldElement (utxoHashes i).value) &&
    plonkVerifier aggrProof (instances aggrProof aggrInstances oldRoot newRoot utxoHashes)

section Rows

variable (aggrProof : Bytes) (aggrInstances : Fin 12 → Element) (oldRoot newRoot : Element)
  (utxoHashes : Fin 6 → UtxoHashes)

/-- The rows of the public inputs. -/
structure Rows (rows : List Fr) : Prop where
  limb : ∀ i : Fin 12, rows.getD i.val 0 = (aggrInstances i).toBase
  old : rows.getD 12 0 = oldRoot.toBase
  new : rows.getD 13 0 = newRoot.toBase
  recentRoot : ∀ k : Fin 6, rows.getD (14 + (3 * k.val + 0)) 0 = (utxoHashes k).recentRoot.toBase
  mb : ∀ k : Fin 6, rows.getD (14 + (3 * k.val + 1)) 0 = (utxoHashes k).mb.toBase
  value : ∀ k : Fin 6, rows.getD (14 + (3 * k.val + 2)) 0 = (utxoHashes k).value.toBase

/-- **Which argument stands in which row.** -/
theorem getD_instances :
    Rows aggrInstances oldRoot newRoot utxoHashes
      ((instances aggrProof aggrInstances oldRoot newRoot utxoHashes).map Element.toBase) where
  limb i := by fin_cases i <;> rfl
  old := rfl
  new := rfl
  recentRoot k := by fin_cases k <;> rfl
  mb k := by fin_cases k <;> rfl
  value k := by fin_cases k <;> rfl

end Rows

/-- **What an aggregation proves.** Let the verification of inner proofs be sound: accepted public
inputs are those of a satisfying assignment of the UTXO circuit, or of `AggregateUtxo` with four
leaves for each UTXO proof. Then a satisfying assignment of `AggregateAgg` rolls up one list of UTXO
proofs, the groups of the aggregated proofs one after the other. On the public inputs that the
contract passes, the limbs, roots and hashes are those of the arguments: the triple of each
transaction is that of its proof, and the leaves of all proofs, in order, lead from the old root to
the new root. Without collisions this is the insertion of the non-zero leaves in empty slots of the
tree of the old root.

**Proof sketch.** Each accepted group rolls up its proofs (`AggregateUtxo.rollsUp`), and the
aggregation rolls up the groups (`AggregateAgg.rollsUp`). The rows that the contract passes are read
off by `getD_instances`, and the insertion of the leaves is that of `InsertsTo.sound`. -/
theorem aggregate_inserts {AGG_N UTXO_N LEAVES depth : ℕ} (hleaves : LEAVES = 4 * UTXO_N)
    (env : ConstraintSystem.Env Fr) (acceptsUtxo acceptsAgg : List (List Fr) → Prop)
    (hutxo : ∀ columns, acceptsUtxo columns →
      ∃ t : TxnAssignment depth, columns = [t.instances] ∧ t.Satisfied env)
    (hagg : ∀ columns, acceptsAgg columns →
      ∃ (agg : AggregateUtxo UTXO_N depth LEAVES) (instances : List Fr) (cells : AggregateCells),
        columns = [instances] ∧ (∀ snark ∈ agg.utxo, snark.numInstance = [7]) ∧
        agg.enforceConstraints acceptsUtxo env.hash { env with instances := instances } cells)
    (self : AggregateAgg AGG_N)
    (hrows : ∀ snark ∈ self.aggregates, snark.numInstance = [14 + 3 * UTXO_N])
    (rows : List Fr) (cells : AggregateCells)
    (h : self.enforceConstraints acceptsAgg { env with instances := rows } cells) :
    ∃ utxos : List (List Fr), utxos.length = AGG_N * UTXO_N ∧
      (∀ utxo ∈ utxos, utxo.length = 7 ∧
        ∃ t : TxnAssignment depth, t.instances = utxo ∧ t.Satisfied env) ∧
      RollsUp env depth rows utxos ∧
      ∀ aggrProof aggrInstances oldRoot newRoot utxoHashes,
        rows = (instances aggrProof aggrInstances oldRoot newRoot utxoHashes).map Element.toBase →
        (∀ i : Fin 12, cells.aggCells[i.val]? = some (aggrInstances i).toBase) ∧
        (∀ (k : Fin 6) (utxo : List Fr), utxos[k.val]? = some utxo →
          (utxoHashes k).recentRoot.toBase = utxo.getD 0 0 ∧
          (utxoHashes k).mb.toBase = utxo.getD 1 0 ∧
          (utxoHashes k).value.toBase = utxo.getD 2 0) ∧
        InsertsTo env depth oldRoot.toBase (utxoLeafs utxos) newRoot.toBase ∧
        (Set.InjOn env.hash env.hashed → ∀ T : ℕ → Fr, TreeHashed env depth T →
          treeRoot env depth T = oldRoot.toBase →
          FillsEmpty depth T (utxoLeafs utxos) ∧
            newRoot.toBase = treeRoot env depth (insertLeaves depth T (utxoLeafs utxos))) := by
  have hgroup : ∀ column, acceptsAgg [column] →
      RollUps env depth UTXO_N (fun utxo => acceptsUtxo [utxo]) column := by
    intro column haccepts
    obtain ⟨agg, inner, innerCells, hinner, hshape, hsat⟩ := hagg [column] haccepts
    obtain rfl : column = inner := List.head_eq_of_cons_eq hinner
    exact AggregateUtxo.rollsUp hleaves hshape hsat
  obtain ⟨⟨utxos, hcount, hutxos, hrolls⟩, hlimbs, hlimbRows⟩ :=
    AggregateAgg.rollsUp hgroup hrows h
  refine ⟨utxos, hcount, fun utxo hmem => ?_, hrolls, ?_⟩
  · obtain ⟨hlen, haccepts⟩ := hutxos utxo hmem
    obtain ⟨t, ht, hsat⟩ := hutxo [utxo] haccepts
    exact ⟨hlen, t, (List.head_eq_of_cons_eq ht).symm, hsat⟩
  · rintro aggrProof aggrInstances oldRoot newRoot utxoHashes rfl
    have hargs := getD_instances aggrProof aggrInstances oldRoot newRoot utxoHashes
    have hinserts := hrolls.inserts
    rw [hargs.old, hargs.new] at hinserts
    refine ⟨fun i => ?_, fun k utxo hk => ?_, hinserts, fun hinj T hT hroot => ?_⟩
    · have hi : i.val < cells.aggCells.length := by rw [hlimbs]; exact i.isLt
      have hlimb := hlimbRows i.val _ (List.getElem?_eq_getElem hi)
      rw [List.getElem?_eq_getElem hi, ← hlimb, hargs.limb i]
    · have hvalue : ∀ c, c < 3 → _ := fun c hc =>
        hrolls.values (3 * k.val + c) _
          (getElem?_utxoValues (fun utxo hmem => (hutxos utxo hmem).1) hk hc)
      exact ⟨(hargs.recentRoot k).symm.trans (hvalue 0 (by decide)),
        (hargs.mb k).symm.trans (hvalue 1 (by decide)),
        (hargs.value k).symm.trans (hvalue 2 (by decide))⟩
    · exact hinserts.sound hinj hT hroot

end AggregateVerifier

/-! ## Blocks whose proofs have witnesses -/

section Levels

variable (env : ConstraintSystem.Env Fr) (depth : ℕ)

/-- The public inputs of a satisfying assignment of the UTXO circuit. -/
def UtxoColumns (columns : List (List Fr)) : Prop :=
  ∃ t : TxnAssignment depth, columns = [t.instances] ∧ t.Satisfied env

/-- The public inputs of a satisfying assignment of `AggregateUtxo` over three transactions that
satisfy their circuits. -/
def GroupColumns (columns : List (List Fr)) : Prop :=
  ∃ (agg : AggregateUtxo 3 depth 12) (instances : List Fr) (cells : AggregateCells),
    columns = [instances] ∧ (∀ snark ∈ agg.utxo, snark.numInstance = [7]) ∧
    agg.enforceConstraints (UtxoColumns env depth) env.hash
      { env with instances := instances } cells

/-- The public inputs of a satisfying assignment of `AggregateAgg` over proofs with `rows` public
inputs each, of a level below. -/
def AggregationColumns (AGG_N rows : ℕ) (below : List (List Fr) → Prop)
    (columns : List (List Fr)) : Prop :=
  ∃ (agg : AggregateAgg AGG_N) (instances : List Fr) (cells : AggregateCells),
    columns = [instances] ∧ (∀ snark ∈ agg.aggregates, snark.numInstance = [rows]) ∧
    agg.enforceConstraints below { env with instances := instances } cells

/-- The public inputs of the proof of a block, as the contract passes them. -/
def BlockProof.publicInputs (block : BlockProof) : List Fr :=
  (AggregateVerifier.instances block.aggrProof block.aggrInstances block.oldRoot block.newRoot
    block.utxoHashes).map Element.toBase

/-- **The proofs of a block have witnesses on every level**: its public inputs are those of an
aggregation of an aggregation of two groups of three transactions, and each of these satisfies its
circuit. -/
def BlockProof.Aggregates (block : BlockProof) : Prop :=
  AggregationColumns env 1 32 (AggregationColumns env 2 23 (GroupColumns env depth))
    [block.publicInputs]

end Levels

namespace AggregateVerifier

/-! ## A sample -/

/-- The public inputs of the mint of the sample run. -/
def sampleMint : List Fr := [0, 8, 5, 0, 0, 8, 0]

/-- The public inputs of the burn of the sample run. -/
def sampleBurn : List Fr := [9, 11, 5, 11, 0, 0, 0]

/-- A group of one transaction. -/
def sampleGroup (utxo : List Fr) : AggregateUtxo 1 2 4 where
  utxo := [⟨[utxo]⟩]
  insert := ⟨List.replicate 4 ⟨0, Circuits.Batch.samplePath⟩⟩
  length_utxo := rfl
  length_inserts := rfl

/-- The public inputs of a group. -/
def sampleColumn (oldRoot newRoot : Fr) (utxo : List Fr) : List Fr :=
  List.replicate 12 0 ++ oldRoot :: newRoot :: utxo.take 3

/-- The aggregation of the two groups. -/
def sampleAggregate : AggregateAgg 2 where
  aggregates := [⟨[sampleColumn 2 9 sampleMint]⟩, ⟨[sampleColumn 9 10 sampleBurn]⟩]
  length_aggregates := rfl

/-- The public inputs of the aggregation. -/
def sampleRows : List Fr := List.replicate 12 0 ++ [2, 10, 0, 8, 5, 9, 11, 5]

/-- The cells of the aggregation. -/
def sampleCells : AggregateCells where
  aggCells := List.replicate 12 0
  snarks := [[sampleColumn 2 9 sampleMint], [sampleColumn 9 10 sampleBurn]]

/-- The UTXO proofs that are accepted. -/
def sampleAcceptsUtxo (columns : List (List Fr)) : Prop :=
  columns = [sampleMint] ∨ columns = [sampleBurn]

/-- The proofs of groups that are accepted. -/
def sampleAcceptsAgg (columns : List (List Fr)) : Prop :=
  columns = [sampleColumn 2 9 sampleMint] ∨ columns = [sampleColumn 9 10 sampleBurn]

/-- The sample accepts a column only with a satisfied transaction. -/
lemma satisfied_sampleAcceptsUtxo (columns : List (List Fr)) (h : sampleAcceptsUtxo columns) :
    ∃ t : TxnAssignment 2, columns = [t.instances] ∧ t.Satisfied Sample.env := by
  rcases h with rfl | rfl
  · exact ⟨_, rfl, Sample.satisfied_mint⟩
  · exact ⟨_, rfl, Sample.satisfied_burn⟩

/-- The rows of zero limbs. -/
lemma constrainInstances_limbs (rest : List Fr) :
    constrainInstances (List.replicate 12 0) 0
      { Sample.env with instances := List.replicate 12 0 ++ rest } () := by
  rw [constrainInstances_iff]
  intro i cell hcell
  obtain ⟨hi, -⟩ := List.getElem?_eq_some_iff.1 hcell
  simp only [List.getD_eq_getElem?_getD, Nat.zero_add]
  rw [List.getElem?_append_left hi, hcell, Option.getD_some]

/-- A group satisfies its circuit when its batch does. -/
lemma enforceConstraints_sampleGroup (oldRoot newRoot a b c : Fr) (leafs roots : List Fr)
    (haccepts : sampleAcceptsUtxo [a :: b :: c :: leafs])
    (hbatch : (sampleGroup (a :: b :: c :: leafs)).insert.enforceConstraints Sample.env.hash
      ((Note.paddingNote Sample.env.hash).commitment Sample.env.hash).toBase
      { Sample.env with instances := sampleColumn oldRoot newRoot (a :: b :: c :: leafs) }
      { oldRoot, newRoot, leafs, roots }) :
    (sampleGroup (a :: b :: c :: leafs)).enforceConstraints sampleAcceptsUtxo Sample.env.hash
      { Sample.env with instances := sampleColumn oldRoot newRoot (a :: b :: c :: leafs) }
      { aggCells := List.replicate 12 0, snarks := [[a :: b :: c :: leafs]] } := by
  refine ⟨{ aggCells := List.replicate 12 0, snarks := [[a :: b :: c :: leafs]] },
    ⟨rfl, rfl, List.forall_mem_singleton.2 haccepts, (fun h => by cases h)⟩, _, hbatch, (),
    constrainInstances_limbs _, (), rfl, (), rfl, leafs, ?_, (), ?_, rfl⟩
  · exact ⟨_, rfl, a, rfl, (), rfl, b, rfl, (), rfl, c, rfl, (), rfl, [], rfl, by simp⟩
  · rw [forM_iff]
    intro pair hpair
    have hself : List.Forall₂ Eq leafs leafs := List.forall₂_eq_eq_eq ▸ rfl
    exact (List.forall₂_iff_zip.1 hself).2 (List.mem_of_mem_take hpair)

/-- The group of the mint meets its constraints. -/
lemma enforceConstraints_sampleMint :
    (sampleGroup sampleMint).enforceConstraints sampleAcceptsUtxo Sample.env.hash
      { Sample.env with instances := sampleColumn 2 9 sampleMint }
      { aggCells := List.replicate 12 0, snarks := [[sampleMint]] } := by
  refine enforceConstraints_sampleGroup 2 9 0 8 5 [0, 0, 8, 0] [2, 2, 9, 9] (.inl rfl)
    ⟨(), List.cons_ne_nil _ _, 2, (fun h => by cases h), _,
      ⟨_, Sample.round_zero _ 2 _, _, ⟨_, Sample.round_zero _ 2 _, _,
        ⟨_, Sample.round ⟨8, [0]⟩ _ 2 9 _ ?_ ?_ ?_, _, ⟨_, Sample.round_zero _ 9 _, [], rfl, rfl⟩,
          rfl⟩, rfl⟩, rfl⟩, rfl⟩
  · exact Sample.valid_insert 8 0 false (by decide) (by decide) (by decide)
  · exact fun _ => by decide
  · decide

/-- The group of the burn meets its constraints. -/
lemma enforceConstraints_sampleBurn :
    (sampleGroup sampleBurn).enforceConstraints sampleAcceptsUtxo Sample.env.hash
      { Sample.env with instances := sampleColumn 9 10 sampleBurn }
      { aggCells := List.replicate 12 0, snarks := [[sampleBurn]] } := by
  refine enforceConstraints_sampleGroup 9 10 9 11 5 [11, 0, 0, 0] [10, 10, 10, 10] (.inr rfl)
    ⟨(), List.cons_ne_nil _ _, 9, (fun h => by cases h), _,
      ⟨_, Sample.round ⟨11, [8]⟩ _ 9 10 _ ?_ ?_ ?_, _, ⟨_, Sample.round_zero _ 10 _, _,
        ⟨_, Sample.round_zero _ 10 _, _, ⟨_, Sample.round_zero _ 10 _, [], rfl, rfl⟩, rfl⟩, rfl⟩,
        rfl⟩, rfl⟩
  · exact Sample.valid_insert 11 8 true (by decide) (by decide) (by decide)
  · exact fun _ => by decide
  · decide

/-- Each proof of the group has seven instances. -/
lemma numInstance_sampleGroup {utxo : List Fr} (h : utxo.length = 7) :
    ∀ snark ∈ (sampleGroup utxo).utxo, snark.numInstance = [7] := by
  intro snark hmem
  obtain rfl := List.mem_singleton.1 hmem
  simp [Snark.numInstance, h]

/-- The sample accepts an aggregation only with a witness. -/
lemma satisfied_sampleAcceptsAgg (columns : List (List Fr)) (h : sampleAcceptsAgg columns) :
    ∃ (agg : AggregateUtxo 1 2 4) (instances : List Fr) (cells : AggregateCells),
      columns = [instances] ∧ (∀ snark ∈ agg.utxo, snark.numInstance = [7]) ∧
      agg.enforceConstraints sampleAcceptsUtxo Sample.env.hash
        { Sample.env with instances := instances } cells := by
  rcases h with rfl | rfl
  · exact ⟨_, _, _, rfl, numInstance_sampleGroup rfl, enforceConstraints_sampleMint⟩
  · exact ⟨_, _, _, rfl, numInstance_sampleGroup rfl, enforceConstraints_sampleBurn⟩

/-- The aggregation satisfies its circuit. -/
lemma enforceConstraints_sampleAggregate :
    sampleAggregate.enforceConstraints sampleAcceptsAgg
      { Sample.env with instances := sampleRows } sampleCells := by
  refine ⟨sampleCells, ⟨rfl, rfl, ?_, (fun h => by cases h)⟩, (), constrainInstances_limbs _, _,
    rfl,
    _, rfl, 2, rfl, (10, [0, 8, 5, 9, 11, 5]), ?_, (), rfl, (), rfl, (), ?_, rfl⟩
  · exact List.forall_mem_cons.2 ⟨.inl rfl, List.forall_mem_singleton.2 (.inr rfl)⟩
  · exact ⟨_, rfl, 2, rfl, 9, rfl, (), rfl, (10, [9, 11, 5]),
      ⟨_, rfl, 9, rfl, 10, rfl, (), rfl, (10, []), rfl, rfl⟩, rfl⟩
  · exact ⟨(), rfl, (), rfl, (), rfl, (), rfl, (), rfl, (), rfl, rfl⟩

/-- The mint and the burn of the sample run, aggregated: their leaves lead from the root of the
empty tree to the last root of the run. -/
theorem aggregate_inserts_sampleAggregate :
    ∃ utxos : List (List Fr), utxos.length = 2 ∧ RollsUp Sample.env 2 sampleRows utxos := by
  obtain ⟨utxos, hlen, -, hrolls, -⟩ := aggregate_inserts rfl Sample.env sampleAcceptsUtxo
    sampleAcceptsAgg satisfied_sampleAcceptsUtxo satisfied_sampleAcceptsAgg sampleAggregate
    (by simp [sampleAggregate, Snark.numInstance, sampleColumn, sampleMint, sampleBurn]) sampleRows
    sampleCells enforceConstraints_sampleAggregate
  exact ⟨utxos, hlen, hrolls⟩

end AggregateVerifier

end TempoRollup.Contract
