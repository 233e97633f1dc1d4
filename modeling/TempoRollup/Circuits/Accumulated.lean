import TempoRollup.Circuits.Aggregate
import TempoRollup.Circuits.Prove

set_option relaxedAutoImplicit false
set_option autoImplicit false

/-!
# Aggregations that are satisfied

The other direction of `TempoRollup.Circuits.Aggregate`: which assignments of the aggregation
circuits are satisfying ones. The loops of the circuits are characterised for all inner proofs of
the right shape, and from them the aggregations as the prover builds them.

## Main definitions

* `Linked` — each aggregated proof starts at the root where the one before it ends.
* `AccumulatedAgg` — `AggregateAgg`, with the limbs of the accumulator of its inner proofs.

## Main results

* `constrainUtxos_iff`, `linkRoots_iff` — the loops of the two circuits.
* `AggregateUtxo.enforceConstraints_of` — a group whose batch inserts the leaves of its proofs.
* `AccumulatedUtxo.satisfied_of`, `AccumulatedAgg.satisfied_iff` — the witnesses of the prover.
-/

open ConstraintSystem

namespace TempoRollup.Circuits

/-! ## The loops -/

section Loops

variable {env : Env Fr}

/-- **The loop over the UTXO proofs**: their first three public inputs are in the rows, and their
leaves are collected. By induction on the proofs. -/
theorem constrainUtxos_iff {utxos : List (List Fr)} (hlen : ∀ utxo ∈ utxos, utxo.length = 7)
    (base : ℕ) (leafs : List Fr) :
    constrainUtxos base (utxos.map fun utxo => [utxo]) env leafs ↔
      leafs = utxoLeafs utxos ∧ RowsAt env.instances base (utxoValues utxos) := by
  refine ⟨hasValues_of_constrainUtxos, ?_⟩
  rintro ⟨rfl, hrows⟩
  induction utxos generalizing base with
  | nil => rfl
  | cons utxo utxos ih =>
    obtain ⟨hutxo, hrest⟩ := List.forall_mem_cons.1 hlen
    obtain ⟨a, b, c, leaves, rfl⟩ : ∃ a b c leaves, utxo = a :: b :: c :: leaves := by
      rcases utxo with _ | ⟨a, _ | ⟨b, _ | ⟨c, leaves⟩⟩⟩
      all_goals first | exact ⟨_, _, _, _, rfl⟩ | cases hutxo
    have hvalues : utxoValues ((a :: b :: c :: leaves) :: utxos) =
        a :: b :: c :: utxoValues utxos := rfl
    rw [hvalues, rowsAt_cons, rowsAt_cons, rowsAt_cons] at hrows
    obtain ⟨ha, hb, hc, hrows⟩ := hrows
    exact ⟨_, rfl, a, rfl, (), ha.symm, b, rfl, (), hb.symm, c, rfl, (), hc.symm, _,
      ih hrest (base + 3) hrows, rfl⟩

/-- Aggregated proofs lead from root to root: each starts where the one before it ends. -/
def Linked : Fr → List (List Fr) → Fr → Prop
  | root, [], last => last = root
  | root, column :: columns, last =>
    column.getD 12 0 = root ∧ Linked (column.getD 13 0) columns last

/-- **The loop over the aggregated proofs**: they are linked, and the rows after their roots are
collected. By induction on the proofs. -/
theorem linkRoots_iff {columns : List (List Fr)} (hlen : ∀ column ∈ columns, 14 ≤ column.length)
    (root : Fr) (roots : Fr × List Fr) :
    linkRoots root (columns.map fun column => [column]) env roots ↔
      Linked root columns roots.1 ∧ roots.2 = columns.flatMap (List.drop 14) := by
  induction columns generalizing root roots with
  | nil =>
    simp only [List.map_nil, linkRoots, pure_iff, Linked, List.flatMap_nil]
    exact Prod.ext_iff
  | cons column columns ih =>
    obtain ⟨hcolumn, hrest⟩ := List.forall_mem_cons.1 hlen
    have hcell : ∀ i, i < 14 → ∀ x, column[i]? = some x ↔ column.getD i 0 = x := by
      intro i hi x
      rw [List.getD_eq_getElem?_getD, List.getElem?_eq_getElem (by omega), Option.some.injEq,
        Option.getD_some]
    simp only [List.map_cons, linkRoots, bind_iff, cellAt, List.getElem?_cons_zero,
      Option.some.injEq, exists_eq_left', hcell 12 (by decide), hcell 13 (by decide),
      constrainEqual_iff, exists_const, ih hrest, pure_iff, Linked, List.flatMap_cons]
    constructor
    · rintro ⟨rfl, rest, ⟨hlinked, hrows⟩, rfl⟩
      exact ⟨⟨rfl, hlinked⟩, congrArg (column.drop 14 ++ ·) hrows⟩
    · rintro ⟨⟨rfl, hlinked⟩, hrows⟩
      exact ⟨rfl, (roots.1, columns.flatMap (List.drop 14)), ⟨hlinked, rfl⟩, Prod.ext rfl hrows⟩

/-- The cells of an aggregation of proofs with one column each. -/
lemma numInstance_map (columns : List (List Fr)) :
    (columns.map fun column => [column]).map (fun c => c.map List.length) =
      (columns.map fun column => (⟨[column]⟩ : Snark)).map Snark.numInstance := by
  rw [List.map_map, List.map_map]
  rfl

end Loops

/-! ## AggregateUtxo -/

section Group

variable {UTXO_N depth LEAVES : ℕ} {accepts : List (List Fr) → Prop}

/-- **A group is satisfied** if its UTXO proofs are accepted, its batch inserts their leaves, and
the instance column has the limbs, the roots of the batch and the first public inputs of each proof.

**Proof sketch.** The cells are the limbs and the columns of the proofs. The comparison of leaves
holds because the inserted leaves are those of the proofs, and the rows of the instance column split
in limbs, roots and values, one for each group of instance constraints. -/
theorem AggregateUtxo.enforceConstraints_of (env : Env Fr)
    {self : AggregateUtxo UTXO_N depth LEAVES}
    {utxos : List (List Fr)} (hself : self.utxo = utxos.map fun utxo => ⟨[utxo]⟩)
    (hlen : ∀ utxo ∈ utxos, utxo.length = 7) (haccepts : ∀ utxo ∈ utxos, accepts [utxo])
    {limbs : List Fr} (hlimbs : limbs.length = 4 * LIMBS) {insert : BatchConstraintCells}
    (hinsert : self.insert.enforceConstraints env.hash
      ((Note.paddingNote env.hash).commitment env.hash).toBase env insert)
    (hleafs : insert.leafs = utxoLeafs utxos)
    (hrows : RowsAt env.instances 0
      (limbs ++ ([insert.oldRoot, insert.newRoot] ++ utxoValues utxos))) :
    self.enforceConstraints accepts env.hash env
      { aggCells := limbs, snarks := utxos.map fun utxo => [utxo] } := by
  have hinstances : self.utxo.map Snark.instances = utxos.map fun utxo => [utxo] := by
    rw [hself, List.map_map]
    rfl
  have hequal : ∀ pair ∈ ((utxoLeafs utxos).zip insert.leafs).take LEAVES, pair.1 = pair.2 := by
    have hself : List.Forall₂ Eq (utxoLeafs utxos) insert.leafs := by
      rw [List.forall₂_eq_eq_eq, hleafs]
    exact fun pair hpair => (List.forall₂_iff_zip.1 hself).2 (List.mem_of_mem_take hpair)
  rw [rowsAt_append, rowsAt_append, Nat.zero_add, hlimbs] at hrows
  simp only [rowsAt_cons, rowsAt_nil, and_true, List.length_cons, List.length_nil] at hrows
  obtain ⟨hlimbRows, ⟨hold, hnew⟩, hvalues⟩ := hrows
  simp only [AggregateUtxo.enforceConstraints, bind_iff, constrainInstance_iff, exists_const,
    forM_iff, constrainEqual_iff, pure_iff, constrainInstances_iff]
  refine ⟨⟨limbs, utxos.map fun utxo => [utxo]⟩,
    ⟨hlimbs, ?_, List.forall_mem_map.2 haccepts, fun _ => hinstances.symm⟩, insert, hinsert,
    hlimbRows, ?_, ?_, utxoLeafs utxos, ?_, hequal, rfl⟩
  · rw [hself]
    exact numInstance_map utxos
  · rw [hlimbs]
    exact hold.symm
  · rw [hlimbs]
    exact hnew.symm
  · rw [hlimbs]
    exact (constrainUtxos_iff hlen _ _).2 ⟨rfl, hvalues⟩

/-- The first public inputs of the UTXO proofs of a group. -/
lemma AccumulatedUtxo.utxoPublicInputs_eq {self : AccumulatedUtxo UTXO_N depth LEAVES}
    {utxos : List (List Fr)} (hself : self.utxo = utxos.map fun utxo => ⟨[utxo]⟩)
    (hlen : ∀ utxo ∈ utxos, utxo.length = 7) : self.utxoPublicInputs = utxoValues utxos := by
  rw [utxoPublicInputs, hself, List.flatMap_map, utxoValues]
  refine List.flatMap_congr fun utxo hutxo => ?_
  have hutxo := hlen utxo hutxo
  rcases utxo with _ | ⟨a, _ | ⟨b, _ | ⟨c, leaves⟩⟩⟩
  all_goals first | rfl | cases hutxo

/-- The rows of the public inputs of a group. -/
lemma AccumulatedUtxo.rows_publicInputs (H : List Fr → Fr)
    (self : AccumulatedUtxo UTXO_N depth LEAVES) :
    (self.publicInputs H).getD 12 0 = self.insert.oldRoot H ∧
      (self.publicInputs H).getD 13 0 = self.insert.newRoot H ∧
      (self.publicInputs H).drop 14 = self.utxoPublicInputs := by
  have hlimbs : self.aggInstances.length = 12 := self.length_aggInstances
  have hrows : RowsAt (self.publicInputs H) 0 (self.publicInputs H) := (rowsAt_zero_iff rfl).2 rfl
  nth_rewrite 2 [publicInputs] at hrows
  rw [rowsAt_append, rowsAt_append, Nat.zero_add, hlimbs] at hrows
  simp only [rowsAt_cons, rowsAt_nil, and_true] at hrows
  refine ⟨hrows.2.1.1, hrows.2.1.2, ?_⟩
  rw [publicInputs, ← List.append_assoc]
  exact List.drop_left' (by rw [List.length_append, hlimbs]; rfl)

/-- Linked inserts satisfy the constraints of a batch, with whatever instance column. -/
lemma Batch.enforceConstraints_of_links (env : Env Fr) (hall : env.hashed = Set.univ)
    (self : Batch depth) (hne : self.inserts ≠ [])
    (hcanon : ∀ i ∈ self.inserts, i.leaf.isCanonical = true)
    (hlinks : Links env.hash (self.oldRoot env.hash) self.inserts) :
    ∃ cells, self.enforceConstraints env.hash
        ((Note.paddingNote env.hash).commitment env.hash).toBase env cells ∧
      cells.oldRoot = self.oldRoot env.hash ∧ cells.newRoot = self.newRoot env.hash ∧
      cells.leafs = self.leafs := by
  obtain ⟨cells, hcells, hleafs, hlast⟩ := enforceInserts_of_links hall _ _ hcanon hlinks
  refine ⟨_, ⟨(), hne, self.oldRoot env.hash, fun _ => rfl, cells, ?_, rfl⟩, rfl, ?_, hleafs⟩
  · rw [Note.commitment_paddingNote, Element.toBase_zero]
    exact hcells
  · rw [newRoot_eq_foldl]
    exact hlast

/-- **The witness of a group satisfies its circuit** on its own public inputs, if its UTXO proofs
are accepted and the inserts of its batch, which are linked, have their leaves. -/
theorem AccumulatedUtxo.satisfied_of {H : List Fr → Fr}
    {self : AccumulatedUtxo UTXO_N depth LEAVES} {utxos : List (List Fr)}
    (hself : self.utxo = utxos.map fun utxo => ⟨[utxo]⟩) (hlen : ∀ utxo ∈ utxos, utxo.length = 7)
    (haccepts : ∀ utxo ∈ utxos, accepts [utxo]) (hne : self.insert.inserts ≠ [])
    (hcanon : ∀ i ∈ self.insert.inserts, i.leaf.isCanonical = true)
    (hlinks : Batch.Links H (self.insert.oldRoot H) self.insert.inserts)
    (hleafs : self.insert.leafs = utxoLeafs utxos) :
    self.Satisfied accepts H (self.publicInputs H) := by
  obtain ⟨insert, hinsert, hold, hnew, hleafs'⟩ := Batch.enforceConstraints_of_links
    (Utxo.honestEnv H (self.publicInputs H)) rfl self.insert hne hcanon hlinks
  refine ⟨_, AggregateUtxo.enforceConstraints_of (Utxo.honestEnv H (self.publicInputs H)) hself hlen
    haccepts self.length_aggInstances hinsert (hleafs'.trans hleafs) ?_, rfl⟩
  rw [hold, hnew, ← utxoPublicInputs_eq hself hlen]
  exact (rowsAt_zero_iff rfl).2 rfl

end Group

/-! ## AggregateAgg -/

/-- `AggregateAgg`, with the limbs of the accumulator of its inner proofs. -/
structure AccumulatedAgg (AGG_N : ℕ) extends AggregateAgg AGG_N where
  aggInstances : List Element
  length_aggInstances : aggInstances.length = 4 * LIMBS

namespace AccumulatedAgg

variable {AGG_N : ℕ}

/-- `AggregateAgg::old_root`; an index out of bounds panics, and is read as zero here. -/
def oldRoot (self : AccumulatedAgg AGG_N) : Fr :=
  ((self.aggregates.headD ⟨[]⟩).instances.headD []).getD 12 0

/-- `AggregateAgg::new_root`. -/
def newRoot (self : AccumulatedAgg AGG_N) : Fr :=
  ((self.aggregates.getLastD ⟨[]⟩).instances.headD []).getD 13 0

/-- `AggregateAgg::utxo_values`. -/
def utxoValues (self : AccumulatedAgg AGG_N) : List Fr :=
  self.aggregates.flatMap fun snark => (snark.instances.headD []).drop 14

/-- `AggregateAgg::public_inputs`. -/
def publicInputs (self : AccumulatedAgg AGG_N) : List Fr :=
  self.aggInstances.map Element.toBase ++ ([self.oldRoot, self.newRoot] ++ self.utxoValues)

/-- The witness of an aggregation and an instance column satisfy the circuit. -/
def Satisfied (accepts : List (List Fr) → Prop) (H : List Fr → Fr) (self : AccumulatedAgg AGG_N)
    (instances : List Fr) : Prop :=
  ∃ cells, self.toAggregateAgg.enforceConstraints accepts (Utxo.honestEnv H instances) cells ∧
    cells.aggCells = self.aggInstances.map Element.toBase

end AccumulatedAgg

section Agg

variable {AGG_N : ℕ} {accepts : List (List Fr) → Prop} {columns : List (List Fr)}

/-- Where linked proofs end. -/
lemma Linked.last_eq {root last : Fr} (h : Linked root columns last) :
    last = (columns.map fun column => column.getD 13 0).getLastD root := by
  induction columns generalizing root with
  | nil => exact h
  | cons column columns ih =>
    rw [List.map_cons, List.getLastD_cons]
    exact ih h.2

/-- **An aggregation is satisfied** exactly if its proofs are accepted and linked, and the instance
column has the limbs, the first old root, the last new root and the other rows of the proofs. -/
lemma AggregateAgg.enforceConstraints_iff (env : Env Fr) {self : AggregateAgg AGG_N}
    (hself : self.aggregates = columns.map fun column => ⟨[column]⟩)
    (hlen : ∀ column ∈ columns, 14 ≤ column.length) (hne : columns ≠ []) (limbs : List Fr) :
    self.enforceConstraints accepts env
        { aggCells := limbs, snarks := columns.map fun column => [column] } ↔
      limbs.length = 4 * LIMBS ∧ (∀ column ∈ columns, accepts [column]) ∧
        ∃ last, Linked ((columns.headD []).getD 12 0) columns last ∧
          RowsAt env.instances 0 (limbs ++
            ([(columns.headD []).getD 12 0, last] ++ columns.flatMap (List.drop 14))) := by
  obtain ⟨first, rest, rfl⟩ := List.exists_cons_of_ne_nil hne
  have hinstances : self.aggregates.map Snark.instances =
      (first :: rest).map fun column => [column] := by
    rw [hself, List.map_map]
    rfl
  have hcell : ∀ x, first[12]? = some x ↔ x = first.getD 12 0 := by
    intro x
    have hfit := hlen first List.mem_cons_self
    rw [List.getD_eq_getElem?_getD, List.getElem?_eq_getElem (by omega), Option.some.injEq,
      Option.getD_some, eq_comm]
  have hshape := numInstance_map (first :: rest)
  rw [← hself] at hshape
  have haggregate : AggregationChip.aggregate accepts self.aggregates env
      ⟨limbs, (first :: rest).map fun column => [column]⟩ ↔
        limbs.length = 4 * LIMBS ∧ ∀ column ∈ first :: rest, accepts [column] := by
    refine ⟨fun h => ⟨h.1, List.forall_mem_map.1 h.2.2.1⟩, fun h =>
      ⟨h.1, hshape, List.forall_mem_map.2 h.2, fun _ => hinstances.symm⟩⟩
  rw [List.headD_cons]
  simp only [rowsAt_append, Nat.zero_add, rowsAt_cons, rowsAt_nil, and_true, List.length_cons,
    List.length_nil]
  simp only [AggregateAgg.enforceConstraints, bind_iff, pure_iff, constrainInstance_iff,
    exists_const, constrainInstances_iff]
  constructor
  · rintro ⟨_, hagg, hlimbRows, firstColumns, hfirst, column, hcolumn, oldRoot, hold, roots, hlink,
      hrow12, hrow13, hrow14, rfl⟩
    obtain ⟨hlimbs, haccepts⟩ := haggregate.1 hagg
    obtain rfl : [first] = firstColumns := Option.some.inj hfirst
    obtain rfl : first = column := Option.some.inj hcolumn
    obtain rfl := (hcell _).1 hold
    obtain ⟨hlinked, hrest⟩ := (linkRoots_iff hlen _ _).1 hlink
    rw [hrest] at hrow14
    refine ⟨hlimbs, haccepts, roots.1, hlinked, hlimbRows, ?_⟩
    rw [hlimbs]
    exact ⟨⟨hrow12.symm, hrow13.symm⟩, hrow14⟩
  · rintro ⟨hlimbs, haccepts, last, hlinked, hlimbRows, hroots, hrest⟩
    rw [hlimbs] at hroots hrest
    exact ⟨_, haggregate.2 ⟨hlimbs, haccepts⟩, hlimbRows, [first], rfl, first, rfl, _,
      (hcell _).2 rfl,
      (last, (first :: rest).flatMap (List.drop 14)), (linkRoots_iff hlen _ _).2 ⟨hlinked, rfl⟩,
      hroots.1.symm, hroots.2.symm, hrest, rfl⟩

variable {H : List Fr → Fr} {self : AccumulatedAgg AGG_N}

/-- The rows of an aggregation after its roots. -/
lemma AccumulatedAgg.utxoValues_eq
    (hself : self.aggregates = columns.map fun column => ⟨[column]⟩) :
    self.utxoValues = columns.flatMap (List.drop 14) := by
  rw [utxoValues, hself, List.flatMap_map]
  rfl

/-- The rows of the public inputs of an aggregation. -/
lemma AccumulatedAgg.rows_publicInputs (self : AccumulatedAgg AGG_N) :
    self.publicInputs.getD 12 0 = self.oldRoot ∧ self.publicInputs.getD 13 0 = self.newRoot ∧
      self.publicInputs.drop 14 = self.utxoValues := by
  have hlimbs : (self.aggInstances.map Element.toBase).length = 12 := by
    rw [List.length_map, self.length_aggInstances]
    rfl
  have hrows : RowsAt self.publicInputs 0 self.publicInputs := (rowsAt_zero_iff rfl).2 rfl
  nth_rewrite 2 [publicInputs] at hrows
  rw [rowsAt_append, rowsAt_append, Nat.zero_add, hlimbs] at hrows
  simp only [rowsAt_cons, rowsAt_nil, and_true] at hrows
  refine ⟨hrows.2.1.1, hrows.2.1.2, ?_⟩
  rw [publicInputs, ← List.append_assoc]
  exact List.drop_left' (by rw [List.length_append, hlimbs]; rfl)

/-- The public inputs of an aggregation are long enough to have roots. -/
lemma AccumulatedAgg.le_length_publicInputs (self : AccumulatedAgg AGG_N) :
    14 ≤ self.publicInputs.length := by
  rw [publicInputs, List.length_append, List.length_append, List.length_map,
    self.length_aggInstances]
  exact Nat.add_le_add_left (Nat.le_add_right 2 _) 12

/-- The number of public inputs of an aggregation of proofs with `rows` of them after the roots. -/
lemma AccumulatedAgg.length_publicInputs {rows : ℕ} (self : AccumulatedAgg AGG_N)
    (hrows : ∀ snark ∈ self.aggregates, snark.numInstance = [14 + rows]) :
    self.publicInputs.length = 14 + AGG_N * rows := by
  have hsnark : ∀ snark ∈ self.aggregates,
      ((snark.instances.headD []).drop 14).length = rows := by
    intro snark hmem
    have hshape := hrows snark hmem
    obtain ⟨column, nothing, hinst, hcolumn, -⟩ := List.map_eq_cons_iff.1 hshape
    rw [hinst, List.headD_cons, List.length_drop, hcolumn, Nat.add_sub_cancel_left]
  have hvalues : self.utxoValues.length = AGG_N * rows := by
    rw [utxoValues, List.length_flatMap, List.map_congr_left hsnark, List.map_const',
      List.sum_replicate, self.length_aggregates, smul_eq_mul]
  rw [publicInputs, List.length_append, List.length_append, List.length_map,
    self.length_aggInstances, hvalues, LIMBS, List.length_cons, List.length_singleton]
  omega

/-- **The witness of an aggregation satisfies its circuit** on exactly the instance columns with its
own public inputs, if its proofs are accepted and linked.

**Proof sketch.** The honest prover's cells are the columns of the proofs and the limbs of the
accumulator, so that `AggregateAgg.enforceConstraints_iff` says all of the rest. Linked columns have
one last root, which is the new root. -/
theorem AccumulatedAgg.satisfied_iff
    (hself : self.aggregates = columns.map fun column => ⟨[column]⟩)
    (hlen : ∀ column ∈ columns, 14 ≤ column.length) (hne : columns ≠ []) (instances : List Fr) :
    self.Satisfied accepts H instances ↔
      (∀ column ∈ columns, accepts [column]) ∧ Linked self.oldRoot columns self.newRoot ∧
        RowsAt instances 0 self.publicInputs := by
  have hold : self.oldRoot = (columns.headD []).getD 12 0 := by
    obtain ⟨first, rest, rfl⟩ := List.exists_cons_of_ne_nil hne
    rw [oldRoot, hself]
    rfl
  have hnew : ∀ last, Linked ((columns.headD []).getD 12 0) columns last → last = self.newRoot := by
    intro last hlinked
    rw [hlinked.last_eq, newRoot, hself]
    obtain ⟨rest, final, rfl⟩ := List.eq_nil_or_concat columns |>.resolve_left hne
    simp
  have hcells : ∀ cells : AggregateCells,
      self.toAggregateAgg.enforceConstraints accepts (Utxo.honestEnv H instances) cells →
        cells.snarks = columns.map fun column => [column] := by
    intro cells h
    simp only [AggregateAgg.enforceConstraints, bind_iff, pure_iff] at h
    obtain ⟨_, hagg, -, -, -, -, -, -, -, -, -, -, -, -, -, -, -, -, rfl⟩ := h
    rw [hagg.2.2.2 rfl, hself, List.map_map]
    rfl
  have hiff : ∀ limbs, self.toAggregateAgg.enforceConstraints accepts (Utxo.honestEnv H instances)
      { aggCells := limbs, snarks := columns.map fun column => [column] } ↔ _ :=
    AggregateAgg.enforceConstraints_iff (Utxo.honestEnv H instances) hself hlen hne
  rw [publicInputs, utxoValues_eq hself]
  constructor
  · rintro ⟨⟨aggCells, snarks⟩, hsat, hlimbs⟩
    obtain rfl : snarks = columns.map fun column => [column] := hcells _ hsat
    obtain rfl : aggCells = self.aggInstances.map Element.toBase := hlimbs
    obtain ⟨-, haccepts, last, hlinked, hrows⟩ := (hiff _).1 hsat
    obtain rfl := hnew last hlinked
    rw [← hold] at hlinked hrows
    exact ⟨haccepts, hlinked, hrows⟩
  · rintro ⟨haccepts, hlinked, hrows⟩
    rw [hold] at hlinked hrows
    refine ⟨_, (hiff _).2 ⟨?_, haccepts, self.newRoot, hlinked, hrows⟩, rfl⟩
    rw [List.length_map, self.length_aggInstances]

end Agg

end TempoRollup.Circuits
