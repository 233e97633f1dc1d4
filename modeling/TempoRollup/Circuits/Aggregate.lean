import TempoRollup.Circuits.Run

set_option relaxedAutoImplicit false
set_option autoImplicit false

/-!
# The aggregation circuits

`zk-circuits/src/aggregate_utxo` and `aggregate_agg`: a proof of the first verifies a group of UTXO
proofs and inserts their leaves in the tree; a proof of the second verifies several proofs with
public inputs of the same form and links their roots. The public inputs of both are twelve limbs
of an accumulator, the old root, the new root, and the recent root, hash and value of each
transaction.

## Main definitions

* `AggregationChip.aggregate` — the verification of inner proofs.
* `AggregateUtxo.enforceConstraints`, `AggregateAgg.enforceConstraints`.
* `InsertsTo` — a list of leaves leads from one root to another.
* `RollsUp` — what public inputs of this form say about a list of UTXO proofs.

## Main results

* `InsertsTo.sound` — without collisions, the leaves are inserted in the tree of the first root.
* `AggregateUtxo.rollsUp` — the group of a satisfying assignment.
* `AggregateAgg.rollsUp` — the concatenation of the groups of the aggregated proofs.
* `AggregateAgg.rollUps_nested` — the same for aggregations of aggregations.

## Design

The verifier of inner proofs is third-party code. It is the parameter `accepts`: the public inputs
that it accepts, once the pairing of the accumulator holds. What it is relied on for is a
hypothesis of the results: accepted public inputs are those of a satisfying assignment.
-/

open ConstraintSystem

namespace TempoRollup.Circuits

/-! ## The circuits -/

/-- `LIMBS`, the limbs of a coordinate. -/
def LIMBS : ℕ := 3

/-- `Snark`: the columns of public inputs of an inner proof. -/
structure Snark where
  instances : List (List Fr)

/-- The number of rows of each column. -/
def Snark.numInstance (self : Snark) : List ℕ := self.instances.map List.length

/-- The cells of the aggregation: the limbs of the accumulator, and the public inputs of the inner
proofs. -/
structure AggregateCells where
  aggCells : List Fr
  snarks : List (List (List Fr))

/-- `AggregationChip::aggregate`: an inner proof is verified against cells for its public inputs,
as many as it has. The accumulator is two points with two coordinates each. -/
def AggregationChip.aggregate (accepts : List (List Fr) → Prop) (snarks : List Snark) :
    Circuit Fr AggregateCells := fun env cells =>
  cells.aggCells.length = 4 * LIMBS ∧
    cells.snarks.map (fun columns => columns.map List.length) = snarks.map Snark.numInstance ∧
    (∀ columns ∈ cells.snarks, accepts columns) ∧
    (env.prover = .honest → cells.snarks = snarks.map Snark.instances)

/-- A cell by its index. An index out of bounds panics, so that there is no circuit. -/
def cellAt {α : Type} (cells : List α) (index : ℕ) : Circuit Fr α := fun _ cell =>
  cells[index]? = some cell

/-- Constrain cells to consecutive rows of the instance column. -/
def constrainInstances : List Fr → ℕ → Circuit Fr Unit
  | [], _ => pure ()
  | cell :: cells, row => do
    constrainInstance cell row
    constrainInstances cells (row + 1)

/-- `AggregateUtxo`. -/
structure AggregateUtxo (UTXO_N depth LEAVES : ℕ) where
  utxo : List Snark
  insert : Batch depth
  length_utxo : utxo.length = UTXO_N
  length_inserts : insert.inserts.length = LEAVES

/-- The loop of `AggregateUtxo::enforce_constraints` over the UTXO proofs, whose first row is
`instanceCounterBase`; it collects the leaves. -/
def constrainUtxos : ℕ → List (List (List Fr)) → Circuit Fr (List Fr)
  | _, [] => pure []
  | instanceCounterBase, snark :: snarks => do
    let snarkInstances ← cellAt snark 0
    let utxoRoot ← cellAt snarkInstances 0
    constrainInstance utxoRoot instanceCounterBase
    let hash ← cellAt snarkInstances 1
    constrainInstance hash (instanceCounterBase + 1)
    let value ← cellAt snarkInstances 2
    constrainInstance value (instanceCounterBase + 2)
    let utxoLeafs ← constrainUtxos (instanceCounterBase + 3) snarks
    pure (snarkInstances.drop 3 ++ utxoLeafs)

/-- `AggregateUtxo::enforce_constraints`, with the padding constant of `aggregate_utxo/circuit.rs`;
it returns the cells of the aggregation. -/
def AggregateUtxo.enforceConstraints {UTXO_N depth LEAVES : ℕ} (accepts : List (List Fr) → Prop)
    (H : List Fr → Fr) (self : AggregateUtxo UTXO_N depth LEAVES) : Circuit Fr AggregateCells := do
  let cells ← AggregationChip.aggregate accepts self.utxo
  let insert ← self.insert.enforceConstraints H ((Note.paddingNote H).commitment H).toBase
  constrainInstances cells.aggCells 0
  constrainInstance insert.oldRoot cells.aggCells.length
  constrainInstance insert.newRoot (cells.aggCells.length + 1)
  let utxoLeafs ← constrainUtxos (cells.aggCells.length + 2) cells.snarks
  ((utxoLeafs.zip insert.leafs).take LEAVES).forM fun leafs => constrainEqual leafs.1 leafs.2
  pure cells

/-- `AggregateAgg`. -/
structure AggregateAgg (AGG_N : ℕ) where
  aggregates : List Snark
  length_aggregates : aggregates.length = AGG_N

/-- The loop of `AggregateAgg::enforce_constraints`: it ends with the last new root and the rows
after the roots of all proofs. -/
def linkRoots : Fr → List (List (List Fr)) → Circuit Fr (Fr × List Fr)
  | lastNewRoot, [] => pure (lastNewRoot, [])
  | lastNewRoot, agg :: aggregates => do
    let column ← cellAt agg 0
    let oldRoot ← cellAt column 12
    let newRoot ← cellAt column 13
    constrainEqual lastNewRoot oldRoot
    let rest ← linkRoots newRoot aggregates
    pure (rest.1, column.drop 14 ++ rest.2)

/-- `AggregateAgg::enforce_constraints`; it returns the cells of the aggregation. -/
def AggregateAgg.enforceConstraints {AGG_N : ℕ} (accepts : List (List Fr) → Prop)
    (self : AggregateAgg AGG_N) : Circuit Fr AggregateCells := do
  let cells ← AggregationChip.aggregate accepts self.aggregates
  constrainInstances cells.aggCells 0
  let first ← cellAt cells.snarks 0
  let column ← cellAt first 0
  let oldRoot ← cellAt column 12
  let roots ← linkRoots oldRoot cells.snarks
  constrainInstance oldRoot 12
  constrainInstance roots.1 13
  constrainInstances roots.2 14
  pure cells

/-! ## Leaves between two roots -/

/-- The leaves lead from one root to another: a zero leaf keeps the root, and any other leaf takes
the place of the null leaf on the path that the low digits of its representative spell. -/
def InsertsTo (env : Env Fr) (depth : ℕ) : Fr → List Fr → Fr → Prop
  | oldRoot, [], newRoot => newRoot = oldRoot
  | oldRoot, leaf :: leafs, newRoot =>
    if leaf = 0 then InsertsTo env depth oldRoot leafs newRoot
    else
      ∃ w : InsertWitness, w.leaf = leaf ∧ w.Valid env depth ∧
        oldRoot = (w.cells env depth).oldRoot ∧
        InsertsTo env depth (w.cells env depth).newRoot leafs newRoot

section InsertsTo

variable {env : Env Fr} {depth : ℕ}

/-- Insertions that follow one another. -/
lemma InsertsTo.append {oldRoot root newRoot : Fr} {leafs leafs' : List Fr}
    (h : InsertsTo env depth oldRoot leafs root) (h' : InsertsTo env depth root leafs' newRoot) :
    InsertsTo env depth oldRoot (leafs ++ leafs') newRoot := by
  induction leafs generalizing oldRoot with
  | nil =>
    obtain rfl : root = oldRoot := h
    exact h'
  | cons leaf leafs ih =>
    rw [List.cons_append, InsertsTo]
    rw [InsertsTo] at h
    split_ifs at h ⊢ with h0
    · exact ih h
    · obtain ⟨w, hleaf, hw, hold, hrest⟩ := h
      exact ⟨w, hleaf, hw, hold, ih hrest⟩

/-- **What the leaves do to a tree.** Without collisions, leaves that lead from the root of a tree
to another root are inserted in order, each non-zero leaf in an empty slot, and the other root is
that of the tree with all of them. -/
theorem InsertsTo.sound (hinj : Set.InjOn env.hash env.hashed) {oldRoot newRoot : Fr}
    {leafs : List Fr} (h : InsertsTo env depth oldRoot leafs newRoot) {T : ℕ → Fr}
    (hT : TreeHashed env depth T) (hroot : treeRoot env depth T = oldRoot) :
    FillsEmpty depth T leafs ∧ newRoot = treeRoot env depth (insertLeaves depth T leafs) := by
  induction leafs generalizing T oldRoot with
  | nil =>
    obtain rfl : newRoot = oldRoot := h
    exact ⟨trivial, hroot.symm⟩
  | cons leaf leafs ih =>
    rw [InsertsTo] at h
    split_ifs at h with h0
    · -- padding: the tree stays
      have htree : insertLeaf depth T leaf = T := if_pos h0
      obtain ⟨hfills, hnew⟩ := ih h hT hroot
      refine ⟨⟨fun hne => absurd h0 hne, by rwa [htree]⟩, ?_⟩
      rw [hnew, insertLeaves, insertLeaves, List.foldl_cons, htree]
    · obtain ⟨w, rfl, hw, hold, hrest⟩ := h
      have htree : insertLeaf depth T w.leaf = Function.update T (slotOf depth w.leaf) w.leaf :=
        if_neg h0
      obtain ⟨hempty, hnew, hT'⟩ := w.sound hinj hw hT (hroot.trans hold)
      obtain ⟨hfills, hlast⟩ := ih hrest hT' hnew.symm
      refine ⟨⟨fun _ => hempty, by rwa [htree]⟩, ?_⟩
      rw [hlast, insertLeaves, insertLeaves, List.foldl_cons, htree]

/-- The rounds of the batch circuit lead from root to root. -/
lemma Batch.insertsTo_of_enforceInserts {root : Fr} {inserts : List (Insert depth)}
    {cells : List InsertConstraintCells} (h : enforceInserts 0 root inserts env cells) :
    InsertsTo env depth root (cells.map InsertConstraintCells.newLeaf)
      ((cells.map InsertConstraintCells.newRoot).getLastD root) := by
  induction inserts generalizing root cells with
  | nil =>
    obtain rfl : cells = [] := h
    rfl
  | cons insert inserts ih =>
    simp only [enforceInserts, bind_iff, enforceInsert_iff, pure_iff] at h
    obtain ⟨_, ⟨w, hw, hroot, rfl, -⟩, rest, hrest, rfl⟩ := h
    have hlast := ih hrest
    rw [List.map_cons, List.map_cons, List.getLastD_cons, InsertsTo]
    split_ifs with h0
    · rw [if_pos h0] at hlast
      simpa [h0] using hlast
    · rw [if_neg h0] at hlast
      exact ⟨w, rfl, hw, hroot h0, by simpa [h0] using hlast⟩

/-- **The batch circuit** leads from its old root over its leaves to its new root. -/
lemma Batch.insertsTo_of_enforceConstraints {self : Batch depth} {c : BatchConstraintCells}
    (h : self.enforceConstraints env.hash ((Note.paddingNote env.hash).commitment env.hash).toBase
      env c) :
    c.leafs.length = self.inserts.length ∧ InsertsTo env depth c.oldRoot c.leafs c.newRoot := by
  simp only [enforceConstraints, Note.commitment_paddingNote, Element.toBase_zero, bind_iff,
    assertC_iff, assignAdvice_iff, pure_iff, exists_const] at h
  obtain ⟨-, root, -, cells, hcells, rfl⟩ := h
  refine ⟨?_, insertsTo_of_enforceInserts hcells⟩
  rw [List.length_map]
  exact length_of_enforceInserts 0 _ _ _ hcells

end InsertsTo

/-! ## Rows of the instance column -/

section Rows

variable {env : Env Fr}

/-- Consecutive rows hold the cells. -/
lemma constrainInstances_iff (cells : List Fr) (row : ℕ) (u : Unit) :
    constrainInstances cells row env u ↔
      ∀ i cell, cells[i]? = some cell → env.instances.getD (row + i) 0 = cell := by
  induction cells generalizing row with
  | nil => simp [constrainInstances]
  | cons c cells ih =>
    simp only [constrainInstances, bind_iff, constrainInstance_iff, exists_const, ih]
    constructor
    · rintro ⟨hc, hrest⟩ i cell hcell
      rcases i with _ | i
      · rw [Nat.add_zero, ← hc]
        simpa using hcell
      · rw [show row + (i + 1) = row + 1 + i by omega]
        exact hrest i cell hcell
    · intro h
      refine ⟨(h 0 c rfl).symm, fun i cell hcell => ?_⟩
      rw [show row + 1 + i = row + (i + 1) by omega]
      exact h (i + 1) cell hcell

/-- The first three public inputs of each UTXO proof. -/
def utxoValues (utxos : List (List Fr)) : List Fr := utxos.flatMap fun utxo => utxo.take 3

/-- The leaves of the UTXO proofs. -/
def utxoLeafs (utxos : List (List Fr)) : List Fr := utxos.flatMap fun utxo => utxo.drop 3

/-- The rows of the transactions in public inputs. -/
def HasValues (instances : List Fr) (row : ℕ) (utxos : List (List Fr)) : Prop :=
  ∀ i x, (utxoValues utxos)[i]? = some x → instances.getD (row + i) 0 = x

/-- Columns of the same shape, with one column of `rows` rows for each proof. -/
lemma eq_map_of_numInstance {snarks : List Snark} {columns : List (List (List Fr))} {rows : ℕ}
    (hshape : columns.map (fun c => c.map List.length) = snarks.map Snark.numInstance)
    (hrows : ∀ snark ∈ snarks, snark.numInstance = [rows]) :
    ∃ utxos : List (List Fr), columns = utxos.map (fun utxo => [utxo]) ∧
      utxos.length = snarks.length ∧ ∀ utxo ∈ utxos, utxo.length = rows := by
  induction snarks generalizing columns with
  | nil =>
    obtain rfl : columns = [] := List.map_eq_nil_iff.1 hshape
    exact ⟨[], rfl, rfl, by simp⟩
  | cons snark snarks ih =>
    obtain ⟨column, columns, rfl, hcolumn, hcolumns⟩ := List.map_eq_cons_iff.1 hshape
    obtain ⟨hsnark, hrest⟩ := List.forall_mem_cons.1 hrows
    obtain ⟨utxos, rfl, hlen, hutxos⟩ := ih hcolumns hrest
    rw [hsnark] at hcolumn
    obtain ⟨utxo, nothing, rfl, hutxo, hnil⟩ := List.map_eq_cons_iff.1 hcolumn
    obtain rfl : nothing = [] := List.map_eq_nil_iff.1 hnil
    exact ⟨utxo :: utxos, rfl, by simp [hlen], List.forall_mem_cons.2 ⟨hutxo, hutxos⟩⟩

/-- The loop over the UTXO proofs: their first three public inputs are passed through, and their
leaves collected in order. -/
lemma hasValues_of_constrainUtxos {utxos : List (List Fr)} {base : ℕ} {leafs : List Fr}
    (h : constrainUtxos base (utxos.map fun utxo => [utxo]) env leafs) :
    leafs = utxoLeafs utxos ∧ HasValues env.instances base utxos := by
  induction utxos generalizing base leafs with
  | nil =>
    obtain rfl : leafs = [] := h
    exact ⟨rfl, by simp [HasValues, utxoValues]⟩
  | cons utxo utxos ih =>
    obtain ⟨column, hcolumn, root, hroot, ⟨⟩, hrow, hash, hhash, ⟨⟩, hrow', value, hvalue, ⟨⟩,
      hrow'', rest, hrest, rfl⟩ := h
    obtain rfl : utxo = column := by simpa [cellAt] using hcolumn
    obtain ⟨rfl, hvalues⟩ := ih hrest
    refine ⟨rfl, fun i x hx => ?_⟩
    -- the three rows of this proof, then those of the others
    have htake : utxo.take 3 = [root, hash, value] := by
      rcases utxo with _ | ⟨a, _ | ⟨b, _ | ⟨c, utxo⟩⟩⟩
      · simp [cellAt] at hroot
      · simp [cellAt] at hhash
      · simp [cellAt] at hvalue
      · simp only [cellAt, List.getElem?_cons_zero, List.getElem?_cons_succ,
          Option.some.injEq] at hroot hhash hvalue
        rw [hroot, hhash, hvalue]
        rfl
    rw [utxoValues, List.flatMap_cons, htake] at hx
    rcases i with _ | _ | _ | i
    · obtain rfl : root = x := by simpa using hx
      exact hrow.symm
    · obtain rfl : hash = x := by simpa using hx
      exact hrow'.symm
    · obtain rfl : value = x := by simpa using hx
      exact hrow''.symm
    · rw [show base + (i + 1 + 1 + 1) = base + 3 + i by omega]
      exact hvalues i x (by simpa [utxoValues] using hx)

end Rows

/-! ## What the public inputs say -/

/-- The public inputs of an aggregation roll up UTXO proofs: after the limbs and the roots they
have the recent root, hash and value of each proof in order, and the leaves of the proofs, in
order, lead from the old root to the new root. -/
structure RollsUp (env : Env Fr) (depth : ℕ) (instances : List Fr) (utxos : List (List Fr)) :
    Prop where
  values : HasValues instances 14 utxos
  inserts : InsertsTo env depth (instances.getD 12 0) (utxoLeafs utxos) (instances.getD 13 0)

section RollsUp

variable {env : Env Fr} {depth : ℕ}

/-- Which column the public inputs are in does not matter for the hashes. -/
lemma InsertsTo.of_instances {instances : List Fr} {oldRoot newRoot : Fr} {leafs : List Fr}
    (h : InsertsTo { env with instances := instances } depth oldRoot leafs newRoot) :
    InsertsTo env depth oldRoot leafs newRoot := by
  induction leafs generalizing oldRoot with
  | nil => exact h
  | cons leaf leafs ih =>
    rw [InsertsTo] at h ⊢
    split_ifs at h ⊢ with h0
    · exact ih h
    · obtain ⟨w, hleaf, hw, hold, hrest⟩ := h
      exact ⟨w, hleaf, ⟨hw.length_siblings, hw.null_hashed, hw.leaf_hashed⟩, hold, ih hrest⟩

/-- Each transaction has four leaves. -/
lemma length_utxoLeafs {utxos : List (List Fr)} (h : ∀ utxo ∈ utxos, utxo.length = 7) :
    (utxoLeafs utxos).length = 4 * utxos.length := by
  induction utxos with
  | nil => rfl
  | cons utxo utxos ih =>
    obtain ⟨hutxo, hrest⟩ := List.forall_mem_cons.1 h
    have hrec := ih hrest
    simp only [utxoLeafs] at hrec
    rw [utxoLeafs, List.flatMap_cons, List.length_append, List.length_drop, hutxo, hrec,
      List.length_cons]
    omega

/-- Each transaction has three values. -/
lemma length_utxoValues {utxos : List (List Fr)} (h : ∀ utxo ∈ utxos, utxo.length = 7) :
    (utxoValues utxos).length = 3 * utxos.length := by
  induction utxos with
  | nil => rfl
  | cons utxo utxos ih =>
    obtain ⟨hutxo, hrest⟩ := List.forall_mem_cons.1 h
    have hrec := ih hrest
    simp only [utxoValues] at hrec
    rw [utxoValues, List.flatMap_cons, List.length_append, List.length_take, hutxo, hrec,
      List.length_cons]
    omega

/-- **A group of UTXO proofs.** A satisfying assignment of `AggregateUtxo` over UTXO proofs rolls
them up: with four leaves for each proof, the comparison with the inserted leaves leaves none
out.

**Proof sketch.** The columns of the proofs have seven rows each, so that their leaves are four
times as many as they are. As many leaves are inserted, and all of them are compared; so the
inserted leaves are those of the proofs, and the batch inserts them
(`Batch.insertsTo_of_enforceConstraints`). -/
theorem AggregateUtxo.rollsUp {UTXO_N LEAVES : ℕ} (hleaves : LEAVES = 4 * UTXO_N)
    {accepts : List (List Fr) → Prop} {self : AggregateUtxo UTXO_N depth LEAVES}
    (hutxo : ∀ snark ∈ self.utxo, snark.numInstance = [7]) {instances : List Fr}
    {cells : AggregateCells}
    (h : self.enforceConstraints accepts env.hash { env with instances := instances } cells) :
    ∃ utxos : List (List Fr), utxos.length = UTXO_N ∧
      (∀ utxo ∈ utxos, utxo.length = 7 ∧ accepts [utxo]) ∧ RollsUp env depth instances utxos := by
  simp only [enforceConstraints, bind_iff, pure_iff, constrainInstance_iff, exists_const,
    forM_iff, constrainEqual_iff] at h
  obtain ⟨_, ⟨hlimbs, hshape, haccepts, -⟩, insert, hinsert, ⟨⟩, -, hold, hnew, leafs, hutxos,
    hequal, rfl⟩ := h
  obtain ⟨utxos, hcolumns, hlen, hrows⟩ := eq_map_of_numInstance hshape hutxo
  obtain ⟨hcount, hinserts⟩ := Batch.insertsTo_of_enforceConstraints hinsert
  rw [hcolumns, hlimbs] at hutxos
  rw [hlimbs] at hold hnew
  obtain ⟨rfl, hvalues⟩ := hasValues_of_constrainUtxos hutxos
  -- every leaf of the proofs is compared, and there is no other inserted leaf
  have hlenLeafs : (utxoLeafs utxos).length = insert.leafs.length := by
    rw [length_utxoLeafs hrows, hlen, self.length_utxo, hcount, self.length_inserts, hleaves]
  have hall : ((utxoLeafs utxos).zip insert.leafs).take LEAVES =
      (utxoLeafs utxos).zip insert.leafs := by
    refine List.take_of_length_le ?_
    rw [List.length_zip, ← hlenLeafs, min_self, length_utxoLeafs hrows, hlen, self.length_utxo,
      hleaves]
  have hleafs : utxoLeafs utxos = insert.leafs := by
    rw [hall] at hequal
    rw [← List.forall₂_eq_eq_eq, List.forall₂_iff_zip]
    exact ⟨hlenLeafs, fun {a b} hab => hequal (a, b) hab⟩
  refine ⟨utxos, by rw [hlen, self.length_utxo], fun utxo hmem => ⟨hrows utxo hmem, ?_⟩,
    hvalues, ?_⟩
  · refine haccepts [utxo] ?_
    rw [hcolumns]
    exact List.mem_map_of_mem hmem
  · have hold' : instances.getD 12 0 = insert.oldRoot := hold.symm
    have hnew' : instances.getD 13 0 = insert.newRoot := hnew.symm
    rw [hold', hnew', hleafs]
    exact hinserts.of_instances

/-- What each aggregated proof rolls up. -/
def RollUps (env : Env Fr) (depth : ℕ) (n : ℕ) (proved : List Fr → Prop) (column : List Fr) :
    Prop :=
  ∃ utxos : List (List Fr), utxos.length = n ∧ (∀ utxo ∈ utxos, utxo.length = 7 ∧ proved utxo) ∧
    RollsUp env depth column utxos

/-- The values of the transactions are the rows after the roots. -/
lemma RollsUp.drop_eq {column : List Fr} {utxos : List (List Fr)}
    (h : RollsUp env depth column utxos) (hutxos : ∀ utxo ∈ utxos, utxo.length = 7)
    (hlen : column.length = 14 + 3 * utxos.length) : column.drop 14 = utxoValues utxos := by
  have hvalues := length_utxoValues hutxos
  apply List.ext_getElem
  · rw [List.length_drop, hlen, hvalues]
    omega
  · intro i hi hi'
    have hrow := h.values i _ (List.getElem?_eq_getElem hi')
    have hfit : 14 + i < column.length := by
      rw [List.length_drop] at hi
      omega
    rw [List.getElem_drop, ← hrow, List.getD_eq_getElem?_getD, List.getElem?_eq_getElem hfit,
      Option.getD_some]

/-- **The loop over the aggregated proofs**, by induction on the proofs: their groups are rolled
up one after the other. -/
lemma rollsUp_of_linkRoots {n : ℕ} {proved : List Fr → Prop} {columns : List (List Fr)}
    (hcolumns : ∀ column ∈ columns,
      column.length = 14 + 3 * n ∧ RollUps env depth n proved column)
    {env' : Env Fr} {root : Fr} {roots : Fr × List Fr}
    (h : linkRoots root (columns.map fun column => [column]) env' roots) :
    ∃ utxos : List (List Fr), utxos.length = columns.length * n ∧
      (∀ utxo ∈ utxos, utxo.length = 7 ∧ proved utxo) ∧ roots.2 = utxoValues utxos ∧
      InsertsTo env depth root (utxoLeafs utxos) roots.1 := by
  induction columns generalizing root roots with
  | nil =>
    obtain rfl : roots = (root, []) := h
    exact ⟨[], by simp, by simp, rfl, rfl⟩
  | cons column columns ih =>
    obtain ⟨column', hcolumn', oldRoot, hold, newRoot, hnew, ⟨⟩, hlink, rest, hrest, rfl⟩ := h
    obtain rfl : column = column' := by simpa [cellAt] using hcolumn'
    obtain ⟨⟨hlen, utxos, hcount, hutxos, hrolls⟩, hothers⟩ := List.forall_mem_cons.1 hcolumns
    obtain ⟨utxos', hcount', hutxos', hvalues, hinserts⟩ := ih hothers hrest
    have hold' : column.getD 12 0 = root := by
      rw [List.getD_eq_getElem?_getD, hold, Option.getD_some]
      exact hlink.symm
    have hnew' : column.getD 13 0 = newRoot := by
      rw [List.getD_eq_getElem?_getD, hnew, Option.getD_some]
    have hfirst := hrolls.inserts
    rw [hold', hnew'] at hfirst
    refine ⟨utxos ++ utxos', ?_, ?_, ?_, ?_⟩
    · rw [List.length_append, hcount, hcount', List.length_cons]
      ring
    · exact List.forall_mem_append.2 ⟨hutxos, hutxos'⟩
    · rw [hrolls.drop_eq (fun utxo hmem => (hutxos utxo hmem).1) (by rw [hlen, hcount]), hvalues,
        utxoValues, utxoValues, utxoValues, List.flatMap_append]
    · rw [utxoLeafs, List.flatMap_append]
      exact hfirst.append hinserts

/-- **Aggregated proofs.** A satisfying assignment of `AggregateAgg` over proofs that roll up groups
of `n` UTXO proofs rolls up all of them, group after group; its first rows are the limbs.

**Proof sketch.** Each column rolls up its group, and the constraints on the roots link the groups
one after the other (`rollsUp_of_linkRoots`). -/
theorem AggregateAgg.rollsUp {AGG_N n : ℕ} {proved : List Fr → Prop}
    {accepts : List (List Fr) → Prop}
    (haccepts : ∀ column, accepts [column] → RollUps env depth n proved column)
    {self : AggregateAgg AGG_N}
    (hrows : ∀ snark ∈ self.aggregates, snark.numInstance = [14 + 3 * n]) {instances : List Fr}
    {cells : AggregateCells}
    (h : self.enforceConstraints accepts { env with instances := instances } cells) :
    RollUps env depth (AGG_N * n) proved instances ∧ cells.aggCells.length = 12 ∧
      ∀ i limb, cells.aggCells[i]? = some limb → instances.getD i 0 = limb := by
  simp only [enforceConstraints, bind_iff, pure_iff, constrainInstance_iff, exists_const,
    constrainInstances_iff] at h
  obtain ⟨_, ⟨hlimbs, hshape, hacc, -⟩, hfirstRows, first, hfirst, column, hcolumn, oldRoot, hold,
    roots, hlink, hrow12, hrow13, hrow14, rfl⟩ := h
  obtain ⟨columns, hcolumns, hlen, hlength⟩ := eq_map_of_numInstance hshape hrows
  have hgroups : ∀ column ∈ columns,
      column.length = 14 + 3 * n ∧ RollUps env depth n proved column := by
    refine fun column hmem => ⟨hlength column hmem, haccepts column (hacc [column] ?_)⟩
    rw [hcolumns]
    exact List.mem_map_of_mem hmem
  rw [hcolumns] at hlink
  obtain ⟨utxos, hcount, hutxos, hvalues, hinserts⟩ := rollsUp_of_linkRoots hgroups hlink
  have hold' : instances.getD 12 0 = oldRoot := hrow12.symm
  have hnew' : instances.getD 13 0 = roots.1 := hrow13.symm
  refine ⟨⟨utxos, by rw [hcount, hlen, self.length_aggregates], hutxos, ?_, ?_⟩, hlimbs,
    fun i limb hlimb => ?_⟩
  · rw [hvalues] at hrow14
    exact hrow14
  · rw [hold', hnew']
    exact hinserts
  · have := hfirstRows i limb hlimb
    rwa [Nat.zero_add] at this

/-- **Aggregations of aggregations.** The prover aggregates once more: `AggregateAgg` over proofs of
`AggregateAgg` rolls up the same UTXO proofs. -/
theorem AggregateAgg.rollUps_nested {OUTER_N AGG_N n : ℕ} {proved : List Fr → Prop}
    {acceptsAgg acceptsOuter : List (List Fr) → Prop}
    (hgroup : ∀ column, acceptsAgg [column] → RollUps env depth n proved column)
    (houter : ∀ column, acceptsOuter [column] →
      ∃ (agg : AggregateAgg AGG_N) (cells : AggregateCells),
        (∀ snark ∈ agg.aggregates, snark.numInstance = [14 + 3 * n]) ∧
        agg.enforceConstraints acceptsAgg { env with instances := column } cells)
    {self : AggregateAgg OUTER_N}
    (hrows : ∀ snark ∈ self.aggregates, snark.numInstance = [14 + 3 * (AGG_N * n)])
    {instances : List Fr} {cells : AggregateCells}
    (h : self.enforceConstraints acceptsOuter { env with instances := instances } cells) :
    RollUps env depth (OUTER_N * (AGG_N * n)) proved instances := by
  have hinner : ∀ column, acceptsOuter [column] → RollUps env depth (AGG_N * n) proved column := by
    intro column haccepts
    obtain ⟨agg, innerCells, hshape, hsat⟩ := houter column haccepts
    exact (rollsUp hgroup hshape hsat).1
  exact (rollsUp hinner hrows h).1

/-- The values of one of the UTXO proofs. -/
lemma getElem?_utxoValues {utxos : List (List Fr)} (hutxos : ∀ utxo ∈ utxos, utxo.length = 7)
    {k : ℕ} {utxo : List Fr} (hk : utxos[k]? = some utxo) {c : ℕ} (hc : c < 3) :
    (utxoValues utxos)[3 * k + c]? = some (utxo.getD c 0) := by
  induction utxos generalizing k with
  | nil => simp at hk
  | cons first utxos ih =>
    obtain ⟨hfirst, hrest⟩ := List.forall_mem_cons.1 hutxos
    have htake : (first.take 3).length = 3 := by rw [List.length_take, hfirst]; rfl
    rw [utxoValues, List.flatMap_cons]
    rcases k with _ | k
    · obtain rfl : first = utxo := by simpa using hk
      have hfit : c < first.length := by omega
      rw [Nat.mul_zero, Nat.zero_add, List.getElem?_append_left (by omega),
        List.getElem?_take_of_lt hc, List.getD_eq_getElem?_getD, List.getElem?_eq_getElem hfit,
        Option.getD_some]
    · rw [List.getElem?_append_right (by omega), htake,
        show 3 * (k + 1) + c - 3 = 3 * k + c by omega]
      exact ih hrest hk

end RollsUp

end TempoRollup.Circuits
