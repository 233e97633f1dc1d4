import TempoRollup.Circuits.Insert
import TempoRollup.Circuits.Utxo
import Mathlib.Algebra.BigOperators.Group.Finset.Basic
import Mathlib.Algebra.Order.BigOperators.Group.Finset
import Mathlib.Data.Nat.Cast.Order.Basic

set_option relaxedAutoImplicit false
set_option autoImplicit false

/-!
# Runs of the roll-up

A block is rolled up by satisfying assignments of the UTXO circuits of its transactions and
of the batch insert circuits that insert their leaves. This file proves what such a run
guarantees, whatever witnesses the provers choose: no note is spent twice, and the unspent
notes in the tree are worth what was minted less what was burned.

## Main definitions

* `TxnAssignment`, `BatchAssignment`, `Block` — the satisfying assignments behind a block.
* `Run` — the runs that start at the empty tree.
* `noteValue`, `unspentValue` — the value of the notes in a tree.
* `RunInv` — the invariant of a run.

## Main results

* `RunInv.txn` — a transaction keeps the invariant.
* `Run.inv` — every run satisfies it.
* `Run.no_double_spend_no_inflation` — no double spend and no inflation.
-/

open ConstraintSystem

namespace TempoRollup.Circuits

/-! ## Assignments and runs -/

/-- A transaction, with its public inputs and an assignment of its circuit. -/
structure TxnAssignment (depth : ℕ) where
  utxo : Utxo depth
  instances : List Fr
  cells : UtxoCells

namespace TxnAssignment

variable {depth : ℕ}

/-- The assignment satisfies the UTXO circuit on the transaction's public inputs. -/
def Satisfied (env : Env Fr) (t : TxnAssignment depth) : Prop :=
  t.utxo.synthesize env.hash { env with instances := t.instances } t.cells

/-- The public recent root. -/
def recentRoot (t : TxnAssignment depth) : Fr := t.instances.getD 0 0

/-- The public mint or burn value. -/
def mbValue (t : TxnAssignment depth) : ℕ := (t.instances.getD 2 0).val

/-- The public leaves. -/
def leaves (t : TxnAssignment depth) : List Fr :=
  [t.instances.getD 3 0, t.instances.getD 4 0, t.instances.getD 5 0, t.instances.getD 6 0]

/-- The value that the transaction mints. -/
def mintValue (t : TxnAssignment depth) : ℕ :=
  if t.cells.kind = UtxoKind.mint.asElement then t.mbValue else 0

/-- The value that the transaction burns. -/
def burnValue (t : TxnAssignment depth) : ℕ :=
  if t.cells.kind = UtxoKind.burn.asElement then t.mbValue else 0

/-- The commitments that the inputs consume; padding inputs consume none. -/
def consumed (t : TxnAssignment depth) : List Fr :=
  ([t.cells.in1.commitment, t.cells.in2.commitment].filter fun c => c.value ≠ 0).map
    NoteConstraintCells.cm

end TxnAssignment

/-- A batch insert, with its public inputs and an assignment of its circuit. -/
structure BatchAssignment (depth : ℕ) where
  batch : Batch depth
  instances : List Fr
  cells : BatchConstraintCells

/-- The assignment satisfies the batch insert circuit on its public inputs. -/
def BatchAssignment.Satisfied {depth : ℕ} (env : Env Fr) (b : BatchAssignment depth) : Prop :=
  b.batch.synthesize env.hash { env with instances := b.instances } b.cells

/-- The assignments behind a block. -/
structure Block (depth : ℕ) where
  txns : List (TxnAssignment depth)
  batches : List (BatchAssignment depth)

/-- The batches lead from one root to another. -/
def Chained {depth : ℕ} : Fr → List (BatchAssignment depth) → Fr → Prop
  | oldRoot, [], newRoot => newRoot = oldRoot
  | oldRoot, b :: batches, newRoot =>
    b.cells.oldRoot = oldRoot ∧ Chained b.cells.newRoot batches newRoot

namespace Block

variable {depth : ℕ}

/-- The leaves of the transactions. -/
def leaves (b : Block depth) : List Fr := b.txns.flatMap TxnAssignment.leaves

/-- The block rolls up from the last of the `roots` to `newRoot`: all assignments are
satisfying, the batches insert the leaves of the transactions, and each transaction refers to
an earlier root or to none. -/
structure Valid (env : Env Fr) (roots : List Fr) (oldRoot newRoot : Fr) (b : Block depth) :
    Prop where
  txns_satisfied : ∀ t ∈ b.txns, t.Satisfied env
  batches_satisfied : ∀ a ∈ b.batches, a.Satisfied env
  chained : Chained oldRoot b.batches newRoot
  leaves_eq : b.batches.flatMap (fun a => a.cells.leafs) = b.leaves
  recent_root : ∀ t ∈ b.txns, t.recentRoot = 0 ∨ t.recentRoot ∈ roots

end Block

/-- A run of roll-ups from the empty tree: its blocks, and its roots with the current one
first. -/
inductive Run (env : Env Fr) (depth : ℕ) : List (Block depth) → List Fr → Prop
  | start : Run env depth [] [treeRoot env depth fun _ => 0]
  | block {blocks : List (Block depth)} {b : Block depth} {root newRoot : Fr} {roots : List Fr}
      (hrun : Run env depth blocks (root :: roots))
      (hb : b.Valid env (root :: roots) root newRoot) :
      Run env depth (blocks ++ [b]) (newRoot :: root :: roots)

/-! ## What a run has done -/

section Totals

variable {depth : ℕ}

/-- The transactions of a run. -/
def runTxns (blocks : List (Block depth)) : List (TxnAssignment depth) :=
  blocks.flatMap Block.txns

/-- The tree of a run: the leaves of its transactions, inserted in order. -/
def runTree (blocks : List (Block depth)) : ℕ → Fr :=
  insertLeaves depth (fun _ => 0) ((runTxns blocks).flatMap TxnAssignment.leaves)

/-- The commitments consumed by the inputs of a run. -/
def runConsumed (blocks : List (Block depth)) : List Fr :=
  (runTxns blocks).flatMap TxnAssignment.consumed

/-- The value minted in a run. -/
def runMinted (blocks : List (Block depth)) : ℕ :=
  ((runTxns blocks).map TxnAssignment.mintValue).sum

/-- The value burned in a run. -/
def runBurned (blocks : List (Block depth)) : ℕ :=
  ((runTxns blocks).map TxnAssignment.burnValue).sum

end Totals

open Classical in
/-- The value of the note that a leaf commits to; zero when it commits to none. -/
noncomputable def noteValue (env : Env Fr) (leaf : Fr) : ℕ :=
  if h : ∃ w : NoteWitness, w.message ∈ env.hashed ∧ w.value ≠ 0 ∧ env.hash w.message = leaf
  then h.choose.value.val else 0

open Classical in
/-- The value of the notes in a tree whose commitments are not consumed. -/
noncomputable def unspentValue (env : Env Fr) (depth : ℕ) (T : ℕ → Fr) (consumed : List Fr) : ℕ :=
  ∑ i ∈ Finset.range (2 ^ (depth - 1)), if T i ∈ consumed then 0 else noteValue env (T i)

section NoteValue

variable {env : Env Fr}

/-- The value of a leaf that is the commitment of a note. -/
lemma noteValue_hash (hcf : env.CollisionFree) {w : NoteWitness} (hw : w.message ∈ env.hashed)
    (hv : w.value ≠ 0) : noteValue env (env.hash w.message) = w.value.val := by
  have h : ∃ w' : NoteWitness, w'.message ∈ env.hashed ∧ w'.value ≠ 0 ∧
      env.hash w'.message = env.hash w.message := ⟨w, hw, hv, rfl⟩
  rw [noteValue, dif_pos h]
  obtain ⟨hmem, -, heq⟩ := h.choose_spec
  rw [NoteWitness.message_inj (hcf.hash_inj hmem hw heq)]

/-- A leaf is worth nothing unless it is the digest of a note. -/
lemma noteValue_eq_zero {leaf : Fr}
    (h : ∀ w : NoteWitness, w.message ∈ env.hashed → env.hash w.message ≠ leaf) :
    noteValue env leaf = 0 := by
  rw [noteValue, dif_neg]
  rintro ⟨w, hw, -, heq⟩
  exact h w hw heq

/-- Zero is worth nothing. -/
lemma noteValue_zero (hcf : env.CollisionFree) : noteValue env 0 = 0 :=
  noteValue_eq_zero fun _ hw => hcf.ne_zero _ hw

/-- The value of a commitment, padding included. -/
lemma noteValue_cm (hcf : env.CollisionFree) {w : NoteWitness} (hw : w.message ∈ env.hashed) :
    noteValue env (w.cm env.hash) = w.value.val := by
  rw [NoteWitness.cm]
  split_ifs with h
  · rw [noteValue_zero hcf, h, ZMod.val_zero]
  · exact noteValue_hash hcf hw h

/-- A nullifier is no commitment: the two have messages of different lengths. -/
lemma noteValue_nullifier (hcf : env.CollisionFree) {depth : ℕ} {w : InputWitness}
    (hw : w.Valid env depth) : noteValue env (w.nullifier env.hash) = 0 := by
  rw [InputWitness.nullifier]
  split_ifs with h
  · exact noteValue_zero hcf
  · refine noteValue_eq_zero fun w' hw' heq => ?_
    have := congrArg List.length (hcf.hash_inj hw' hw.nullifier_mem heq)
    simp [NoteWitness.message, InputWitness.nullifierMessage] at this

end NoteValue

/-! ## Filling empty slots -/

section Filling

variable {env : Env Fr} {depth : ℕ}

/-- Each non-zero leaf finds its slot empty when it is reached. -/
def FillsEmpty (depth : ℕ) : (ℕ → Fr) → List Fr → Prop
  | _, [] => True
  | T, leaf :: leafs =>
    (leaf ≠ 0 → T (slotOf depth leaf) = 0) ∧ FillsEmpty depth (insertLeaf depth T leaf) leafs

/-- The leaves of a satisfied batch circuit fill empty slots. -/
lemma Inserted.fillsEmpty {T : ℕ → Fr} {leafs roots : List Fr}
    (h : Inserted env depth T leafs roots) : FillsEmpty depth T leafs := by
  have hslot := h.slot_empty
  clear h
  induction leafs generalizing T with
  | nil => trivial
  | cons leaf leafs ih => exact ⟨hslot 0 leaf rfl, ih fun k l hl => hslot (k + 1) l hl⟩

/-- Inserting two lists one after the other. -/
lemma insertLeaves_append (T : ℕ → Fr) (l l' : List Fr) :
    insertLeaves depth T (l ++ l') = insertLeaves depth (insertLeaves depth T l) l' :=
  List.foldl_append

/-- Two lists that follow one another fill empty slots if each does at its turn. -/
lemma fillsEmpty_append (T : ℕ → Fr) (l l' : List Fr) :
    FillsEmpty depth T (l ++ l') ↔
      FillsEmpty depth T l ∧ FillsEmpty depth (insertLeaves depth T l) l' := by
  induction l generalizing T with
  | nil => simp [FillsEmpty, insertLeaves]
  | cons leaf l ih => simp only [List.cons_append, FillsEmpty, ih, and_assoc]; rfl

/-- The second tree has all leaves of the first. -/
def Extends (T T' : ℕ → Fr) : Prop := ∀ i, T i ≠ 0 → T' i = T i

/-- A tree extends itself. -/
lemma Extends.refl (T : ℕ → Fr) : Extends T T := fun _ _ => rfl

/-- An extension of an extension is one. -/
lemma Extends.trans {T T' T'' : ℕ → Fr} (h : Extends T T') (h' : Extends T' T'') :
    Extends T T'' := by
  intro i hi
  rw [h' i (by rwa [h i hi]), h i hi]

/-- A leaf in an empty slot extends the tree. -/
lemma extends_insertLeaf {T : ℕ → Fr} {leaf : Fr} (h : leaf ≠ 0 → T (slotOf depth leaf) = 0) :
    Extends T (insertLeaf depth T leaf) := by
  intro i hi
  rw [insertLeaf]
  split_ifs with h0
  · rfl
  · refine Function.update_of_ne ?_ _ _
    rintro rfl
    exact hi (h h0)

/-- Leaves in empty slots extend the tree. -/
lemma FillsEmpty.extends {T : ℕ → Fr} {leafs : List Fr} (h : FillsEmpty depth T leafs) :
    Extends T (insertLeaves depth T leafs) := by
  induction leafs generalizing T with
  | nil => exact Extends.refl T
  | cons leaf leafs ih => exact (extends_insertLeaf h.1).trans (ih h.2)

/-- The slot of an inserted leaf holds it. -/
lemma insertLeaf_slotOf {T : ℕ → Fr} {leaf : Fr} (h0 : leaf ≠ 0) :
    insertLeaf depth T leaf (slotOf depth leaf) = leaf := by
  rw [insertLeaf, if_neg h0, Function.update_self]

/-- An inserted leaf was not there before and is there afterwards. -/
lemma FillsEmpty.mem {T : ℕ → Fr} {leafs : List Fr} (h : FillsEmpty depth T leafs) {leaf : Fr}
    (hmem : leaf ∈ leafs) (h0 : leaf ≠ 0) :
    T (slotOf depth leaf) = 0 ∧ insertLeaves depth T leafs (slotOf depth leaf) = leaf := by
  induction leafs generalizing T with
  | nil => simp at hmem
  | cons l leafs ih =>
    rcases List.mem_cons.1 hmem with rfl | hmem
    · refine ⟨h.1 h0, ?_⟩
      have hslot : insertLeaf depth T leaf (slotOf depth leaf) = leaf := insertLeaf_slotOf h0
      exact (h.2.extends _ (by rwa [hslot])).trans hslot
    · obtain ⟨hempty, hfull⟩ := ih h.2 hmem
      refine ⟨?_, hfull⟩
      by_contra hne
      exact hne ((extends_insertLeaf h.1 _ hne).symm.trans hempty)

/-- The inserted leaves are pairwise different. -/
lemma FillsEmpty.nodup {T : ℕ → Fr} {leafs : List Fr} (h : FillsEmpty depth T leafs) :
    (leafs.filter fun leaf => leaf ≠ 0).Nodup := by
  induction leafs generalizing T with
  | nil => simp
  | cons l leafs ih =>
    by_cases h0 : l = 0
    · simpa [h0] using ih h.2
    · rw [List.filter_cons_of_pos (by simpa using h0), List.nodup_cons]
      refine ⟨fun hmem => ?_, ih h.2⟩
      have hmem' : l ∈ leafs := List.mem_of_mem_filter hmem
      have hempty := (h.2.mem hmem' h0).1
      rw [insertLeaf_slotOf h0] at hempty
      exact h0 hempty

/-- A leaf of the tree with the inserted leaves was there before or is one of them. -/
lemma insertLeaves_eq_or_mem (depth : ℕ) (T : ℕ → Fr) (leafs : List Fr) (i : ℕ) :
    insertLeaves depth T leafs i = T i ∨ insertLeaves depth T leafs i ∈ leafs := by
  induction leafs generalizing T with
  | nil => exact .inl rfl
  | cons leaf leafs ih =>
    rcases ih (insertLeaf depth T leaf) with h | h
    · have hstep : insertLeaf depth T leaf i = T i ∨ insertLeaf depth T leaf i = leaf := by
        rw [insertLeaf]
        split_ifs with h0
        · exact .inl rfl
        · rcases eq_or_ne i (slotOf depth leaf) with rfl | hi
          · exact .inr (Function.update_self _ _ _)
          · exact .inl (Function.update_of_ne hi _ _)
      rcases hstep with hstep | hstep
      · exact .inl (h.trans hstep)
      · exact .inr (List.mem_cons.2 (.inl (h.trans hstep)))
    · exact .inr (List.mem_cons_of_mem _ h)

/-- Every leaf of the tree sits in its slot. -/
def Placed (depth : ℕ) (T : ℕ → Fr) : Prop := ∀ i, T i ≠ 0 → slotOf depth (T i) = i

/-- An inserted leaf stands in its own slot. -/
lemma Placed.insertLeaf {T : ℕ → Fr} (hT : Placed depth T) (leaf : Fr) :
    Placed depth (insertLeaf depth T leaf) := by
  intro i hi
  rw [Circuits.insertLeaf] at hi ⊢
  split_ifs at hi ⊢ with h0
  · exact hT i hi
  · by_cases his : i = slotOf depth leaf
    · rw [his, Function.update_self]
    · rw [Function.update_of_ne his] at hi ⊢
      exact hT i hi

/-- Inserted leaves stand in their own slots. -/
lemma Placed.insertLeaves {T : ℕ → Fr} (hT : Placed depth T) (leafs : List Fr) :
    Placed depth (insertLeaves depth T leafs) := by
  induction leafs generalizing T with
  | nil => exact hT
  | cons leaf leafs ih => exact ih (hT.insertLeaf leaf)

/-! ## How the unspent value changes -/

/-- A filled slot adds the value of its leaf. -/
lemma unspentValue_insertLeaf (hcf : env.CollisionFree) {T : ℕ → Fr} {leaf : Fr}
    {consumed : List Fr} (h : leaf ≠ 0 → T (slotOf depth leaf) = 0) (hnew : leaf ∉ consumed) :
    unspentValue env depth (insertLeaf depth T leaf) consumed =
      unspentValue env depth T consumed + noteValue env leaf := by
  classical
  by_cases h0 : leaf = 0
  · simp [insertLeaf, h0, noteValue_zero hcf]
  · have hs : slotOf depth leaf ∈ Finset.range (2 ^ (depth - 1)) :=
      Finset.mem_range.2 (slotOf_lt depth leaf)
    rw [unspentValue, unspentValue, ← Finset.add_sum_erase _ _ hs,
      ← Finset.add_sum_erase (Finset.range _) _ hs, insertLeaf_slotOf h0, h h0, if_neg hnew,
      noteValue_zero hcf, ite_self, zero_add, add_comm]
    congr 1
    refine Finset.sum_congr rfl fun i hi => ?_
    rw [insertLeaf, if_neg h0, Function.update_of_ne (Finset.ne_of_mem_erase hi)]

/-- Inserted leaves that are not consumed add their values to the unspent value. -/
lemma unspentValue_insertLeaves (hcf : env.CollisionFree) {T : ℕ → Fr} {leafs : List Fr}
    {consumed : List Fr} (h : FillsEmpty depth T leafs)
    (hnew : ∀ leaf ∈ leafs, leaf ∉ consumed) :
    unspentValue env depth (insertLeaves depth T leafs) consumed =
      unspentValue env depth T consumed + (leafs.map (noteValue env)).sum := by
  induction leafs generalizing T with
  | nil => simp [insertLeaves]
  | cons leaf leafs ih =>
    obtain ⟨hleaf, hleafs⟩ := List.forall_mem_cons.1 hnew
    have hstep := unspentValue_insertLeaf hcf h.1 hleaf
    have hrest := ih h.2 hleafs
    rw [List.map_cons, List.sum_cons, ← add_assoc, ← hstep, ← hrest]
    rfl

/-- Consuming a commitment of the tree takes its value away. -/
lemma unspentValue_concat {T : ℕ → Fr} (hT : Placed depth T) {c : Fr} {consumed : List Fr}
    (h0 : c ≠ 0) (hc : T (slotOf depth c) = c) (hnew : c ∉ consumed) :
    unspentValue env depth T consumed =
      unspentValue env depth T (consumed ++ [c]) + noteValue env c := by
  classical
  have hs : slotOf depth c ∈ Finset.range (2 ^ (depth - 1)) :=
    Finset.mem_range.2 (slotOf_lt depth c)
  rw [unspentValue, unspentValue, ← Finset.add_sum_erase _ _ hs,
    ← Finset.add_sum_erase (Finset.range _) _ hs, hc, if_neg hnew,
    if_pos List.mem_concat_self, zero_add, add_comm]
  congr 1
  refine Finset.sum_congr rfl fun i hi => ?_
  -- the commitment is in no other slot
  have hne : T i ≠ c := by
    intro hi'
    have := hT i (by rwa [hi'])
    rw [hi'] at this
    exact Finset.ne_of_mem_erase hi this.symm
  simp [hne]

/-- Consuming notes of the tree takes their values off the unspent value. -/
lemma unspentValue_append (env : Env Fr) {T : ℕ → Fr} (hT : Placed depth T)
    (cs consumed : List Fr) (hcs : ∀ c ∈ cs, c ≠ 0 ∧ T (slotOf depth c) = c)
    (hnodup : (consumed ++ cs).Nodup) :
    unspentValue env depth T consumed =
      unspentValue env depth T (consumed ++ cs) + (cs.map (noteValue env)).sum := by
  induction cs generalizing consumed with
  | nil => simp
  | cons c cs ih =>
    obtain ⟨hc, hcs⟩ := List.forall_mem_cons.1 hcs
    have hnotin : c ∉ consumed := fun h =>
      List.disjoint_of_nodup_append hnodup h List.mem_cons_self
    rw [List.append_cons] at hnodup ⊢
    rw [unspentValue_concat hT hc.1 hc.2 hnotin, ih _ hcs hnodup, List.map_cons, List.sum_cons]
    ring

end Filling

/-! ## The invariant -/

/-- **The invariant of a run**, for the tree `T`, the trees of the earlier roots, the consumed
commitments and the totals. A consumed commitment has its nullifier in the tree: that is what
keeps it from being consumed again. -/
structure RunInv (env : Env Fr) (depth : ℕ) (history : List (ℕ → Fr)) (T : ℕ → Fr)
    (consumed : List Fr) (minted burned : ℕ) : Prop where
  history_hashed : ∀ T' ∈ history, TreeHashed env depth T'
  history_extends : ∀ T' ∈ history, Extends T' T
  placed : Placed depth T
  bounded : ∀ i, noteValue env (T i) < 2 ^ 240
  nodup : consumed.Nodup
  spent : ∀ c ∈ consumed, c ≠ 0 ∧ T (slotOf depth c) = c ∧
    ∃ w : InputWitness, w.Valid env depth ∧ w.cm env.hash = c ∧
      T (slotOf depth (w.nullifier env.hash)) = w.nullifier env.hash
  balance : unspentValue env depth T consumed + burned = minted

section Invariant

variable {env : Env Fr} {depth : ℕ}

/-- The root over a non-padding input is never the null root. -/
lemma InputWitness.root_ne_zero (hcf : env.CollisionFree) {w : InputWitness}
    (hw : w.Valid env depth) (hv : w.value ≠ 0) : w.root env ≠ 0 := by
  have hfold : ∀ (p : List (Fr × Bool)) (leaf : Fr), leaf ≠ 0 → PathHashed env leaf p →
      SparseMerkle.foldPath (hash2 env) leaf p ≠ 0 := by
    intro p
    induction p with
    | nil => exact fun leaf h0 _ => h0
    | cons e p ih =>
      intro leaf _ hp
      obtain ⟨s, d⟩ := e
      obtain ⟨hmem, hp⟩ := (pathHashed_cons env leaf s d p).1 hp
      rw [foldPath_cons]
      exact ih _ (hcf.ne_zero _ hmem) hp
  refine hfold _ _ ?_ hw.path_hashed
  rwa [Ne, NoteWitness.cm_eq_zero_iff hcf hw.message_mem]

/-- **Membership of the inputs**: a non-padding input whose root is an earlier one opens a
commitment of the tree. -/
lemma RunInv.input_mem (hcf : env.CollisionFree) {history : List (ℕ → Fr)} {T : ℕ → Fr}
    {consumed : List Fr} {minted burned : ℕ}
    (hinv : RunInv env depth history T consumed minted burned) {w : InputWitness}
    (hw : w.Valid env depth) (hv : w.value ≠ 0)
    (hroot : w.root env = 0 ∨ w.root env ∈ history.map (treeRoot env depth)) :
    T (slotOf depth (w.cm env.hash)) = w.cm env.hash := by
  have hcm : w.cm env.hash ≠ 0 := by rwa [Ne, NoteWitness.cm_eq_zero_iff hcf hw.message_mem]
  obtain ⟨T', hT', heq⟩ := List.mem_map.1 (hroot.resolve_left (w.root_ne_zero hcf hw hv))
  obtain ⟨hleaf, -⟩ := eq_of_foldPath_eq_treeRoot hcf.injOn (hinv.history_hashed T' hT')
    hw.length_path hw.path_hashed heq.symm
  -- the slot spelled by the path holds the commitment, so it is the commitment's slot
  have hT := hinv.history_extends T' hT' _ (by rwa [← hleaf])
  rw [← hleaf] at hT
  have hslot := hinv.placed _ (by rwa [hT])
  rw [hT] at hslot
  rw [hslot]
  exact hT

/-- A consumed commitment cannot be consumed again: its nullifier, which is unique, is
already in the tree. -/
lemma RunInv.not_mem_consumed (hcf : env.CollisionFree) {history : List (ℕ → Fr)} {T : ℕ → Fr}
    {consumed : List Fr} {minted burned : ℕ}
    (hinv : RunInv env depth history T consumed minted burned) {w : InputWitness}
    (hw : w.Valid env depth) (hv : w.value ≠ 0)
    (hempty : T (slotOf depth (w.nullifier env.hash)) = 0) : w.cm env.hash ∉ consumed := by
  intro hmem
  obtain ⟨h0, -, w', hw', hcm, hnull⟩ := hinv.spent _ hmem
  have hsame := InputWitness.nullifier_eq_of_cm_eq hcf hw hw' hcm.symm h0
  rw [← hsame, hempty] at hnull
  exact hv ((InputWitness.nullifier_eq_zero_iff hcf hw).1 hnull.symm)

/-- The validity of an input does not depend on the instance column. -/
lemma InputWitness.Valid.of_instances {instances : List Fr} {w : InputWitness}
    (h : w.Valid { env with instances := instances } depth) : w.Valid env depth :=
  ⟨h.message_mem, h.length_path, h.path_hashed, h.address_mem, h.address_eq, h.nullifier_mem⟩

/-- Validity of an input does not depend on the public inputs. -/
lemma InputWitness.Valid.with_instances {w : InputWitness} (h : w.Valid env depth)
    (instances : List Fr) : w.Valid { env with instances := instances } depth :=
  ⟨h.message_mem, h.length_path, h.path_hashed, h.address_mem, h.address_eq, h.nullifier_mem⟩

/-- What a satisfied transaction gives to the step of the invariant: a witness whose cells
and public inputs are the transaction's. -/
lemma TxnAssignment.exists_witness {t : TxnAssignment depth} (h : t.Satisfied env) :
    ∃ w : UtxoWitness, w.Valid { env with instances := t.instances } depth ∧
      w.Exposes { env with instances := t.instances } ∧
      t.cells = w.cells { env with instances := t.instances } ∧
      t.leaves = w.leaves env.hash := by
  obtain ⟨w, hw, hx, hc, -⟩ := (Utxo.synthesize_iff _ _ _).1 h
  refine ⟨w, hw, hx, hc, ?_⟩
  rw [TxnAssignment.leaves, UtxoWitness.leaves, ← hx.in1, ← hx.in2, ← hx.out1, ← hx.out2]

/-- The commitments consumed by a transaction, from its witness. -/
lemma TxnAssignment.consumed_eq {t : TxnAssignment depth} {w : UtxoWitness} {env' : Env Fr}
    (hc : t.cells = w.cells env') :
    t.consumed = ([w.in1, w.in2].filter fun i => i.value ≠ 0).map fun i => i.cm env'.hash := by
  rw [TxnAssignment.consumed, hc]
  by_cases h1 : w.in1.value = 0 <;> by_cases h2 : w.in2.value = 0 <;>
    simp [UtxoWitness.cells, UtxoWitness.inputCells, NoteWitness.cells, h1, h2]

/-- The minted value of a transaction, from its witness. -/
lemma TxnAssignment.mintValue_eq {t : TxnAssignment depth} {w : UtxoWitness} {env' : Env Fr}
    (hx : w.Exposes { env' with instances := t.instances })
    (hc : t.cells = w.cells { env' with instances := t.instances }) :
    t.mintValue = if w.isMint then w.mbValue.val else 0 := by
  rw [TxnAssignment.mintValue, TxnAssignment.mbValue, hc, hx.mbValue]
  simp [UtxoWitness.cells, UtxoWitness.isMint]

/-- The burned value of a transaction, from its witness. -/
lemma TxnAssignment.burnValue_eq {t : TxnAssignment depth} {w : UtxoWitness} {env' : Env Fr}
    (hx : w.Exposes { env' with instances := t.instances })
    (hc : t.cells = w.cells { env' with instances := t.instances }) :
    t.burnValue = if w.isBurn then w.mbValue.val else 0 := by
  rw [TxnAssignment.burnValue, TxnAssignment.mbValue, hc, hx.mbValue]
  simp [UtxoWitness.cells, UtxoWitness.isBurn]

/-- The inputs of a transaction that are worth something open commitments of the tree that
were not consumed before, by another transaction or by the other input. -/
lemma RunInv.consumed_fresh (hcf : env.CollisionFree) {history : List (ℕ → Fr)} {T : ℕ → Fr}
    {consumed : List Fr} {minted burned : ℕ}
    (hinv : RunInv env depth history T consumed minted burned) {i1 i2 : InputWitness}
    (hvalid : ∀ i ∈ [i1, i2], i.Valid env depth)
    (hfill : ∀ i ∈ [i1, i2], i.value ≠ 0 → T (slotOf depth (i.nullifier env.hash)) = 0)
    (hdistinct : i1.value ≠ 0 → i1.nullifier env.hash ≠ i2.nullifier env.hash) :
    (consumed ++ ([i1, i2].filter fun i => i.value ≠ 0).map fun i => i.cm env.hash).Nodup := by
  refine hinv.nodup.append ?_ ?_
  · have h1 := hvalid i1 (by simp)
    have h2 := hvalid i2 (by simp)
    have hne : i1.value ≠ 0 → i1.cm env.hash ≠ i2.cm env.hash := by
      intro hv heq
      refine hdistinct hv (InputWitness.nullifier_eq_of_cm_eq hcf h1 h2 heq ?_)
      rwa [Ne, NoteWitness.cm_eq_zero_iff hcf h1.message_mem]
    by_cases hv1 : i1.value = 0 <;> by_cases hv2 : i2.value = 0 <;> simp [hv1, hv2]
    exact hne hv1
  · intro c hc hmem
    obtain ⟨i, hi, rfl⟩ := List.mem_map.1 hmem
    obtain ⟨hi, hv⟩ := List.mem_filter.1 hi
    have hv : i.value ≠ 0 := by simpa using hv
    exact hinv.not_mem_consumed hcf (hvalid i hi) hv (hfill i hi hv) hc

/-- The leaves of a transaction are worth its outputs. -/
lemma TxnAssignment.sum_noteValue_leaves (hcf : env.CollisionFree) {w : UtxoWitness}
    {instances : List Fr} (hw : w.Valid { env with instances := instances } depth) :
    ((w.leaves env.hash).map (noteValue env)).sum = w.out1.value.val + w.out2.value.val := by
  have h1 := noteValue_nullifier hcf hw.in1.of_instances
  have h2 := noteValue_nullifier hcf hw.in2.of_instances
  have h3 := noteValue_cm hcf (w := w.out1) hw.out1_mem
  have h4 := noteValue_cm hcf (w := w.out2) hw.out2_mem
  simp [UtxoWitness.leaves, h1, h2, h3, h4]

/-- No leaf of a transaction is worth `2 ^ 240` or more. -/
lemma TxnAssignment.noteValue_leaf_lt (hcf : env.CollisionFree) {w : UtxoWitness}
    {instances : List Fr} (hw : w.Valid { env with instances := instances } depth) {leaf : Fr}
    (hleaf : leaf ∈ w.leaves env.hash) : noteValue env leaf < 2 ^ 240 := by
  simp only [UtxoWitness.leaves, List.mem_cons, List.not_mem_nil, or_false] at hleaf
  rcases hleaf with rfl | rfl | rfl | rfl
  · simp [noteValue_nullifier hcf hw.in1.of_instances]
  · simp [noteValue_nullifier hcf hw.in2.of_instances]
  · rw [noteValue_cm hcf hw.out1_mem]
    exact hw.out1_lt
  · rw [noteValue_cm hcf hw.out2_mem]
    exact hw.out2_lt

/-- The commitments consumed by a transaction are worth its inputs. -/
lemma TxnAssignment.sum_noteValue_consumed (hcf : env.CollisionFree) {i1 i2 : InputWitness}
    (h1 : i1.Valid env depth) (h2 : i2.Valid env depth) :
    ((([i1, i2].filter fun i => i.value ≠ 0).map fun i => i.cm env.hash).map
      (noteValue env)).sum = i1.value.val + i2.value.val := by
  have h1 := noteValue_cm hcf h1.message_mem
  have h2 := noteValue_cm hcf h2.message_mem
  by_cases hv1 : i1.value = 0 <;> by_cases hv2 : i2.value = 0 <;> simp [hv1, hv2, h1, h2]

/-- **A transaction keeps the invariant.**

**Proof sketch.** The inputs that are worth something open commitments of the tree, as their
root is an earlier one; they are not consumed yet, as their nullifiers are inserted in empty
slots. So the unspent value grows by the outputs and shrinks by the inputs, and the circuit
balances the two between the integers, the inputs being notes of the tree and hence below
`2 ^ 240`. -/
theorem RunInv.txn (hcf : env.CollisionFree) {history : List (ℕ → Fr)} {T : ℕ → Fr}
    {consumed : List Fr} {minted burned : ℕ}
    (hinv : RunInv env depth history T consumed minted burned) {t : TxnAssignment depth}
    (hsat : t.Satisfied env)
    (hroot : t.recentRoot = 0 ∨ t.recentRoot ∈ history.map (treeRoot env depth))
    (hfill : FillsEmpty depth T t.leaves) :
    RunInv env depth history (insertLeaves depth T t.leaves) (consumed ++ t.consumed)
      (minted + t.mintValue) (burned + t.burnValue) := by
  obtain ⟨w, hw, hx, hcells, hleaves⟩ := t.exists_witness hsat
  have hcons := t.consumed_eq hcells
  have hvalid : ∀ i ∈ [w.in1, w.in2], i.Valid env depth := by
    simpa using ⟨hw.in1.of_instances, hw.in2.of_instances⟩
  have hnull : ∀ i ∈ [w.in1, w.in2], i.nullifier env.hash ∈ t.leaves := by
    rw [hleaves]
    simp [UtxoWitness.leaves]
  have hnull0 : ∀ i ∈ [w.in1, w.in2], i.value ≠ 0 → i.nullifier env.hash ≠ 0 := fun i hi hv =>
    mt (InputWitness.nullifier_eq_zero_iff hcf (hvalid i hi)).1 hv
  -- the inputs are members of the tree
  have hmem : ∀ i ∈ [w.in1, w.in2], i.value ≠ 0 →
      T (slotOf depth (i.cm env.hash)) = i.cm env.hash := by
    intro i hi hv
    refine hinv.input_mem hcf (hvalid i hi) hv ?_
    have hrecent : w.rootOf { env with instances := t.instances } i = t.recentRoot := by
      rcases List.mem_pair.1 hi with rfl | rfl
      · exact hx.root1
      · exact hx.root2
    rw [UtxoWitness.rootOf, if_neg hv] at hrecent
    rw [← hrecent] at hroot
    exact hroot
  have hempty : ∀ i ∈ [w.in1, w.in2], i.value ≠ 0 →
      T (slotOf depth (i.nullifier env.hash)) = 0 := fun i hi hv =>
    (hfill.mem (hnull i hi) (hnull0 i hi hv)).1
  have hdistinct : w.in1.value ≠ 0 → w.in1.nullifier env.hash ≠ w.in2.nullifier env.hash := by
    intro hv heq
    have h0 := hnull0 w.in1 (by simp) hv
    have hnd := hfill.nodup
    rw [hleaves, UtxoWitness.leaves, ← heq, List.filter_cons_of_pos (by simpa using h0),
      List.filter_cons_of_pos (by simpa using h0)] at hnd
    simp at hnd
  have hnodup := hinv.consumed_fresh hcf hvalid hempty hdistinct
  have hext := hfill.extends
  have hplaced := hinv.placed.insertLeaves t.leaves
  -- what the transaction consumes is in the tree, with its nullifier
  have hspent : ∀ c ∈ t.consumed, ∃ i ∈ [w.in1, w.in2], i.value ≠ 0 ∧ i.cm env.hash = c := by
    intro c hc
    rw [hcons] at hc
    obtain ⟨i, hi, rfl⟩ := List.mem_map.1 hc
    obtain ⟨hi, hv⟩ := List.mem_filter.1 hi
    exact ⟨i, hi, by simpa using hv, rfl⟩
  have hcm0 : ∀ i ∈ [w.in1, w.in2], i.value ≠ 0 → i.cm env.hash ≠ 0 := fun i hi hv =>
    mt (NoteWitness.cm_eq_zero_iff hcf (hvalid i hi).message_mem).1 hv
  have hmem' : ∀ i ∈ [w.in1, w.in2], i.value ≠ 0 →
      insertLeaves depth T t.leaves (slotOf depth (i.cm env.hash)) = i.cm env.hash := by
    intro i hi hv
    rw [hext _ (by rw [hmem i hi hv]; exact hcm0 i hi hv), hmem i hi hv]
  -- the inputs are notes of the tree, so they are in range
  have hrange : ∀ i ∈ [w.in1, w.in2], i.value.val < 2 ^ 240 := by
    intro i hi
    by_cases hv : i.value = 0
    · simp [hv]
    · have := hinv.bounded (slotOf depth (i.cm env.hash))
      rwa [hmem i hi hv, noteValue_cm hcf (hvalid i hi).message_mem] at this
  have hnew : ∀ leaf ∈ t.leaves, leaf ∉ consumed := by
    intro leaf hleaf hc
    obtain ⟨h0, hslot, -⟩ := hinv.spent leaf hc
    rw [(hfill.mem hleaf h0).1] at hslot
    exact h0 hslot.symm
  refine ⟨hinv.history_hashed, fun T' hT' => (hinv.history_extends T' hT').trans hext, hplaced,
    fun i => ?_, hcons ▸ hnodup, fun c hc => ?_, ?_⟩
  · rcases insertLeaves_eq_or_mem depth T t.leaves i with hi | hi
    · rw [hi]
      exact hinv.bounded i
    · exact TxnAssignment.noteValue_leaf_lt hcf hw (by rw [← hleaves]; exact hi)
  · rcases List.mem_append.1 hc with hc | hc
    · obtain ⟨h0, hslot, i, hi, hcm, hn⟩ := hinv.spent c hc
      have hn0 : i.nullifier env.hash ≠ 0 := by
        rwa [Ne, InputWitness.nullifier_eq_zero_iff hcf hi,
          ← NoteWitness.cm_eq_zero_iff hcf hi.message_mem, hcm]
      refine ⟨h0, ?_, i, hi, hcm, ?_⟩
      · rw [hext _ (by rwa [hslot]), hslot]
      · rw [hext _ (by rwa [hn]), hn]
    · obtain ⟨i, hi, hv, rfl⟩ := hspent c hc
      exact ⟨hcm0 i hi hv, hmem' i hi hv, i, hvalid i hi, rfl,
        (hfill.mem (hnull i hi) (hnull0 i hi hv)).2⟩
  · -- outputs are added, inputs are taken away, and the circuit balances the two
    have hout := unspentValue_insertLeaves hcf hfill hnew
    have hin := unspentValue_append env hplaced t.consumed consumed
      (fun c hc => by
        obtain ⟨i, hi, hv, rfl⟩ := hspent c hc
        exact ⟨hcm0 i hi hv, hmem' i hi hv⟩)
      (hcons ▸ hnodup)
    have hsumout : (t.leaves.map (noteValue env)).sum = w.out1.value.val + w.out2.value.val :=
      hleaves ▸ TxnAssignment.sum_noteValue_leaves hcf hw
    have hsumin : (t.consumed.map (noteValue env)).sum = w.in1.value.val + w.in2.value.val :=
      hcons ▸ TxnAssignment.sum_noteValue_consumed hcf (hvalid _ (by simp)) (hvalid _ (by simp))
    have hbal := w.balance_nat hw (hrange _ (by simp)) (hrange _ (by simp))
    rw [← t.mintValue_eq hx hcells, ← t.burnValue_eq hx hcells] at hbal
    have hold := hinv.balance
    omega

/-- The transactions of a block keep the invariant, one after the other. -/
lemma RunInv.txns (hcf : env.CollisionFree) {history : List (ℕ → Fr)}
    (ts : List (TxnAssignment depth)) {T : ℕ → Fr} {consumed : List Fr} {minted burned : ℕ}
    (hinv : RunInv env depth history T consumed minted burned)
    (hsat : ∀ t ∈ ts, t.Satisfied env)
    (hroot : ∀ t ∈ ts, t.recentRoot = 0 ∨ t.recentRoot ∈ history.map (treeRoot env depth))
    (hfill : FillsEmpty depth T (ts.flatMap TxnAssignment.leaves)) :
    RunInv env depth history (insertLeaves depth T (ts.flatMap TxnAssignment.leaves))
      (consumed ++ ts.flatMap TxnAssignment.consumed)
      (minted + (ts.map TxnAssignment.mintValue).sum)
      (burned + (ts.map TxnAssignment.burnValue).sum) := by
  induction ts generalizing T consumed minted burned with
  | nil => simpa [insertLeaves] using hinv
  | cons t ts ih =>
    rw [List.flatMap_cons, fillsEmpty_append] at hfill
    obtain ⟨hsat, hsats⟩ := List.forall_mem_cons.1 hsat
    obtain ⟨hroot, hroots⟩ := List.forall_mem_cons.1 hroot
    have hstep := ih (hinv.txn hcf hsat hroot hfill.1) hsats hroots hfill.2
    rw [List.flatMap_cons, insertLeaves_append]
    simpa only [List.flatMap_cons, List.map_cons, List.sum_cons, List.append_assoc,
      add_assoc] using hstep

/-- A satisfied batch takes a tree with the old root to one with the new root. -/
lemma BatchAssignment.inserted (hinj : Set.InjOn env.hash env.hashed)
    {b : BatchAssignment depth} (hsat : b.Satisfied env) {T : ℕ → Fr}
    (hT : TreeHashed env depth T) (hold : b.cells.oldRoot = treeRoot env depth T) :
    Inserted env depth T b.cells.leafs b.cells.roots ∧
      b.cells.newRoot = treeRoot env depth (insertLeaves depth T b.cells.leafs) := by
  simp only [BatchAssignment.Satisfied, Batch.synthesize, bind_iff, pure_iff] at hsat
  obtain ⟨c, hc, -, -, hcells⟩ := hsat
  rw [hcells] at hold ⊢
  obtain ⟨-, hins, hnew⟩ := Batch.inserted_of_enforceConstraints
    { env with instances := b.instances } b.batch T hinj hT c hc hold
  exact ⟨⟨hins.length_eq, hins.slot_empty, hins.root_eq, hins.tree_hashed⟩, hnew⟩

/-- The batches of a block take a tree with the old root to one with the new root. -/
lemma Chained.inserted (hinj : Set.InjOn env.hash env.hashed)
    (bs : List (BatchAssignment depth)) {T : ℕ → Fr} (hT : TreeHashed env depth T)
    {newRoot : Fr} (hsat : ∀ b ∈ bs, b.Satisfied env)
    (hchain : Chained (treeRoot env depth T) bs newRoot) :
    FillsEmpty depth T (bs.flatMap fun b => b.cells.leafs) ∧
      TreeHashed env depth (insertLeaves depth T (bs.flatMap fun b => b.cells.leafs)) ∧
      newRoot = treeRoot env depth (insertLeaves depth T (bs.flatMap fun b => b.cells.leafs)) := by
  induction bs generalizing T with
  | nil => exact ⟨trivial, hT, hchain⟩
  | cons b bs ih =>
    obtain ⟨hb, hbs⟩ := List.forall_mem_cons.1 hsat
    obtain ⟨hins, hnew⟩ := b.inserted hinj hb hT hchain.1
    have hrest := ih hins.tree_hashed hbs (hnew ▸ hchain.2)
    rw [List.flatMap_cons, fillsEmpty_append, insertLeaves_append]
    exact ⟨⟨hins.fillsEmpty, hrest.1⟩, hrest.2⟩

/-! ## Runs -/

section Totals

variable (blocks : List (Block depth)) (b : Block depth)

/-- The transactions of a run with one more block. -/
lemma runTxns_concat : runTxns (blocks ++ [b]) = runTxns blocks ++ b.txns := by
  simp [runTxns]

/-- The tree of a run with one more block. -/
lemma runTree_concat :
    runTree (blocks ++ [b]) = insertLeaves depth (runTree blocks) b.leaves := by
  rw [runTree, runTxns_concat, List.flatMap_append, insertLeaves_append]
  rfl

end Totals

/-- The current tree joins the trees of the earlier roots. -/
lemma RunInv.remember {history : List (ℕ → Fr)} {T : ℕ → Fr} {consumed : List Fr}
    {minted burned : ℕ} (hinv : RunInv env depth history T consumed minted burned)
    (hT : TreeHashed env depth T) :
    RunInv env depth (T :: history) T consumed minted burned :=
  { hinv with
    history_hashed := List.forall_mem_cons.2 ⟨hT, hinv.history_hashed⟩
    history_extends := List.forall_mem_cons.2 ⟨Extends.refl T, hinv.history_extends⟩ }

/-- The empty tree satisfies the invariant. -/
lemma RunInv.empty (hcf : env.CollisionFree) (hempty : TreeHashed env depth fun _ => 0) :
    RunInv env depth [fun _ => 0] (fun _ => 0) [] 0 0 where
  history_hashed := by simpa using hempty
  history_extends := by simpa using Extends.refl _
  placed i hi := absurd rfl hi
  bounded i := by simp [noteValue_zero hcf]
  nodup := List.nodup_nil
  spent := by simp
  balance := by simp [unspentValue, noteValue_zero hcf]

/-- **The invariant of every run**, by induction on the blocks: some trees have the roots of
the run, the first of them is the tree of the run, and it satisfies the invariant. -/
theorem Run.inv (hcf : env.CollisionFree) (hempty : TreeHashed env depth fun _ => 0)
    {blocks : List (Block depth)} {roots : List Fr} (hrun : Run env depth blocks roots) :
    ∃ history : List (ℕ → Fr), roots = history.map (treeRoot env depth) ∧
      history.head? = some (runTree blocks) ∧
      RunInv env depth history (runTree blocks) (runConsumed blocks) (runMinted blocks)
        (runBurned blocks) := by
  induction hrun with
  | start => exact ⟨[fun _ => 0], rfl, rfl, RunInv.empty hcf hempty⟩
  | @block blocks b root newRoot roots hrun hb ih =>
    obtain ⟨history, hroots, hhead, hinv⟩ := ih
    obtain ⟨T, history, rfl⟩ : ∃ T h, history = T :: h := by
      cases history with
      | nil => simp at hhead
      | cons T h => exact ⟨T, h, rfl⟩
    obtain rfl : T = runTree blocks := by simpa using hhead
    obtain ⟨hroot, hroots'⟩ := List.cons.inj hroots
    have hT := hinv.history_hashed _ List.mem_cons_self
    obtain ⟨hfill, hhashed, hnew⟩ := Chained.inserted hcf.injOn b.batches hT hb.batches_satisfied
      (hroot ▸ hb.chained)
    rw [hb.leaves_eq] at hfill hhashed hnew
    have hstep := hinv.txns hcf b.txns hb.txns_satisfied (hroots ▸ hb.recent_root) hfill
    refine ⟨runTree (blocks ++ [b]) :: runTree blocks :: history, ?_, rfl, ?_⟩
    · rw [List.map_cons, ← hroots, runTree_concat, hnew]
    · have htotals := hstep.remember hhashed
      simpa only [runTree_concat, Block.leaves, runConsumed, runMinted, runBurned, runTxns_concat,
        List.flatMap_append, List.map_append, List.sum_append] using htotals

/-- **No double spend and no inflation**: in every run of roll-ups from the empty tree, whose
messages do not collide and have no null digest, the current root is that of the tree with
all leaves; no commitment is consumed by two inputs; and the notes in the tree that are not
consumed are worth the minted less the burned value, as integers.

**Proof sketch.** The invariant `RunInv` holds along the run (`Run.inv`): a consumed commitment is
in the tree, and its nullifier is a leaf, which goes into an empty slot and so comes only once. A
transaction changes the unspent value by what it mints less what it burns. -/
theorem Run.no_double_spend_no_inflation (hcf : env.CollisionFree)
    (hempty : TreeHashed env depth fun _ => 0) (blocks : List (Block depth)) (root : Fr)
    (roots : List Fr)
    (hrun : Run env depth blocks (root :: roots)) :
    root = treeRoot env depth (runTree blocks) ∧
      (runConsumed blocks).Nodup ∧
      (∀ c ∈ runConsumed blocks, ∃ i < 2 ^ (depth - 1), runTree blocks i = c) ∧
      (unspentValue env depth (runTree blocks) (runConsumed blocks) : ℤ) =
        runMinted blocks - runBurned blocks := by
  obtain ⟨history, hroots, hhead, hinv⟩ := hrun.inv hcf hempty
  refine ⟨?_, hinv.nodup, fun c hc => ?_, ?_⟩
  · have := congrArg List.head? hroots
    rw [List.head?_map, hhead] at this
    simpa using this
  · obtain ⟨-, hslot, -⟩ := hinv.spent c hc
    exact ⟨_, slotOf_lt depth c, hslot⟩
  · have := hinv.balance
    omega

end Invariant

/-! ### A run of a mint and a burn

A tree of two slots: the first block mints a note of value 5, the second one burns it. -/

namespace Sample

/-- The messages of the run with their digests. -/
def messages : List (List Fr × Fr) :=
  [([0, 0], 2), ([0, 0, 0, 0], 3), ([0, 2, 0, 0, 0, 0], 4), ([5, 2, 0, 0, 0, 0], 8), ([8, 0], 9),
    ([8, 0, 0, 0], 11), ([8, 11], 10)]

/-- The environment of the run. -/
def env : Env Fr where
  prover := .malicious
  instances := []
  hash l := (messages.lookup l).getD 1
  hashed := {l | l ∈ messages.map Prod.fst}

/-- Membership in the finite list of hashed messages is decidable. -/
instance : DecidablePred (· ∈ env.hashed) := fun l =>
  inferInstanceAs (Decidable (l ∈ messages.map Prod.fst))

/-- A padding note. -/
def padding : NoteWitness := ⟨0, 2, 0, 0, 0⟩

/-- The note of value 5. -/
def note : NoteWitness := ⟨5, 2, 0, 0, 0⟩

/-- An input, in the left slot of the tree. -/
def input (n : NoteWitness) : InputWitness := ⟨n, 0, [(0, false)]⟩

/-- The witness of the mint. -/
def mint : UtxoWitness := ⟨0, 2, input padding, input padding, note, padding⟩

/-- The witness of the burn. -/
def burn : UtxoWitness := ⟨9, 3, input note, input padding, padding, padding⟩

/-- The tree of the run is shallow enough for its paths. -/
lemma depth_le : 2 ≤ 257 := by decide

/-- A transaction of the run. -/
def txn (w : UtxoWitness) (instances : List Fr) : TxnAssignment 2 where
  utxo := Utxo.mintOf (fun _ => 1) depth_le (⟨0, 0, 0, 0⟩, ⟨0, 0, 0, 0⟩)
  instances := instances
  cells := w.cells { env with instances := instances }

/-- A batch of the run, with what its inserts give to their leaves and roots. -/
def batch (oldRoot newRoot : Fr) (leafs roots : List Fr) : BatchAssignment 2 where
  batch := ⟨List.replicate 4 ⟨0, Batch.samplePath⟩⟩
  instances := oldRoot :: newRoot :: leafs
  cells := { oldRoot, newRoot, leafs, roots }

/-- The block that mints. -/
def mintBlock : Block 2 where
  txns := [txn mint [0, 8, 5, 0, 0, 8, 0]]
  batches := [batch 2 9 [0, 0, 8, 0] [2, 2, 9, 9]]

/-- The block that burns. -/
def burnBlock : Block 2 where
  txns := [txn burn [9, 11, 5, 11, 0, 0, 0]]
  batches := [batch 9 10 [11, 0, 0, 0] [10, 10, 10, 10]]

/-- No two of the hashed messages collide, and none hashes to zero. -/
lemma collisionFree : env.CollisionFree where
  injOn l hl l' hl' h := by
    have hall : ∀ l ∈ messages.map Prod.fst, ∀ l' ∈ messages.map Prod.fst,
        env.hash l = env.hash l' → l = l' := by decide
    exact hall l hl l' hl' h
  ne_zero l hl := by
    have hall : ∀ l ∈ messages.map Prod.fst, env.hash l ≠ 0 := by decide
    exact hall l hl

/-- A path of one step hashes one pair. -/
lemma pathHashed_singleton (leaf s : Fr) (d : Bool)
    (h : [(firstPair leaf s d).1, (firstPair leaf s d).2] ∈ env.hashed) :
    PathHashed env leaf [(s, d)] :=
  (pathHashed_cons env leaf s d []).2 ⟨h, by simp [PathHashed, SparseMerkle.pathPairs]⟩

/-- The padding input is valid. -/
lemma valid_padding : (input padding).Valid env 2 where
  message_mem := by decide
  length_path := rfl
  path_hashed := pathHashed_singleton _ _ _ (by decide)
  address_mem := by decide
  address_eq := by decide
  nullifier_mem := by decide

/-- The input of the note is valid. -/
lemma valid_note : (input note).Valid env 2 where
  message_mem := by decide
  length_path := rfl
  path_hashed := pathHashed_singleton _ _ _ (by decide)
  address_mem := by decide
  address_eq := by decide
  nullifier_mem := by decide

/-- A transaction with a valid input is satisfied when its own column is that of the instances. -/
lemma satisfied_txn (w : UtxoWitness) (instances : List Fr)
    (hw : w.Valid { env with instances := instances } 2)
    (hx : w.Exposes { env with instances := instances }) : (txn w instances).Satisfied env :=
  (Utxo.synthesize_iff _ _ _).2 ⟨w, hw, hx, rfl, nofun⟩

/-- The mint of the sample is satisfied. -/
lemma satisfied_mint : (txn mint [0, 8, 5, 0, 0, 8, 0]).Satisfied env := by
  refine satisfied_txn _ _ ⟨valid_padding.with_instances _, valid_padding.with_instances _, ?_, ?_,
    ?_, ?_, ?_⟩ ⟨?_, ?_, ?_, ?_, ?_, ?_, ?_, ?_⟩
  · exact show note.message ∈ env.hashed by decide
  · exact show padding.message ∈ env.hashed by decide
  all_goals decide

/-- The burn of the sample is satisfied. -/
lemma satisfied_burn : (txn burn [9, 11, 5, 11, 0, 0, 0]).Satisfied env := by
  refine satisfied_txn _ _ ⟨valid_note.with_instances _, valid_padding.with_instances _, ?_, ?_,
    ?_, ?_, ?_⟩ ⟨?_, ?_, ?_, ?_, ?_, ?_, ?_, ?_⟩
  · exact show padding.message ∈ env.hashed by decide
  · exact show padding.message ∈ env.hashed by decide
  all_goals decide

/-- A round of a batch, with the root before and after it. -/
lemma round (w : InsertWitness) (insert : Insert 2) (last new : Fr) (instances : List Fr)
    (hw : w.Valid env 2) (hroot : w.leaf ≠ 0 → last = (w.cells env 2).oldRoot)
    (hnew : new = if w.leaf = 0 then last else (w.cells env 2).newRoot) :
    Batch.enforceInsert 0 last insert { env with instances := instances }
      { newLeaf := w.leaf, oldRoot := last, newRoot := new,
        isPadding := bit (decide (w.leaf = 0)) } := by
  subst hnew
  exact (Batch.enforceInsert_iff _ _ _ _).2
    ⟨w, ⟨hw.length_siblings, hw.null_hashed, hw.leaf_hashed⟩, hroot, rfl, nofun⟩

/-- An insertion of one level is valid when its pairs are hashed. -/
lemma valid_insert (leaf s : Fr) (d : Bool) (hd : Bits.toLE 1 leaf.val = [d])
    (hnull : [(firstPair 0 s d).1, (firstPair 0 s d).2] ∈ env.hashed)
    (hleaf : [(firstPair leaf s d).1, (firstPair leaf s d).2] ∈ env.hashed) :
    InsertWitness.Valid env 2 ⟨leaf, [s]⟩ := by
  have hpath : InsertWitness.path 2 ⟨leaf, [s]⟩ = [(s, d)] := by
    rw [InsertWitness.path]
    simp [hd]
  refine ⟨rfl, ?_, ?_⟩ <;> rw [hpath]
  · exact pathHashed_singleton _ _ _ hnull
  · exact pathHashed_singleton _ _ _ hleaf

/-- The insertion of padding is valid. -/
lemma valid_insert_zero : InsertWitness.Valid env 2 ⟨0, [0]⟩ :=
  valid_insert 0 0 false (by decide) (by decide) (by decide)

/-- A padding round keeps the root. -/
lemma round_zero (insert : Insert 2) (root : Fr) (instances : List Fr) :
    Batch.enforceInsert 0 root insert { env with instances := instances }
      { newLeaf := 0, oldRoot := root, newRoot := root,
        isPadding := bit (decide ((0 : Fr) = 0)) } :=
  round ⟨0, [0]⟩ insert root root instances valid_insert_zero (fun h => absurd rfl h)
    (if_pos rfl).symm

/-- A batch of valid insertions with linked roots is satisfied. -/
lemma satisfied_batch (oldRoot newRoot : Fr) (cells : List InsertConstraintCells)
    (leafs roots : List Fr) (hleafs : cells.map InsertConstraintCells.newLeaf = leafs)
    (hroots : cells.map InsertConstraintCells.newRoot = roots)
    (hnew : roots.getLastD oldRoot = newRoot)
    (hcells : Batch.enforceInserts 0 oldRoot
      (List.replicate 4 ⟨0, Batch.samplePath⟩ : List (Insert 2))
      { env with instances := oldRoot :: newRoot :: leafs } cells) :
    (batch oldRoot newRoot leafs roots).Satisfied env := by
  subst hleafs hroots hnew
  refine ⟨_, ⟨(), by simp [batch], oldRoot, nofun, cells, hcells, rfl⟩, (), ?_, rfl⟩
  refine ⟨(), rfl, (), rfl, (forM_iff _ _ _ _).2 fun entry hentry => ?_⟩
  obtain ⟨leaf, k⟩ := entry
  have hk := List.mem_zipIdx_iff_getElem?.1 hentry
  simp only [constrainInstance_iff, List.getD_eq_getElem?_getD, batch,
    List.getElem?_cons_succ]
  exact (congrArg (fun o => o.getD 0) hk).symm

/-- The batch of the mint is satisfied. -/
lemma satisfied_mintBatch : (batch 2 9 [0, 0, 8, 0] [2, 2, 9, 9]).Satisfied env := by
  refine satisfied_batch 2 9 _ _ _ rfl rfl rfl
    ⟨_, round_zero _ 2 _, _, ⟨_, round_zero _ 2 _, _, ⟨_, round ⟨8, [0]⟩ _ 2 9 _ ?_ ?_ ?_, _,
      ⟨_, round_zero _ 9 _, [], rfl, rfl⟩, rfl⟩, rfl⟩, rfl⟩
  · exact valid_insert 8 0 false (by decide) (by decide) (by decide)
  · exact fun _ => by decide
  · decide

/-- The batch of the burn is satisfied. -/
lemma satisfied_burnBatch : (batch 9 10 [11, 0, 0, 0] [10, 10, 10, 10]).Satisfied env := by
  refine satisfied_batch 9 10 _ _ _ rfl rfl rfl
    ⟨_, round ⟨11, [8]⟩ _ 9 10 _ ?_ ?_ ?_, _, ⟨_, round_zero _ 10 _, _, ⟨_, round_zero _ 10 _, _,
      ⟨_, round_zero _ 10 _, [], rfl, rfl⟩, rfl⟩, rfl⟩, rfl⟩
  · exact valid_insert 11 8 true (by decide) (by decide) (by decide)
  · exact fun _ => by decide
  · decide

/-- The run of the two blocks. -/
lemma run : Run env 2 [mintBlock, burnBlock] [10, 9, 2] := by
  have hstart : treeRoot env 2 (fun _ => 0) = 2 := by decide
  have h0 : Run env 2 [] [2] := hstart ▸ Run.start
  have h1 : Run env 2 ([] ++ [mintBlock]) [9, 2] := by
    refine Run.block h0 ⟨?_, ?_, ⟨rfl, rfl⟩, rfl, ?_⟩
    · simpa [mintBlock] using satisfied_mint
    · simpa [mintBlock] using satisfied_mintBatch
    · simp [mintBlock, txn, TxnAssignment.recentRoot]
  refine Run.block h1 ⟨?_, ?_, ⟨rfl, rfl⟩, rfl, ?_⟩
  · simpa [burnBlock] using satisfied_burn
  · simpa [burnBlock] using satisfied_burnBatch
  · simp [burnBlock, txn, TxnAssignment.recentRoot]

end Sample

/-- The run of a mint and a burn: the note is consumed once, and nothing is left. -/
theorem Run.no_double_spend_no_inflation_sample :
    (runConsumed [Sample.mintBlock, Sample.burnBlock]).Nodup ∧
      (unspentValue Sample.env 2 (runTree [Sample.mintBlock, Sample.burnBlock])
        (runConsumed [Sample.mintBlock, Sample.burnBlock]) : ℤ) =
        runMinted [Sample.mintBlock, Sample.burnBlock] -
          runBurned [Sample.mintBlock, Sample.burnBlock] := by
  have hempty : TreeHashed Sample.env 2 fun _ => 0 := by
    rintro q ⟨k, i, hk, hi, rfl⟩
    obtain rfl : k = 0 := by omega
    exact show [(0 : Fr), 0] ∈ Sample.env.hashed by decide
  have h := Run.no_double_spend_no_inflation Sample.collisionFree hempty _ 10 [9, 2] Sample.run
  exact ⟨h.2.1, h.2.2.2⟩

end TempoRollup.Circuits
