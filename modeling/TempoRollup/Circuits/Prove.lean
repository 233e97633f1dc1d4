import TempoRollup.Circuits.Aggregate

set_option relaxedAutoImplicit false
set_option autoImplicit false

/-!
# What is handed to proof creation

The `prove` and `snark` methods of `mint/mint.rs`, `utxo/utxo.rs`, `insert/batch.rs` and
`aggregate_utxo/aggregate.rs` hand a circuit, with the witness that it carries, and an instance
column to proof creation. Proof creation does not check that the two satisfy the circuit. Some of
the methods hand over the value itself, others the default value of its type.

## Main definitions

* `Mint.default`, `Utxo.default`, `Batch.default`, `AccumulatedUtxo.default`.
* `Mint.Satisfied`, `Utxo.Satisfied`, `Batch.Satisfied`, `AccumulatedUtxo.Satisfied` — the witness
  of a value and an instance column satisfy the circuit together.
* `ProofCall` — a call of one of the methods; `ProofCall.WellFormed`, `ProofCall.Satisfied`.
* `ProofCall.Suits` — the condition on a call.

## Main results

* `Mint.satisfied_default_iff`, `Utxo.satisfied_default_iff`, `Batch.satisfied_default_iff`,
  `AccumulatedUtxo.satisfied_default_iff` — the instance columns that suit a default value.
* `ProofCall.satisfied_iff_suits` — when a method hands over a satisfying pair.

## Design

The limbs of the accumulator of an aggregation are computed from the inner proofs by third-party
code, natively for the public inputs and again in the circuit; a value carries them. The default
aggregation makes new inner proofs, so that its limbs are an input of the call.
-/

open ConstraintSystem

namespace TempoRollup.Circuits

/-! ## Rows of an instance column -/

/-- The instance column has the given rows from a row on. -/
def RowsAt (instances : List Fr) (row : ℕ) (rows : List Fr) : Prop :=
  ∀ i x, rows[i]? = some x → instances.getD (row + i) 0 = x

section Rows

variable {instances rows rows' : List Fr} {row : ℕ} {x : Fr}

/-- No rows are anywhere. -/
@[simp] lemma rowsAt_nil : RowsAt instances row [] := by
  intro i x hx
  simp at hx

/-- Rows are somewhere when the first is and the others follow. -/
@[simp] lemma rowsAt_cons :
    RowsAt instances row (x :: rows) ↔
      instances.getD row 0 = x ∧ RowsAt instances (row + 1) rows := by
  constructor
  · intro h
    refine ⟨h 0 x rfl, fun i y hy => ?_⟩
    rw [show row + 1 + i = row + (i + 1) by omega]
    exact h (i + 1) y hy
  · rintro ⟨hx, hrows⟩ i y hy
    cases i with
    | zero =>
      rw [Nat.add_zero, hx]
      simpa using hy
    | succ i =>
      rw [show row + (i + 1) = row + 1 + i by omega]
      exact hrows i y hy

/-- Two lists of rows follow one another. -/
lemma rowsAt_append :
    RowsAt instances row (rows ++ rows') ↔
      RowsAt instances row rows ∧ RowsAt instances (row + rows.length) rows' := by
  induction rows generalizing row with
  | nil => simp
  | cons x rows ih =>
    rw [List.cons_append, rowsAt_cons, rowsAt_cons, ih, and_assoc, List.length_cons]
    rw [show row + 1 + rows.length = row + (rows.length + 1) by omega]

/-- A column of the same length has the given rows exactly if it is these rows. -/
lemma rowsAt_zero_iff (hlen : instances.length = rows.length) :
    RowsAt instances 0 rows ↔ instances = rows := by
  constructor
  · intro h
    apply List.ext_getElem hlen
    intro i hi hi'
    have hrow := h i rows[i] (List.getElem?_eq_getElem hi')
    rwa [Nat.zero_add, List.getD_eq_getElem?_getD, List.getElem?_eq_getElem hi] at hrow
  · rintro rfl i x hx
    rw [Nat.zero_add, List.getD_eq_getElem?_getD, hx]
    rfl

end Rows

/-! ## Mint -/

/-- `Note::default`. -/
def Note.default : Note := ⟨0, 0, 0, 0⟩

namespace Mint

variable (H : List Fr → Fr)

/-- `Mint::<L>::default`. -/
def default (L : ℕ) : Mint := ⟨List.replicate L Note.default⟩

/-- `Mint::public_inputs`. -/
def publicInputs (self : Mint) : List Fr :=
  self.notes.flatMap fun note =>
    [(note.commitment H).toBase, note.value.toBase, note.source.toBase]

/-- The witness of a mint and an instance column satisfy the circuit. -/
def Satisfied (self : Mint) (instances : List Fr) : Prop :=
  self.synthesize (Utxo.honestEnv H instances) ()

/-- What `Mint::prove` hands over. -/
def prove (self : Mint) : Mint × List Fr := (default self.notes.length, self.publicInputs H)

/-- What `Mint::snark` hands over. -/
def snark (self : Mint) : Mint × List Fr := (self, self.publicInputs H)

/-- The public inputs that the cells of the prover's own code have. -/
def exposed (self : Mint) : List Fr :=
  self.notes.flatMap fun note =>
    [(NoteWitness.ofNote note).cm H, note.value.toBase, note.source.toBase]

variable {H} {instances : List Fr}

/-- **The mint circuit for the prover's own code**: the instance column has the rows of its
notes. -/
lemma satisfied_iff (self : Mint) :
    self.Satisfied H instances ↔ RowsAt instances 0 (self.exposed H) := by
  -- the notes from an index on
  have hfrom : ∀ (notes : List Note) (k : ℕ),
      (∀ entry ∈ notes.zipIdx k, ∃ w : NoteWitness, w.message ∈ Set.univ ∧
        (Prover.honest = Prover.honest → w = NoteWitness.ofNote entry.1) ∧
        w.cm H = instances.getD (entry.2 * 3) 0 ∧
        w.value = instances.getD (entry.2 * 3 + 1) 0 ∧
        w.source = instances.getD (entry.2 * 3 + 2) 0) ↔
      RowsAt instances (k * 3) (notes.flatMap fun note =>
        [(NoteWitness.ofNote note).cm H, note.value.toBase, note.source.toBase]) := by
    intro notes
    induction notes with
    | nil => simp
    | cons note notes ih =>
      intro k
      rw [List.zipIdx_cons, List.forall_mem_cons, ih, List.flatMap_cons, rowsAt_append]
      refine and_congr ?_ ?_
      · simp only [rowsAt_cons, rowsAt_nil, and_true]
        constructor
        · rintro ⟨w, -, hw, h0, h1, h2⟩
          obtain rfl := hw trivial
          exact ⟨h0.symm, h1.symm, h2.symm⟩
        · rintro ⟨h0, h1, h2⟩
          exact ⟨_, trivial, fun _ => rfl, h0.symm, h1.symm, h2.symm⟩
      · rw [show (k + 1) * 3 = k * 3 + 3 by omega]
        rfl
  unfold Satisfied
  rw [synthesize_iff]
  exact hfrom self.notes 0

/-- **The instance columns that suit the default mint.** -/
theorem satisfied_default_iff (L : ℕ) :
    (default L).Satisfied H instances ↔ RowsAt instances 0 ((default L).publicInputs H) := by
  have hcm : (NoteWitness.ofNote Note.default).cm H = (Note.default.commitment H).toBase := by
    rw [NoteWitness.cm, if_pos (show (NoteWitness.ofNote Note.default).value = 0 from
      Element.toBase_zero)]
    exact Element.toBase_zero.symm
  have hexposed : (default L).exposed H = (default L).publicInputs H := by
    unfold exposed publicInputs default
    rw [List.flatMap_def, List.flatMap_def, List.map_replicate, List.map_replicate, hcm]
  rw [satisfied_iff, hexposed]

/-- A mint exposes three values for each note. -/
lemma length_publicInputs (self : Mint) :
    (self.publicInputs H).length = 3 * self.notes.length := by
  unfold publicInputs
  rw [List.length_flatMap]
  simp [Nat.mul_comm]

end Mint

/-! ## Utxo -/

/-- `InputNote::default`: unlike the padding note its address is not the hash of its key. -/
def InputNote.default {depth : ℕ} (H : List Fr → Fr) (hdepth : depth ≤ 257) : InputNote depth where
  note := Note.default
  secretKey := 0
  merklePath := MerklePath.default H hdepth

namespace Utxo

variable {depth : ℕ} (H : List Fr → Fr) (hdepth : depth ≤ 257)

/-- `Utxo::default`. -/
def default : Utxo depth where
  inputs := (InputNote.default H hdepth, InputNote.default H hdepth)
  outputs := (Note.default, Note.default)
  root := 0
  kind := .transfer

/-- `Utxo::public_inputs`. -/
def publicInputs (self : Utxo depth) : List Fr :=
  [self.root.toBase,
    match self.kind with
    | .mint => (self.outputs.1.commitment H).toBase
    | .burn => (self.inputs.1.nullifer H).toBase
    | _ => 0,
    match self.kind with
    | .mint => self.outputs.1.value.toBase
    | .burn => self.inputs.1.note.value.toBase
    | _ => 0,
    (self.inputs.1.nullifer H).toBase, (self.inputs.2.nullifer H).toBase,
    (self.outputs.1.commitment H).toBase, (self.outputs.2.commitment H).toBase]

/-- The witness of a transaction and an instance column satisfy the circuit. -/
def Satisfied (self : Utxo depth) (instances : List Fr) : Prop :=
  ∃ cells, self.synthesize H (honestEnv H instances) cells

/-- What `Utxo::prove` hands over. -/
def prove (self : Utxo depth) : Utxo depth × List Fr := (default H hdepth, self.publicInputs H)

/-- What `Utxo::snark` hands over. -/
def snark (self : Utxo depth) : Utxo depth × List Fr := (self, self.publicInputs H)

variable {H} {instances : List Fr}

/-- The public inputs of the default transaction are zero. -/
lemma publicInputs_default :
    (default H hdepth).publicInputs H = [0, 0, 0, 0, 0, 0, 0] := by
  have hcm : Note.default.commitment H = 0 := if_pos rfl
  have hpad : Note.default.isPadding H = true := by
    rw [Note.isPadding, hcm]
    simp
  have hnull : (InputNote.default H hdepth).nullifer H = 0 := by
    unfold InputNote.nullifer InputNote.default Note.nullifier
    rw [if_pos hpad]
    rfl
  simp only [publicInputs, default, hnull, hcm, Element.toBase_zero]

/-- **The instance columns that suit the default transaction**: those of its own public inputs, and
only if the hash of its key is its address, zero.

**Proof sketch.** The honest witness of the default transaction is known in every cell, and all that
it exposes is zero. What is left of the constraints is that the address is the hash of the key. -/
theorem satisfied_default_iff :
    (default H hdepth).Satisfied H instances ↔
      H [0, 0] = 0 ∧ RowsAt instances 0 ((default H hdepth).publicInputs H) := by
  have hin : (InputWitness.ofInputNote H (InputNote.default H hdepth)).value = 0 :=
    Element.toBase_zero
  have hcm : (NoteWitness.ofNote Note.default).cm H = 0 := if_pos Element.toBase_zero
  have hnull : (InputWitness.ofInputNote H (InputNote.default H hdepth)).nullifier H = 0 :=
    if_pos hin
  have hburn : (UtxoWitness.ofUtxo H (default H hdepth)).isBurn = false :=
    decide_eq_false (show ¬ UtxoKind.transfer.asElement = UtxoKind.burn.asElement by decide)
  have hmint : (UtxoWitness.ofUtxo H (default H hdepth)).isMint = false :=
    decide_eq_false (show ¬ UtxoKind.transfer.asElement = UtxoKind.mint.asElement by decide)
  have hroot : (UtxoWitness.ofUtxo H (default H hdepth)).rootOf (honestEnv H instances)
      (InputWitness.ofInputNote H (InputNote.default H hdepth)) = 0 := by
    rw [UtxoWitness.rootOf, if_pos hin]
    exact Element.toBase_zero
  have hhash : (UtxoWitness.ofUtxo H (default H hdepth)).mbHash H = 0 := by
    rw [UtxoWitness.mbHash, hburn, hmint]
    rfl
  have hvalue : (UtxoWitness.ofUtxo H (default H hdepth)).mbValue = 0 := by
    rw [UtxoWitness.mbValue, hburn, hmint]
    rfl
  rw [publicInputs_default]
  simp only [rowsAt_cons, rowsAt_nil, and_true]
  constructor
  · rintro ⟨cells, h⟩
    obtain ⟨w, hvalid, hexposes, -, hw⟩ := (synthesize_iff _ (honestEnv H instances) cells).1 h
    obtain rfl := hw rfl
    refine ⟨?_, hexposes.root1.symm.trans hroot, hexposes.mbHash.symm.trans hhash,
      hexposes.mbValue.symm.trans hvalue, hexposes.in1.symm.trans hnull,
      hexposes.in2.symm.trans hnull, hexposes.out1.symm.trans hcm, hexposes.out2.symm.trans hcm⟩
    have haddress : Element.toBase 0 = H [Element.toBase 0, 0] := hvalid.in1.address_eq
    rw [Element.toBase_zero] at haddress
    exact haddress.symm
  · rintro ⟨haddress, h0, h1, h2, h3, h4, h5, h6⟩
    have hvalid : (InputWitness.ofInputNote H (InputNote.default H hdepth)).Valid
        (honestEnv H instances) depth := by
      have hpadding := InputWitness.valid_paddingNote (honestEnv H instances) rfl hdepth
      refine ⟨trivial, hpadding.length_path, by simp [PathHashed, honestEnv], trivial, ?_, trivial⟩
      change Element.toBase 0 = H [Element.toBase 0, 0]
      rw [Element.toBase_zero, haddress]
    have hlt : (Element.toBase 0).val < 2 ^ 240 := by
      rw [Element.toBase_zero]
      decide
    refine ⟨_, (synthesize_iff _ (honestEnv H instances) _).2
      ⟨UtxoWitness.ofUtxo H (default H hdepth), ⟨hvalid, hvalid, trivial, trivial, hlt, hlt, ?_⟩,
        ⟨hroot.trans h0.symm, hroot.trans h0.symm, hhash.trans h1.symm, hvalue.trans h2.symm,
          hnull.trans h3.symm, hnull.trans h4.symm, hcm.trans h5.symm, hcm.trans h6.symm⟩, rfl,
        fun _ => rfl⟩⟩
    rw [hburn, hmint]
    rfl

end Utxo

/-! ## Batch -/

namespace Batch

variable {depth : ℕ} (H : List Fr → Fr) (hdepth : depth ≤ 257)

/-- `Insert::default`. -/
def defaultInsert : Insert depth := ⟨0, MerklePath.default H hdepth⟩

/-- `Batch::<INSERTS, MERKLE_D>::default`. -/
def default (INSERTS : ℕ) : Batch depth := ⟨List.replicate INSERTS (defaultInsert H hdepth)⟩

/-- The witness of a batch and an instance column satisfy the circuit. -/
def Satisfied (self : Batch depth) (instances : List Fr) : Prop :=
  ∃ cells, self.synthesize H (Utxo.honestEnv H instances) cells

/-- What `Batch::snark` hands over. -/
def snark (self : Batch depth) : Batch depth × List Fr :=
  (default H hdepth self.inserts.length, self.publicInputs H)

/-- What `Batch::prove` hands over. -/
def prove (self : Batch depth) : Batch depth × List Fr :=
  (default H hdepth self.inserts.length, self.publicInputs H)

variable {H} {instances : List Fr}

/-- The default insertion is padding. -/
lemma isPadding_defaultInsert : (defaultInsert H hdepth).isPadding H = true := by
  rw [Insert.isPadding, Note.commitment_paddingNote]
  rfl

/-- A default batch keeps the root. -/
lemma newRoot_default (INSERTS : ℕ) :
    (default H hdepth INSERTS).newRoot H = (default H hdepth INSERTS).oldRoot H := by
  rw [newRoot_eq_foldl]
  generalize (default H hdepth INSERTS).oldRoot H = root
  unfold default
  induction INSERTS with
  | zero => rfl
  | succ n ih =>
    rw [List.replicate_succ, List.foldl_cons, Insert.rootAfter,
      if_pos (isPadding_defaultInsert hdepth)]
    exact ih

/-- The public inputs of a default batch. -/
lemma publicInputs_default (INSERTS : ℕ) :
    (default H hdepth INSERTS).publicInputs H =
      [(default H hdepth INSERTS).oldRoot H, (default H hdepth INSERTS).oldRoot H] ++
        List.replicate INSERTS 0 := by
  rw [publicInputs, newRoot_default]
  unfold leafs default
  rw [List.map_replicate]
  rfl

/-- **The loop over default inserts** keeps the root, by induction on their number. -/
lemma enforceInserts_default_iff (root : Fr) (INSERTS : ℕ) (cells : List InsertConstraintCells) :
    enforceInserts 0 root (List.replicate INSERTS (defaultInsert H hdepth))
        (Utxo.honestEnv H instances) cells ↔
      cells = List.replicate INSERTS ⟨0, root, root, 1⟩ := by
  have hround : ∀ c, enforceInsert 0 root (defaultInsert H hdepth) (Utxo.honestEnv H instances) c ↔
      c = ⟨0, root, root, 1⟩ := by
    intro c
    have hleaf : (InsertWitness.ofInsert (defaultInsert H hdepth)).leaf = 0 := Element.toBase_zero
    rw [enforceInsert_iff]
    constructor
    · rintro ⟨w, -, -, rfl, hw⟩
      obtain rfl := hw rfl
      simp [hleaf]
    · rintro rfl
      refine ⟨_, InsertWitness.valid_ofInsert _ rfl (defaultInsert H hdepth),
        fun hne => absurd hleaf hne, ?_, fun _ => rfl⟩
      simp [hleaf]
  induction INSERTS generalizing cells with
  | zero => exact Iff.rfl
  | succ n ih =>
    rw [List.replicate_succ, List.replicate_succ]
    simp only [enforceInserts, bind_iff, hround, exists_eq_left, ih, pure_iff]

/-- The constraints of a default batch, without its public inputs. -/
lemma enforceConstraints_default_iff (INSERTS : ℕ) (cells : BatchConstraintCells) :
    (default H hdepth INSERTS).enforceConstraints H ((Note.paddingNote H).commitment H).toBase
        (Utxo.honestEnv H instances) cells ↔
      INSERTS ≠ 0 ∧ cells = ⟨(default H hdepth INSERTS).oldRoot H,
        (default H hdepth INSERTS).oldRoot H, List.replicate INSERTS 0,
        List.replicate INSERTS ((default H hdepth INSERTS).oldRoot H)⟩ := by
  have hne : (default H hdepth INSERTS).inserts ≠ [] ↔ INSERTS ≠ 0 := by
    unfold default
    rw [ne_eq, List.replicate_eq_nil_iff]
  have hinserts : (default H hdepth INSERTS).inserts =
      List.replicate INSERTS (defaultInsert H hdepth) := rfl
  have hlast : ∀ root : Fr, (List.replicate INSERTS root).getLastD root = root := by
    intro root
    cases INSERTS with
    | zero => rfl
    | succ n => rw [List.getLastD_eq_getLast?, List.getLast?_replicate]; rfl
  rw [Note.commitment_paddingNote, Element.toBase_zero]
  simp only [enforceConstraints, bind_iff, assertC_iff, assignAdvice_iff, pure_iff, exists_const,
    hne]
  rw [hinserts]
  simp only [enforceInserts_default_iff, exists_eq_left, List.map_replicate]
  refine and_congr_right fun _ => ⟨?_, ?_⟩
  · rintro ⟨root, hroot, rfl⟩
    rw [hroot rfl, hlast]
  · rintro rfl
    exact ⟨_, fun _ => rfl, by rw [hlast]⟩

/-- **The instance columns that suit a default batch.** -/
theorem satisfied_default_iff (INSERTS : ℕ) :
    (default H hdepth INSERTS).Satisfied H instances ↔
      INSERTS ≠ 0 ∧ RowsAt instances 0 ((default H hdepth INSERTS).publicInputs H) := by
  have hleafs : ∀ l : List Fr,
      (∀ entry ∈ l.zipIdx, entry.1 = instances.getD (entry.2 + 2) 0) ↔ RowsAt instances 2 l := by
    intro l
    constructor
    · intro h i x hx
      rw [Nat.add_comm]
      exact (h (x, i) (List.mem_zipIdx_iff_getElem?.2 hx)).symm
    · intro h entry hentry
      rw [Nat.add_comm]
      exact (h entry.2 entry.1 (List.mem_zipIdx_iff_getElem?.1 hentry)).symm
  rw [publicInputs_default, rowsAt_append]
  simp only [Satisfied, synthesize, bind_iff, enforceConstraints_default_iff, pure_iff,
    enforceInstances, constrainInstance_iff, forM_iff, exists_const, rowsAt_cons, rowsAt_nil,
    and_true, List.length_cons, List.length_nil]
  constructor
  · rintro ⟨_, _, ⟨hne, rfl⟩, ⟨h0, h1, hrest⟩, rfl⟩
    exact ⟨hne, ⟨h0.symm, h1.symm⟩, (hleafs _).1 hrest⟩
  · rintro ⟨hne, ⟨h0, h1⟩, hrest⟩
    exact ⟨_, _, ⟨hne, rfl⟩, ⟨h0.symm, h1.symm, (hleafs _).2 hrest⟩, rfl⟩

/-- A batch without inserts has no circuit. -/
lemma inserts_length_ne_zero {self : Batch depth} {paddingConstant : Fr} {env : Env Fr}
    {cells : BatchConstraintCells} (h : self.enforceConstraints H paddingConstant env cells) :
    self.inserts.length ≠ 0 := by
  simp only [enforceConstraints, bind_iff, assertC_iff, exists_const] at h
  exact fun hlen => h.1 (List.length_eq_zero_iff.1 hlen)

/-- A batch exposes its roots and its leaves. -/
lemma length_publicInputs (self : Batch depth) :
    (self.publicInputs H).length = self.inserts.length + 2 := by
  simp [publicInputs, leafs]

end Batch

/-! ## AggregateUtxo -/

/-- `AggregateUtxo`, with the limbs of the accumulator of its inner proofs. -/
structure AccumulatedUtxo (UTXO_N depth LEAVES : ℕ) extends
    AggregateUtxo UTXO_N depth LEAVES where
  aggInstances : List Fr
  length_aggInstances : aggInstances.length = 4 * LIMBS

namespace AccumulatedUtxo

variable {UTXO_N depth LEAVES : ℕ} (accepts : List (List Fr) → Prop) (H : List Fr → Fr)
  (hdepth : depth ≤ 257)

/-- `AggregateUtxo::utxo_public_inputs`. -/
def utxoPublicInputs (self : AccumulatedUtxo UTXO_N depth LEAVES) : List Fr :=
  self.utxo.flatMap fun snark =>
    let column := snark.instances.getD 0 []
    [column.getD 0 0, column.getD 1 0, column.getD 2 0]

/-- `AggregateUtxo::public_inputs`. -/
def publicInputs (self : AccumulatedUtxo UTXO_N depth LEAVES) : List Fr :=
  self.aggInstances ++ ([self.insert.oldRoot H, self.insert.newRoot H] ++ self.utxoPublicInputs)

/-- The witness of an aggregation and an instance column satisfy the circuit. -/
def Satisfied (self : AccumulatedUtxo UTXO_N depth LEAVES) (instances : List Fr) : Prop :=
  ∃ cells, self.toAggregateUtxo.enforceConstraints accepts H (Utxo.honestEnv H instances) cells ∧
    cells.aggCells = self.aggInstances

/-- `AggregateUtxo::default`, whose new inner proofs accumulate to the given limbs. -/
def default (limbs : List Fr) (hlimbs : limbs.length = 4 * LIMBS) :
    AccumulatedUtxo UTXO_N depth LEAVES where
  utxo := List.replicate UTXO_N ⟨[(Utxo.default H hdepth).publicInputs H]⟩
  insert := Batch.default H hdepth LEAVES
  length_utxo := List.length_replicate
  length_inserts := List.length_replicate
  aggInstances := limbs
  length_aggInstances := hlimbs

/-- What `AggregateUtxo::snark` hands over. -/
def snark (limbs : List Fr) (hlimbs : limbs.length = 4 * LIMBS)
    (self : AccumulatedUtxo UTXO_N depth LEAVES) :
    AccumulatedUtxo UTXO_N depth LEAVES × List Fr :=
  (default H hdepth limbs hlimbs, self.publicInputs H)

variable {H} {instances limbs : List Fr}

/-- **The loop over default transactions**, by induction on their number. -/
lemma constrainUtxos_default_iff {env : Env Fr} (base : ℕ) (leafs : List Fr) :
    constrainUtxos base (List.replicate UTXO_N [[0, 0, 0, 0, 0, 0, 0]]) env leafs ↔
      leafs = List.replicate (4 * UTXO_N) 0 ∧
        RowsAt env.instances base (List.replicate (3 * UTXO_N) 0) := by
  induction UTXO_N generalizing base leafs with
  | zero => simp [constrainUtxos]
  | succ n ih =>
    have hfour : List.replicate (4 * (n + 1)) (0 : Fr) =
        [0, 0, 0, 0] ++ List.replicate (4 * n) 0 := by
      rw [show 4 * (n + 1) = 4 + 4 * n by omega, List.replicate_add]
      rfl
    have hthree : List.replicate (3 * (n + 1)) (0 : Fr) =
        [0, 0, 0] ++ List.replicate (3 * n) 0 := by
      rw [show 3 * (n + 1) = 3 + 3 * n by omega, List.replicate_add]
      rfl
    rw [hfour, hthree, rowsAt_append, List.replicate_succ]
    simp only [constrainUtxos, bind_iff, cellAt, List.getElem?_cons_zero, List.getElem?_cons_succ,
      Option.some.injEq, constrainInstance_iff, exists_const, ih, pure_iff, exists_eq_left',
      List.drop_succ_cons, List.drop_zero, rowsAt_cons, rowsAt_nil, and_true, List.length_cons,
      List.length_nil]
    constructor
    · rintro ⟨h0, h1, h2, rest, ⟨rfl, hrest⟩, rfl⟩
      exact ⟨rfl, ⟨h0.symm, h1.symm, h2.symm⟩, hrest⟩
    · rintro ⟨rfl, ⟨h0, h1, h2⟩, hrest⟩
      exact ⟨h0.symm, h1.symm, h2.symm, _, ⟨rfl, hrest⟩, rfl⟩

/-- The public inputs of the default aggregation. -/
lemma publicInputs_default (hlimbs : limbs.length = 4 * LIMBS) :
    (default H hdepth limbs hlimbs : AccumulatedUtxo UTXO_N depth LEAVES).publicInputs H =
      limbs ++ ([(Batch.default H hdepth LEAVES).oldRoot H,
        (Batch.default H hdepth LEAVES).oldRoot H] ++ List.replicate (3 * UTXO_N) 0) := by
  have hutxo : (default H hdepth limbs hlimbs :
      AccumulatedUtxo UTXO_N depth LEAVES).utxoPublicInputs = List.replicate (3 * UTXO_N) 0 := by
    change (List.replicate UTXO_N (⟨[(Utxo.default H hdepth).publicInputs H]⟩ : Snark)).flatMap
      (fun snark => _) = _
    rw [Utxo.publicInputs_default, List.flatMap_def, List.map_replicate]
    change (List.replicate UTXO_N (List.replicate 3 (0 : Fr))).flatten = _
    rw [List.flatten_replicate_replicate, Nat.mul_comm]
  rw [publicInputs, hutxo]
  change limbs ++ ([(Batch.default H hdepth LEAVES).oldRoot H,
    (Batch.default H hdepth LEAVES).newRoot H] ++ _) = _
  rw [Batch.newRoot_default]

/-- **The instance columns that suit the default aggregation.**

**Proof sketch.** The witness of the default aggregation is known: its proofs expose zeros, and its
batch inserts padding (`Batch.enforceConstraints_default_iff`). What is left of the constraints are
the verification of these proofs and the rows of the instance column. -/
theorem satisfied_default_iff (hlimbs : limbs.length = 4 * LIMBS) :
    (default H hdepth limbs hlimbs : AccumulatedUtxo UTXO_N depth LEAVES).Satisfied accepts H
        instances ↔
      LEAVES ≠ 0 ∧ (UTXO_N = 0 ∨ accepts [[0, 0, 0, 0, 0, 0, 0]]) ∧
        RowsAt instances 0 ((default H hdepth limbs hlimbs :
          AccumulatedUtxo UTXO_N depth LEAVES).publicInputs H) := by
  have hsnarks : (default H hdepth limbs hlimbs : AccumulatedUtxo UTXO_N depth LEAVES).utxo.map
      Snark.instances = List.replicate UTXO_N [[0, 0, 0, 0, 0, 0, 0]] := by
    change (List.replicate UTXO_N (⟨[(Utxo.default H hdepth).publicInputs H]⟩ : Snark)).map _ = _
    rw [Utxo.publicInputs_default, List.map_replicate]
  have hshape : (List.replicate UTXO_N [[(0 : Fr), 0, 0, 0, 0, 0, 0]]).map
      (fun columns => columns.map List.length) =
        (default H hdepth limbs hlimbs : AccumulatedUtxo UTXO_N depth LEAVES).utxo.map
          Snark.numInstance := by
    rw [← hsnarks, List.map_map]
    rfl
  have haccepts : (∀ columns ∈ List.replicate UTXO_N [[(0 : Fr), 0, 0, 0, 0, 0, 0]],
      accepts columns) ↔ (UTXO_N = 0 ∨ accepts [[0, 0, 0, 0, 0, 0, 0]]) := by
    constructor
    · intro h
      by_cases hn : UTXO_N = 0
      · exact .inl hn
      · exact .inr (h _ (List.mem_replicate.2 ⟨hn, rfl⟩))
    · rintro h columns hcolumns
      obtain ⟨hn, rfl⟩ := List.mem_replicate.1 hcolumns
      exact h.resolve_left hn
  have hequal : ∀ pair ∈ ((List.replicate (4 * UTXO_N) (0 : Fr)).zip
      (List.replicate LEAVES 0)).take LEAVES, pair.1 = pair.2 := by
    intro pair hpair
    have hmem := List.of_mem_zip (List.mem_of_mem_take hpair)
    rw [List.eq_of_mem_replicate hmem.1, List.eq_of_mem_replicate hmem.2]
  have hinsert : (default H hdepth limbs hlimbs : AccumulatedUtxo UTXO_N depth LEAVES).insert =
      Batch.default H hdepth LEAVES := rfl
  rw [publicInputs_default, rowsAt_append, rowsAt_append, Nat.zero_add, hlimbs]
  simp only [Satisfied, AggregateUtxo.enforceConstraints, bind_iff, hinsert,
    Batch.enforceConstraints_default_iff, constrainInstance_iff, exists_const, forM_iff,
    constrainEqual_iff, pure_iff, constrainInstances_iff, rowsAt_cons, rowsAt_nil, and_true,
    List.length_cons, List.length_nil]
  constructor
  · rintro ⟨_, ⟨⟨agg, snarks⟩, ⟨hlen, hlens, hacc, hsnarks'⟩, _, ⟨hne, rfl⟩, h0, h1, h2, leafs,
      hutxos, hleafs, rfl⟩, hagg⟩
    obtain rfl : agg = limbs := hagg
    obtain rfl : snarks = List.replicate UTXO_N [[0, 0, 0, 0, 0, 0, 0]] :=
      (hsnarks' rfl).trans hsnarks
    rw [hlimbs] at h1 h2 hutxos
    obtain ⟨rfl, hrows⟩ := (constrainUtxos_default_iff _ _).1 hutxos
    exact ⟨hne, haccepts.1 hacc, h0, ⟨h1.symm, h2.symm⟩, hrows⟩
  · rintro ⟨hne, hacc, h0, ⟨h1, h2⟩, hrows⟩
    refine ⟨_, ⟨⟨limbs, List.replicate UTXO_N [[0, 0, 0, 0, 0, 0, 0]]⟩,
      ⟨hlimbs, hshape, haccepts.2 hacc, fun _ => hsnarks.symm⟩, _, ⟨hne, rfl⟩, ?_, ?_, ?_, _, ?_,
      hequal, rfl⟩, rfl⟩
    · exact h0
    · rw [hlimbs]
      exact h1.symm
    · rw [hlimbs]
      exact h2.symm
    · rw [hlimbs]
      exact (constrainUtxos_default_iff _ _).2 ⟨rfl, hrows⟩

/-- An aggregation exposes its accumulator, its roots and its values. -/
lemma length_publicInputs (self : AccumulatedUtxo UTXO_N depth LEAVES) :
    (self.publicInputs H).length = 4 * LIMBS + (2 + 3 * UTXO_N) := by
  have hutxo : self.utxoPublicInputs.length = 3 * UTXO_N := by
    unfold utxoPublicInputs
    rw [List.length_flatMap]
    simp [self.length_utxo, Nat.mul_comm]
  rw [publicInputs, List.length_append, List.length_append, self.length_aggInstances, hutxo]
  rfl

end AccumulatedUtxo

/-! ## The calls -/

/-- A call of one of the methods. For `AggregateUtxo::snark` the limbs are those of the inner
proofs that the default value makes. -/
inductive ProofCall (depth : ℕ)
  | mintProve (self : Mint)
  | mintSnark (self : Mint)
  | utxoProve (self : Utxo depth)
  | utxoSnark (self : Utxo depth)
  | batchProve (self : Batch depth)
  | batchSnark (self : Batch depth)
  | aggregateUtxoSnark (UTXO_N LEAVES : ℕ) (self : AccumulatedUtxo UTXO_N depth LEAVES)
      (limbs : List Fr) (hlimbs : limbs.length = 4 * LIMBS)

namespace ProofCall

variable {depth : ℕ} (accepts : List (List Fr) → Prop) (H : List Fr → Fr) (hdepth : depth ≤ 257)

/-- The value's own witness satisfies its circuit with its own public inputs. -/
def WellFormed : ProofCall depth → Prop
  | .mintProve self => self.Satisfied H (self.publicInputs H)
  | .mintSnark self => self.Satisfied H (self.publicInputs H)
  | .utxoProve self => self.Satisfied H (self.publicInputs H)
  | .utxoSnark self => self.Satisfied H (self.publicInputs H)
  | .batchProve self => self.Satisfied H (self.publicInputs H)
  | .batchSnark self => self.Satisfied H (self.publicInputs H)
  | .aggregateUtxoSnark _ _ self _ _ => self.Satisfied accepts H (self.publicInputs H)

/-- The circuit witness and the instance column that the call hands to proof creation satisfy the
circuit together. -/
def Satisfied : ProofCall depth → Prop
  | .mintProve self => (self.prove H).1.Satisfied H (self.prove H).2
  | .mintSnark self => (self.snark H).1.Satisfied H (self.snark H).2
  | .utxoProve self => (self.prove H hdepth).1.Satisfied H (self.prove H hdepth).2
  | .utxoSnark self => (self.snark H).1.Satisfied H (self.snark H).2
  | .batchProve self => (self.prove H hdepth).1.Satisfied H (self.prove H hdepth).2
  | .batchSnark self => (self.snark H hdepth).1.Satisfied H (self.snark H hdepth).2
  | .aggregateUtxoSnark _ _ self limbs hlimbs =>
    (self.snark H hdepth limbs hlimbs).1.Satisfied accepts H (self.snark H hdepth limbs hlimbs).2

/-- The call hands over the value itself, or its public inputs are those of the default value and
the default value is well-formed: the default transaction is not, unless the hash of its key is
zero, and the default aggregation is if the proofs of default transactions are accepted. -/
def Suits : ProofCall depth → Prop
  | .mintProve self => self.publicInputs H = (Mint.default self.notes.length).publicInputs H
  | .mintSnark _ => True
  | .utxoProve self => H [0, 0] = 0 ∧ self.publicInputs H = (Utxo.default H hdepth).publicInputs H
  | .utxoSnark _ => True
  | .batchProve self =>
    self.publicInputs H = (Batch.default H hdepth self.inserts.length).publicInputs H
  | .batchSnark self =>
    self.publicInputs H = (Batch.default H hdepth self.inserts.length).publicInputs H
  | .aggregateUtxoSnark UTXO_N LEAVES self limbs hlimbs =>
    (UTXO_N = 0 ∨ accepts [[0, 0, 0, 0, 0, 0, 0]]) ∧
      self.publicInputs H = (AccumulatedUtxo.default H hdepth limbs hlimbs :
        AccumulatedUtxo UTXO_N depth LEAVES).publicInputs H

variable {accepts H} {hdepth}

/-- **What the methods hand to proof creation.** For a well-formed value the witness and the
instance column satisfy the circuit together exactly if the call suits.

**Proof sketch.** By cases on the method. A method that hands over itself is satisfied by
assumption; one that hands over the default is satisfied on the column of the default only, and the
two columns have one length, so that they are compared as a whole. -/
theorem satisfied_iff_suits {call : ProofCall depth} (h : call.WellFormed accepts H) :
    call.Satisfied accepts H hdepth ↔ call.Suits accepts H hdepth := by
  have hbatch : ∀ self : Batch depth, self.Satisfied H (self.publicInputs H) →
      ((Batch.default H hdepth self.inserts.length).Satisfied H (self.publicInputs H) ↔
        self.publicInputs H =
          (Batch.default H hdepth self.inserts.length).publicInputs H) := by
    rintro self ⟨_, _, hcells, -⟩
    have hlen : (self.publicInputs H).length =
        ((Batch.default H hdepth self.inserts.length).publicInputs H).length := by
      rw [Batch.length_publicInputs, Batch.length_publicInputs, Batch.default,
        List.length_replicate]
    rw [Batch.satisfied_default_iff, rowsAt_zero_iff hlen,
      and_iff_right (Batch.inserts_length_ne_zero hcells)]
  cases call with
  | mintProve self =>
    have hlen : (self.publicInputs H).length =
        ((Mint.default self.notes.length).publicInputs H).length := by
      rw [Mint.length_publicInputs, Mint.length_publicInputs, Mint.default, List.length_replicate]
    exact (Mint.satisfied_default_iff _).trans (rowsAt_zero_iff hlen)
  | mintSnark self => exact iff_true_intro h
  | utxoProve self =>
    exact (Utxo.satisfied_default_iff hdepth).trans (and_congr_right fun _ => rowsAt_zero_iff rfl)
  | utxoSnark self => exact iff_true_intro h
  | batchProve self => exact hbatch self h
  | batchSnark self => exact hbatch self h
  | aggregateUtxoSnark UTXO_N LEAVES self limbs hlimbs =>
    obtain ⟨_, ⟨_, -, _, hinsert, -⟩, -⟩ := h
    have hleaves : LEAVES ≠ 0 := self.length_inserts ▸ Batch.inserts_length_ne_zero hinsert
    have hlen : (self.publicInputs H).length = ((AccumulatedUtxo.default H hdepth limbs hlimbs :
        AccumulatedUtxo UTXO_N depth LEAVES).publicInputs H).length := by
      rw [AccumulatedUtxo.length_publicInputs, AccumulatedUtxo.length_publicInputs]
    refine (AccumulatedUtxo.satisfied_default_iff accepts hdepth hlimbs).trans ?_
    rw [and_iff_right hleaves]
    exact and_congr_right fun _ => rowsAt_zero_iff hlen

/-- The mint of a note without value, whose public inputs are those of the default mint. -/
theorem satisfied_mintProve_without_value :
    (ProofCall.mintProve ⟨[⟨9, 2, 0, 0⟩]⟩ : ProofCall 161).Satisfied (fun _ => True) List.sum
      (by decide) := by
  have hwell : (⟨[⟨9, 2, 0, 0⟩]⟩ : Mint).Satisfied List.sum
      ((⟨[⟨9, 2, 0, 0⟩]⟩ : Mint).publicInputs List.sum) := by
    rw [Mint.satisfied_iff, rowsAt_zero_iff (by decide)]
    decide +kernel
  refine (@satisfied_iff_suits 161 (fun _ => True) List.sum (by decide)
    (.mintProve ⟨[⟨9, 2, 0, 0⟩]⟩) hwell).2 ?_
  change Mint.publicInputs _ _ = Mint.publicInputs _ _
  decide +kernel

/-- The mint of a note of value five: its public inputs are handed over with the default mint. -/
theorem not_satisfied_mintProve :
    (ProofCall.mintProve ⟨[⟨1, 2, 5, 3⟩]⟩ : ProofCall 161).WellFormed (fun _ => True) List.sum ∧
      ¬ (ProofCall.mintProve ⟨[⟨1, 2, 5, 3⟩]⟩ : ProofCall 161).Satisfied (fun _ => True) List.sum
        (by decide) := by
  constructor
  · change Mint.Satisfied _ _ _
    rw [Mint.satisfied_iff, rowsAt_zero_iff (by decide)]
    decide +kernel
  · intro h
    -- the row of the value is five, that of the default mint is zero
    have hvalue := (Mint.satisfied_default_iff _).1 h 1 0 (by decide)
    revert hvalue
    decide +kernel

end ProofCall

end TempoRollup.Circuits
