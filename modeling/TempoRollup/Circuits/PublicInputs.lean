import TempoRollup.Circuits.Prove

set_option relaxedAutoImplicit false
set_option autoImplicit false

/-!
# The public inputs of a transaction

`Utxo::public_inputs` computes the instance column of a transaction natively, and
`Utxo::enforce_constraints` forces one in the circuit. The two derive the mint or burn value from
different notes: the native code from the first note, the circuit from both.

## Main definitions

* `Utxo.WellFormed` — what the constraints ask of a transaction, apart from the instance column.
* `Utxo.exposed` — the instance column that the cells of the prover's own code have.

## Main results

* `Utxo.satisfied_iff` — a well-formed transaction satisfies the circuit with exactly the columns
  that start with `Utxo.exposed`.
* `Utxo.publicInputs_forced_iff` — when the native public inputs are the forced column.
-/

open ConstraintSystem

namespace TempoRollup.Circuits

variable {depth : ℕ} (H : List Fr → Fr)

/-- An input note is well formed: its value represents a field element, and its address commits to
its key. -/
structure InputNote.WellFormed (n : InputNote depth) : Prop where
  value : n.note.value.isCanonical = true
  address : n.note.address.toBase = H [n.secretKey.toBase, 0]

namespace Utxo

/-- The transaction is well formed: its notes are, real inputs lead to its root, the outputs are in
range, and the totals balance for its kind. -/
structure WellFormed (u : Utxo depth) : Prop where
  in1 : u.inputs.1.WellFormed H
  in2 : u.inputs.2.WellFormed H
  root1 : u.inputs.1.note.value ≠ 0 → (u.inputs.1.recentRoot H).toBase = u.root.toBase
  root2 : u.inputs.2.note.value ≠ 0 → (u.inputs.2.recentRoot H).toBase = u.root.toBase
  out1_lt : u.outputs.1.value.toNat < 2 ^ 240
  out2_lt : u.outputs.2.value.toNat < 2 ^ 240
  balance :
    (if u.kind = .burn then 0
      else u.inputs.1.note.value.toBase + u.inputs.2.note.value.toBase) =
    if u.kind = .mint then 0 else u.outputs.1.value.toBase + u.outputs.2.value.toBase

/-- The instance column that the cells of the prover's own code have. -/
def exposed (self : Utxo depth) : List Fr :=
  let w := UtxoWitness.ofUtxo H self
  self.root.toBase :: w.mbHash H :: w.mbValue :: w.leaves H

variable {H} {self : Utxo depth} {instances : List Fr}

/-! ## The forced column -/

/-- The root that the path of a real input leads to is the one of its commitment. -/
lemma root_ofInputNote (env : Env Fr) {n : InputNote depth} (hn : n.WellFormed env.hash) :
    (InputWitness.ofInputNote env.hash n).root env = (n.recentRoot env.hash).toBase := by
  rw [InputNote.recentRoot, MerklePath.computeRoot, MerklePath.toBase_computeRootFromLeaf,
    Note.toBase_commitment env.hash hn.value]
  rfl

/-- In a well-formed transaction both inputs take its root. -/
lemma rootOf_ofUtxo (env : Env Fr) {n : InputNote depth} (hn : n.WellFormed env.hash)
    (hroot : n.note.value ≠ 0 → (n.recentRoot env.hash).toBase = self.root.toBase) :
    (UtxoWitness.ofUtxo env.hash self).rootOf env (InputWitness.ofInputNote env.hash n) =
      self.root.toBase := by
  unfold UtxoWitness.rootOf
  split_ifs with h0
  · rfl
  · rw [root_ofInputNote env hn]
    apply hroot
    intro hv
    exact h0 ((Element.toBase_eq_zero_iff hn.value).2 hv)

/-- The honest witness is a mint if the transaction is. -/
lemma isMint_ofUtxo (self : Utxo depth) :
    (UtxoWitness.ofUtxo H self).isMint = decide (self.kind = .mint) := by
  have hkind : ∀ kind : UtxoKind, decide (kind.asElement = UtxoKind.mint.asElement) =
      decide (kind = .mint) := by
    intro kind
    cases kind <;> decide
  exact hkind self.kind

/-- The honest witness is a burn if the transaction is. -/
lemma isBurn_ofUtxo (self : Utxo depth) :
    (UtxoWitness.ofUtxo H self).isBurn = decide (self.kind = .burn) := by
  have hkind : ∀ kind : UtxoKind, decide (kind.asElement = UtxoKind.burn.asElement) =
      decide (kind = .burn) := by
    intro kind
    cases kind <;> decide
  exact hkind self.kind

/-- A number below `2 ^ 240` stays below it as a field element. -/
lemma val_toBase_lt {e : Element} (he : e.toNat < 2 ^ 240) : e.toBase.val < 2 ^ 240 := by
  have hM := Element.lt_MODULUS
  rwa [Element.val_toBase ((Element.isCanonical_iff e).2 (by omega))]

/-- The witness of the prover's own code meets the constraints of a well-formed transaction. -/
lemma valid_ofUtxo (hself : self.WellFormed H) :
    (UtxoWitness.ofUtxo H self).Valid (honestEnv H instances) depth where
  in1 := InputWitness.valid_ofInputNote (honestEnv H instances) rfl _ hself.in1.address
  in2 := InputWitness.valid_ofInputNote (honestEnv H instances) rfl _ hself.in2.address
  out1_mem := trivial
  out2_mem := trivial
  out1_lt := val_toBase_lt hself.out1_lt
  out2_lt := val_toBase_lt hself.out2_lt
  balance := by
    simp only [isMint_ofUtxo, isBurn_ofUtxo, decide_eq_true_eq]
    exact hself.balance

/-- **The forced column**: with its own witness, a well-formed transaction satisfies the circuit for
exactly the instance columns that have its exposed rows. -/
theorem satisfied_iff (hself : self.WellFormed H) :
    self.Satisfied H instances ↔ RowsAt instances 0 (self.exposed H) := by
  have hroot1 := rootOf_ofUtxo (honestEnv H instances) hself.in1 hself.root1
  have hroot2 := rootOf_ofUtxo (honestEnv H instances) hself.in2 hself.root2
  simp only [exposed, UtxoWitness.leaves, rowsAt_cons, rowsAt_nil, and_true]
  constructor
  · rintro ⟨cells, h⟩
    obtain ⟨w, -, hexposes, -, hw⟩ := (synthesize_iff _ (honestEnv H instances) cells).1 h
    obtain rfl := hw rfl
    exact ⟨hexposes.root1.symm.trans hroot1, hexposes.mbHash.symm, hexposes.mbValue.symm,
      hexposes.in1.symm, hexposes.in2.symm, hexposes.out1.symm, hexposes.out2.symm⟩
  · rintro ⟨h0, h1, h2, h3, h4, h5, h6⟩
    exact ⟨_, (synthesize_iff _ (honestEnv H instances) _).2
      ⟨UtxoWitness.ofUtxo H self, valid_ofUtxo hself,
        ⟨hroot1.trans h0.symm, hroot2.trans h0.symm, h1.symm, h2.symm, h3.symm, h4.symm, h5.symm,
          h6.symm⟩, rfl, fun _ => rfl⟩⟩

/-! ## The native column -/

/-- The native nullifier of an input is the public one of its cells. -/
lemma toBase_nullifer {n : InputNote depth} (hn : n.WellFormed H)
    (hzero : H (NoteWitness.ofNote n.note).message ≠ 0) :
    (n.nullifer H).toBase = (InputWitness.ofInputNote H n).nullifier H :=
  Note.toBase_nullifier H hn.value hzero n.secretKey

/-- The native mint or burn value, which reads the first note only, is the one of the circuit, which
reads both, exactly if the second note is padding. -/
lemma mbValue_eq_iff (hself : self.WellFormed H) :
    (self.publicInputs H).getD 2 0 = (UtxoWitness.ofUtxo H self).mbValue ↔
      (self.kind = .mint → self.outputs.2.value = 0) ∧
        (self.kind = .burn → self.inputs.2.note.value = 0) := by
  have hM := Element.lt_MODULUS
  have hlt := hself.out2_lt
  have hout := Element.toBase_eq_zero_iff
    ((Element.isCanonical_iff self.outputs.2.value).2 (by omega))
  have hin := Element.toBase_eq_zero_iff hself.in2.value
  have htotalOut : (UtxoWitness.ofUtxo H self).out1.value + (UtxoWitness.ofUtxo H self).out2.value =
      self.outputs.1.value.toBase + self.outputs.2.value.toBase := rfl
  have htotalIn : (UtxoWitness.ofUtxo H self).in1.value + (UtxoWitness.ofUtxo H self).in2.value =
      self.inputs.1.note.value.toBase + self.inputs.2.note.value.toBase := rfl
  unfold UtxoWitness.mbValue publicInputs
  rw [isBurn_ofUtxo, isMint_ofUtxo, htotalOut, htotalIn]
  cases hkind : self.kind with
  | null => simp
  | transfer => simp
  | mint => simp [hout]
  | burn => simp [hin]

/-- The native mint or burn hash is the one of the circuit. -/
lemma mbHash_eq (hself : self.WellFormed H)
    (hzero : H (NoteWitness.ofNote self.inputs.1.note).message ≠ 0) :
    (self.publicInputs H).getD 1 0 = (UtxoWitness.ofUtxo H self).mbHash H := by
  have hM := Element.lt_MODULUS
  have hlt := hself.out1_lt
  have hcm := Note.toBase_commitment H ((Element.isCanonical_iff self.outputs.1.value).2 (by omega))
  have hnull := toBase_nullifer hself.in1 hzero
  unfold UtxoWitness.mbHash publicInputs
  rw [isBurn_ofUtxo, isMint_ofUtxo]
  cases hkind : self.kind with
  | null => rfl
  | transfer => rfl
  | mint => exact hcm
  | burn => exact hnull

/-- **The public inputs of a transaction**, of any kind and with padding in any place: its native
public inputs are the instance column that the circuit forces exactly if a mint has padding for its
second output and a burn has padding for its second input. The hash does not take the messages of
the two inputs to the padding commitment.

**Proof sketch.** The circuit forces the column that the witness exposes (`satisfied_iff`). This
column and the native one have the same root, hash and leaves; they can differ in the value of a
mint or a burn only, and `mbValue_eq_iff` says when they do. -/
theorem publicInputs_forced_iff (H : List Fr → Fr) (self : Utxo depth) (hself : self.WellFormed H)
    (hzero1 : H (NoteWitness.ofNote self.inputs.1.note).message ≠ 0)
    (hzero2 : H (NoteWitness.ofNote self.inputs.2.note).message ≠ 0) :
    (∀ instances : List Fr, instances.length = 7 →
        (self.Satisfied H instances ↔ instances = self.publicInputs H)) ↔
      (self.kind = .mint → self.outputs.2.value = 0) ∧
        (self.kind = .burn → self.inputs.2.note.value = 0) := by
  have hM := Element.lt_MODULUS
  have hlt1 := hself.out1_lt
  have hlt2 := hself.out2_lt
  -- the two columns can differ in the third row only
  have heq : self.publicInputs H = self.exposed H ↔
      (self.kind = .mint → self.outputs.2.value = 0) ∧
        (self.kind = .burn → self.inputs.2.note.value = 0) := by
    have hrows : self.publicInputs H = self.root.toBase :: (self.publicInputs H).getD 1 0 ::
        (self.publicInputs H).getD 2 0 :: (UtxoWitness.ofUtxo H self).leaves H := by
      unfold UtxoWitness.leaves UtxoWitness.ofUtxo
      rw [← toBase_nullifer hself.in1 hzero1, ← toBase_nullifer hself.in2 hzero2,
        ← Note.toBase_commitment H ((Element.isCanonical_iff self.outputs.1.value).2 (by omega)),
        ← Note.toBase_commitment H ((Element.isCanonical_iff self.outputs.2.value).2 (by omega))]
      rfl
    rw [← mbValue_eq_iff hself, hrows, mbHash_eq hself hzero1]
    simp [exposed]
  rw [← heq]
  constructor
  · intro h
    have hown := (satisfied_iff hself).2 ((rowsAt_zero_iff rfl).2 (rfl : self.exposed H = _))
    exact ((h _ rfl).1 hown).symm
  · intro h instances hlen
    rw [satisfied_iff hself, h, rowsAt_zero_iff (by rw [hlen]; rfl)]

/-- A mint of notes in range is well formed. -/
lemma wellFormed_mintOf (H : List Fr → Fr) (hdepth : depth ≤ 257) {outputs : Note × Note}
    (h1 : outputs.1.value.toNat < 2 ^ 240) (h2 : outputs.2.value.toNat < 2 ^ 240) :
    (mintOf H hdepth outputs).WellFormed H := by
  have hin : (InputNote.paddingNote H hdepth).WellFormed H := by
    refine ⟨(by decide : Element.isCanonical 0 = true), ?_⟩
    simp [InputNote.paddingNote, Note.paddingNote]
  refine ⟨hin, hin, fun hv => absurd rfl hv, fun hv => absurd rfl hv, h1, h2, ?_⟩
  simp [mintOf, InputNote.paddingNote, Note.paddingNote]

/-- A mint with padding for its second output satisfies the circuit with its own public inputs. -/
theorem publicInputs_forced_mint :
    let self : Utxo 161 := mintOf (fun _ => 1) (by decide) (⟨3, 4, 5, 6⟩, ⟨3, 4, 0, 6⟩)
    self.Satisfied (fun _ => 1) (self.publicInputs fun _ => 1) := by
  intro self
  have hself : self.WellFormed fun _ => 1 := wellFormed_mintOf _ _ (by decide) (by decide)
  have hforced := (publicInputs_forced_iff (fun _ => 1) self hself one_ne_zero one_ne_zero).2
    ⟨fun _ => rfl, fun hkind => by cases hkind⟩
  exact (hforced _ rfl).2 rfl

/-- **A mint of two notes** is well formed, and its own public inputs do not satisfy its circuit:
they have the value of the first note, 5, where the circuit forces the total, 12. -/
theorem not_satisfied_publicInputs :
    let self : Utxo 161 := mintOf (fun _ => 1) (by decide) (⟨3, 4, 5, 6⟩, ⟨3, 4, 7, 6⟩)
    self.WellFormed (fun _ => 1) ∧
      ¬ self.Satisfied (fun _ => 1) (self.publicInputs fun _ => 1) := by
  intro self
  have hself : self.WellFormed fun _ => 1 := wellFormed_mintOf _ _ (by decide) (by decide)
  refine ⟨hself, fun h => ?_⟩
  have hrows := (satisfied_iff hself).1 h
  simp only [exposed, rowsAt_cons] at hrows
  exact absurd hrows.2.2.1 (by decide)

end Utxo

end TempoRollup.Circuits
