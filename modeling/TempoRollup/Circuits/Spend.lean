import TempoRollup.Circuits.Paths
import TempoRollup.Circuits.PublicInputs

set_option relaxedAutoImplicit false
set_option autoImplicit false

/-!
# Spending a note

The holder of a note takes the path of its commitment from a tree and makes a transfer or a burn of
it. Its own witness satisfies the circuit with its own public inputs.

## Main definitions

* `Utxo.newTransfer`, `Utxo.newBurn`, `Utxo.leafs`.
* `InputNote.Spendable` — a note with its key and a path to a root.

## Main results

* `MerklePath.exists_of_mem` — a tree has a path to its root for each of its elements.
* `Utxo.satisfied_publicInputs` — a well-formed transaction satisfies the circuit with its own
  public inputs, also with padding for its second input.
* `Utxo.wellFormed_newTransfer`, `Utxo.wellFormed_newBurn` — the transactions of a holder.
-/

open ConstraintSystem

namespace TempoRollup.Circuits

variable {depth : ℕ}

section Native

variable (H : List Fr → Fr)

/-- `Utxo::new_transfer`. -/
def Utxo.newTransfer (inputs : InputNote depth × InputNote depth) (outputs : Note × Note)
    (root : Element) : Utxo depth where
  inputs := inputs
  outputs := outputs
  root := root
  kind := .transfer

/-- `Utxo::new_burn`. -/
def Utxo.newBurn (hdepth : depth ≤ 257) (inputNote : InputNote depth) (root : Element) :
    Utxo depth where
  inputs := (inputNote, InputNote.paddingNote H hdepth)
  outputs := (Note.paddingNote H, Note.paddingNote H)
  root := root
  kind := .burn

/-- `Utxo::leafs`. -/
def Utxo.leafs (self : Utxo depth) : List Fr :=
  [(self.inputs.1.nullifer H).toBase, (self.inputs.2.nullifer H).toBase,
    (self.outputs.1.commitment H).toBase, (self.outputs.2.commitment H).toBase]

/-- **A note that can be spent** against a root: the key is the one of its address, and the path
leads from its commitment to the root. -/
structure InputNote.Spendable (root : Element) (n : InputNote depth) : Prop
    extends n.WellFormed H where
  commitment_ne : n.note.commitment H ≠ 0
  recentRoot_eq : n.recentRoot H = root

/-- An input of a transaction: a note that can be spent, or padding. -/
def InputNote.Takes (hdepth : depth ≤ 257) (root : Element) (n : InputNote depth) : Prop :=
  n.Spendable H root ∨ n = InputNote.paddingNote H hdepth

end Native

variable {H : List Fr → Fr}

/-! ## The path of a note -/

/-- **The path of an element** of a tree, as its holder takes it: the siblings, deepest first, lead
from the element to the root. -/
theorem MerklePath.exists_of_mem {V : Type} (hpos : 0 < depth) (hdepth : depth ≤ 257)
    {tree : Smirk.Tree depth V} (htree : tree.Inv H) {e : Element} (he : e ∈ tree.entries.keys)
    (hcanon : e.isCanonical = true) :
    ∃ (treePath : Smirk.Path depth) (path : MerklePath depth), tree.pathFor H e = .ok treePath ∧
      path.siblings = treePath.siblingsDeepestFirst ∧
      path.computeRoot H e = tree.rootHash H := by
  have hd : depth - 1 ≤ 256 := by omega
  obtain ⟨treePath, hpath, helement, -, hsiblings⟩ := Smirk.Tree.pathFor_spec hpos hd htree e
  have hlen : treePath.siblingsDeepestFirst.length = depth - 1 := by
    rw [hsiblings, List.length_map, SparseMerkle.length_path]
  let path : MerklePath depth := ⟨treePath.siblingsDeepestFirst, hlen, hdepth⟩
  refine ⟨treePath, path, hpath, rfl, ?_⟩
  have hfold : treePath.computeRootHash H e = tree.rootHash H := by
    rw [Smirk.Tree.computeRootHash_eq hd helement hsiblings, htree.rootHash_eq]
    have hfolded := SparseMerkle.foldPath_path (Smirk.merge H)
      (Smirk.occupant (depth - 1) tree.entries.keys) (depth - 1) (e.slot (depth - 1))
      (e.slot_lt _)
    rwa [Smirk.occupant_of_mem htree.distinct he] at hfolded
  rw [← hfold]
  exact ((roots_agree ⟨.honest, [], H, Set.univ⟩ path e hcanon treePath rfl helement).1.1).symm

/-! ## The instance column of a transaction -/

/-- A real note has a value, and its message is not hashed to zero. -/
lemma Note.ne_zero_of_commitment_ne {note : Note} (hvalue : note.value.isCanonical = true)
    (hne : note.commitment H ≠ 0) :
    note.value ≠ 0 ∧ H (NoteWitness.ofNote note).message ≠ 0 := by
  have hv : note.value ≠ 0 := fun h0 => hne (if_pos h0)
  refine ⟨hv, fun hzero => hne ?_⟩
  have hcm := Note.toBase_commitment H hvalue
  have hwitness : (NoteWitness.ofNote note).value ≠ 0 :=
    fun h0 => hv ((Element.toBase_eq_zero_iff hvalue).1 h0)
  rw [NoteWitness.cm, if_neg hwitness, hzero] at hcm
  refine (Element.toBase_eq_zero_iff ?_).1 hcm
  rw [Note.commitment, if_neg hv]
  exact isCanonical_hashMerge H _

/-- A commitment is canonical. -/
lemma Note.isCanonical_commitment (H : List Fr → Fr) (note : Note) :
    (note.commitment H).isCanonical = true := by
  unfold Note.commitment
  split_ifs
  · decide
  · exact isCanonical_hashMerge H _

namespace InputNote

variable {n : InputNote depth} {hdepth : depth ≤ 257} {root : Element}

/-- The padding note is well formed. -/
lemma wellFormed_paddingNote (H : List Fr → Fr) (hdepth : depth ≤ 257) :
    (paddingNote H hdepth).WellFormed H := by
  refine ⟨(by decide : Element.isCanonical 0 = true), ?_⟩
  simp [paddingNote, Note.paddingNote]

/-- An input that is taken is well formed. -/
lemma Takes.wellFormed (h : n.Takes H hdepth root) : n.WellFormed H := by
  rcases h with h | rfl
  · exact h.toWellFormed
  · exact wellFormed_paddingNote H hdepth

/-- A real input leads to the root. -/
lemma Takes.toBase_root (h : n.Takes H hdepth root) (hv : n.note.value ≠ 0) :
    (n.recentRoot H).toBase = root.toBase := by
  rcases h with h | rfl
  · rw [h.recentRoot_eq]
  · exact absurd rfl hv

/-- The native nullifier of an input is the public one of its cells. -/
lemma Takes.toBase_nullifer (h : n.Takes H hdepth root) :
    (n.nullifer H).toBase = (InputWitness.ofInputNote H n).nullifier H := by
  rcases h with h | rfl
  · exact Utxo.toBase_nullifer h.toWellFormed
      (Note.ne_zero_of_commitment_ne h.value h.commitment_ne).2
  · have hpad : (InputWitness.ofInputNote H (paddingNote H hdepth)).value = 0 := Element.toBase_zero
    rw [InputWitness.nullifier, if_pos hpad]
    exact Element.toBase_zero

end InputNote

namespace Utxo

variable {self : Utxo depth} {hdepth : depth ≤ 257}

/-- **A transaction satisfies the circuit with its own public inputs**, if its first input is a note
that can be spent, its second one is such a note or padding, and a mint or a burn has one note. -/
theorem satisfied_publicInputs (hself : self.WellFormed H)
    (hin1 : self.inputs.1.Spendable H self.root) (hin2 : self.inputs.2.Takes H hdepth self.root)
    (hmint : self.kind = .mint → self.outputs.2.value = 0)
    (hburn : self.kind = .burn → self.inputs.2.note.value = 0) :
    self.Satisfied H (self.publicInputs H) := by
  have hM := Element.lt_MODULUS
  have hlt1 := hself.out1_lt
  have hlt2 := hself.out2_lt
  have hzero := (Note.ne_zero_of_commitment_ne hin1.value hin1.commitment_ne).2
  have htakes : self.inputs.1.Takes H hdepth self.root := .inl hin1
  have hrows : self.publicInputs H = self.exposed H := by
    have hleaves : self.publicInputs H = self.root.toBase :: (self.publicInputs H).getD 1 0 ::
        (self.publicInputs H).getD 2 0 :: (UtxoWitness.ofUtxo H self).leaves H := by
      unfold UtxoWitness.leaves UtxoWitness.ofUtxo
      rw [← htakes.toBase_nullifer, ← hin2.toBase_nullifer,
        ← Note.toBase_commitment H ((Element.isCanonical_iff self.outputs.1.value).2 (by omega)),
        ← Note.toBase_commitment H ((Element.isCanonical_iff self.outputs.2.value).2 (by omega))]
      rfl
    rw [hleaves, mbHash_eq hself hzero, (mbValue_eq_iff hself).2 ⟨hmint, hburn⟩]
    rfl
  rw [satisfied_iff hself, hrows]
  exact (rowsAt_zero_iff rfl).2 rfl

/-- A transfer of notes that can be spent is well formed, if its totals balance. -/
theorem wellFormed_newTransfer {inputs : InputNote depth × InputNote depth} {outputs : Note × Note}
    {root : Element} (hin1 : inputs.1.Takes H hdepth root) (hin2 : inputs.2.Takes H hdepth root)
    (h1 : outputs.1.value.toNat < 2 ^ 240) (h2 : outputs.2.value.toNat < 2 ^ 240)
    (hbalance : inputs.1.note.value.toNat + inputs.2.note.value.toNat =
      outputs.1.value.toNat + outputs.2.value.toNat) :
    (newTransfer inputs outputs root).WellFormed H := by
  refine ⟨hin1.wellFormed, hin2.wellFormed, hin1.toBase_root, hin2.toBase_root, h1, h2, ?_⟩
  have hfield := congrArg (Nat.cast : ℕ → Fr) hbalance
  rw [Nat.cast_add, Nat.cast_add] at hfield
  simpa [newTransfer, Element.toBase] using hfield

/-- A burn of a note that can be spent is well formed. -/
theorem wellFormed_newBurn {inputNote : InputNote depth} {root : Element}
    (hin : inputNote.Spendable H root) : (newBurn H hdepth inputNote root).WellFormed H := by
  have hin1 : inputNote.Takes H hdepth root := .inl hin
  refine ⟨hin.toWellFormed, InputNote.wellFormed_paddingNote H hdepth, hin1.toBase_root,
    fun hv => absurd rfl hv, by simp [newBurn, Note.paddingNote],
    by simp [newBurn, Note.paddingNote], ?_⟩
  simp [newBurn, Note.paddingNote]

end Utxo

end TempoRollup.Circuits
