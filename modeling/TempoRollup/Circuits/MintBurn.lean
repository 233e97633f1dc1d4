import TempoRollup.Circuits.Insert

set_option relaxedAutoImplicit false
set_option autoImplicit false

/-!
# The circuits of mints and burns

`zk-circuits/src/mint/mint.rs`, `burn/burn.rs` and `burn_to/burn.rs`: the circuits whose proofs
the rollup contract verifies when a mint or a burn is registered. They open notes and expose
their commitments or nullifiers together with their values.

## Main definitions

* `Mint`, `Burn`, `BurnTo` and their `enforceConstraints`.
* `KeyedNote` — a note with the secret key of its nullifier.

## Main results

* `Mint.synthesize_iff` — the exposed commitments and values are those of notes.
* `Burn.synthesize_exposes`, `BurnTo.synthesize_exposes` — the exposed nullifiers and values
  are those of notes.
* `KeyedNote.value_eq_of_nullifier_eq` — without collisions the nullifier of a real note is
  exposed with that note's value only.

## Design

The circuits are generic in the number of their notes, which is the length of a list here; the
verifiers of the contract are those for one note.
-/

open ConstraintSystem

namespace TempoRollup.Circuits

/-! ## Mint -/

/-- `Mint`. -/
structure Mint where
  notes : List Note

namespace Mint

/-- `Mint::enforce_constraints`. -/
def enforceConstraints (self : Mint) (isZero : Fr) : Circuit Fr Unit :=
  self.notes.zipIdx.forM fun (note, i) => do
    let cells ← note.enforceConstraints isZero
    constrainInstance cells.cm (i * 3)
    constrainInstance cells.value (i * 3 + 1)
    constrainInstance cells.source (i * 3 + 2)

/-- The circuit as `mint/circuit.rs` configures and synthesizes it. -/
def synthesize (self : Mint) : Circuit Fr Unit := self.enforceConstraints 0

/-- **The mint circuit**: each note is opened by a witness whose commitment, value and source
stand in the instance column. -/
theorem synthesize_iff (self : Mint) (env : Env Fr) (u : Unit) :
    self.synthesize env u ↔
      ∀ entry ∈ self.notes.zipIdx, ∃ w : NoteWitness, w.message ∈ env.hashed ∧
        (env.prover = .honest → w = NoteWitness.ofNote entry.1) ∧
        w.cm env.hash = env.instances.getD (entry.2 * 3) 0 ∧
        w.value = env.instances.getD (entry.2 * 3 + 1) 0 ∧
        w.source = env.instances.getD (entry.2 * 3 + 2) 0 := by
  simp only [synthesize, enforceConstraints, forM_iff, bind_iff, Note.enforceConstraints_iff,
    constrainInstance_iff, exists_const]
  refine forall₂_congr fun entry _ => ⟨?_, ?_⟩
  · rintro ⟨_, ⟨w, hmem, rfl, hw⟩, h0, h1, h2⟩
    exact ⟨w, hmem, hw, h0, h1, h2⟩
  · rintro ⟨w, hmem, hw, h0, h1, h2⟩
    exact ⟨_, ⟨w, hmem, rfl, hw⟩, h0, h1, h2⟩

end Mint

/-! ## Burn -/

/-- A note with the key whose nullifier a burn exposes. No constraint ties the note's address to
the key. -/
structure KeyedNote extends NoteWitness where
  secretKey : Fr

namespace KeyedNote

variable (H : List Fr → Fr) (w : KeyedNote)

/-- The message behind the nullifier. -/
def nullifierMessage : List Fr := [w.cm H, w.secretKey, w.psi, 0]

/-- The exposed nullifier, also of padding. -/
def nullifier : Fr := H (w.nullifierMessage H)

/-- The messages of the note are hashed. -/
structure Valid (env : Env Fr) : Prop where
  message_mem : w.message ∈ env.hashed
  nullifier_mem : w.nullifierMessage env.hash ∈ env.hashed

/-- The nullifier of a real note is exposed with the value of that note only. -/
theorem value_eq_of_nullifier_eq {env : Env Fr} (hcf : env.CollisionFree) {w : KeyedNote}
    (hw : w.Valid env) {w' : NoteWitness} {secretKey : Fr} (hmem : w'.message ∈ env.hashed)
    (hnull : [w'.cm env.hash, secretKey, w'.psi, 0] ∈ env.hashed) (hne : w'.value ≠ 0)
    (h : w.nullifier env.hash = env.hash [w'.cm env.hash, secretKey, w'.psi, 0]) :
    w.value = w'.value := by
  have hmsg := hcf.hash_inj hw.nullifier_mem hnull h
  have hcm : w.cm env.hash = w'.cm env.hash := (List.cons.inj hmsg).1
  have hcm' : w'.cm env.hash ≠ 0 := fun h0 => hne ((NoteWitness.cm_eq_zero_iff hcf hmem).1 h0)
  rw [NoteWitness.cm_inj hcf hw.message_mem hmem hcm (hcm ▸ hcm')]

end KeyedNote

/-- `Burn`. -/
structure Burn where
  secretKey : Element
  toAddress : Element
  notes : List Note

namespace Burn

/-- `Burn::enforce_constraints`. -/
def enforceConstraints (self : Burn) (isZero : Fr) : Circuit Fr Unit := do
  let toAddress ← assignAdvice self.toAddress.toBase
  let zero ← assignAdviceFromConstant 0
  constrainInstance toAddress 0
  let secretKey ← assignAdvice self.secretKey.toBase
  self.notes.zipIdx.forM fun (note, i) => do
    let cells ← note.enforceConstraints isZero
    let nullifier ← hashGadget [cells.cm, secretKey, cells.psi, zero]
    constrainInstance nullifier (i * 4 + 1)
    constrainInstance cells.value (i * 4 + 2)
    constrainInstance cells.source (i * 4 + 3)
    let sig ← hashGadget [nullifier, secretKey, toAddress, zero]
    constrainInstance sig (i * 4 + 4)

/-- The circuit as `burn/circuit.rs` configures and synthesizes it. -/
def synthesize (self : Burn) : Circuit Fr Unit := self.enforceConstraints 0

/-- **The burn circuit**: each exposed nullifier and value are those of a note. -/
theorem synthesize_exposes {self : Burn} {env : Env Fr} {u : Unit} (h : self.synthesize env u)
    (i : ℕ) (hi : i < self.notes.length) :
    ∃ w : KeyedNote, w.Valid env ∧ w.nullifier env.hash = env.instances.getD (i * 4 + 1) 0 ∧
      w.value = env.instances.getD (i * 4 + 2) 0 := by
  simp only [synthesize, enforceConstraints, bind_iff, assignAdvice_iff,
    assignAdviceFromConstant_iff, constrainInstance_iff, forM_iff, Note.enforceConstraints_iff,
    hashGadget_iff, exists_eq_left, exists_const] at h
  obtain ⟨toAddress, -, -, secretKey, -, hnotes⟩ := h
  obtain ⟨_, ⟨w, hmem, rfl, -⟩, nullifier, ⟨hnmem, rfl⟩, hnull, hvalue, -⟩ :=
    hnotes (self.notes[i], i) (List.mem_zipIdx_iff_getElem?.2 (List.getElem?_eq_getElem hi))
  exact ⟨⟨w, secretKey⟩, ⟨hmem, hnmem⟩, hnull, hvalue⟩

end Burn

/-- `BurnTo`. -/
structure BurnTo where
  secretKey : Element
  toAddress : Element
  kind : Element
  notes : List Note

namespace BurnTo

/-- `BurnTo::enforce_constraints`. -/
def enforceConstraints (self : BurnTo) (isZero : Fr) : Circuit Fr Unit := do
  let kind ← assignAdvice self.kind.toBase
  let toAddress ← assignAdvice self.toAddress.toBase
  let zero ← assignAdviceFromConstant 0
  constrainInstance kind 0
  constrainInstance toAddress 1
  let secretKey ← assignAdvice self.secretKey.toBase
  self.notes.zipIdx.forM fun (note, i) => do
    let cells ← note.enforceConstraints isZero
    let nullifier ← hashGadget [cells.cm, secretKey, cells.psi, zero]
    constrainInstance nullifier (i * 4 + 2)
    constrainInstance cells.value (i * 4 + 2 + 1)
    constrainInstance cells.source (i * 4 + 2 + 2)
    let sig ← hashGadget [nullifier, secretKey, toAddress, kind]
    constrainInstance sig (i * 4 + 5)

/-- The circuit as `burn_to/circuit.rs` configures and synthesizes it. -/
def synthesize (self : BurnTo) : Circuit Fr Unit := self.enforceConstraints 0

/-- **The circuit of burns to an address or a router**: each exposed nullifier and value are
those of a note. -/
theorem synthesize_exposes {self : BurnTo} {env : Env Fr} {u : Unit} (h : self.synthesize env u)
    (i : ℕ) (hi : i < self.notes.length) :
    ∃ w : KeyedNote, w.Valid env ∧ w.nullifier env.hash = env.instances.getD (i * 4 + 2) 0 ∧
      w.value = env.instances.getD (i * 4 + 3) 0 := by
  simp only [synthesize, enforceConstraints, bind_iff, assignAdvice_iff,
    assignAdviceFromConstant_iff, constrainInstance_iff, forM_iff, Note.enforceConstraints_iff,
    hashGadget_iff, exists_eq_left, exists_const] at h
  obtain ⟨kind, -, toAddress, -, -, -, secretKey, -, hnotes⟩ := h
  obtain ⟨_, ⟨w, hmem, rfl, -⟩, nullifier, ⟨hnmem, rfl⟩, hnull, hvalue, -⟩ :=
    hnotes (self.notes[i], i) (List.mem_zipIdx_iff_getElem?.2 (List.getElem?_eq_getElem hi))
  exact ⟨⟨w, secretKey⟩, ⟨hmem, hnmem⟩, hnull, hvalue⟩

end BurnTo

end TempoRollup.Circuits
