import TempoRollup.Circuits.Chips

set_option relaxedAutoImplicit false
set_option autoImplicit false

/-!
# Notes and their circuits

`zk-circuits/src/utxo/note.rs`, `input_note.rs` and the Merkle paths of `merkle_path.rs`: the
native functions on notes, and the constraints that open a commitment, prove that it is in a
tree and derive its nullifier.

## Main definitions

* `Note`, `Note.commitment`, `Note.nullifier`, `Note.enforceConstraints`.
* `MerklePath`, `InputNote`, `InputNote.enforceConstraints`.
* `Note.enforceVersion` — the constraints of a note with a given version cell.
* `NoteWitness`, `InputWitness` — the values a satisfying assignment gives to the cells of a
  note, with the commitment and the nullifier they determine.

## Main results

* `Note.enforceConstraints_iff`, `InputNote.enforceConstraints_iff` — the constraints are
  satisfied exactly by the cells of a witness.
* `Note.enforceVersion_opens_iff` — when the commitment cell is the native commitment.
* `NoteWitness.cm_inj` — without collisions a commitment determines the note.
* `InputWitness.nullifier_eq_of_cm_eq` — and its nullifier.
-/

open ConstraintSystem

namespace TempoRollup.Circuits

/-! ## The native side -/

/-- `Note`; its token name is read by no circuit. -/
structure Note where
  /-- The commitment to the owner's secret key. -/
  address : Element
  psi : Element
  value : Element
  source : Element
  deriving DecidableEq, Repr

namespace Note

variable (H : List Fr → Fr)

/-- `Note::padding_note`. -/
def paddingNote : Note :=
  let zeroHash := Element.fromBase (H [0, 0])
  { address := zeroHash, psi := 0, value := 0, source := zeroHash }

/-- `Note::commitment`. -/
def commitment (self : Note) : Element :=
  if self.value = 0 then 0
  else hashMerge H [self.value, self.address, self.psi, self.source, 1, 1]

/-- `Note::is_padding`. -/
def isPadding (self : Note) : Bool :=
  self.commitment H == (paddingNote H).commitment H || self.commitment H == 0

/-- `Note::nullifier`. -/
def nullifier (self : Note) (secretKey : Element) : Element :=
  if self.isPadding H then (paddingNote H).commitment H
  else hashMerge H [self.commitment H, secretKey, self.psi, 0]

/-- The padding commitment, which configures the padding chips, is zero. -/
@[simp] lemma commitment_paddingNote : (paddingNote H).commitment H = 0 := rfl

end Note

/-- `MerklePath<DEPTH>`: its constructors assert the number of siblings. The sides of a path
are bits of an element, and taking more than 256 of them overflows. -/
structure MerklePath (depth : ℕ) where
  /-- The siblings, deepest first. -/
  siblings : List Element
  length_siblings : siblings.length = depth - 1
  depth_le : depth ≤ 257

namespace MerklePath

variable {depth : ℕ}

/-- `MerklePath::default`: the path of an empty tree. -/
def default (H : List Fr → Fr) (hdepth : depth ≤ 257) : MerklePath depth where
  siblings := (List.range' 1 (depth - 1)).map (emptyTreeHash H)
  length_siblings := by simp
  depth_le := hdepth

/-- `MerklePath::least_significant_bits`: the low bits, deepest first. -/
def leastSignificantBits (depth : ℕ) (element : Element) : List Bool :=
  (element.lsb (depth - 1)).reverse

/-- The siblings with the sides of a leaf. -/
def entries (self : MerklePath depth) (hashPath : Element) : List (Fr × Bool) :=
  (self.siblings.map Element.toBase).zip (leastSignificantBits depth hashPath)

/-- `MerklePath::compute_root_from_leaf`. -/
def computeRootFromLeaf (H : List Fr → Fr) (self : MerklePath depth) (hashPath leaf : Element) :
    Element :=
  Element.fromBase <|
    (self.entries hashPath).foldl
      (fun hash entry => if entry.2 then H [entry.1, hash] else H [hash, entry.1]) leaf.toBase

/-- `MerklePath::compute_root`. -/
def computeRoot (H : List Fr → Fr) (self : MerklePath depth) (hash : Element) : Element :=
  self.computeRootFromLeaf H hash hash

/-- `MerklePath::compute_null_root`. -/
def computeNullRoot (H : List Fr → Fr) (self : MerklePath depth) (hash : Element) : Element :=
  self.computeRootFromLeaf H hash 0

/-- `MerklePath::enforce_inclusion_constraints`: the sides are witnessed from the leaf's value,
and no constraint ties them to the leaf's cell. -/
def enforceInclusionConstraints (self : MerklePath depth) (leafValue leafAssigned : Fr) :
    Circuit Fr Fr :=
  let decomposedBits := leastSignificantBits depth (Element.fromBase leafValue)
  merkleRootValue leafAssigned
    ((self.siblings.map Element.toBase).zip (decomposedBits.map bit))

end MerklePath

/-! ## The circuit of a note -/

/-- `NoteConstraintCells`. -/
structure NoteConstraintCells where
  value : Fr
  address : Fr
  cm : Fr
  isPadding : Fr
  source : Fr
  psi : Fr

/-- `Note::enforce_constraints`, with the constant its padding chip is configured with. -/
def Note.enforceConstraints (self : Note) (isZero : Fr) : Circuit Fr NoteConstraintCells := do
  let zero ← assignAdviceFromConstant 0
  let value ← assignAdvice self.value.toBase
  let address ← assignAdvice self.address.toBase
  let psi ← assignAdvice self.psi.toBase
  let source ← assignAdvice self.source.toBase
  -- the version is witnessed like the rest, not a constant of the circuit
  let version ← assignAdvice 1
  let cm ← hashGadget [value, address, psi, source, version, version]
  let isValueZero ← IsConstantChip.assign isZero value
  -- swap the commitment to zero if the note is padding
  let swapped ← CondSwapChip.swapAssigned (cm, zero) isValueZero
  pure { value, address, cm := swapped.1, isPadding := isValueZero, source, psi }

/-- The values that a satisfying assignment gives to the witnessed cells of a note. -/
@[ext] structure NoteWitness where
  value : Fr
  address : Fr
  psi : Fr
  source : Fr
  version : Fr
  deriving DecidableEq

namespace NoteWitness

/-- The message behind the commitment. -/
def message (w : NoteWitness) : List Fr :=
  [w.value, w.address, w.psi, w.source, w.version, w.version]

/-- The commitment: zero for padding, i.e. when the value is zero. -/
def cm (H : List Fr → Fr) (w : NoteWitness) : Fr := if w.value = 0 then 0 else H w.message

/-- The witness of the prover's own code. -/
def ofNote (n : Note) : NoteWitness where
  value := n.value.toBase
  address := n.address.toBase
  psi := n.psi.toBase
  source := n.source.toBase
  version := 1

/-- The cells of a witness. -/
def cells (H : List Fr → Fr) (w : NoteWitness) : NoteConstraintCells where
  value := w.value
  address := w.address
  cm := w.cm H
  isPadding := bit (decide (w.value = 0))
  source := w.source
  psi := w.psi

/-- The message of a note tells the note. -/
lemma message_inj {w w' : NoteWitness} (h : w.message = w'.message) : w = w' := by
  simp only [message, List.cons.injEq, and_true] at h
  obtain ⟨h1, h2, h3, h4, h5, -⟩ := h
  exact NoteWitness.ext h1 h2 h3 h4 h5

end NoteWitness

/-- The native commitment of a note is the one that the prover's own code gives to its cells. -/
lemma Note.toBase_commitment (H : List Fr → Fr) {note : Note}
    (h : note.value.isCanonical = true) :
    (note.commitment H).toBase = (NoteWitness.ofNote note).cm H := by
  have hzero : (NoteWitness.ofNote note).value = 0 ↔ note.value = 0 :=
    Element.toBase_eq_zero_iff h
  have hone : Element.toBase 1 = 1 := by decide
  unfold commitment NoteWitness.cm
  by_cases hv : note.value = 0
  · rw [if_pos hv, if_pos (hzero.2 hv), Element.toBase_zero]
  · rw [if_neg hv, if_neg (mt hzero.1 hv), hashMerge, Element.toBase_fromBase]
    simp only [List.map_cons, List.map_nil, hone, NoteWitness.message, NoteWitness.ofNote]

/-- The native nullifier of a note is the hash of its commitment with the key, or zero for padding,
unless a real note commits to the padding commitment. -/
lemma Note.toBase_nullifier (H : List Fr → Fr) {note : Note}
    (h : note.value.isCanonical = true) (hzero : H (NoteWitness.ofNote note).message ≠ 0)
    (secretKey : Element) :
    (note.nullifier H secretKey).toBase =
      if (NoteWitness.ofNote note).value = 0 then 0
      else H [(NoteWitness.ofNote note).cm H, secretKey.toBase, note.psi.toBase, 0] := by
  have hcm := toBase_commitment H h
  have hvalue : (NoteWitness.ofNote note).value = 0 ↔ note.value = 0 :=
    Element.toBase_eq_zero_iff h
  unfold nullifier isPadding
  rw [commitment_paddingNote, Bool.or_self]
  by_cases hv : note.value = 0
  · have hpad : note.commitment H = 0 := if_pos hv
    rw [hpad, if_pos (beq_self_eq_true _), if_pos (hvalue.2 hv), Element.toBase_zero]
  · have hreal : note.commitment H ≠ 0 := by
      intro h0
      rw [h0, Element.toBase_zero, NoteWitness.cm, if_neg (mt hvalue.1 hv)] at hcm
      exact hzero hcm.symm
    rw [if_neg (by simpa using hreal), if_neg (mt hvalue.1 hv), hashMerge, Element.toBase_fromBase]
    simp only [List.map_cons, List.map_nil, hcm, Element.toBase_zero]

/-- **The constraints of a note**: satisfied exactly by the cells of a witness whose message
is hashed. -/
theorem Note.enforceConstraints_iff (self : Note) (env : Env Fr) (c : NoteConstraintCells) :
    self.enforceConstraints 0 env c ↔
      ∃ w : NoteWitness, w.message ∈ env.hashed ∧ c = w.cells env.hash ∧
        (env.prover = .honest → w = NoteWitness.ofNote self) := by
  simp only [enforceConstraints, bind_iff, assignAdviceFromConstant_iff, assignAdvice_iff,
    hashGadget_iff, IsConstantChip.assign_iff, CondSwapChip.swapAssigned_iff, pure_iff,
    exists_eq_left]
  constructor
  · rintro ⟨value, hv, address, ha, psi, hp, source, hs, version, hver, _, ⟨hmem, rfl⟩, _,
      ⟨d, hd, rfl⟩, rfl⟩
    refine ⟨⟨value, address, psi, source, version⟩, hmem, ?_, fun h => ?_⟩
    · obtain rfl := bit_injective hd
      by_cases h0 : value = 0 <;> simp [NoteWitness.cells, NoteWitness.cm, h0,
        NoteWitness.message]
    · simp [NoteWitness.ofNote, hv h, ha h, hp h, hs h, hver h]
  · rintro ⟨w, hmem, rfl, hhonest⟩
    refine ⟨w.value, fun h => ?_, w.address, fun h => ?_, w.psi, fun h => ?_, w.source,
      fun h => ?_, w.version, fun h => ?_, env.hash w.message, ⟨hmem, rfl⟩, _,
      ⟨decide (w.value = 0), rfl, rfl⟩, ?_⟩
    iterate 5 · rw [hhonest h]; rfl
    by_cases h0 : w.value = 0 <;> simp [NoteWitness.cells, NoteWitness.cm, h0]

section Collisions

variable {env : Env Fr}

/-- A commitment is zero only for padding. -/
lemma NoteWitness.cm_eq_zero_iff (hcf : env.CollisionFree) {w : NoteWitness}
    (hw : w.message ∈ env.hashed) : w.cm env.hash = 0 ↔ w.value = 0 := by
  rw [cm]
  split_ifs with h
  · simp [h]
  · simp [h, hcf.ne_zero _ hw]

/-- A non-zero commitment determines the note. -/
theorem NoteWitness.cm_inj (hcf : env.CollisionFree) {w w' : NoteWitness}
    (hw : w.message ∈ env.hashed) (hw' : w'.message ∈ env.hashed)
    (h : w.cm env.hash = w'.cm env.hash) (hne : w.cm env.hash ≠ 0) : w = w' := by
  have hv : w.value ≠ 0 := fun h0 => hne ((cm_eq_zero_iff hcf hw).2 h0)
  have hv' : w'.value ≠ 0 := fun h0 => hne (h ▸ (cm_eq_zero_iff hcf hw').2 h0)
  rw [cm, if_neg hv, cm, if_neg hv'] at h
  exact message_inj (hcf.hash_inj hw hw' h)

end Collisions

/-! ## The version of a note -/

/-- The constraints of a note once its version cell has a value. -/
def Note.enforceVersion (self : Note) (isZero version : Fr) : Circuit Fr NoteConstraintCells := do
  let zero ← assignAdviceFromConstant 0
  let value ← assignAdvice self.value.toBase
  let address ← assignAdvice self.address.toBase
  let psi ← assignAdvice self.psi.toBase
  let source ← assignAdvice self.source.toBase
  let cm ← hashGadget [value, address, psi, source, version, version]
  let isValueZero ← IsConstantChip.assign isZero value
  let swapped ← CondSwapChip.swapAssigned (cm, zero) isValueZero
  pure { value, address, cm := swapped.1, isPadding := isValueZero, source, psi }

/-- An assignment of a note is one of its version cell, whose value nothing constrains, and one of
the rest. -/
lemma Note.enforceConstraints_iff_version (self : Note) (isZero : Fr) (env : Env Fr)
    (c : NoteConstraintCells) :
    self.enforceConstraints isZero env c ↔
      ∃ version, assignAdvice 1 env version ∧ self.enforceVersion isZero version env c := by
  simp only [enforceConstraints, enforceVersion, bind_iff, assignAdviceFromConstant_iff,
    exists_eq_left]
  constructor
  · rintro ⟨value, hv, address, ha, psi, hp, source, hs, version, hver, hrest⟩
    exact ⟨version, hver, value, hv, address, ha, psi, hp, source, hs, hrest⟩
  · rintro ⟨version, hver, value, hv, address, ha, psi, hp, source, hs, hrest⟩
    exact ⟨value, hv, address, ha, psi, hp, source, hs, version, hver, hrest⟩

/-- The cells of an assignment with a given version. -/
lemma Note.exists_of_enforceVersion {self : Note} {version : Fr} {env : Env Fr}
    {c : NoteConstraintCells} (h : self.enforceVersion 0 version env c) :
    ∃ w : NoteWitness, w.version = version ∧ w.message ∈ env.hashed ∧ c = w.cells env.hash := by
  simp only [enforceVersion, bind_iff, assignAdviceFromConstant_iff, assignAdvice_iff,
    hashGadget_iff, IsConstantChip.assign_iff, CondSwapChip.swapAssigned_bit_iff, pure_iff,
    exists_eq_left] at h
  obtain ⟨value, -, address, -, psi, -, source, -, _, ⟨hmem, rfl⟩, rfl⟩ := h
  refine ⟨⟨value, address, psi, source, version⟩, rfl, hmem, ?_⟩
  by_cases h0 : value = 0 <;> simp [NoteWitness.cells, NoteWitness.cm, h0, NoteWitness.message]

/-- The note that the cells describe. -/
def NoteConstraintCells.note (c : NoteConstraintCells) : Note where
  address := Element.fromBase c.address
  psi := Element.fromBase c.psi
  value := Element.fromBase c.value
  source := Element.fromBase c.source

/-- The commitment cell is the native commitment of the note that the other cells describe, and
zero for padding only. -/
structure NoteConstraintCells.Opens (H : List Fr → Fr) (c : NoteConstraintCells) : Prop where
  cm_eq : c.cm = (c.note.commitment H).toBase
  zero_iff : c.cm = 0 ↔ c.isPadding = 1

/-- The native commitment hashes the version one. -/
lemma NoteWitness.toBase_commitment_note (H : List Fr → Fr) (w : NoteWitness) :
    ((w.cells H).note.commitment H).toBase = NoteWitness.cm H { w with version := 1 } := by
  rw [Note.toBase_commitment H (Element.isCanonical_fromBase _)]
  simp only [NoteWitness.ofNote, NoteConstraintCells.note, Element.toBase_fromBase, cells]

/-- **The version of a note**: without collisions, the commitment cell of a satisfying assignment is
the native commitment of the other cells exactly if the version is the native one, or the note is
padding, whose commitment is dropped.

**Proof sketch.** The cells are those of a witness with its own version. Without collisions equal
commitments are of equal messages, which have the version in them; padding has the commitment zero
in any version. -/
theorem Note.enforceVersion_opens_iff (self : Note) (version : Fr) (env : Env Fr)
    (c : NoteConstraintCells) (h : self.enforceVersion 0 version env c) (hcf : env.CollisionFree)
    (hnative : [c.value, c.address, c.psi, c.source, 1, 1] ∈ env.hashed) :
    c.Opens env.hash ↔ version = 1 ∨ c.value = 0 := by
  obtain ⟨w, rfl, hmem, rfl⟩ := exists_of_enforceVersion h
  have hzero : (w.cells env.hash).cm = 0 ↔ (w.cells env.hash).isPadding = 1 := by
    have hbit : ∀ b : Bool, bit b = 1 ↔ b = true := by decide
    simp only [NoteWitness.cells, NoteWitness.cm_eq_zero_iff hcf hmem, hbit, decide_eq_true_eq]
  have hnative' : NoteWitness.message { w with version := 1 } ∈ env.hashed := hnative
  constructor
  · rintro ⟨hcm, -⟩
    rw [NoteWitness.toBase_commitment_note] at hcm
    by_cases hv : w.value = 0
    · exact .inr hv
    · left
      have hne : w.cm env.hash ≠ 0 := fun h0 => hv ((NoteWitness.cm_eq_zero_iff hcf hmem).1 h0)
      have hw := NoteWitness.cm_inj hcf hmem hnative' hcm hne
      rw [hw]
  · intro hversion
    refine ⟨?_, hzero⟩
    rw [NoteWitness.toBase_commitment_note]
    rcases hversion with hone | hv
    · rw [← hone]
      rfl
    · have hv' : w.value = 0 := hv
      simp [NoteWitness.cells, NoteWitness.cm, hv']

/-- An adversary who may hash the note of the samples with the versions one and two. -/
def versionEnv : Env Fr where
  prover := .malicious
  instances := []
  hash := fun message => 1 + message.sum
  hashed := {[5, 3, 4, 6, 1, 1], [5, 3, 4, 6, 2, 2]}

/-- The messages of the two versions do not collide. -/
lemma collisionFree_versionEnv : versionEnv.CollisionFree := by
  constructor
  · rintro m (rfl | rfl) m' (rfl | rfl) h
    · rfl
    · exact absurd h (by decide)
    · exact absurd h (by decide)
    · rfl
  · rintro m (rfl | rfl)
    · decide
    · decide

/-- The cells of the sample note with a version. -/
def versionCells (version : Fr) : NoteConstraintCells :=
  NoteWitness.cells versionEnv.hash ⟨5, 3, 4, 6, version⟩

/-- The note of the sample is satisfied with any version that is hashed. -/
lemma enforceVersion_sample {version : Fr}
    (h : [5, 3, 4, 6, version, version] ∈ versionEnv.hashed) :
    Note.enforceVersion ⟨3, 4, 5, 6⟩ 0 version versionEnv (versionCells version) := by
  have hfree : versionEnv.prover ≠ .honest := by decide
  simp only [Note.enforceVersion, bind_iff, assignAdviceFromConstant_iff, assignAdvice_iff,
    hashGadget_iff, IsConstantChip.assign_iff, CondSwapChip.swapAssigned_bit_iff, pure_iff,
    exists_eq_left]
  refine ⟨5, fun e => absurd e hfree, 3, fun e => absurd e hfree, 4, fun e => absurd e hfree, 6,
    fun e => absurd e hfree, _, ⟨h, rfl⟩, ?_⟩
  rfl

/-- The native version opens the note. -/
theorem enforceVersion_opens_one : (versionCells 1).Opens versionEnv.hash :=
  (Note.enforceVersion_opens_iff ⟨3, 4, 5, 6⟩ 1 versionEnv (versionCells 1)
    (enforceVersion_sample (.inl rfl)) collisionFree_versionEnv (.inl rfl)).2 (.inl rfl)

/-- **One note, two commitments**: an adversary satisfies the constraints of a note with two
commitments for the same value, address, seed and source, of which only one is native. -/
theorem Note.enforceConstraints_two_versions :
    versionEnv.CollisionFree ∧
      ∃ c c' : NoteConstraintCells, Note.enforceConstraints ⟨3, 4, 5, 6⟩ 0 versionEnv c ∧
        Note.enforceConstraints ⟨3, 4, 5, 6⟩ 0 versionEnv c' ∧ c.note = c'.note ∧
        c.cm = (c.note.commitment versionEnv.hash).toBase ∧
        c'.cm ≠ (c'.note.commitment versionEnv.hash).toBase := by
  have hfree : versionEnv.prover ≠ .honest := by decide
  refine ⟨collisionFree_versionEnv, versionCells 1, versionCells 2,
    (enforceConstraints_iff_version _ _ _ _).2
      ⟨1, fun e => absurd e hfree, enforceVersion_sample (.inl rfl)⟩,
    (enforceConstraints_iff_version _ _ _ _).2
      ⟨2, fun e => absurd e hfree, enforceVersion_sample (.inr rfl)⟩, rfl, ?_, ?_⟩
  · rw [versionCells, NoteWitness.toBase_commitment_note]
    rfl
  · rw [versionCells, NoteWitness.toBase_commitment_note]
    decide

/-! ## The circuit of an input note -/

/-- `InputNote`. -/
structure InputNote (depth : ℕ) where
  note : Note
  /-- The key that the note's address commits to. -/
  secretKey : Element
  /-- The path of the note's commitment in the tree of the recent root. -/
  merklePath : MerklePath depth

/-- `InputNoteConstraintCells`. -/
structure InputNoteConstraintCells where
  commitment : NoteConstraintCells
  nullifier : Fr
  root : Fr
  secretKey : Fr
  zero : Fr

namespace InputNote

variable {depth : ℕ}

/-- `InputNote::padding_note`. -/
def paddingNote (H : List Fr → Fr) (hdepth : depth ≤ 257) : InputNote depth where
  note := Note.paddingNote H
  secretKey := 0
  merklePath := MerklePath.default H hdepth

/-- `InputNote::nullifer`. -/
def nullifer (H : List Fr → Fr) (self : InputNote depth) : Element :=
  self.note.nullifier H self.secretKey

/-- `InputNote::recent_root`. -/
def recentRoot (H : List Fr → Fr) (self : InputNote depth) : Element :=
  self.merklePath.computeRoot H (self.note.commitment H)

/-- `InputNote::enforce_constraints`. -/
def enforceConstraints (H : List Fr → Fr) (self : InputNote depth) (isZero : Fr) :
    Circuit Fr InputNoteConstraintCells := do
  let commitment ← self.note.enforceConstraints isZero
  let root ← self.merklePath.enforceInclusionConstraints (self.note.commitment H).toBase
    commitment.cm
  let secretKey ← assignAdvice self.secretKey.toBase
  let padding ← assignAdviceFromConstant 0
  let verifiedAddress ← hashGadget [secretKey, padding]
  constrainEqual verifiedAddress commitment.address
  let nullifier ← hashGadget [commitment.cm, secretKey, commitment.psi, padding]
  pure { commitment, nullifier, root, secretKey, zero := padding }

end InputNote

/-- The values that a satisfying assignment gives to the witnessed cells of an input note:
those of the note, the secret key and the path. -/
structure InputWitness extends NoteWitness where
  secretKey : Fr
  path : List (Fr × Bool)

namespace InputWitness

variable (env : Env Fr) (depth : ℕ) (w : InputWitness)

/-- The message behind the nullifier. -/
def nullifierMessage (H : List Fr → Fr) : List Fr := [w.cm H, w.secretKey, w.psi, 0]

/-- The public nullifier: zero for padding. -/
def nullifier (H : List Fr → Fr) : Fr :=
  if w.value = 0 then 0 else H (w.nullifierMessage H)

/-- The root that the path gives to the commitment. -/
def root : Fr := SparseMerkle.foldPath (hash2 env) (w.cm env.hash) w.path

/-- What the constraints of an input note ask of its witness: the address commits to the
secret key, and all its messages are hashed. -/
structure Valid : Prop where
  message_mem : w.message ∈ env.hashed
  length_path : w.path.length = depth - 1
  path_hashed : PathHashed env (w.cm env.hash) w.path
  address_mem : [w.secretKey, 0] ∈ env.hashed
  address_eq : w.address = env.hash [w.secretKey, 0]
  nullifier_mem : w.nullifierMessage env.hash ∈ env.hashed

/-- The witness of the prover's own code. -/
def ofInputNote {depth : ℕ} (H : List Fr → Fr) (n : InputNote depth) : InputWitness where
  toNoteWitness := NoteWitness.ofNote n.note
  secretKey := n.secretKey.toBase
  path := n.merklePath.entries (n.note.commitment H)

/-- The cells of a witness. -/
def cells : InputNoteConstraintCells where
  commitment := w.toNoteWitness.cells env.hash
  nullifier := env.hash (w.nullifierMessage env.hash)
  root := w.root env
  secretKey := w.secretKey
  zero := 0

variable {env depth w}

/-- The public nullifier is zero only for padding. -/
lemma nullifier_eq_zero_iff (hcf : env.CollisionFree) (hw : w.Valid env depth) :
    w.nullifier env.hash = 0 ↔ w.value = 0 := by
  rw [nullifier]
  split_ifs with h
  · simp [h]
  · simp [h, hcf.ne_zero _ hw.nullifier_mem]

/-- A commitment has one nullifier: it fixes the address, which fixes the key. -/
theorem nullifier_eq_of_cm_eq (hcf : env.CollisionFree) {w' : InputWitness}
    (hw : w.Valid env depth) (hw' : w'.Valid env depth)
    (h : w.cm env.hash = w'.cm env.hash) (hne : w.cm env.hash ≠ 0) :
    w.nullifier env.hash = w'.nullifier env.hash := by
  have hnote := NoteWitness.cm_inj hcf hw.message_mem hw'.message_mem h hne
  have haddr : env.hash [w.secretKey, 0] = env.hash [w'.secretKey, 0] := by
    rw [← hw.address_eq, ← hw'.address_eq, hnote]
  have hsk : w.secretKey = w'.secretKey := by
    simpa using hcf.hash_inj hw.address_mem hw'.address_mem haddr
  rw [nullifier, nullifier, nullifierMessage, nullifierMessage, h, hsk, hnote]

end InputWitness

/-- A path has an entry for every level. -/
lemma MerklePath.length_entries {depth : ℕ} (self : MerklePath depth) (hashPath : Element) :
    (self.entries hashPath).length = depth - 1 := by
  have hdepth := self.depth_le
  simp only [entries, List.length_zip, List.length_map, self.length_siblings,
    leastSignificantBits, List.length_reverse,
    Element.length_lsb _ (show depth - 1 ≤ 256 by omega), min_self]

/-- Where every message may be hashed, the prover's own code gives an input whose address commits to
its key a valid witness. -/
lemma InputWitness.valid_ofInputNote {depth : ℕ} (env : Env Fr) (hall : env.hashed = Set.univ)
    (n : InputNote depth) (haddress : n.note.address.toBase = env.hash [n.secretKey.toBase, 0]) :
    (ofInputNote env.hash n).Valid env depth where
  message_mem := by simp [hall]
  length_path := n.merklePath.length_entries _
  path_hashed := by simp [PathHashed, hall]
  address_mem := by simp [hall]
  address_eq := haddress
  nullifier_mem := by simp [hall]

/-- The address of a padding input commits to its key. -/
lemma InputWitness.valid_paddingNote {depth : ℕ} (env : Env Fr)
    (hall : env.hashed = Set.univ) (hdepth : depth ≤ 257) :
    (ofInputNote env.hash (InputNote.paddingNote env.hash hdepth)).Valid env depth := by
  apply valid_ofInputNote env hall
  simp [InputNote.paddingNote, Note.paddingNote]

/-- The sides of a path, as digits or as field elements. -/
lemma zip_map_bit (l : List Fr) (bs : List Bool) :
    l.zip (bs.map bit) = (l.zip bs).map (Prod.map id bit) := by
  rw [List.zip_map_right]

/-- A path is known by its cells. -/
lemma map_bit_injective : Function.Injective (List.map (Prod.map (id : Fr → Fr) bit)) :=
  List.map_injective_iff.2 (Function.injective_id.prodMap bit_injective)

/-- **The constraints of a path**: some path leads from the leaf to the root, and the prover's own
code takes the one of the leaf's value. -/
lemma MerklePath.enforceInclusionConstraints_iff {depth : ℕ} (self : MerklePath depth)
    (leafValue leafAssigned : Fr) (env : Env Fr) (root : Fr) :
    self.enforceInclusionConstraints leafValue leafAssigned env root ↔
      ∃ p : List (Fr × Bool), p.length = depth - 1 ∧ PathHashed env leafAssigned p ∧
        root = SparseMerkle.foldPath (hash2 env) leafAssigned p ∧
        (env.prover = .honest → p = self.entries (Element.fromBase leafValue)) := by
  have hpath : ∀ p : List (Fr × Bool),
      (self.entries (Element.fromBase leafValue)).map (Prod.map id bit) =
        p.map (Prod.map id bit) ↔ p = self.entries (Element.fromBase leafValue) :=
    fun p => map_bit_injective.eq_iff.trans eq_comm
  have hzip : (self.siblings.map Element.toBase).zip
      ((leastSignificantBits depth (Element.fromBase leafValue)).map bit) =
        (self.entries (Element.fromBase leafValue)).map (Prod.map id bit) := zip_map_bit _ _
  simp only [enforceInclusionConstraints, merkleRootValue_iff, hzip, hpath, List.length_map,
    length_entries]

/-- **The constraints of an input note**: satisfied exactly by the cells of a valid
witness. -/
theorem InputNote.enforceConstraints_iff {depth : ℕ} (self : InputNote depth) (env : Env Fr)
    (c : InputNoteConstraintCells) :
    self.enforceConstraints env.hash 0 env c ↔
      ∃ w : InputWitness, w.Valid env depth ∧ c = w.cells env ∧
        (env.prover = .honest → w = InputWitness.ofInputNote env.hash self) := by
  have hcanon : Element.fromBase ((self.note.commitment env.hash).toBase) =
      self.note.commitment env.hash := by
    refine Element.fromBase_toBase ?_
    rw [Note.commitment]
    split_ifs
    · decide
    · exact isCanonical_hashMerge _ _
  simp only [enforceConstraints, bind_iff, Note.enforceConstraints_iff,
    MerklePath.enforceInclusionConstraints_iff, assignAdvice_iff, assignAdviceFromConstant_iff,
    hashGadget_iff, constrainEqual_iff, pure_iff, exists_eq_left, exists_const, hcanon]
  constructor
  · rintro ⟨_, ⟨w, hmem, rfl, hw⟩, _, ⟨p, hplen, hp, rfl, hpath⟩, sk, hsk, _, ⟨hskmem, rfl⟩,
      haddr, _, ⟨hnmem, rfl⟩, rfl⟩
    refine ⟨⟨w, sk, p⟩, ⟨hmem, hplen, hp, hskmem, haddr.symm, hnmem⟩, rfl, fun h => ?_⟩
    rw [InputWitness.ofInputNote, hw h, hsk h, hpath h]
  · rintro ⟨w, hvalid, rfl, hw⟩
    exact ⟨_, ⟨w.toNoteWitness, hvalid.message_mem, rfl, fun h => by rw [hw h]; rfl⟩, _,
      ⟨w.path, hvalid.length_path, hvalid.path_hashed, rfl, fun h => by rw [hw h]; rfl⟩,
      w.secretKey, fun h => by rw [hw h]; rfl, _, ⟨hvalid.address_mem, rfl⟩,
      hvalid.address_eq.symm, _, ⟨hvalid.nullifier_mem, rfl⟩, rfl⟩

end TempoRollup.Circuits
