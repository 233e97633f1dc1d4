import TempoRollup.Circuits.Utxo

set_option relaxedAutoImplicit false
set_option autoImplicit false

/-!
# The points circuit

`zk-circuits/src/points`: an owner's notes, whose values add up to a public total. The public
inputs are the owner's address, the total, and the commitment and the nullifier of every note.

## Main definitions

* `Points`, `Points.publicInputs`, `Points.enforceConstraints`, `Points.synthesize`.
* `Points.Binds` — the public inputs are those of the notes and of a key.

## Main results

* `Points.synthesize_iff` — the satisfying assignments. The circuit reads the first two rows of the
  instance column only.
* `Points.synthesize_of_owned` — the prover's own code satisfies the circuit.
* `Points.binds_publicInputs` — the prover's own public inputs are those of the notes and the key.
* `Points.not_bound` — no assignment binds the commitments and the nullifiers among the public
  inputs.
-/

open ConstraintSystem

namespace TempoRollup.Circuits

/-- `Points`. -/
structure Points where
  secretKey : Element
  notes : List Note

namespace Points

/-- `NUM_NOTES`. -/
def NUM_NOTES : ℕ := 112

variable (H : List Fr → Fr)

/-- `Points::default`. -/
def default : Points := ⟨0, List.replicate NUM_NOTES (Note.paddingNote H)⟩

/-- `Points::address`. -/
def address (self : Points) : Fr := (hashMerge H [self.secretKey, 0]).toBase

/-- `Points::total_value`. -/
def totalValue (self : Points) : Element := (self.notes.map Note.value).foldl (· + ·) 0

/-- `Points::public_inputs`. -/
def publicInputs (self : Points) : List Fr :=
  [self.address H, self.totalValue.toBase] ++ self.notes.flatMap fun note =>
    [(note.commitment H).toBase, (note.nullifier H self.secretKey).toBase]

/-- The body of the loop over the notes. -/
def enforceNote (isZero unverifiedAddress : Fr) (note : Note) : Circuit Fr NoteConstraintCells := do
  let cells ← note.enforceConstraints isZero
  -- a padding note may have any address
  let address ← CondSwapChip.swapAssigned (cells.address, unverifiedAddress) cells.isPadding
  constrainInstance address.1 0
  pure cells

/-- `Points::enforce_constraints`, with the constant its padding chip is configured with. It returns
the cells of the notes, which the source drops at its end. -/
def enforceConstraints (self : Points) (isZero : Fr) : Circuit Fr (List NoteConstraintCells) := do
  let unverifiedAddress ← assignAdvice (self.address H)
  let cells ← self.notes.mapM (enforceNote isZero unverifiedAddress)
  let total ← AddCulmChip.assign (cells.map NoteConstraintCells.value)
  constrainInstance total 1
  pure cells

/-- The circuit as `points/circuit.rs` configures and synthesizes it. -/
def synthesize (self : Points) : Circuit Fr (List NoteConstraintCells) :=
  self.enforceConstraints H ((Note.paddingNote H).commitment H).toBase

variable {H} {env : Env Fr}

/-- What the constraints of a note allow. -/
lemma enforceNote_iff (unverifiedAddress : Fr) (note : Note) (env : Env Fr)
    (c : NoteConstraintCells) :
    enforceNote 0 unverifiedAddress note env c ↔
      ∃ w : NoteWitness, w.message ∈ env.hashed ∧ c = w.cells env.hash ∧
        (if w.value = 0 then unverifiedAddress else w.address) = env.instances.getD 0 0 ∧
        (env.prover = .honest → w = NoteWitness.ofNote note) := by
  have hpad : ∀ w : NoteWitness, (w.cells env.hash).isPadding = bit (decide (w.value = 0)) :=
    fun w => rfl
  simp only [enforceNote, bind_iff, Note.enforceConstraints_iff, constrainInstance_iff, pure_iff,
    exists_const]
  constructor
  · rintro ⟨_, ⟨w, hmem, rfl, hhonest⟩, address, haddress, hrow, rfl⟩
    rw [hpad, CondSwapChip.swapAssigned_bit_iff] at haddress
    refine ⟨w, hmem, rfl, ?_, hhonest⟩
    rw [← hrow, haddress]
    by_cases h0 : w.value = 0 <;> simp [h0, NoteWitness.cells]
  · rintro ⟨w, hmem, rfl, hrow, hhonest⟩
    refine ⟨_, ⟨w, hmem, rfl, hhonest⟩, _, (CondSwapChip.swapAssigned_bit_iff _ _ _ _).2 rfl, ?_,
      rfl⟩
    rw [← hrow]
    by_cases h0 : w.value = 0 <;> simp [h0, NoteWitness.cells]

/-- The sum chip needs a first cell. -/
lemma assign_iff (cells : List Fr) (env : Env Fr) (r : Fr) :
    AddCulmChip.assign cells env r ↔ cells ≠ [] ∧ r = cells.sum := by
  cases cells with
  | nil => simp [AddCulmChip.assign]
  | cons first cells => simp [AddCulmChip.assign_cons_iff]

/-- **The points circuit**: every real note has the public address, and the values of the notes add
up to the public total. -/
theorem synthesize_iff (self : Points) (env : Env Fr) (cells : List NoteConstraintCells) :
    self.synthesize env.hash env cells ↔
      ∃ unverifiedAddress, (env.prover = .honest → unverifiedAddress = self.address env.hash) ∧
        List.Forall₂ (fun note c => enforceNote 0 unverifiedAddress note env c) self.notes cells ∧
        cells ≠ [] ∧
        (cells.map NoteConstraintCells.value).sum = env.instances.getD 1 0 := by
  simp only [synthesize, enforceConstraints, Note.commitment_paddingNote, Element.toBase_zero,
    bind_iff, assignAdvice_iff, mapM_iff_forall₂, assign_iff, constrainInstance_iff, pure_iff,
    exists_const]
  constructor
  · rintro ⟨address, haddress, _, hnotes, _, ⟨hne, rfl⟩, htotal, rfl⟩
    exact ⟨address, haddress, hnotes, by simpa using hne, htotal⟩
  · rintro ⟨address, haddress, hnotes, hne, htotal⟩
    exact ⟨address, haddress, cells, hnotes, _, ⟨by simpa using hne, rfl⟩, htotal, rfl⟩

/-- The circuit reads the first two rows of the instance column only. -/
lemma synthesize_congr (self : Points) (instances : List Fr)
    (h0 : instances.getD 0 0 = env.instances.getD 0 0)
    (h1 : instances.getD 1 0 = env.instances.getD 1 0) (cells : List NoteConstraintCells) :
    self.synthesize env.hash { env with instances } cells ↔
      self.synthesize env.hash env cells := by
  have hleft := self.synthesize_iff { env with instances } cells
  have hright := self.synthesize_iff env cells
  simp only [enforceNote_iff, h0, h1] at hleft hright
  exact hleft.trans hright.symm

/-! ## What the public inputs are bound to -/

/-- The public inputs are those of the notes and of a secret key: the address derived from the key,
the total of the notes, and for every note its commitment and its nullifier under the key. -/
structure Binds (env : Env Fr) (cells : List NoteConstraintCells) (secretKey : Fr) : Prop where
  address : env.instances.getD 0 0 = env.hash [secretKey, 0]
  total : env.instances.getD 1 0 = (cells.map NoteConstraintCells.value).sum
  commitment : ∀ i c, cells[i]? = some c → env.instances.getD (2 * i + 2) 0 = c.cm
  nullifier : ∀ i c, cells[i]? = some c → env.instances.getD (2 * i + 3) 0 =
    if c.value = 0 then 0 else env.hash [c.cm, secretKey, c.psi, 0]

/-- **The circuit binds no commitment**: whatever the satisfying assignment is, the circuit accepts
its cells, with the same public address and total, also for public inputs that are not those of the
notes under any key.

**Proof sketch.** The constraints read the first row of the public inputs and the total, and no
commitment (`synthesize_congr`). So one may put another value in the row of the first commitment. -/
theorem not_bound (self : Points) (env : Env Fr) (cells : List NoteConstraintCells)
    (h : self.synthesize env.hash env cells) :
    ¬ ∀ instances : List Fr, instances.getD 0 0 = env.instances.getD 0 0 →
      instances.getD 1 0 = env.instances.getD 1 0 →
      self.synthesize env.hash { env with instances } cells →
      ∃ secretKey, Binds { env with instances } cells secretKey := by
  intro hbound
  obtain ⟨-, -, -, hne, -⟩ := (self.synthesize_iff env cells).1 h
  obtain ⟨first, rest, rfl⟩ := List.exists_cons_of_ne_nil hne
  -- another value in the row of the first commitment
  let other := [env.instances.getD 0 0, env.instances.getD 1 0, first.cm + 1]
  have hother := (self.synthesize_congr other rfl rfl _).2 h
  obtain ⟨secretKey, hbinds⟩ := hbound other rfl rfl hother
  have hrow : first.cm + 1 = first.cm := hbinds.commitment 0 first rfl
  simp at hrow

/-! ## The prover's own code -/

/-- The cells that the prover's own code gives to the notes. -/
def ownCells (H : List Fr → Fr) (self : Points) : List NoteConstraintCells :=
  self.notes.map fun note => (NoteWitness.ofNote note).cells H

/-- The prover's own code satisfies the circuit, if the real notes have the address of the key. -/
theorem synthesize_of_owned (self : Points) {instances : List Fr} (hne : self.notes ≠ [])
    (howned : ∀ note ∈ self.notes, note.value.toBase ≠ 0 → note.address.toBase = self.address H)
    (haddress : instances.getD 0 0 = self.address H)
    (htotal : instances.getD 1 0 = (self.notes.map fun note => note.value.toBase).sum) :
    self.synthesize H (Utxo.honestEnv H instances) (self.ownCells H) := by
  refine (self.synthesize_iff (Utxo.honestEnv H instances) _).2
    ⟨self.address H, fun _ => rfl, ?_, by simpa [ownCells] using hne, ?_⟩
  · refine List.forall₂_map_right_iff.2 (List.forall₂_same.2 fun note hnote => ?_)
    refine (enforceNote_iff _ _ _ _).2 ⟨NoteWitness.ofNote note, trivial, rfl, ?_, fun _ => rfl⟩
    refine Eq.trans ?_ haddress.symm
    split_ifs with h0
    · rfl
    · exact howned note hnote h0
  · refine Eq.trans ?_ htotal.symm
    rw [ownCells, List.map_map]
    rfl

/-- Two rows for each element of a list. -/
lemma getD_flatMap_pair {α : Type} (f g : α → Fr) (l : List α) {i : ℕ} {a : α}
    (h : l[i]? = some a) :
    (l.flatMap fun x => [f x, g x]).getD (2 * i) 0 = f a ∧
      (l.flatMap fun x => [f x, g x]).getD (2 * i + 1) 0 = g a := by
  induction l generalizing i with
  | nil => simp at h
  | cons x l ih =>
    rcases i with _ | i
    · obtain rfl : x = a := by simpa using h
      exact ⟨rfl, rfl⟩
    · exact ih (by simpa using h)

/-- The public inputs that the prover's own code hands over are those of its notes and its key, if
no real note commits to the padding commitment and the total does not wrap around. -/
theorem binds_publicInputs (self : Points)
    (hcanon : ∀ note ∈ self.notes, note.value.isCanonical = true)
    (hzero : ∀ note ∈ self.notes, H (NoteWitness.ofNote note).message ≠ 0)
    (htotal : self.totalValue.toBase = (self.notes.map fun note => note.value.toBase).sum) :
    Binds (Utxo.honestEnv H (self.publicInputs H)) (self.ownCells H) self.secretKey.toBase := by
  have hcell : ∀ (i : ℕ) (c : NoteConstraintCells), (self.ownCells H)[i]? = some c →
      ∃ note, self.notes[i]? = some note ∧ (NoteWitness.ofNote note).cells H = c := by
    intro i c hc
    simpa [ownCells] using hc
  constructor
  · change self.address H = H [self.secretKey.toBase, 0]
    rw [address, hashMerge, Element.toBase_fromBase]
    simp
  · rw [ownCells, List.map_map]
    exact htotal
  · intro i c hc
    obtain ⟨note, hnote, rfl⟩ := hcell i c hc
    have hrow := (getD_flatMap_pair (fun note : Note => (note.commitment H).toBase)
      (fun note => (note.nullifier H self.secretKey).toBase) self.notes hnote).1
    rw [Note.toBase_commitment H (hcanon note (List.mem_of_getElem? hnote))] at hrow
    exact hrow
  · intro i c hc
    obtain ⟨note, hnote, rfl⟩ := hcell i c hc
    have hmem := List.mem_of_getElem? hnote
    have hrow := (getD_flatMap_pair (fun note : Note => (note.commitment H).toBase)
      (fun note => (note.nullifier H self.secretKey).toBase) self.notes hnote).2
    rw [Note.toBase_nullifier H (hcanon note hmem) (hzero note hmem)] at hrow
    exact hrow

/-! ### Padding notes with a foreign commitment -/

/-- The default value satisfies the circuit with every column that starts with its address and
total. -/
lemma synthesize_default {instances : List Fr} (h0 : instances.getD 0 0 = 1)
    (h1 : instances.getD 1 0 = 0) :
    (default fun _ => 1).synthesize (fun _ => 1) (Utxo.honestEnv (fun _ => 1) instances)
      ((default fun _ => 1).ownCells fun _ => 1) := by
  have hzero : ∀ note ∈ (default fun _ => 1).notes, note.value.toBase = 0 := by
    intro note hnote
    rw [(List.mem_replicate.1 hnote).2]
    exact Element.toBase_zero
  refine synthesize_of_owned _ (by simp [default, NUM_NOTES]) ?_ ?_ ?_
  · intro note hnote hne
    exact absurd (hzero note hnote) hne
  · rw [h0, address, hashMerge, Element.toBase_fromBase]
  · rw [h1, List.sum_eq_zero]
    simpa using hzero

/-- The total of padding notes is zero. -/
lemma totalValue_default : (default H).totalValue = 0 := by
  have hsum : ∀ n, (List.replicate n (0 : Element)).foldl (· + ·) 0 = 0 := by
    intro n
    induction n with
    | zero => rfl
    | succ n ih => simpa [List.replicate_succ] using ih
  rw [totalValue, default, List.map_replicate]
  exact hsum NUM_NOTES

/-- The circuit does not bind the notes of the default value. -/
theorem not_bound_default :
    ¬ ∀ instances : List Fr, instances.getD 0 0 = 1 → instances.getD 1 0 = 0 →
      (default fun _ => 1).synthesize (fun _ => 1)
        { Utxo.honestEnv (fun _ => 1) [1, 0] with instances }
        ((default fun _ => 1).ownCells fun _ => 1) →
      ∃ secretKey, Binds { Utxo.honestEnv (fun _ => 1) [1, 0] with instances }
        ((default fun _ => 1).ownCells fun _ => 1) secretKey :=
  not_bound (default fun _ => 1) (Utxo.honestEnv (fun _ => 1) [1, 0])
    ((default fun _ => 1).ownCells fun _ => 1) (synthesize_default rfl rfl)

/-- **A foreign commitment**: the cells of 112 padding notes satisfy the circuit with 7 for the
public commitment of the first of them. -/
theorem synthesize_foreign_commitment :
    let instances := ((default fun _ => 1).publicInputs fun _ => 1).set 2 7
    (default fun _ => 1).synthesize (fun _ => 1) (Utxo.honestEnv (fun _ => 1) instances)
        ((default fun _ => 1).ownCells fun _ => 1) ∧
      ¬ ∃ secretKey, Binds (Utxo.honestEnv (fun _ => 1) instances)
        ((default fun _ => 1).ownCells fun _ => 1) secretKey := by
  intro instances
  have htotal : instances.getD 1 0 = 0 := by
    change (default fun _ => 1).totalValue.toBase = 0
    rw [totalValue_default, Element.toBase_zero]
  refine ⟨synthesize_default rfl htotal, ?_⟩
  rintro ⟨secretKey, hbinds⟩
  have hrow := hbinds.commitment 0 ((NoteWitness.ofNote (Note.paddingNote fun _ => 1)).cells
    fun _ => 1) rfl
  have hcm : NoteWitness.cm (fun _ => 1) (NoteWitness.ofNote (Note.paddingNote fun _ => 1)) = 0 :=
    if_pos Element.toBase_zero
  have hseven : instances.getD 2 0 = 7 := rfl
  simp only [NoteWitness.cells, hcm] at hrow
  exact absurd (hseven.symm.trans hrow) (by decide)

end Points

end TempoRollup.Circuits
