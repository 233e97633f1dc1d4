import TempoRollup.Circuits.Insert

set_option relaxedAutoImplicit false
set_option autoImplicit false

/-!
# The compliance circuit

`zk-circuits/src/compliance`: a note with a public commitment, and a path that shall show that the
source of the note is not in a sparse Merkle tree with a public root.

## Main definitions

* `Compliance`, `Compliance.enforceConstraints`, `Compliance.synthesize`.

## Main results

* `Compliance.synthesize_iff` — the satisfying assignments. The sides of the path and the source of
  the note are separate witnesses.
* `Compliance.exists_empty` — an assignment shows that the tree has an empty slot.
* `Compliance.excludes_iff` — when no assignment shows that a source is not in a tree.

## Design

The recent root of the source's type, which no function reads, is left out.
-/

open ConstraintSystem

namespace TempoRollup.Circuits

/-- `Compliance`. -/
structure Compliance (depth : ℕ) where
  note : Note
  merklePath : MerklePath depth

namespace Compliance

variable {depth : ℕ}

/-- `Compliance::enforce_constraints`, with the constant its padding chip is configured with. It
returns the cells of the note, which the source drops at its end. -/
def enforceConstraints (self : Compliance depth) (isZero : Fr) :
    Circuit Fr NoteConstraintCells := do
  let cells ← self.note.enforceConstraints isZero
  let nullLeaf ← assignAdviceFromConstant 0
  -- the sides come from the value of the source, not from its cell
  let root ← self.merklePath.enforceInclusionConstraints self.note.source.toBase nullLeaf
  constrainInstance root 0
  constrainInstance cells.cm 1
  pure cells

/-- The circuit as `compliance/circuit.rs` configures and synthesizes it. -/
def synthesize (self : Compliance depth) : Circuit Fr NoteConstraintCells :=
  self.enforceConstraints 0

variable {self : Compliance depth} {env : Env Fr}

/-- **The compliance circuit**: a note with the public commitment, and a path that leads from the
null leaf to the public root. For an adversary the two have nothing in common. -/
theorem synthesize_iff (self : Compliance depth) (env : Env Fr) (cells : NoteConstraintCells) :
    self.synthesize env cells ↔
      ∃ (w : NoteWitness) (p : List (Fr × Bool)), w.message ∈ env.hashed ∧ p.length = depth - 1 ∧
        PathHashed env 0 p ∧ SparseMerkle.foldPath (hash2 env) 0 p = env.instances.getD 0 0 ∧
        w.cm env.hash = env.instances.getD 1 0 ∧ cells = w.cells env.hash ∧
        (env.prover = .honest → w = NoteWitness.ofNote self.note ∧
          p = self.merklePath.entries (Element.fromBase self.note.source.toBase)) := by
  simp only [synthesize, enforceConstraints, bind_iff, Note.enforceConstraints_iff,
    MerklePath.enforceInclusionConstraints_iff, assignAdviceFromConstant_iff,
    constrainInstance_iff, pure_iff, exists_eq_left, exists_const]
  constructor
  · rintro ⟨_, ⟨w, hmem, rfl, hw⟩, _, ⟨p, hplen, hp, rfl, hpath⟩, hroot, hcm, rfl⟩
    exact ⟨w, p, hmem, hplen, hp, hroot, hcm, rfl, fun h => ⟨hw h, hpath h⟩⟩
  · rintro ⟨w, p, hmem, hplen, hp, hroot, hcm, rfl, hhonest⟩
    exact ⟨_, ⟨w, hmem, rfl, fun h => (hhonest h).1⟩, _,
      ⟨p, hplen, hp, rfl, fun h => (hhonest h).2⟩, hroot, hcm, rfl⟩

variable {T : ℕ → Fr} {cells : NoteConstraintCells}

/-- **What an assignment shows**: without collisions, that the tree with the public root has an
empty slot, the one that the sides of the path spell. -/
theorem exists_empty (hinj : Set.InjOn env.hash env.hashed) (hT : TreeHashed env depth T)
    (h : self.synthesize env cells) (hroot : env.instances.getD 0 0 = treeRoot env depth T) :
    ∃ slot < 2 ^ (depth - 1), T slot = 0 := by
  obtain ⟨w, p, -, hlen, hp, hfold, -⟩ := (self.synthesize_iff env cells).1 h
  obtain ⟨hempty, -⟩ := eq_of_foldPath_eq_treeRoot hinj hT hlen hp (hfold.trans hroot)
  refine ⟨_, ?_, hempty.symm⟩
  have hlt := Bits.ofLE_lt (p.map Prod.snd)
  rwa [List.length_map, hlen] at hlt

/-- Any empty slot of a tree lets an adversary satisfy the circuit with the tree's root and any
note. -/
lemma synthesize_of_empty (hfree : env.prover ≠ .honest) (hT : TreeHashed env depth T)
    {slot : ℕ} (hslot : slot < 2 ^ (depth - 1)) (hempty : T slot = 0) {w : NoteWitness}
    (hw : w.message ∈ env.hashed) :
    self.synthesize { env with instances := [treeRoot env depth T, w.cm env.hash] }
      (w.cells env.hash) := by
  refine (self.synthesize_iff _ _).2 ⟨w, SparseMerkle.path (hash2 env) T 0 slot (depth - 1), hw,
    SparseMerkle.length_path _ _ _ _ _, ?_, ?_, rfl, rfl, fun h => absurd h hfree⟩
  · intro q hq
    refine hT ?_
    have hpairs :=
      SparseMerkle.mem_nodePairs_of_mem_pathPairs (hash2 env) T (depth - 1) 0 slot hslot
    rw [Nat.zero_add, SparseMerkle.node, hempty] at hpairs
    exact hpairs q hq
  · have hfold := SparseMerkle.foldPath_path (hash2 env) T (depth - 1) slot hslot
    rw [hempty] at hfold
    exact hfold

/-- **Non-membership**: without collisions, the assignments of an adversary for a tree and the
source of a note all have an empty slot for the source exactly if the source is not in the tree, or
the tree has no empty slot at all.

**Proof sketch.** An adversary may walk to any empty slot, whatever the source is
(`synthesize_of_empty`); so if there is one, the claim about the source must hold by itself. In a
full tree no assignment satisfies the circuit. -/
theorem excludes_iff (self : Compliance depth) (env : Env Fr) (T : ℕ → Fr) (source : Fr)
    (hfree : env.prover ≠ .honest) (hinj : Set.InjOn env.hash env.hashed)
    (hT : TreeHashed env depth T)
    (hnote : ∃ w : NoteWitness, w.source = source ∧ w.message ∈ env.hashed) :
    (∀ (instances : List Fr) (cells : NoteConstraintCells),
        self.synthesize { env with instances } cells →
        instances.getD 0 0 = treeRoot env depth T → cells.source = source →
        T (slotOf depth source) = 0) ↔
      T (slotOf depth source) = 0 ∨ ∀ slot < 2 ^ (depth - 1), T slot ≠ 0 := by
  constructor
  · intro hexcludes
    by_cases hfull : ∀ slot < 2 ^ (depth - 1), T slot ≠ 0
    · exact .inr hfull
    · left
      push Not at hfull
      obtain ⟨slot, hslot, hempty⟩ := hfull
      obtain ⟨w, rfl, hw⟩ := hnote
      exact hexcludes _ _ (synthesize_of_empty hfree hT hslot hempty hw) rfl rfl
  · rintro (hempty | hfull) instances cells h hroot -
    · exact hempty
    · obtain ⟨slot, hslot, hempty⟩ :=
        @exists_empty depth self { env with instances } T cells hinj hT h hroot
      exact absurd hempty (hfull slot hslot)

/-! ### A source in a tree with two slots -/

/-- The tree with 7 in its second slot. -/
def sampleTree : ℕ → Fr := fun slot => if slot = 1 then 7 else 0

/-- An adversary who may hash the tree and a note with the source 7. -/
def sampleEnv : Env Fr where
  prover := .malicious
  instances := []
  hash := fun message => 1 + message.sum
  hashed := {[0, 7], [5, 3, 4, 7, 1, 1]}

/-- The note of the prover, with the source 7 and any path. -/
def sampleCompliance : Compliance 2 where
  note := ⟨3, 4, 5, 7⟩
  merklePath := Batch.samplePath

/-- The messages of the sample do not collide. -/
lemma injOn_sampleEnv : Set.InjOn sampleEnv.hash sampleEnv.hashed := by
  rintro m (rfl | rfl) m' (rfl | rfl) h
  · rfl
  · exact absurd h (by decide)
  · exact absurd h (by decide)
  · rfl

/-- The sample tree is hashed. -/
lemma treeHashed_sampleTree : TreeHashed sampleEnv 2 sampleTree := by
  rintro q ⟨k, i, hk, hi, rfl⟩
  obtain rfl : k = 0 := by omega
  obtain rfl : i = 0 := by simpa using hi
  exact .inl (by decide)

/-- The source 7 is in the tree, whose other slot is empty: some assignment claims that it is
not. -/
theorem not_excludes_sample :
    ¬ ∀ (instances : List Fr) (cells : NoteConstraintCells),
      sampleCompliance.synthesize { sampleEnv with instances } cells →
      instances.getD 0 0 = treeRoot sampleEnv 2 sampleTree → cells.source = 7 →
      sampleTree (slotOf 2 7) = 0 := by
  intro hexcludes
  have hiff := excludes_iff sampleCompliance sampleEnv sampleTree 7 (by decide) injOn_sampleEnv
    treeHashed_sampleTree ⟨⟨5, 3, 4, 7, 1⟩, rfl, .inr rfl⟩
  rcases hiff.1 hexcludes with hempty | hfull
  · exact absurd hempty (by decide)
  · exact absurd (hfull 0 (by decide)) (by decide)

/-- **A false proof of non-membership**: the note of source 7 and the path of the empty slot satisfy
the circuit for the tree that has 7 in its slot. -/
theorem synthesize_listed_source :
    Set.InjOn sampleEnv.hash sampleEnv.hashed ∧
      ∃ (instances : List Fr) (cells : NoteConstraintCells),
      sampleCompliance.synthesize { sampleEnv with instances } cells ∧
        instances.getD 0 0 = treeRoot sampleEnv 2 sampleTree ∧ cells.source = 7 ∧
        sampleTree (slotOf 2 cells.source) = 7 := by
  have hnote : NoteWitness.message ⟨5, 3, 4, 7, 1⟩ ∈ sampleEnv.hashed := .inr rfl
  exact ⟨injOn_sampleEnv, _, _, synthesize_of_empty (by decide) treeHashed_sampleTree
    (show 0 < 2 ^ (2 - 1) by decide) rfl hnote, rfl, rfl, by decide⟩

end Compliance

end TempoRollup.Circuits
