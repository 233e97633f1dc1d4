import TempoRollup.Circuits.MintBurn

set_option relaxedAutoImplicit false
set_option autoImplicit false

/-!
# The UTXO circuit

`zk-circuits/src/utxo/utxo.rs`: two input notes, two output notes, the kind of transaction,
and the public inputs — the recent root, the mint or burn hash and value, and the four
leaves.

## Main definitions

* `Utxo`, `UtxoKind`, `Utxo.enforceConstraints`, `Utxo.synthesize`.
* `UtxoWitness` — the values of a satisfying assignment, and the public inputs they
  determine.

## Main results

* `Utxo.synthesize_iff` — the constraints are satisfied exactly by the cells of a valid
  witness that exposes the instance column.
* `UtxoWitness.balance_nat` — the balance holds between the integers, not only in the field.
-/

open ConstraintSystem

namespace TempoRollup.Circuits

/-- `UtxoKind`. -/
inductive UtxoKind
  | null
  | transfer
  | mint
  | burn
  deriving DecidableEq, Repr

/-- `UtxoKind::as_element`. -/
def UtxoKind.asElement : UtxoKind → Fr
  | .null => 0
  | .transfer => 1
  | .mint => 2
  | .burn => 3

/-- `Utxo`: `UTXO_INPUTS` and `UTXO_OUTPUTS` are two. -/
structure Utxo (depth : ℕ) where
  inputs : InputNote depth × InputNote depth
  outputs : Note × Note
  root : Element
  kind : UtxoKind

/-- What the loop over the inputs collects for each of them. -/
structure UtxoInputCells where
  root : Fr
  hash : Fr
  commitment : NoteConstraintCells

/-- The cells of the circuit that its properties speak about. -/
structure UtxoCells where
  kind : Fr
  in1 : UtxoInputCells
  in2 : UtxoInputCells
  out1 : NoteConstraintCells
  out2 : NoteConstraintCells

namespace Utxo

variable {depth : ℕ}

/-- The body of the loop over the inputs. -/
def enforceInput (H : List Fr → Fr) (inputNote : InputNote depth) (paddingConstant : Fr)
    (unverifiedRoot zero : Fr) : Circuit Fr UtxoInputCells := do
  let cells ← inputNote.enforceConstraints H paddingConstant
  -- a padding note may take any root, and gets the padding nullifier
  let root ← CondSwapChip.swapAssigned (cells.root, unverifiedRoot) cells.commitment.isPadding
  let nullifier ← CondSwapChip.swapAssigned (cells.nullifier, zero) cells.commitment.isPadding
  pure { root := root.1, hash := nullifier.1, commitment := cells.commitment }

/-- The body of the loop over the outputs. -/
def enforceOutput (outputNote : Note) (paddingConstant : Fr) : Circuit Fr NoteConstraintCells := do
  let cells ← outputNote.enforceConstraints paddingConstant
  let decomposedBits ← BinaryDecomposition.copyDecompose 1 cells.value 256 256
  -- the value is below 2 ^ 240
  (decomposedBits.reverse.take (256 - 240)).forM fun bit => constrainConstant bit 0
  pure cells

/-- `Utxo::enforce_constraints`, with the constants that its chips are configured with. It
returns the cells that the source drops at its end, as what an assignment gives to them is
what the circuit is about. -/
def enforceConstraints (H : List Fr → Fr) (self : Utxo depth)
    (paddingConstant isMintConstant isBurnConstant : Fr) : Circuit Fr UtxoCells := do
  let unverifiedRoot ← assignAdvice self.root.toBase
  let zero ← assignAdviceFromConstant 0
  let utxoKind ← assignAdvice self.kind.asElement
  let isMint ← IsConstantChip.assign isMintConstant utxoKind
  let isBurn ← IsConstantChip.assign isBurnConstant utxoKind
  let in1 ← enforceInput H self.inputs.1 paddingConstant unverifiedRoot zero
  let in2 ← enforceInput H self.inputs.2 paddingConstant unverifiedRoot zero
  let out1 ← enforceOutput self.outputs.1 paddingConstant
  let out2 ← enforceOutput self.outputs.2 paddingConstant
  let totalIn ← AddCulmChip.assign [in1.commitment.value, in2.commitment.value]
  let totalOut ← AddCulmChip.assign [out1.value, out2.value]
  let mintHash ← CondSwapChip.swapAssigned (zero, out1.cm) isMint
  let mbHash ← CondSwapChip.swapAssigned (mintHash.1, in1.hash) isBurn
  let mintValue ← CondSwapChip.swapAssigned (zero, totalOut) isMint
  let value ← CondSwapChip.swapAssigned (mintValue.1, totalIn) isBurn
  let totalOut ← CondSwapChip.swapAssigned (totalOut, zero) isMint
  let totalIn ← CondSwapChip.swapAssigned (totalIn, zero) isBurn
  constrainEqual totalIn.1 totalOut.1
  constrainInstance in1.root 0
  constrainInstance in2.root 0
  constrainInstance mbHash.1 1
  constrainInstance value.1 2
  constrainInstance in1.hash 3
  constrainInstance in2.hash 4
  constrainInstance out1.cm 5
  constrainInstance out2.cm 6
  pure { kind := utxoKind, in1, in2, out1, out2 }

/-- The circuit as `utxo/circuit.rs` configures and synthesizes it. -/
def synthesize (H : List Fr → Fr) (self : Utxo depth) : Circuit Fr UtxoCells :=
  self.enforceConstraints H ((Note.paddingNote H).commitment H).toBase UtxoKind.mint.asElement
    UtxoKind.burn.asElement

end Utxo

/-! ## Range of the outputs -/

/-- The decomposition of a cell with its 16 top digits constrained to zero is satisfiable
exactly when the cell is below `2 ^ 240`. The digits cannot be those of the value plus a
multiple of the modulus, which is larger than that. -/
lemma exists_digits_iff_val_lt (x : Fr) (env : Env Fr) :
    (∃ bs, BinaryDecomposition.copyDecompose 1 x 256 256 env bs ∧
        ∀ b ∈ bs.reverse.take (256 - 240), b = 0) ↔ x.val < 2 ^ 240 := by
  have hM := Element.lt_MODULUS
  have htop : ∀ ds : List Bool, ds.length = 256 →
      ((∀ b ∈ (ds.map bit).reverse.take (256 - 240), b = 0) ↔ Bits.ofLE ds < 2 ^ 240) := by
    intro ds hlen
    have hbit : ∀ b : Bool, bit b = 0 ↔ b = false := by decide
    rw [Bits.ofLE_lt_two_pow_iff 240 ds (by omega), List.take_reverse, List.length_map, hlen,
      ← List.map_drop]
    simp only [List.mem_reverse, List.forall_mem_map, hbit]
  simp only [BinaryDecomposition.copyDecompose_iff]
  constructor
  · rintro ⟨_, ⟨ds, hlen, rfl, rfl, -⟩, hzero⟩
    have hlt := (htop ds hlen).1 hzero
    rwa [ZMod.val_natCast, Nat.mod_eq_of_lt (by omega)]
  · intro hlt
    have hlen : (BinaryDecomposition.toLeBits x).length = 256 := Bits.length_toLE _ _
    have hval : Bits.ofLE (BinaryDecomposition.toLeBits x) = x.val := by
      rw [BinaryDecomposition.toLeBits, Bits.ofLE_toLE]
      exact Nat.mod_eq_of_lt (by omega)
    refine ⟨_, ⟨BinaryDecomposition.toLeBits x, hlen, rfl, ?_, fun _ => rfl⟩, ?_⟩
    · rw [hval, ZMod.natCast_zmod_val]
    · rw [htop _ hlen, hval]
      exact hlt

/-! ## Witnesses -/

/-- The values that a satisfying assignment gives to the witnessed cells of the circuit. -/
structure UtxoWitness where
  /-- The root that padding inputs take. -/
  unverifiedRoot : Fr
  kind : Fr
  in1 : InputWitness
  in2 : InputWitness
  out1 : NoteWitness
  out2 : NoteWitness

namespace UtxoWitness

variable (env : Env Fr) (depth : ℕ) (H : List Fr → Fr) (w : UtxoWitness)

/-- The kind is that of a mint. -/
def isMint : Bool := decide (w.kind = UtxoKind.mint.asElement)

/-- The kind is that of a burn. -/
def isBurn : Bool := decide (w.kind = UtxoKind.burn.asElement)

/-- The root of an input: padding inputs take the unverified one. -/
def rootOf (i : InputWitness) : Fr := if i.value = 0 then w.unverifiedRoot else i.root env

/-- The public mint or burn hash. -/
def mbHash : Fr :=
  if w.isBurn then w.in1.nullifier H else if w.isMint then w.out1.cm H else 0

/-- The public mint or burn value. -/
def mbValue : Fr :=
  if w.isBurn then w.in1.value + w.in2.value
  else if w.isMint then w.out1.value + w.out2.value
  else 0

/-- The four public leaves: the nullifiers of the inputs, then the commitments of the
outputs. -/
def leaves : List Fr := [w.in1.nullifier H, w.in2.nullifier H, w.out1.cm H, w.out2.cm H]

/-- The cells of an input. -/
def inputCells (i : InputWitness) : UtxoInputCells where
  root := w.rootOf env i
  hash := i.nullifier env.hash
  commitment := i.toNoteWitness.cells env.hash

/-- The cells of a witness. -/
def cells : UtxoCells where
  kind := w.kind
  in1 := w.inputCells env w.in1
  in2 := w.inputCells env w.in2
  out1 := w.out1.cells env.hash
  out2 := w.out2.cells env.hash

/-- What the constraints ask of the witnessed cells, apart from the public inputs. -/
structure Valid : Prop where
  in1 : w.in1.Valid env depth
  in2 : w.in2.Valid env depth
  out1_mem : w.out1.message ∈ env.hashed
  out2_mem : w.out2.message ∈ env.hashed
  out1_lt : w.out1.value.val < 2 ^ 240
  out2_lt : w.out2.value.val < 2 ^ 240
  balance : (if w.isBurn then 0 else w.in1.value + w.in2.value) =
    if w.isMint then 0 else w.out1.value + w.out2.value

/-- The instance column is what the witness determines. -/
structure Exposes : Prop where
  root1 : w.rootOf env w.in1 = env.instances.getD 0 0
  root2 : w.rootOf env w.in2 = env.instances.getD 0 0
  mbHash : w.mbHash env.hash = env.instances.getD 1 0
  mbValue : w.mbValue = env.instances.getD 2 0
  in1 : w.in1.nullifier env.hash = env.instances.getD 3 0
  in2 : w.in2.nullifier env.hash = env.instances.getD 4 0
  out1 : w.out1.cm env.hash = env.instances.getD 5 0
  out2 : w.out2.cm env.hash = env.instances.getD 6 0

/-- The witness of the prover's own code. -/
def ofUtxo {depth : ℕ} (u : Utxo depth) : UtxoWitness where
  unverifiedRoot := u.root.toBase
  kind := u.kind.asElement
  in1 := InputWitness.ofInputNote H u.inputs.1
  in2 := InputWitness.ofInputNote H u.inputs.2
  out1 := NoteWitness.ofNote u.outputs.1
  out2 := NoteWitness.ofNote u.outputs.2

end UtxoWitness

namespace Utxo

variable {depth : ℕ}

/-- What the constraints of an input allow. -/
lemma enforceInput_iff (inputNote : InputNote depth)
    (unverifiedRoot : Fr) (env : Env Fr) (c : UtxoInputCells) :
    enforceInput env.hash inputNote 0 unverifiedRoot 0 env c ↔
      ∃ w : InputWitness, w.Valid env depth ∧
        c = { root := if w.value = 0 then unverifiedRoot else w.root env,
              hash := w.nullifier env.hash,
              commitment := w.toNoteWitness.cells env.hash } ∧
        (env.prover = .honest → w = InputWitness.ofInputNote env.hash inputNote) := by
  have hpad : ∀ w : InputWitness, (w.cells env).commitment.isPadding =
      bit (decide (w.value = 0)) := fun w => rfl
  simp only [enforceInput, bind_iff, InputNote.enforceConstraints_iff, pure_iff]
  constructor
  · rintro ⟨_, ⟨w, hw, rfl, hhonest⟩, root, hroot, nullifier, hnull, rfl⟩
    rw [hpad, CondSwapChip.swapAssigned_bit_iff] at hroot hnull
    refine ⟨w, hw, ?_, hhonest⟩
    rw [hroot, hnull]
    by_cases h : w.value = 0 <;> simp [h, InputWitness.cells, InputWitness.nullifier]
  · rintro ⟨w, hw, rfl, hhonest⟩
    refine ⟨_, ⟨w, hw, rfl, hhonest⟩, _, (CondSwapChip.swapAssigned_bit_iff _ _ _ _).2 rfl, _,
      (CondSwapChip.swapAssigned_bit_iff _ _ _ _).2 rfl, ?_⟩
    by_cases h : w.value = 0 <;> simp [h, InputWitness.cells, InputWitness.nullifier]

/-- What the constraints of an output allow. -/
lemma enforceOutput_iff (outputNote : Note) (env : Env Fr) (c : NoteConstraintCells) :
    enforceOutput outputNote 0 env c ↔
      ∃ w : NoteWitness, w.message ∈ env.hashed ∧ w.value.val < 2 ^ 240 ∧
        c = w.cells env.hash ∧ (env.prover = .honest → w = NoteWitness.ofNote outputNote) := by
  simp only [enforceOutput, bind_iff, Note.enforceConstraints_iff, forM_iff,
    constrainConstant_iff, pure_iff, exists_const]
  constructor
  · rintro ⟨_, ⟨w, hmem, rfl, hhonest⟩, bs, hbs, hzero, rfl⟩
    exact ⟨w, hmem, (exists_digits_iff_val_lt _ env).1 ⟨bs, hbs, hzero⟩, rfl, hhonest⟩
  · rintro ⟨w, hmem, hlt, rfl, hhonest⟩
    obtain ⟨bs, hbs, hzero⟩ := (exists_digits_iff_val_lt _ env).2 hlt
    exact ⟨_, ⟨w, hmem, rfl, hhonest⟩, bs, hbs, hzero, rfl⟩

/-- **The UTXO circuit**: satisfied exactly by the cells of a valid witness that exposes the
instance column; the prover's own code fills in its own values. -/
theorem synthesize_iff (self : Utxo depth) (env : Env Fr) (c : UtxoCells) :
    self.synthesize env.hash env c ↔
      ∃ w : UtxoWitness, w.Valid env depth ∧ w.Exposes env ∧ c = w.cells env ∧
        (env.prover = .honest → w = UtxoWitness.ofUtxo env.hash self) := by
  simp only [synthesize, Note.commitment_paddingNote, Element.toBase_zero, enforceConstraints,
    bind_iff, assignAdvice_iff, assignAdviceFromConstant_iff, IsConstantChip.assign_iff,
    enforceInput_iff, enforceOutput_iff, AddCulmChip.assign_cons_iff,
    CondSwapChip.swapAssigned_bit_iff, constrainEqual_iff, constrainInstance_iff, pure_iff,
    exists_eq_left, exists_const, apply_ite Prod.fst, List.sum_cons, List.sum_nil, add_zero]
  constructor
  · rintro ⟨root, hroot, kind, hkind, _, ⟨i1, hi1, rfl, hi1'⟩, _, ⟨i2, hi2, rfl, hi2'⟩, _,
      ⟨o1, ho1, ho1lt, rfl, ho1'⟩, _, ⟨o2, ho2, ho2lt, rfl, ho2'⟩, hbal, h0, h0', h1, h2, h3, h4,
      h5, h6, rfl⟩
    refine ⟨⟨root, kind, i1, i2, o1, o2⟩, ⟨hi1, hi2, ho1, ho2, ho1lt, ho2lt, hbal⟩,
      ⟨h0, h0', h1, h2, h3, h4, h5, h6⟩, rfl, fun h => ?_⟩
    rw [UtxoWitness.ofUtxo, hroot h, hkind h, hi1' h, hi2' h, ho1' h, ho2' h]
  · rintro ⟨w, hw, hx, rfl, hhonest⟩
    exact ⟨w.unverifiedRoot, fun h => by rw [hhonest h]; rfl, w.kind,
      fun h => by rw [hhonest h]; rfl, _, ⟨w.in1, hw.in1, rfl, fun h => by rw [hhonest h]; rfl⟩,
      _, ⟨w.in2, hw.in2, rfl, fun h => by rw [hhonest h]; rfl⟩, _,
      ⟨w.out1, hw.out1_mem, hw.out1_lt, rfl, fun h => by rw [hhonest h]; rfl⟩, _,
      ⟨w.out2, hw.out2_mem, hw.out2_lt, rfl, fun h => by rw [hhonest h]; rfl⟩, hw.balance,
      hx.root1, hx.root2, hx.mbHash, hx.mbValue, hx.in1, hx.in2, hx.out1, hx.out2, rfl⟩

/-- A mint of two notes with padding inputs; `Utxo::new_mint` makes one with the second note
padding. -/
def mintOf (H : List Fr → Fr) (hdepth : depth ≤ 257) (outputs : Note × Note) : Utxo depth where
  inputs := (InputNote.paddingNote H hdepth, InputNote.paddingNote H hdepth)
  outputs := outputs
  root := 0
  kind := .mint

/-- The public inputs of a mint of two notes. -/
def mintInstances (H : List Fr → Fr) (outputs : Note × Note) : List Fr :=
  [0, (NoteWitness.ofNote outputs.1).cm H, outputs.1.value.toBase + outputs.2.value.toBase, 0, 0,
    (NoteWitness.ofNote outputs.1).cm H, (NoteWitness.ofNote outputs.2).cm H]

/-- The prover's own code runs against the given instances and may hash anything. -/
def honestEnv (H : List Fr → Fr) (instances : List Fr) : Env Fr where
  prover := .honest
  instances := instances
  hash := H
  hashed := Set.univ

/-- The prover's own code satisfies the circuit for every mint of two notes in range,
whatever their commitments are. -/
lemma synthesize_mintOf (H : List Fr → Fr) (hdepth : depth ≤ 257) (outputs : Note × Note)
    (h1 : outputs.1.value.toBase.val < 2 ^ 240) (h2 : outputs.2.value.toBase.val < 2 ^ 240) :
    (mintOf H hdepth outputs).synthesize H (honestEnv H (mintInstances H outputs))
      ((UtxoWitness.ofUtxo H (mintOf H hdepth outputs)).cells
        (honestEnv H (mintInstances H outputs))) := by
  have hburn : (UtxoWitness.ofUtxo H (mintOf H hdepth outputs)).isBurn = false :=
    decide_eq_false (show ¬ UtxoKind.mint.asElement = UtxoKind.burn.asElement by decide)
  have hmint : (UtxoWitness.ofUtxo H (mintOf H hdepth outputs)).isMint = true :=
    decide_eq_true rfl
  have hv1 : (UtxoWitness.ofUtxo H (mintOf H hdepth outputs)).in1.value = 0 :=
    Element.toBase_zero
  have hv2 : (UtxoWitness.ofUtxo H (mintOf H hdepth outputs)).in2.value = 0 :=
    Element.toBase_zero
  have hroot : (UtxoWitness.ofUtxo H (mintOf H hdepth outputs)).unverifiedRoot = 0 :=
    Element.toBase_zero
  have hin := InputWitness.valid_paddingNote (honestEnv H (mintInstances H outputs)) rfl hdepth
  refine (synthesize_iff _ _ _).2 ⟨_, ⟨hin, hin, trivial, trivial, h1, h2, ?_⟩, ?_, rfl,
    fun _ => rfl⟩
  · rw [hburn, hmint, hv1, hv2]
    simp
  · refine ⟨?_, ?_, ?_, ?_, ?_, ?_, rfl, rfl⟩
    · simp [UtxoWitness.rootOf, hv1, hroot, honestEnv, mintInstances]
    · simp [UtxoWitness.rootOf, hv2, hroot, honestEnv, mintInstances]
    · rw [UtxoWitness.mbHash, hburn, hmint]
      rfl
    · rw [UtxoWitness.mbValue, hburn, hmint]
      rfl
    · rw [InputWitness.nullifier, if_pos hv1]
      rfl
    · rw [InputWitness.nullifier, if_pos hv2]
      rfl

end Utxo

/-! ## Conservation of value -/

namespace UtxoWitness

variable {env : Env Fr} {depth : ℕ} {w : UtxoWitness}

/-- A burn is no mint. -/
lemma not_isMint_of_isBurn (h : w.isBurn = true) : w.isMint = false := by
  simp only [isBurn, isMint, decide_eq_true_eq, decide_eq_false_iff_not] at h ⊢
  rw [h]
  decide

/-- Small values add up in the field as in the integers. -/
lemma val_add_of_lt {x y : Fr} (hx : x.val < 2 ^ 240) (hy : y.val < 2 ^ 240) :
    (x + y).val = x.val + y.val := by
  have hM := Element.lt_MODULUS
  exact ZMod.val_add_of_lt (by omega)

/-- **Conservation**: with inputs below `2 ^ 240` the balance holds between the integers.

**Proof sketch.** The totals of two values below `2 ^ 240` do not wrap around the field, so
the constraint between the totals is one between the integers; in a mint the constraint says
that the inputs are zero, in a burn that the outputs are. -/
theorem balance_nat (hw : w.Valid env depth) (h1 : w.in1.value.val < 2 ^ 240)
    (h2 : w.in2.value.val < 2 ^ 240) :
    w.in1.value.val + w.in2.value.val + (if w.isMint then w.mbValue.val else 0) =
      w.out1.value.val + w.out2.value.val + (if w.isBurn then w.mbValue.val else 0) := by
  have hin := val_add_of_lt h1 h2
  have hout := val_add_of_lt hw.out1_lt hw.out2_lt
  have hbal := congrArg ZMod.val hw.balance
  cases hburn : w.isBurn with
  | true =>
    have hmint := not_isMint_of_isBurn hburn
    simp only [hburn, hmint, mbValue, if_true, if_false, Bool.false_eq_true,
      ZMod.val_zero] at hbal ⊢
    omega
  | false =>
    cases hmint : w.isMint with
    | true =>
      simp only [hburn, hmint, mbValue, if_true, if_false, Bool.false_eq_true,
        ZMod.val_zero] at hbal ⊢
      omega
    | false =>
      simp only [hburn, hmint, if_false, Bool.false_eq_true] at hbal ⊢
      omega

end UtxoWitness

namespace Utxo

variable {depth : ℕ}

/-- The public mint or burn value of an assignment, as an integer. -/
def publicValue (env : Env Fr) : ℕ := (env.instances.getD 2 0).val

/-- **The UTXO circuit conserves value**: for every satisfying assignment whose input values
are below `2 ^ 240`, the balance holds between the integers, the output values are below
`2 ^ 240` again, and a transfer exposes no value.

**Proof sketch.** The constraints fix the balance in the field. All values are below `2 ^ 240`,
those of the outputs by their range checks, so that no side of it reaches the prime and it holds
between the integers (`balance_nat`). -/
theorem synthesize_conserves (self : Utxo depth) (env : Env Fr) (c : UtxoCells)
    (h : self.synthesize env.hash env c) (h1 : c.in1.commitment.value.val < 2 ^ 240)
    (h2 : c.in2.commitment.value.val < 2 ^ 240) :
    c.in1.commitment.value.val + c.in2.commitment.value.val +
          (if c.kind = UtxoKind.mint.asElement then publicValue env else 0) =
        c.out1.value.val + c.out2.value.val +
          (if c.kind = UtxoKind.burn.asElement then publicValue env else 0) ∧
      c.out1.value.val < 2 ^ 240 ∧ c.out2.value.val < 2 ^ 240 ∧
      (c.kind ≠ UtxoKind.mint.asElement → c.kind ≠ UtxoKind.burn.asElement →
        env.instances.getD 2 0 = 0) := by
  obtain ⟨w, hw, hx, rfl, -⟩ := (synthesize_iff self env c).1 h
  refine ⟨?_, hw.out1_lt, hw.out2_lt, fun hm hb => ?_⟩
  · have hbal := w.balance_nat hw h1 h2
    simp only [UtxoWitness.isMint, UtxoWitness.isBurn, decide_eq_true_eq] at hbal
    rw [publicValue, ← hx.mbValue]
    exact hbal
  · have hm' : w.isMint = false := decide_eq_false hm
    have hb' : w.isBurn = false := decide_eq_false hb
    rw [← hx.mbValue, UtxoWitness.mbValue, hm', hb']
    rfl

/-- A mint of notes of values 5 and 7. -/
theorem synthesize_conserves_mint :
    let H : List Fr → Fr := fun _ => 1
    let outputs : Note × Note := (⟨3, 4, 5, 6⟩, ⟨3, 4, 7, 6⟩)
    let env := honestEnv H (mintInstances H outputs)
    ∃ c : UtxoCells, (mintOf H (show 161 ≤ 257 by decide) outputs).synthesize H env c ∧
      publicValue env = 12 ∧
      c.in1.commitment.value.val + c.in2.commitment.value.val +
          (if c.kind = UtxoKind.mint.asElement then publicValue env else 0) =
        c.out1.value.val + c.out2.value.val +
          (if c.kind = UtxoKind.burn.asElement then publicValue env else 0) := by
  intro H outputs env
  have h := synthesize_mintOf H (show 161 ≤ 257 by decide) outputs (by decide)
    (by decide)
  exact ⟨_, h, by decide,
    (synthesize_conserves _ env _ h (by decide) (by decide)).1⟩

end Utxo

end TempoRollup.Circuits
