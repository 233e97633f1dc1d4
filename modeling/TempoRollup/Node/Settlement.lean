import TempoRollup.Circuits.Run
import TempoRollup.Node.Transaction

set_option relaxedAutoImplicit false
set_option autoImplicit false

/-!
# From validation to settlement

What the node accepts as a mint or burn, and what the contract does with it when the block is
rolled up. The node compares leaves with keys of the contract, the contract compares amounts;
that the two agree is up to the UTXO circuit and to the circuits behind the registration.

## Main definitions

* `SatisfiedBy` — public inputs of a satisfying assignment of the UTXO circuit.
* `UtxoProof.Backed` — the condition under which the check of the node covers the transaction.

## Main results

* `validateTransaction_registered_iff` — exactly when every accepted transaction that moves
  value is registered in the contract.
* `validateTransaction_settles` — an accepted mint or burn never reverts on its amount.
-/

open Exec ConstraintSystem

namespace TempoRollup.Node

/-- The public inputs are those of a satisfying assignment of the UTXO circuit, by any prover. -/
def SatisfiedBy (depth : ℕ) (H : List Fr → Fr) (hashed : Set (List Fr)) (instances : List Fr) :
    Prop :=
  ∃ (env : Env Fr) (circuit : Circuits.Utxo depth) (cells : Circuits.UtxoCells),
    env.hash = H ∧ env.hashed = hashed ∧ env.instances = instances ∧
      circuit.synthesize H env cells

/-- The transaction moves no value, or it names a mint or burn, and then a transaction with the
leaves of a burn names its input. -/
def UtxoProof.Backed (utxo : UtxoProof) : Prop :=
  utxo.mbValue.toBase = 0 ∨
    (utxo.mbHash ≠ 0 ∧
      (utxo.burnLeaves → utxo.mbHash.toBase = utxo.inputLeaves.1.toBase))

/-- The public inputs of a transaction are what a witness of the circuit exposes. -/
structure Exposes (H : List Fr → Fr) (w : Circuits.UtxoWitness) (utxo : UtxoProof) : Prop where
  mbHash : w.mbHash H = utxo.mbHash.toBase
  mbValue : w.mbValue = utxo.mbValue.toBase
  in1 : w.in1.nullifier H = utxo.inputLeaves.1.toBase
  in2 : w.in2.nullifier H = utxo.inputLeaves.2.toBase
  out1 : w.out1.cm H = utxo.outputLeaves.1.toBase
  out2 : w.out2.cm H = utxo.outputLeaves.2.toBase

section Witness

variable {depth : ℕ} {H : List Fr → Fr} {hashed : Set (List Fr)} {utxo : UtxoProof}

/-- A satisfying assignment has a witness. -/
lemma SatisfiedBy.exists_witness
    (h : SatisfiedBy depth H hashed (utxo.instances.map Element.toBase)) :
    ∃ (env : Env Fr) (w : Circuits.UtxoWitness), env.hash = H ∧ env.hashed = hashed ∧
      w.Valid env depth ∧ Exposes H w utxo := by
  obtain ⟨env, circuit, cells, rfl, rfl, hinst, hsat⟩ := h
  obtain ⟨w, hw, hx, -, -⟩ := (Circuits.Utxo.synthesize_iff circuit env cells).1 hsat
  refine ⟨env, w, rfl, rfl, hw, ?_, ?_, ?_, ?_, ?_, ?_⟩
  · rw [hx.mbHash, hinst]
    rfl
  · rw [hx.mbValue, hinst]
    rfl
  · rw [hx.in1, hinst]
    rfl
  · rw [hx.in2, hinst]
    rfl
  · rw [hx.out1, hinst]
    rfl
  · rw [hx.out2, hinst]
    rfl

variable {env : Env Fr} {w : Circuits.UtxoWitness}

/-- A transaction that moves value is a mint or a burn. -/
lemma isMint_or_isBurn (hvalue : w.mbValue ≠ 0) : w.isMint = true ∨ w.isBurn = true := by
  cases hburn : w.isBurn with
  | true => exact .inr rfl
  | false =>
    cases hmint : w.isMint with
    | true => exact .inl rfl
    | false => exact absurd (by simp [Circuits.UtxoWitness.mbValue, hburn, hmint]) hvalue

/-- A mint names its first output. -/
lemma mbHash_of_isMint (h : w.isMint = true) : w.mbHash H = w.out1.cm H := by
  have hburn : w.isBurn = false := by
    by_contra hb
    rw [Circuits.UtxoWitness.not_isMint_of_isBurn (by simpa using hb)] at h
    cases h
  simp [Circuits.UtxoWitness.mbHash, hburn, h]

/-- A burn names its first input. -/
lemma mbHash_of_isBurn (h : w.isBurn = true) : w.mbHash H = w.in1.nullifier H := by
  simp [Circuits.UtxoWitness.mbHash, h]

/-- The value of a mint is that of its outputs. -/
lemma mbValue_of_isMint (h : w.isMint = true) : w.mbValue = w.out1.value + w.out2.value := by
  have hburn : w.isBurn = false := by
    by_contra hb
    rw [Circuits.UtxoWitness.not_isMint_of_isBurn (by simpa using hb)] at h
    cases h
  simp [Circuits.UtxoWitness.mbValue, hburn, h]

/-- The value of a burn is that of its inputs. -/
lemma mbValue_of_isBurn (h : w.isBurn = true) : w.mbValue = w.in1.value + w.in2.value := by
  simp [Circuits.UtxoWitness.mbValue, h]

/-- A burn has no outputs: their values are in range and add up to zero. -/
lemma out_value_of_isBurn (hw : w.Valid env depth) (h : w.isBurn = true) :
    w.out1.value = 0 ∧ w.out2.value = 0 := by
  have hbal := hw.balance
  rw [h, Circuits.UtxoWitness.not_isMint_of_isBurn h] at hbal
  have hsum := Circuits.UtxoWitness.val_add_of_lt hw.out1_lt hw.out2_lt
  simp only [if_true, Bool.false_eq_true, if_false] at hbal
  rw [← hbal, ZMod.val_zero] at hsum
  exact ⟨(ZMod.val_eq_zero _).1 (by omega), (ZMod.val_eq_zero _).1 (by omega)⟩

/-- The key that the node looks up for the leaves of a mint is the public hash. -/
lemma mbHash_eq_of_mintLeaves (hw : w.Valid env depth) (hx : Exposes H w utxo)
    (hvalue : utxo.mbValue.toBase ≠ 0) (hleaves : utxo.mintLeaves) :
    utxo.mbHash.toBase = utxo.outputLeaves.1.toBase := by
  rw [← hx.mbValue] at hvalue
  rw [← hx.mbHash]
  rcases isMint_or_isBurn hvalue with hmint | hburn
  · rw [mbHash_of_isMint hmint, hx.out1]
  · -- a burn of padding: both are zero
    have hin : utxo.inputLeaves.1 = 0 := congrArg Prod.fst hleaves.1
    rw [mbHash_of_isBurn hburn, hx.in1, hin, ← hx.out1, Circuits.NoteWitness.cm,
      if_pos (out_value_of_isBurn hw hburn).1, Element.toBase_zero]

end Witness

/-! ## What is registered -/

section Registered

variable {P : Primitives} {depth : ℕ} {hashed : Set (List Fr)} {utxo : UtxoProof}

/-- A canonical element with the same field element is the canonical form. -/
lemma canonicalize_eq_of_toBase_eq {e f : Element} (hf : f.toNat < Element.MODULUS)
    (h : e.toBase = f.toBase) : e.canonicalize = f := by
  rw [Element.canonicalize_eq, h, Element.fromBase_toBase ((Element.isCanonical_iff f).2 hf)]

/-- The canonical form of an element is zero when it is zero in the field. -/
lemma canonicalize_eq_zero_iff (e : Element) : e.canonicalize = 0 ↔ e.toBase = 0 := by
  rw [Element.canonicalize_eq, ← Element.fromBase_zero, Element.fromBase_injective.eq_iff]

/-- An element that is not zero in the field is not zero. -/
lemma ne_zero_of_toBase_ne_zero {e : Element} (h : e.toBase ≠ 0) : e ≠ 0 := by
  rintro rfl
  exact h Element.toBase_zero

/-- An accepted transaction that moves value and is backed is registered under its hash. -/
lemma isRegistered_of_backed
    (hsat : SatisfiedBy depth P.poseidon hashed (utxo.instances.map Element.toBase))
    (hbacked : utxo.Backed) (hvalue : utxo.mbValue.toBase ≠ 0) {self : NodeShared}
    {storeReads : Bool} {eth : EthView} {ethBlock : ℕ} {rollup : Contract.Rollup}
    (hblock : eth.blockNumber = some ethBlock)
    (hrollup : eth.rollupAt (ethBlock - self.config.safeEthHeightOffset) = some rollup)
    (hok : self.validateTransaction P storeReads eth utxo = .ok ()) :
    rollup.isRegistered utxo.mbHash.canonicalize := by
  obtain ⟨env, w, -, -, hw, hx⟩ := hsat.exists_witness
  obtain ⟨hcontract, haccept, -⟩ := validateTransaction_eq_ok_iff.1 hok
  obtain ⟨hhash, hburn⟩ := hbacked.resolve_left hvalue
  obtain ⟨ethBlock', rollup', hblock', hrollup', hleaves⟩ :=
    checkContract_eq_ok (hcontract hhash (ne_zero_of_toBase_ne_zero hvalue))
  obtain rfl : ethBlock = ethBlock' := Option.some.inj (hblock.symm.trans hblock')
  obtain rfl : rollup = rollup' := Option.some.inj (hrollup.symm.trans hrollup')
  rcases hleaves with ⟨hleaves, hmint⟩ | ⟨hleaves, hhas⟩
  · have hcanon := haccept.canonical utxo.outputLeaves.1 (by simp [UtxoProof.leaves])
    rw [canonicalize_eq_of_toBase_eq hcanon (mbHash_eq_of_mintLeaves hw hx hvalue hleaves)]
    exact .inl hmint
  · have hcanon := haccept.canonical utxo.inputLeaves.1 (by simp [UtxoProof.leaves])
    rw [canonicalize_eq_of_toBase_eq hcanon (hburn hleaves)]
    exact .inr hhas

/-! ### A node that accepts -/

/-- A node in prover mode, which accepts any recent root, with an empty tree. -/
def acceptingNode (P : Primitives) : NodeShared :=
  .new P { mode := .prover, badBlocks := [], blockTxnsCount := 1, safeEthHeightOffset := 0 } 0 []
    .empty .new .genesis

/-- An Ethereum node that knows one state of the contract. -/
def EthView.constant (rollup : Contract.Rollup) : EthView := ⟨some 0, fun _ => some rollup⟩

/-- The accepting node accepts every verified transaction with canonical leaves that passes the
checks against the contract. -/
lemma acceptingNode_accepts {rollup : Contract.Rollup}
    (hproof : P.verifyProof utxo.proof (utxo.instances.map Element.toBase) = some true)
    (hcanon : ∀ leaf ∈ utxo.leaves, leaf.toNat < Element.MODULUS)
    (hcontract : utxo.mbHash ≠ 0 → utxo.mbValue ≠ 0 →
      checkContract (.constant rollup) 0 utxo = .ok ()) :
    (acceptingNode P).validateTransaction P true (.constant rollup) utxo = .ok () := by
  refine validateTransaction_eq_ok_iff.2 ⟨hcontract, ⟨hproof, hcanon, fun leaf _ _ => ?_⟩, ?_⟩
  · simp [acceptingNode, NodeShared.new, Smirk.Persistent.new, Smirk.Tree.new,
      Smirk.Tree.containsElement]
  · unfold checkRecentRoot
    split_ifs with hzero hreads hroot
    · rfl
    · simp at hreads
    · simp [acceptingNode, NodeShared.new, Mode.isProver] at hroot
    · rfl

/-- A contract in which one key is registered, as a mint. -/
def mintedAt (key : Element) : Contract.Rollup :=
  { Contract.Rollup.initial with mints := Contract.set (fun _ => 0) key 1 }

/-- A contract in which one key is registered, as a burn. -/
def burnedAt (key : Element) : Contract.Rollup :=
  { Contract.Rollup.initial with burns := Contract.set (fun _ => ⟨0, 0⟩) key ⟨0, 1⟩ }

/-- The only registered mint. -/
lemma isRegistered_mintedAt (key k : Element) : (mintedAt key).isRegistered k ↔ k = key := by
  by_cases h : k = key <;>
    simp [mintedAt, Contract.Rollup.isRegistered, Contract.Rollup.getMint,
      Contract.Rollup.hasBurn, Contract.set, Contract.Rollup.initial, h]

/-- The only registered burn. -/
lemma isRegistered_burnedAt (key k : Element) : (burnedAt key).isRegistered k ↔ k = key := by
  by_cases h : k = key <;>
    simp [burnedAt, Contract.Rollup.isRegistered, Contract.Rollup.getMint,
      Contract.Rollup.hasBurn, Contract.set, Contract.Rollup.initial, h]

/-- A transaction that moves value and is not backed is accepted in some state of the contract in
which its hash is not registered. -/
lemma exists_unregistered (hnot : ¬ utxo.Backed) :
    ∃ rollup : Contract.Rollup, ¬ rollup.isRegistered utxo.mbHash.canonicalize ∧
      (utxo.mbHash ≠ 0 → utxo.mbValue ≠ 0 →
        checkContract (.constant rollup) 0 utxo = .ok ()) := by
  rw [UtxoProof.Backed, not_or, not_and_or] at hnot
  obtain ⟨-, hhash | hburn⟩ := hnot
  · refine ⟨.initial, ?_, fun h => absurd (not_not.1 hhash) h⟩
    simp [Contract.Rollup.isRegistered, Contract.Rollup.getMint, Contract.Rollup.hasBurn,
      Contract.Rollup.initial]
  · obtain ⟨hburn, hne⟩ := Classical.not_imp.1 hburn
    have hkey : utxo.mbHash.canonicalize ≠ utxo.inputLeaves.1 := by
      intro h
      apply hne
      rw [← h, Element.canonicalize_eq, Element.toBase_fromBase]
    by_cases hmint : utxo.mintLeaves
    · -- no leaf at all: the key is zero, for a mint and for a burn
      have hzero : utxo.inputLeaves.1 = utxo.outputLeaves.1 := by
        rw [congrArg Prod.fst hmint.1, congrArg Prod.fst hburn.2]
      refine ⟨mintedAt utxo.outputLeaves.1, ?_, fun _ _ => ?_⟩
      · rw [isRegistered_mintedAt, ← hzero]
        exact hkey
      · simp [checkContract, EthView.constant, hmint, mintedAt, Contract.Rollup.getMint,
          Contract.set]
    · refine ⟨burnedAt utxo.inputLeaves.1, ?_, fun _ _ => ?_⟩
      · rw [isRegistered_burnedAt]
        exact hkey
      · simp [checkContract, EthView.constant, hmint, hburn, burnedAt, Contract.Rollup.hasBurn,
          Contract.Rollup.initial, Contract.set]

/-- **Whether what the node accepts is registered.** For a transaction with the public inputs of
a satisfying assignment: in every state of the node and of the contract in which it is accepted
it moves no value or is registered under its hash, so that the contract finds it — exactly when,
if its proof is accepted and its leaves are canonical, it is backed.

**Proof sketch.** The node compares the first leaf of a mint or burn with the contract, and the
circuit makes that leaf the public hash. Only a transaction whose public hash is zero is not
compared at all, although a mint of a padding note and a real one, in this order, has such a
hash and moves value; it is accepted whatever is registered. -/
theorem validateTransaction_registered_iff
    (hsat : SatisfiedBy depth P.poseidon hashed (utxo.instances.map Element.toBase)) :
    (∀ (self : NodeShared) (storeReads : Bool) (eth : EthView) (ethBlock : ℕ)
        (rollup : Contract.Rollup), eth.blockNumber = some ethBlock →
        eth.rollupAt (ethBlock - self.config.safeEthHeightOffset) = some rollup →
        self.validateTransaction P storeReads eth utxo = .ok () →
        (utxo.mbValue.toBase = 0 ∨ rollup.isRegistered utxo.mbHash.canonicalize) ∧
          ∀ ext, (Contract.verifyTxn ext utxo.mbHash.canonicalize utxo.mbValue.canonicalize
            rollup).1 ≠ .err .burnNotFound) ↔
      (P.verifyProof utxo.proof (utxo.instances.map Element.toBase) = some true →
        (∀ leaf ∈ utxo.leaves, leaf.toNat < Element.MODULUS) → utxo.Backed) := by
  constructor
  · intro hall hproof hcanon
    by_contra hnot
    have hvalue : utxo.mbValue.toBase ≠ 0 := fun h => hnot (.inl h)
    obtain ⟨rollup, hunregistered, hcontract⟩ := exists_unregistered hnot
    have haccept := acceptingNode_accepts hproof hcanon hcontract
    exact hunregistered ((hall _ _ _ _ _ rfl rfl haccept).1.resolve_left hvalue)
  · intro hbacked self storeReads eth ethBlock rollup hblock hrollup hok
    obtain ⟨-, haccept, -⟩ := validateTransaction_eq_ok_iff.1 hok
    have hreg : utxo.mbValue.toBase = 0 ∨ rollup.isRegistered utxo.mbHash.canonicalize := by
      by_cases hvalue : utxo.mbValue.toBase = 0
      · exact .inl hvalue
      · exact .inr (isRegistered_of_backed hsat (hbacked haccept.proof haccept.canonical) hvalue
          hblock hrollup hok)
    refine ⟨hreg, fun ext hnotfound => ?_⟩
    obtain ⟨hne, hnot⟩ := Contract.verifyTxn_eq_burnNotFound_iff.1 hnotfound
    rcases hreg with hzero | hreg
    · exact hne ((canonicalize_eq_zero_iff _).2 hzero)
    · exact hnot hreg

end Registered

/-! ### Two mints -/

/-- Primitives with a verifier that accepts the given public inputs only. -/
def acceptingPrimitives (H : List Fr → Fr) (instances : List Fr) : Primitives where
  poseidon := H
  keccak256 _ := 0
  verifyProof _ instances' := some (decide (instances' = instances))
  fromCompact _ := true
  recoverEcdsa _ _ := none
  signEcdsa _ := .default

/-- A validator that starts from genesis. -/
def freshValidator (P : Primitives) : NodeShared :=
  .new P { mode := .validator, badBlocks := [], blockTxnsCount := 1, safeEthHeightOffset := 0 } 0
    [⟨0, [0]⟩] .empty .new .genesis

/-- A mint of two notes. -/
def mintProof (H : List Fr → Fr) (outputs : Circuits.Note × Circuits.Note) : UtxoProof where
  recentRoot := 0
  mbHash := outputs.1.commitment H
  mbValue := outputs.1.value + outputs.2.value
  inputLeaves := (0, 0)
  outputLeaves := (outputs.1.commitment H, outputs.2.commitment H)
  proof := []

/-- The prover's own code satisfies the circuit for every mint of two notes in range. -/
lemma satisfiedBy_mintProof (H : List Fr → Fr) (outputs : Circuits.Note × Circuits.Note)
    (h1 : outputs.1.value.toNat < 2 ^ 240) (h2 : outputs.2.value.toNat < 2 ^ 240) :
    SatisfiedBy 161 H Set.univ ((mintProof H outputs).instances.map Element.toBase) := by
  have hM := Element.lt_MODULUS
  have hcanon : ∀ e : Element, e.toNat < 2 ^ 240 → e.isCanonical = true := by
    intro e he
    exact (Element.isCanonical_iff e).2 (by omega)
  have hval : ∀ e : Element, e.toNat < 2 ^ 240 → e.toBase.val < 2 ^ 240 := by
    intro e he
    rw [Element.val_toBase (hcanon e he)]
    exact he
  have hadd : (outputs.1.value + outputs.2.value).toBase =
      outputs.1.value.toBase + outputs.2.value.toBase := by
    simp only [Element.toBase, BitVec.toNat_add]
    rw [Nat.mod_eq_of_lt (by omega), Nat.cast_add]
  refine ⟨_, _, _, rfl, rfl, ?_, Circuits.Utxo.synthesize_mintOf H (show 161 ≤ 257 by decide)
    outputs (hval _ h1) (hval _ h2)⟩
  simp only [Circuits.Utxo.honestEnv, Circuits.Utxo.mintInstances, mintProof,
    UtxoProof.instances, UtxoProof.leaves, List.map_cons, List.map_nil, List.cons_append,
    List.nil_append, Circuits.Note.toBase_commitment H (hcanon _ h1),
    Circuits.Note.toBase_commitment H (hcanon _ h2), hadd, Element.toBase_zero]

/-- **An unregistered mint is accepted**, whatever the hash function is: with a padding note
first the public hash is zero, and a fresh node asks the contract nothing. When the block is
rolled up the contract does not find it. -/
lemma paddingFirstMint_accepted (H : List Fr → Fr) :
    let utxo := mintProof H (⟨3, 4, 0, 6⟩, ⟨3, 4, 5, 6⟩)
    let P := acceptingPrimitives H (utxo.instances.map Element.toBase)
    (freshValidator P).validateTransaction P true (.constant .initial) utxo = .ok () ∧
      utxo.mbValue.toBase ≠ 0 ∧
      ¬ Contract.Rollup.initial.isRegistered utxo.mbHash.canonicalize ∧
      ∀ ext, (Contract.verifyTxn ext utxo.mbHash.canonicalize utxo.mbValue.canonicalize
        .initial).1 = .err .burnNotFound := by
  intro utxo P
  have hcanon : ∀ leaf ∈ utxo.leaves, leaf.toNat < Element.MODULUS := by
    have hzero : (0 : Element).toNat < Element.MODULUS := by decide
    have hcm : (Circuits.Note.commitment H ⟨3, 4, 5, 6⟩).toNat < Element.MODULUS :=
      (Element.isCanonical_iff _).1 (isCanonical_hashMerge H _)
    simp only [utxo, mintProof, UtxoProof.leaves, List.forall_mem_cons, List.not_mem_nil,
      false_implies, implies_true, and_true]
    exact ⟨hzero, hzero, hzero, hcm⟩
  have hvalue : utxo.mbValue.toBase ≠ 0 := by
    change Element.toBase (0 + 5) ≠ 0
    decide
  have hreg : ¬ Contract.Rollup.initial.isRegistered utxo.mbHash.canonicalize := by
    simp [Contract.Rollup.isRegistered, Contract.Rollup.getMint, Contract.Rollup.hasBurn,
      Contract.Rollup.initial]
  refine ⟨?_, hvalue, hreg, fun ext => ?_⟩
  · refine validateTransaction_eq_ok_iff.2 ⟨fun h => absurd rfl h,
      ⟨by simp [P, acceptingPrimitives], hcanon, fun leaf _ _ => ?_⟩, rfl⟩
    simp [freshValidator, NodeShared.new, Smirk.Persistent.new, Smirk.Tree.new,
      Smirk.Tree.containsElement]
  · exact Contract.verifyTxn_eq_burnNotFound_iff.2
      ⟨mt (canonicalize_eq_zero_iff _).1 hvalue, hreg⟩

/-- The mint with the padding note first, under a hash function that is constant. -/
theorem validateTransaction_accepts_unregistered :
    let H : List Fr → Fr := fun _ => 1
    let utxo := mintProof H (⟨3, 4, 0, 6⟩, ⟨3, 4, 5, 6⟩)
    let P := acceptingPrimitives H (utxo.instances.map Element.toBase)
    SatisfiedBy 161 H Set.univ (utxo.instances.map Element.toBase) ∧
      (freshValidator P).validateTransaction P true (.constant .initial) utxo = .ok () ∧
      utxo.mbValue.toBase ≠ 0 ∧
      ¬ Contract.Rollup.initial.isRegistered utxo.mbHash.canonicalize ∧
      ∀ ext, (Contract.verifyTxn ext utxo.mbHash.canonicalize utxo.mbValue.canonicalize
        .initial).1 = .err .burnNotFound :=
  ⟨satisfiedBy_mintProof _ _ (by decide) (by decide), paddingFirstMint_accepted _⟩

/-- With the padding note second the mint is backed. -/
theorem validateTransaction_registered_noteFirst :
    let H : List Fr → Fr := fun _ => 1
    let utxo := mintProof H (⟨3, 4, 5, 6⟩, ⟨3, 4, 0, 6⟩)
    let P := acceptingPrimitives H (utxo.instances.map Element.toBase)
    ∀ (self : NodeShared) (storeReads : Bool) (eth : EthView) (ethBlock : ℕ)
      (rollup : Contract.Rollup), eth.blockNumber = some ethBlock →
      eth.rollupAt (ethBlock - self.config.safeEthHeightOffset) = some rollup →
      self.validateTransaction P storeReads eth utxo = .ok () →
      (utxo.mbValue.toBase = 0 ∨ rollup.isRegistered utxo.mbHash.canonicalize) ∧
        ∀ ext, (Contract.verifyTxn ext utxo.mbHash.canonicalize utxo.mbValue.canonicalize
          rollup).1 ≠ .err .burnNotFound := by
  intro H utxo P
  refine (validateTransaction_registered_iff (P := P)
    (satisfiedBy_mintProof H (⟨3, 4, 5, 6⟩, ⟨3, 4, 0, 6⟩) (by decide) (by decide))).2
      fun _ _ => .inr ⟨?_, fun hburn => ?_⟩
  · change Circuits.Note.commitment H ⟨3, 4, 5, 6⟩ ≠ 0
    decide
  · have hzero : Circuits.Note.commitment H ⟨3, 4, 5, 6⟩ = 0 := congrArg Prod.fst hburn.2
    revert hzero
    decide

/-! ## Amounts -/

section Amounts

variable {P : Primitives} {depth : ℕ} {hashed : Set (List Fr)} {utxo : UtxoProof}
  {c : Contract.Rollup} {key : Element}

/-- A message of a note is not the message of a nullifier. -/
lemma message_ne_nullifierMessage (w : Circuits.NoteWitness) (a b c d : Fr) :
    w.message ≠ [a, b, c, d] := by
  simp [Circuits.NoteWitness.message]

variable {env : Env Fr} (hcf : env.CollisionFree) (hinv : Contract.Inv env.hash env.hashed c)

include hcf in
/-- A registered mint of a commitment has the value of its note. -/
lemma mintOf_amount {w : Circuits.NoteWitness} (hmem : w.message ∈ env.hashed)
    (hne : w.value ≠ 0) (hkey : w.cm env.hash = key.toBase) {amount : ℕ}
    (h : Contract.MintOf env.hash env.hashed key amount) : amount = w.value.val := by
  obtain ⟨w', hmem', hcm, rfl⟩ := h
  have hcm0 : w.cm env.hash ≠ 0 := mt (Circuits.NoteWitness.cm_eq_zero_iff hcf hmem).1 hne
  rw [Circuits.NoteWitness.cm_inj hcf hmem hmem' (hkey.trans hcm.symm) hcm0]

include hcf in
/-- A registered burn of a nullifier has the value of its note. -/
lemma burnOf_amount {i : Circuits.InputWitness} (hi : i.Valid env depth) (hne : i.value ≠ 0)
    (hkey : i.nullifier env.hash = key.toBase) {amount : ℕ}
    (h : Contract.BurnOf env.hash env.hashed key amount) : amount = i.value.val := by
  obtain ⟨w, hw, hnull, rfl⟩ := h
  rw [← hkey, Circuits.InputWitness.nullifier, if_neg hne] at hnull
  rw [Circuits.KeyedNote.value_eq_of_nullifier_eq hcf ⟨hw.message_mem, hw.nullifier_mem⟩
    hi.message_mem hi.nullifier_mem hne hnull]

include hcf in
/-- No mint is registered under a nullifier: commitments and nullifiers are digests of messages
of different lengths. -/
lemma not_mintOf_nullifier {i : Circuits.InputWitness} (hi : i.Valid env depth)
    (hne : i.value ≠ 0) (hkey : i.nullifier env.hash = key.toBase) (amount : ℕ) :
    ¬ Contract.MintOf env.hash env.hashed key amount := by
  rintro ⟨w, hmem, hcm, -⟩
  rw [← hkey, Circuits.InputWitness.nullifier, if_neg hne, Circuits.NoteWitness.cm] at hcm
  split_ifs at hcm with hvalue
  · exact hcf.ne_zero _ hi.nullifier_mem hcm.symm
  · exact message_ne_nullifierMessage w _ _ _ _ (hcf.hash_inj hmem hi.nullifier_mem hcm)

include hcf hinv in
/-- The amounts under the commitment of a note that is registered as a mint. -/
lemma amountsAre_mint {w : Circuits.NoteWitness} (hmem : w.message ∈ env.hashed)
    (hne : w.value ≠ 0) (hkey : w.cm env.hash = key.toBase) (hmint : c.mints key ≠ 0) :
    c.AmountsAre key w.value.val where
  mint h := mintOf_amount hcf hmem hne hkey (hinv.mints key h)
  burn h := absurd h hmint
  router h := absurd h hmint

include hcf hinv in
/-- The amounts under the nullifier of a note. -/
lemma amountsAre_burn {i : Circuits.InputWitness} (hi : i.Valid env depth) (hne : i.value ≠ 0)
    (hkey : i.nullifier env.hash = key.toBase) : c.AmountsAre key i.value.val where
  mint h := absurd (hinv.mints key h) (not_mintOf_nullifier hcf hi hne hkey _)
  burn _ h := burnOf_amount hcf hi hne hkey (hinv.burns key h)
  router _ h := burnOf_amount hcf hi hne hkey (hinv.routers key h).2

variable {w : Circuits.UtxoWitness}

include hcf in
/-- An input with a zero leaf is worth nothing. -/
lemma in_value_eq_zero {i : Circuits.InputWitness} (hi : i.Valid env depth) {leaf : Element}
    (hx : i.nullifier env.hash = leaf.toBase) (hleaf : leaf = 0) : i.value = 0 := by
  rw [hleaf, Element.toBase_zero] at hx
  exact (Circuits.InputWitness.nullifier_eq_zero_iff hcf hi).1 hx

include hcf in
/-- An output with a zero leaf is worth nothing. -/
lemma out_value_eq_zero {o : Circuits.NoteWitness} (ho : o.message ∈ env.hashed)
    {leaf : Element} (hx : o.cm env.hash = leaf.toBase) (hleaf : leaf = 0) : o.value = 0 := by
  rw [hleaf, Element.toBase_zero] at hx
  exact (Circuits.NoteWitness.cm_eq_zero_iff hcf ho).1 hx

include hcf in
/-- With the leaves of a mint, the value is that of the first output. -/
lemma out1_value_of_mintLeaves (hw : w.Valid env depth) (hx : Exposes env.hash w utxo)
    (hvalue : utxo.mbValue.toBase ≠ 0) (hleaves : utxo.mintLeaves) :
    w.out1.value = utxo.mbValue.toBase := by
  rw [← hx.mbValue] at hvalue ⊢
  rcases isMint_or_isBurn hvalue with hmint | hburn
  · rw [mbValue_of_isMint hmint, out_value_eq_zero hcf hw.out2_mem hx.out2 hleaves.2, add_zero]
  · have h1 := in_value_eq_zero hcf hw.in1 hx.in1 (congrArg Prod.fst hleaves.1)
    have h2 := in_value_eq_zero hcf hw.in2 hx.in2 (congrArg Prod.snd hleaves.1)
    exact absurd (by rw [mbValue_of_isBurn hburn, h1, h2, add_zero]) hvalue

include hcf in
/-- With the leaves of a burn, the value is that of the first input, whose nullifier is the
public hash. -/
lemma in1_value_of_burnLeaves (hw : w.Valid env depth) (hx : Exposes env.hash w utxo)
    (hvalue : utxo.mbValue.toBase ≠ 0) (hleaves : utxo.burnLeaves) :
    w.in1.value = utxo.mbValue.toBase ∧ utxo.mbHash.toBase = utxo.inputLeaves.1.toBase := by
  rw [← hx.mbValue] at hvalue ⊢
  rcases isMint_or_isBurn hvalue with hmint | hburn
  · have h1 := out_value_eq_zero hcf hw.out1_mem hx.out1 (congrArg Prod.fst hleaves.2)
    have h2 := out_value_eq_zero hcf hw.out2_mem hx.out2 (congrArg Prod.snd hleaves.2)
    exact absurd (by rw [mbValue_of_isMint hmint, h1, h2, add_zero]) hvalue
  · rw [mbValue_of_isBurn hburn, in_value_eq_zero hcf hw.in2 hx.in2 hleaves.1, add_zero,
      ← hx.mbHash, mbHash_of_isBurn hburn, hx.in1]
    exact ⟨rfl, rfl⟩

variable {c₀ : Contract.Rollup}

include hcf in
/-- What was registered with the node's leaf at the safe height is registered under the public
hash, with the public value, in every later state of the contract. -/
lemma amountsAre_of_leaves (hw : w.Valid env depth) (hx : Exposes env.hash w utxo)
    (hvalue : utxo.mbValue.toBase ≠ 0)
    (hcanon : ∀ leaf ∈ utxo.leaves, leaf.toNat < Element.MODULUS)
    (hinv : Contract.Inv env.hash env.hashed c₀) (hgrows : Contract.Grows env.hash env.hashed c₀ c)
    (hleaves : (utxo.mintLeaves ∧ c₀.getMint utxo.outputLeaves.1 ≠ 0) ∨
      (utxo.burnLeaves ∧ c₀.hasBurn utxo.inputLeaves.1 = true)) :
    c.isRegistered utxo.mbHash.canonicalize ∧
      c.AmountsAre utxo.mbHash.canonicalize utxo.mbValue.canonicalize.toNat := by
  rw [Element.canonicalize_eq utxo.mbValue, Element.toNat_fromBase]
  rcases hleaves with ⟨hleaves, hmint⟩ | ⟨hleaves, hhas⟩
  · have hkey := mbHash_eq_of_mintLeaves hw hx hvalue hleaves
    have hval := out1_value_of_mintLeaves hcf hw hx hvalue hleaves
    have hmints := hgrows.mints _ hmint
    rw [canonicalize_eq_of_toBase_eq (hcanon _ (by simp [UtxoProof.leaves])) hkey, ← hval]
    exact ⟨.inl hmints,
      amountsAre_mint hcf (hgrows.inv hinv) hw.out1_mem (hval ▸ hvalue) hx.out1 hmints⟩
  · obtain ⟨hval, hkey⟩ := in1_value_of_burnLeaves hcf hw hx hvalue hleaves
    have hne : w.in1.value ≠ 0 := hval ▸ hvalue
    -- a burn that is worth something is not overwritten by one that is worth nothing
    have hreal : Contract.RealBurn env.hash env.hashed utxo.inputLeaves.1 := by
      intro amount hof
      rw [burnOf_amount hcf hw.in1 hne hx.in1 hof]
      exact mt (ZMod.val_eq_zero _).1 hne
    rw [canonicalize_eq_of_toBase_eq (hcanon _ (by simp [UtxoProof.leaves])) hkey, ← hval]
    exact ⟨.inr (hgrows.burns hinv _ hreal hhas),
      amountsAre_burn hcf (hgrows.inv hinv) hw.in1 hne hx.in1⟩

end Amounts

/-- **An accepted mint or burn is settled.** Without collisions, with sound verifiers, and in
every state of the contract that calls of its entry points reach from the one that the node
asked: a transaction that names a mint or burn and was accepted is settled, unless a call to the
token fails; so no block reverts on its amount.

**Proof sketch.** The node found the leaf registered. The circuits behind the registration tie
the registered amount to the note of that leaf, the UTXO circuit ties the public value to the
same note, and no later call changes the amount: substitution writes the amount it paid, which
was checked against the registered one. -/
theorem validateTransaction_settles {P : Primitives} {depth : ℕ} {hashed : Set (List Fr)}
    {verifiers : Contract.Verifiers} {self : NodeShared} {storeReads : Bool} {eth : EthView}
    {utxo : UtxoProof} {c : Contract.Rollup}
    (hcf : (Contract.publicEnv P.poseidon hashed []).CollisionFree)
    (hsound : ∀ proof instances, P.verifyProof proof instances = some true →
      SatisfiedBy depth P.poseidon hashed instances)
    (hverifiers : verifiers.Sound P.poseidon hashed)
    (heth : ∀ height c₀, eth.rollupAt height = some c₀ →
      Contract.Reaches verifiers .initial c₀ ∧ Contract.Reaches verifiers c₀ c)
    (hhash : utxo.mbHash ≠ 0) (hvalue : utxo.mbValue ≠ 0)
    (hok : self.validateTransaction P storeReads eth utxo = .ok ()) (ext : Contract.External) :
    let run := Contract.verifyTxn ext utxo.mbHash.canonicalize utxo.mbValue.canonicalize c
    run.1 = .ok () ∨ run.1 = .err .tokenCallFailed := by
  intro run
  obtain ⟨hcontract, haccept, -⟩ := validateTransaction_eq_ok_iff.1 hok
  obtain ⟨ethBlock, c₀, -, hrollup, hleaves⟩ := checkContract_eq_ok (hcontract hhash hvalue)
  obtain ⟨hinitial, hlater⟩ := heth _ _ hrollup
  have hinv := (hinitial.grows hverifiers).inv (Contract.inv_initial P.poseidon hashed)
  have hgrows := hlater.grows hverifiers
  obtain ⟨env, w, hH, rfl, hw, hx⟩ := (hsound _ _ haccept.proof).exists_witness
  rw [← hH] at hcf hinv hgrows hx
  have hcf' : env.CollisionFree := ⟨hcf.injOn, hcf.ne_zero⟩
  by_cases hzero : utxo.mbValue.toBase = 0
  · left
    simp only [run, (canonicalize_eq_zero_iff _).2 hzero]
    rfl
  · obtain ⟨hreg, hamounts⟩ :=
      amountsAre_of_leaves hcf' hw hx hzero haccept.canonical hinv hgrows hleaves
    exact Contract.verifyTxn_of_amounts hreg hamounts

/-! ### The mint of a note of value 5

The hash function, the note and the assignment are those of the run in
`TempoRollup.Circuits.Run`. -/

namespace Sample

open Circuits.Sample (env satisfied_mint collisionFree)

/-- The public inputs of the mint. -/
def instances : List Fr := [0, 8, 5, 0, 0, 8, 0]

/-- The transaction of the mint. -/
def utxo : UtxoProof where
  recentRoot := 0
  mbHash := 8
  mbValue := 5
  inputLeaves := (0, 0)
  outputLeaves := (8, 0)
  proof := []

/-- Verifiers that accept the registration of the note only. -/
def verifiers : Contract.Verifiers where
  mint _ instances := instances == [8, 5, 0]
  burn _ _ := false
  burnTo _ _ := false

/-- Other contracts return, and no router is known. -/
def ext : Contract.External where
  msgSender := 0
  transferFromReturns := true
  transferReturns := true
  approveReturns := true
  resetReturns := true
  isUSDCBlacklisted _ := false
  isRouterWhitelisted _ := false
  signerIsFrom := true
  keccak _ _ _ := 0
  routerReturns := false
  afterRouterCall := .initial

/-- The contract after the registration. -/
def registered : Contract.Rollup :=
  (Program.atomically (Contract.Entry.call verifiers ext (.mint [] 8 5 0)) .initial).2

/-- The contract reaches the state with the registered mint. -/
lemma reaches_registered : Contract.Reaches verifiers .initial registered :=
  .call (.refl _) ext (.mint [] 8 5 0) (.refl _)

/-- The verifiers of the sample are sound. -/
lemma sound_verifiers : verifiers.Sound env.hash env.hashed where
  mint proof instances h := by
    obtain rfl : instances = [8, 5, 0] := by simpa [verifiers] using h
    refine ⟨⟨[⟨0, 0, 0, 0⟩]⟩, rfl, (Circuits.Mint.synthesize_iff _ _ _).2 ?_⟩
    simp only [List.zipIdx_singleton, List.mem_singleton, forall_eq]
    refine ⟨Circuits.Sample.note, ?_, nofun, ?_, ?_, ?_⟩
    · exact show Circuits.Sample.note.message ∈ env.hashed by decide
    all_goals decide
  burn _ _ h := by cases h
  burnTo _ _ h := by cases h

/-- The verifier of the sample accepts only satisfied circuits. -/
lemma sound_verifyProof (proof : Bytes) (instances' : List Fr)
    (h : (acceptingPrimitives env.hash instances).verifyProof proof instances' = some true) :
    SatisfiedBy 2 env.hash env.hashed instances' := by
  obtain rfl : instances' = instances := by simpa [acceptingPrimitives] using h
  exact ⟨{ env with instances := instances },
    (Circuits.Sample.txn Circuits.Sample.mint instances).utxo,
    (Circuits.Sample.txn Circuits.Sample.mint instances).cells, rfl, rfl, rfl, satisfied_mint⟩

/-- A new validator accepts the transaction. -/
lemma accepted :
    (freshValidator (acceptingPrimitives env.hash instances)).validateTransaction
      (acceptingPrimitives env.hash instances) true (.constant registered) utxo = .ok () := by
  have hinstances : utxo.instances.map Element.toBase = instances := by decide
  have hcontract : checkContract (.constant registered) 0 utxo = .ok () := by decide
  have h0 : (0 : Element).toNat < Element.MODULUS := by decide
  have h8 : (8 : Element).toNat < Element.MODULUS := by decide
  have hcanon : ∀ leaf ∈ utxo.leaves, leaf.toNat < Element.MODULUS := by
    simp only [utxo, UtxoProof.leaves, List.forall_mem_cons]
    exact ⟨h0, h0, h8, h0, by simp⟩
  refine validateTransaction_eq_ok_iff.2
    ⟨fun _ _ => hcontract, ⟨?_, hcanon, fun leaf _ _ => ?_⟩, if_pos rfl⟩
  · simp only [hinstances, acceptingPrimitives, decide_true]
  · simp [freshValidator, NodeShared.new, Smirk.Persistent.new, Smirk.Tree.new,
      Smirk.Tree.containsElement]

end Sample

/-- The registered mint of a note of value 5 is settled. -/
theorem validateTransaction_settles_mint :
    let run := Contract.verifyTxn Sample.ext Sample.utxo.mbHash.canonicalize
      Sample.utxo.mbValue.canonicalize Sample.registered
    run.1 = .ok () ∨ run.1 = .err .tokenCallFailed := by
  have hcf : (Contract.publicEnv Circuits.Sample.env.hash Circuits.Sample.env.hashed
      []).CollisionFree :=
    ⟨Circuits.Sample.collisionFree.injOn, Circuits.Sample.collisionFree.ne_zero⟩
  refine validateTransaction_settles (P := acceptingPrimitives Circuits.Sample.env.hash
    Sample.instances) hcf Sample.sound_verifyProof Sample.sound_verifiers ?_ (by decide)
    (by decide) Sample.accepted Sample.ext
  intro height c₀ hc₀
  obtain rfl : Sample.registered = c₀ := Option.some.inj hc₀
  exact ⟨Sample.reaches_registered, .refl _⟩

end TempoRollup.Node
