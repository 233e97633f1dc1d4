import TempoRollup.Contract.Block
import Mathlib.Data.List.Forall2

set_option relaxedAutoImplicit false
set_option autoImplicit false

/-!
# The signatures of a block

What the loop of `verifyBlock2` (`src/rollup/RollupV5.sol`) over the signatures guarantees, with the
validator sets as `_setValidators` (`RollupV1.sol`) registers them: a mapping that is filled next to
an array.

## Main definitions

* `RecoversTo` — the signer of a signature.
* `blockMessage` — the message that the validators sign for a block.
* `Quorum` — enough different validators signed a message.

## Main results

* `checkSignatures_eq_ok_iff` — what the loop over the signatures accepts.
* `ValidatorSet.Registered.validators_iff` — the mapping of a registered set is that of its array.
* `Storage.registered_run` — the sets of the contract are registered ones in every run.
* `verifyBlock2_quorum` — a block whose signatures pass is signed by a quorum.
-/

open Exec

namespace TempoRollup.Contract

/-! ## The loop over the signatures -/

section Loop

variable {ext : BlockExternal} {validatorSet : ValidatorSet} {msg : Element}

/-- The signer of a signature, as `ECDSA.recover` returns it. -/
def RecoversTo (ext : BlockExternal) (msg : Element) (signature : Signature) (signer : Address) :
    Prop :=
  ext.recover msg (BitVec.ofNat 8 signature.v) signature.r signature.s = some signer

/-- **The loop over the signatures** accepts signatures of validators in ascending order. By
induction on the signatures.

**Proof sketch.** A signature is accepted if its signer is a validator above the previous one; the
induction hypothesis is for the rest with that signer as the previous one. -/
theorem checkSignatures_eq_ok_iff (previous : Address) (signatures : List Signature) :
    checkSignatures ext validatorSet msg previous signatures = .ok () ↔
      ∃ signers, List.Forall₂ (RecoversTo ext msg) signatures signers ∧
        (∀ signer ∈ signers, validatorSet.validators signer = true) ∧
        (previous :: signers).Pairwise (· < ·) := by
  induction signatures generalizing previous with
  | nil =>
    refine ⟨fun _ => ⟨[], .nil, fun _ h => absurd h List.not_mem_nil, ?_⟩, fun _ => rfl⟩
    exact List.pairwise_singleton _ _
  | cons signature signatures ih =>
    rw [checkSignatures]
    constructor
    · intro h
      split at h
      · cases h
      · next signer hrecover =>
        split_ifs at h with hvalidator hsorted
        rw [Bool.not_eq_true, Bool.not_eq_false'] at hvalidator
        rw [Bool.not_eq_true, Bool.not_eq_false', decide_eq_true_eq] at hsorted
        obtain ⟨signers, hsigners, hvalidators, hpairwise⟩ := (ih signer).1 h
        refine ⟨signer :: signers, .cons hrecover hsigners, ?_, ?_⟩
        · rw [List.forall_mem_cons]
          exact ⟨hvalidator, hvalidators⟩
        · refine List.pairwise_cons.2 ⟨?_, hpairwise⟩
          rw [List.forall_mem_cons]
          refine ⟨hsorted, fun later hlater => ?_⟩
          exact BitVec.lt_trans hsorted ((List.pairwise_cons.1 hpairwise).1 later hlater)
    · rintro ⟨signers, hsigners, hvalidators, hpairwise⟩
      cases hsigners with
      | cons hrecover hrest =>
        rw [List.forall_mem_cons] at hvalidators
        rw [List.pairwise_cons, List.forall_mem_cons] at hpairwise
        have hrest := (ih _).2 ⟨_, hrest, hvalidators.2, hpairwise.2⟩
        rw [RecoversTo] at hrecover
        rw [hrecover]
        simp only [hvalidators.1, hpairwise.1.1, decide_true, Bool.not_true, Bool.false_eq_true,
          if_false]
        exact hrest

/-- The loop does not fail for the proof. -/
lemma checkSignatures_ne_verificationFailed (previous : Address) (signatures : List Signature) :
    checkSignatures ext validatorSet msg previous signatures ≠ .err .verificationFailed := by
  induction signatures generalizing previous with
  | nil =>
    intro h
    cases h
  | cons signature signatures ih =>
    intro h
    rw [checkSignatures] at h
    split at h
    · cases h
    · split_ifs at h
      · cases h
      · cases h
      · exact ih _ h

end Loop

/-! ## Registered sets -/

/-- The loop of `_setValidators` marks the validators of the array. By induction on them. -/
lemma marked_iff_of_markValidators {validators : List Address} {before marked : Address → Bool}
    (h : markValidators validators before = .ok marked) (validator : Address) :
    marked validator = true ↔ before validator = true ∨ validator ∈ validators := by
  induction validators generalizing before with
  | nil =>
    obtain rfl : before = marked := Outcome.ok.inj h
    simp
  | cons first rest ih =>
    unfold markValidators at h
    split_ifs at h
    rw [ih h, List.mem_cons]
    by_cases heq : validator = first
    · simp [heq]
    · simp [heq]

/-- The mapping of a registered set is that of its array. -/
theorem ValidatorSet.Registered.validators_iff {set : ValidatorSet} (h : set.Registered)
    (validator : Address) : set.validators validator = true ↔ validator ∈ set.validatorsArray := by
  rw [marked_iff_of_markValidators h]
  simp

section Registered

variable {s : Storage}

/-- **One call** keeps the sets registered ones. -/
lemma Storage.registered_step (h : ∀ set ∈ s.validatorSets, set.Registered) (call : ChainCall) :
    ∀ set ∈ (s.step call).validatorSets, set.Registered := by
  rcases s.validatorSets_step call with hsame | ⟨isOwner, set, -, hset, happend⟩
  · rwa [hsame]
  · rw [happend]
    intro set' hmem
    rcases List.mem_append.1 hmem with hold | hnew
    · exact h set' hold
    · rwa [List.mem_singleton.1 hnew]

/-- **The sets of the contract in every run** are registered ones. By induction on the calls. -/
theorem Storage.registered_run {prover : Address} {initialValidators : List Address}
    {root : Element} {u : Unit}
    (hinit : initializeRollup prover initialValidators root .empty = (.ok u, s))
    (calls : List ChainCall) : ∀ set ∈ (s.run calls).validatorSets, set.Registered := by
  have hfirst : ∀ set ∈ s.validatorSets, set.Registered := by
    obtain ⟨⟨initial, -, -, hinitial, hview⟩, -⟩ := initializeRollup_eq_ok hinit
    have hsets : s.validatorSets = [initial] := congrArg Prod.fst hview
    intro set hset
    rw [hsets] at hset
    rwa [List.mem_singleton.1 hset]
  clear hinit
  induction calls generalizing s with
  | nil => exact hfirst
  | cons call calls ih => exact ih (Storage.registered_step hfirst call)

/-- The active set is a registered one, or no set at all. -/
lemma Storage.registered_getValidators (h : ∀ set ∈ s.validatorSets, set.Registered) :
    s.getValidators.Registered := by
  unfold Storage.getValidators
  rw [List.getD_eq_getElem?_getD]
  cases hget : s.validatorSets[s.validatorSetIndex]? with
  | none => rfl
  | some set => exact h set (List.mem_of_getElem? hget)

end Registered

/-! ## Quorums -/

/-- The message that the validators sign to accept a block. -/
def blockMessage (ext : BlockExternal) (block : BlockProof) : Element :=
  sigMsg ext (acceptMsg ext block.height
    (proposalHash ext block.newRoot block.height block.otherHashFromBlockHash))

/-- The set that a block is verified with. -/
def Storage.activeSet (s : Storage) (block : BlockProof) : ValidatorSet :=
  (s.updateValidatorSetIndex block.height).getValidators

/-- The signatures of a message are those of different members of a set, more than two thirds of
it, one signature for each; the zero address is not among them. -/
structure Quorum (ext : BlockExternal) (set : ValidatorSet) (msg : Element)
    (signatures : List Signature) (signers : List Address) : Prop where
  recovers : List.Forall₂ (RecoversTo ext msg) signatures signers
  nodup : signers.Nodup
  members : ∀ signer ∈ signers, signer ∈ set.validatorsArray
  ne_zero : 0 ∉ signers
  enough : set.validatorsArray.length * 2 / 3 + 1 ≤ signers.length

section Verification

variable {ext : BlockExternal} {s : Storage} {block : BlockProof}

/-- The mints and burns do not fail for the proof. -/
lemma onRollup_throws {α : Type} (p : Call α) :
    (onRollup p).Throws fun e => ¬ e = .verificationFailed := by
  refine Program.Throws.zoom fun rollup e h => ?_
  unfold Program.mapErr at h
  split at h
  · cases h
  · cases h
    exact fun heq => by cases heq
  · cases h

/-- **What was checked before the proof**: there are enough signatures, and the loop over them
passes. -/
lemma passes_verifyBlock2
    (h : (verifyBlock2 ext block s).1.Passes (· = BlockRevert.verificationFailed)) :
    (s.activeSet block).validatorsArray.length * 2 / 3 + 1 ≤ block.signatures.length ∧
      checkSignatures ext (s.activeSet block) (blockMessage ext block) 0 block.signatures =
        .ok () := by
  obtain ⟨-, hwith⟩ := Program.passes_ensure_bind (fun heq => by cases heq) h
  obtain ⟨-, htxns⟩ := Program.passes_ensure_bind (fun heq => by cases heq) hwith
  obtain ⟨u, s₁, -, hrest⟩ := Program.passes_bind (onRollup_throws _) htxns
  obtain ⟨-, hrest⟩ := Program.passes_ensure_bind (fun heq => by cases heq) hrest
  obtain ⟨henough, hrest⟩ := Program.passes_ensure_bind (fun heq => by cases heq) hrest
  obtain ⟨-, hrest⟩ := Program.passes_ensure_bind (fun heq => by cases heq) hrest
  obtain ⟨-, hrest⟩ := Program.passes_ensure_bind (fun heq => by cases heq) hrest
  have hthrows : (Program.lift (checkSignatures ext (s.activeSet block) (blockMessage ext block) 0
      block.signatures) : Program Storage BlockRevert Unit).Throws
        fun e => ¬ e = .verificationFailed := by
    rintro s' e he rfl
    exact checkSignatures_ne_verificationFailed _ _ he
  obtain ⟨u, s₂, hsigs, -⟩ := Program.passes_bind hthrows hrest
  exact ⟨of_decide_eq_true henough, (Prod.ext_iff.1 hsigs).1⟩

/-- **A block whose signatures pass is signed by a quorum.** In every run of the contract, for every
block and all signatures: if `verifyBlock2` gets past the loop over the signatures, after which only
the proof can be refused, more than two thirds of the active set signed the block, each of them
counted once.

**Proof sketch.** The loop accepts signatures of members in ascending order of their signers
(`checkSignatures_eq_ok_iff`), which therefore differ; there are more than two thirds of the set, by
the check before it. -/
theorem verifyBlock2_quorum {prover : Address} {initialValidators : List Address} {root : Element}
    {u : Unit} {s₀ : Storage}
    (hinit : initializeRollup prover initialValidators root .empty = (.ok u, s₀))
    (calls : List ChainCall) (ext : BlockExternal) (block : BlockProof)
    (hpass : (verifyBlock2 ext block (s₀.run calls)).1.Passes
      (· = BlockRevert.verificationFailed)) :
    ∃ signers, Quorum ext ((s₀.run calls).activeSet block) (blockMessage ext block)
      block.signatures signers := by
  have hregistered : ((s₀.run calls).activeSet block).Registered :=
    Storage.registered_getValidators (Storage.registered_run hinit calls)
  obtain ⟨henough, hloop⟩ := passes_verifyBlock2 hpass
  obtain ⟨signers, hsigners, hvalidators, hsorted⟩ := (checkSignatures_eq_ok_iff 0 _).1 hloop
  rw [List.pairwise_cons] at hsorted
  refine ⟨signers, hsigners, ?_, ?_, ?_, ?_⟩
  · exact hsorted.2.imp fun hlt heq => absurd (heq ▸ hlt) (BitVec.lt_irrefl _)
  · intro signer hsigner
    exact (hregistered.validators_iff signer).1 (hvalidators signer hsigner)
  · intro hzero
    exact absurd (hsorted.1 0 hzero) (BitVec.lt_irrefl _)
  · rw [← hsigners.length_eq]
    exact henough

/-! ### Four validators -/

/-- The libraries take a signature for one of the address after 5 that its first word tells, and
accept every proof. -/
def sampleExternal : BlockExternal where
  msgSender := 1
  txns _ := { msgSender := 0, transferFromReturns := true, transferReturns := true,
              approveReturns := true, resetReturns := true, isUSDCBlacklisted := fun _ => false,
              isRouterWhitelisted := fun _ => false, signerIsFrom := true,
              keccak := fun _ _ _ => 0, routerReturns := true, afterRouterCall := .initial }
  keccak256 bytes := BitVec.ofNat 256 bytes.length
  recover _ _ r _ := some (5 + r.setWidth 160)
  aggregateVerifies _ _ _ _ _ := true

/-- A block without transactions, from one root to the next. -/
def sampleBlock (height : ℕ) (oldRoot newRoot : Element) (signers : List Element) : BlockProof where
  aggrProof := []
  aggrInstances _ := 0
  oldRoot := oldRoot
  newRoot := newRoot
  utxoHashes _ := ⟨0, 0, 0⟩
  otherHashFromBlockHash := 0
  height := height
  signatures := signers.map fun r => ⟨r, 0, 27⟩

/-- The contract with the one validator 5 and the root 9. -/
def sampleStorage : Storage := (initializeRollup 1 [5] 9 .empty).2

/-- The first block is signed by the one validator; after it there are four. -/
def sampleCalls : List ChainCall :=
  [.verifyBlock2 sampleExternal (sampleBlock 1 9 10 [0]), .setValidators true 2 [8, 6, 5, 7]]

/-- Three of the four validators sign the second block. -/
def signedBlock : BlockProof := sampleBlock 2 10 11 [0, 1, 3]

/-- The contract verifies the signed block. -/
lemma verifyBlock2_signedBlock :
    (verifyBlock2 sampleExternal signedBlock (sampleStorage.run sampleCalls)).1.isOk = true := by
  decide +kernel

/-- The second block of the sample is signed by three of the four validators that were registered
after the first one. -/
theorem verifyBlock2_quorum_sample :
    ((sampleStorage.run sampleCalls).activeSet signedBlock).validatorsArray = [8, 6, 5, 7] ∧
      Quorum sampleExternal ((sampleStorage.run sampleCalls).activeSet signedBlock)
        (blockMessage sampleExternal signedBlock) signedBlock.signatures [5, 6, 8] := by
  refine ⟨by decide +kernel, ?_⟩
  have hpass : (verifyBlock2 sampleExternal signedBlock (sampleStorage.run sampleCalls)).1.Passes
      (· = BlockRevert.verificationFailed) := by
    have hok := verifyBlock2_signedBlock
    revert hok
    cases (verifyBlock2 sampleExternal signedBlock (sampleStorage.run sampleCalls)).1 with
    | ok u => exact fun _ => trivial
    | err e => exact fun hok => by cases hok
    | panic => exact fun hok => by cases hok
  obtain ⟨signers, hquorum⟩ := verifyBlock2_quorum
    (show initializeRollup 1 [5] 9 .empty = (.ok (), sampleStorage) from rfl) sampleCalls
    sampleExternal signedBlock hpass
  -- the recovered signers are those that the first words tell
  have hsigners : signers = [5, 6, 8] := by
    have hrecovers := hquorum.recovers
    simp only [signedBlock, sampleBlock, List.map_cons, List.map_nil, List.forall₂_cons_left_iff,
      List.forall₂_nil_left_iff, RecoversTo, sampleExternal, Option.some.injEq] at hrecovers
    obtain ⟨_, _, rfl, ⟨_, _, rfl, ⟨_, _, rfl, rfl, rfl⟩, rfl⟩, rfl⟩ := hrecovers
    rfl
  rwa [hsigners] at hquorum

end Verification

end TempoRollup.Contract
