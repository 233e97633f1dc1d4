import TempoRollup.Lib.RingBuffer
import TempoRollup.Lib.Runs
import TempoRollup.Node.Block

set_option relaxedAutoImplicit false
set_option autoImplicit false

/-!
# Verification of blocks

The part of the contract that verifies blocks: the validator sets and the recent roots of
`src/rollup/RollupV1.sol`, `containsRootHashes` of `RollupV4.sol` and `verifyBlock2` of
`RollupV5.sol`.

## Main definitions

* `Storage` — the storage, with that of mints and burns.
* `addRootHash`, `currentRootHash`, `containsRootHashes`.
* `setValidators`, `updateValidatorSetIndex`, `getValidators`, `getValidatorSets`.
* `verifyBlock2`, `initializeRollup`.
* `ChainCall`, `Storage.step` — the calls of the contract.

## Main results

* `Storage.step_cases` — what a call can do to the validator sets and the recent roots.
* `Storage.Sets.step` — what holds of the validator sets in every run.
* `Storage.Sets.getValidators_update` — the set that a block is verified with.
* `Storage.recent_run` — what the recent roots are in every run.
* `Storage.rootHashes_added` — which roots are found after any number of them were added.

## Design

A fixed array is a function on its indexes; the array of 18 hashes is one triple for each of the
six transactions. Sums modulo 64 are those of `Fin 64`. `ECDSA.recover` and the owner check
are library code and answered by `BlockExternal`, as are the plonk verifier and the calls that
`verifyTxn` makes. A router that is called by `verifyTxn` may call back, but not as a prover or
as the owner.
-/

open Exec

namespace TempoRollup.Contract

/-! ## Storage -/

/-- `struct ValidatorSet`. -/
structure ValidatorSet where
  validators : Address → Bool
  validatorsArray : List Address
  /-- The height at which this validator set becomes valid, inclusive. -/
  validFrom : ℕ

/-- `struct PublicValidatorSet`. -/
structure PublicValidatorSet where
  validators : List Address
  validFrom : ℕ
  deriving DecidableEq

/-- `struct Signature`. -/
structure Signature where
  r : Element
  s : Element
  v : ℕ

/-- The storage of the contract. -/
structure Storage extends Rollup where
  blockHash : Element
  blockHeight : ℕ
  rootHashes : Fin 64 → Element
  nextRootHashIndex : Fin 64
  provers : Address → Bool
  validatorSets : List ValidatorSet
  validatorSetIndex : ℕ

/-- The storage before `initialize`. -/
def Storage.empty : Storage where
  toRollup := .initial
  blockHash := 0
  blockHeight := 0
  rootHashes _ := 0
  nextRootHashIndex := 0
  provers _ := false
  validatorSets := []
  validatorSetIndex := 0

/-- Why a call reverts. -/
inductive BlockRevert
  /-- "You are not a prover" -/
  | notProver
  /-- `OwnableUnauthorizedAccount` -/
  | notOwner
  /-- "Old root does not match the current root" -/
  | oldRootMismatch
  /-- `verifyTxn` reverts. -/
  | txn (reason : Revert)
  /-- "Invalid recent roots" -/
  | invalidRecentRoots
  /-- "Not enough signatures from validators to verify block" -/
  | notEnoughSignatures
  /-- "No signatures" -/
  | noSignatures
  /-- `ECDSA.recover` reverts. -/
  | invalidSignature
  /-- "Signer is not a validator" -/
  | signerIsNotValidator
  /-- "Signers are not sorted" -/
  | signersNotSorted
  /-- The aggregate verifier reverts. -/
  | verificationFailed
  /-- "New validator set must have a validFrom greater than the last set" -/
  | validFromNotGreater
  /-- "Validator already exists" -/
  | validatorAlreadyExists
  /-- Checked arithmetic overflows. -/
  | overflow

/-- Run a call that uses the mints and burns only. -/
def onRollup {α : Type} (p : Call α) : Program Storage BlockRevert α :=
  Program.zoom Storage.toRollup (fun rollup self => { self with toRollup := rollup })
    (p.mapErr BlockRevert.txn)

/-! ## Recent roots -/

/-- `addRootHash`. -/
def Storage.addRootHash (self : Storage) (rootHash : Element) : Storage :=
  { self with
    rootHashes := Function.update self.rootHashes self.nextRootHashIndex rootHash
    nextRootHashIndex := self.nextRootHashIndex + 1 }

/-- `currentRootHash`. -/
def Storage.currentRootHash (self : Storage) : Element :=
  if self.nextRootHashIndex > 0 then self.rootHashes (self.nextRootHashIndex - 1)
  else self.rootHashes 63

/-- `containsRootHashes`. -/
def Storage.containsRootHashes (self : Storage) (hashes : Fin 6 → Element) : Bool :=
  (List.finRange 6).all fun i =>
    (List.finRange 64).any fun j => hashes i == self.rootHashes j || hashes i == 0

/-! ## Validator sets -/

/-- `getValidatorSets`. -/
def Storage.getValidatorSets (self : Storage) (start : ℕ) : Option (List PublicValidatorSet) :=
  if self.validatorSets.length < start then none
  else
    some ((self.validatorSets.drop start).map fun set => ⟨set.validatorsArray, set.validFrom⟩)

/-- `getValidators`. -/
def Storage.getValidators (self : Storage) : ValidatorSet :=
  self.validatorSets.getD self.validatorSetIndex ⟨fun _ => false, [], 0⟩

/-- The loop of `_setValidators`. -/
def markValidators : List Address → (Address → Bool) → Outcome BlockRevert (Address → Bool)
  | [], validators => .ok validators
  | validator :: rest, validators =>
    if validators validator then .err .validatorAlreadyExists
    else markValidators rest (Function.update validators validator true)

/-- `_setValidators`. -/
def setValidatorsUnchecked (validFrom : ℕ) (validators : List Address) :
    Program Storage BlockRevert Unit := do
  let self ← Program.get
  Program.ensure (self.validatorSets.getLast?.all fun last => last.validFrom < validFrom)
    .validFromNotGreater
  let marked ← Program.lift (markValidators validators fun _ => false)
  Program.modify fun self =>
    { self with validatorSets := self.validatorSets ++ [⟨marked, validators, validFrom⟩] }

/-- `setValidators`. -/
def setValidators (isOwner : Bool) (validFrom : ℕ) (validators : List Address) :
    Program Storage BlockRevert Unit := do
  Program.ensure isOwner .notOwner
  setValidatorsUnchecked validFrom validators

/-- The loop of `updateValidatorSetIndex`, over the sets from index `i` on. -/
def advanceIndex (height : ℕ) : List ValidatorSet → ℕ → ℕ → ℕ
  | [], _, index => index
  | set :: rest, i, index =>
    if set.validFrom > height then index else advanceIndex height rest (i + 1) i

/-- `updateValidatorSetIndex`. -/
def Storage.updateValidatorSetIndex (self : Storage) (height : ℕ) : Storage :=
  { self with
    validatorSetIndex := advanceIndex height (self.validatorSets.drop (self.validatorSetIndex + 1))
      (self.validatorSetIndex + 1) self.validatorSetIndex }

/-! ## Blocks -/

/-- The three hashes of a transaction. -/
structure UtxoHashes where
  recentRoot : Element
  mb : Element
  value : Element

/-- The arguments of `verifyBlock2`. -/
structure BlockProof where
  aggrProof : Bytes
  aggrInstances : Fin 12 → Element
  oldRoot : Element
  newRoot : Element
  utxoHashes : Fin 6 → UtxoHashes
  otherHashFromBlockHash : Element
  height : ℕ
  signatures : List Signature

/-- Who verifies a block, and how other contracts and the libraries answer. -/
structure BlockExternal where
  msgSender : Address
  /-- The calls that `verifyTxn` makes for each transaction. -/
  txns : Fin 6 → External
  keccak256 : Bytes → Element
  /-- `ECDSA.recover`, which reverts on an invalid signature. -/
  recover : Element → BitVec 8 → Element → Element → Option Address
  /-- `aggregateVerifier.verify` returns. -/
  aggregateVerifies : Bytes → (Fin 12 → Element) → Element → Element → (Fin 6 → UtxoHashes) → Bool

section Verification

variable (ext : BlockExternal)

/-- `proposalHash`. -/
def proposalHash (newRoot : Element) (height : ℕ) (otherHashFromBlockHash : Element) : Element :=
  ext.keccak256 (Node.beBytes 32 newRoot.toNat ++ Node.beBytes 32 height ++
    Node.beBytes 32 otherHashFromBlockHash.toNat)

/-- `acceptMsg`. -/
def acceptMsg (height : ℕ) (proposalHash : Element) : Element :=
  ext.keccak256 (Node.beBytes 32 (height + 1) ++ Node.beBytes 32 proposalHash.toNat)

/-- `sigMsg`: the network's name goes before the message. -/
def sigMsg (acceptMsg : Element) : Element :=
  ext.keccak256 (Node.beBytes 8 5 ++ [0x54, 0x65, 0x6d, 0x70, 0x6f] ++
    Node.beBytes 32 acceptMsg.toNat)

/-- The loop over the signatures. -/
def checkSignatures (validatorSet : ValidatorSet) (msg : Element) :
    Address → List Signature → Outcome BlockRevert Unit
  | _, [] => .ok ()
  | previous, signature :: rest =>
    match ext.recover msg (BitVec.ofNat 8 signature.v) signature.r signature.s with
    | none => .err .invalidSignature
    | some signer =>
      if !validatorSet.validators signer then .err .signerIsNotValidator
      else if !(signer > previous) then .err .signersNotSorted
      else checkSignatures validatorSet msg signer rest

/-- The loop over the mints and burns. -/
def verifyTxns (utxoHashes : Fin 6 → UtxoHashes) : List (Fin 6) → Call Unit
  | [] => pure ()
  | i :: rest => do
    verifyTxn (ext.txns i) (utxoHashes i).mb (utxoHashes i).value
    verifyTxns utxoHashes rest

/-- `verifyBlock2` after the validator set is chosen. -/
def verifyWith (validatorSet : ValidatorSet) (block : BlockProof) :
    Program Storage BlockRevert Unit := do
  let self ← Program.get
  Program.ensure (block.oldRoot = self.currentRootHash) .oldRootMismatch
  onRollup (verifyTxns ext block.utxoHashes (List.finRange 6))
  let self ← Program.get
  Program.ensure (self.containsRootHashes fun i => (block.utxoHashes i).recentRoot)
    .invalidRecentRoots
  let minValidators := validatorSet.validatorsArray.length * 2 / 3 + 1
  Program.ensure (block.signatures.length ≥ minValidators) .notEnoughSignatures
  let hash := proposalHash ext block.newRoot block.height block.otherHashFromBlockHash
  Program.ensure (block.height + 1 < 2 ^ 256) .overflow
  Program.ensure (block.signatures.length > 0) .noSignatures
  Program.lift
    (checkSignatures ext validatorSet (sigMsg ext (acceptMsg ext block.height hash)) 0
      block.signatures)
  Program.ensure
    (ext.aggregateVerifies block.aggrProof block.aggrInstances block.oldRoot block.newRoot
      block.utxoHashes) .verificationFailed
  Program.modify fun self =>
    { self.addRootHash block.newRoot with blockHash := hash, blockHeight := block.height }

/-- `verifyBlock2`. -/
def verifyBlock2 (block : BlockProof) : Program Storage BlockRevert Unit := do
  let self ← Program.get
  Program.ensure (self.provers ext.msgSender) .notProver
  Program.modify fun self => self.updateValidatorSetIndex block.height
  let self ← Program.get
  verifyWith ext self.getValidators block

end Verification

/-- `initialize`. -/
def initializeRollup (prover : Address) (initialValidators : List Address)
    (emptyMerkleTreeRootHash : Element) : Program Storage BlockRevert Unit := do
  Program.modify fun self => { self with provers := Function.update self.provers prover true }
  setValidatorsUnchecked 0 initialValidators
  Program.modify fun self => self.addRootHash emptyMerkleTreeRootHash

/-! ## Calls -/

/-- A call of the contract. -/
inductive ChainCall
  | rollup (verifiers : Verifiers) (ext : External) (entry : Entry)
  | addProver (isOwner : Bool) (prover : Address)
  | setRoot (isOwner : Bool) (newRoot : Element)
  | setValidators (isOwner : Bool) (validFrom : ℕ) (validators : List Address)
  | verifyBlock2 (ext : BlockExternal) (block : BlockProof)

/-- The program of a call. -/
def ChainCall.run : ChainCall → Program Storage BlockRevert Unit
  | .rollup verifiers ext entry => onRollup (entry.call verifiers ext)
  | .addProver isOwner prover => do
    Program.ensure isOwner .notOwner
    Program.modify fun self => { self with provers := Function.update self.provers prover true }
  | .setRoot isOwner newRoot => do
    Program.ensure isOwner .notOwner
    Program.modify fun self => self.addRootHash newRoot
  | .setValidators isOwner validFrom validators =>
    Contract.setValidators isOwner validFrom validators
  | .verifyBlock2 ext block => Contract.verifyBlock2 ext block

/-- The storage after a call; a call that reverts changes nothing. -/
def Storage.step (self : Storage) (call : ChainCall) : Storage :=
  (Program.atomically call.run self).2

/-! ## Validator sets in every run -/

section Sets

variable {s s' : Storage}

/-- What holds of the validator sets: the first is valid from height zero, each of the others from
a greater height than the one before, and the index is that of a set that is valid at the height
of the last verified block. -/
structure Storage.Sets (s : Storage) : Prop where
  sorted : s.validatorSets.Pairwise fun a b => a.validFrom < b.validFrom
  first : s.validatorSets.head?.map ValidatorSet.validFrom = some 0
  index : ∃ set, s.validatorSets[s.validatorSetIndex]? = some set ∧ set.validFrom ≤ s.blockHeight

/-- The part of the storage that the choice of a validator set reads. -/
def Storage.setsView (s : Storage) : List ValidatorSet × ℕ × ℕ :=
  (s.validatorSets, s.validatorSetIndex, s.blockHeight)

/-- What holds of the validator sets depends on no other part of the storage. -/
lemma Storage.Sets.congr (h : s.Sets) (heq : s'.setsView = s.setsView) : s'.Sets := by
  simp only [Storage.setsView, Prod.mk.injEq] at heq
  obtain ⟨hsets, hindex, hheight⟩ := heq
  exact ⟨hsets ▸ h.sorted, hsets ▸ h.first, by rw [hsets, hindex, hheight]; exact h.index⟩

/-- **The loop of `updateValidatorSetIndex`** stops at a set that is valid at the height, before
one that is not. By induction on the sets that are left. -/
lemma advanceIndex_spec (height : ℕ) {sets rest : List ValidatorSet} {index : ℕ}
    {set : ValidatorSet} (hrest : sets.drop (index + 1) = rest) (hset : sets[index]? = some set)
    (hvalid : set.validFrom ≤ height) :
    ∃ last, sets[advanceIndex height rest (index + 1) index]? = some last ∧
      last.validFrom ≤ height ∧
      ∀ next ∈ (sets.drop (advanceIndex height rest (index + 1) index + 1)).head?,
        height < next.validFrom := by
  induction rest generalizing index set with
  | nil =>
    refine ⟨set, hset, hvalid, fun next hnext => ?_⟩
    rw [advanceIndex, hrest] at hnext
    cases hnext
  | cons next rest ih =>
    rw [advanceIndex]
    split_ifs with hlater
    · refine ⟨set, hset, hvalid, fun next' hnext' => ?_⟩
      rw [hrest, List.head?_cons, Option.mem_some_iff] at hnext'
      rw [← hnext']
      exact hlater
    · have hnext : sets[index + 1]? = some next := by
        rw [← List.head?_drop, hrest, List.head?_cons]
      have hdrop : sets.drop (index + 1 + 1) = rest := by
        rw [← List.tail_drop, hrest, List.tail_cons]
      exact ih hdrop hnext (not_lt.1 hlater)

/-- **The set that a block is verified with**, at a height that is not below that of the last
verified block: the last one that is valid at the height.

**Proof sketch.** The index moves to the last set that is valid at the height (`advanceIndex_spec`).
The sets after it are sorted by the height they are valid from, so that none of them is valid if the
next one is not. -/
theorem Storage.Sets.getValidators_update (h : s.Sets) {height : ℕ}
    (hheight : s.blockHeight ≤ height) :
    ∃ before after set, s.validatorSets = before ++ set :: after ∧
      (s.updateValidatorSetIndex height).validatorSetIndex = before.length ∧
      (s.updateValidatorSetIndex height).getValidators = set ∧ set.validFrom ≤ height ∧
      ∀ later ∈ after, height < later.validFrom := by
  obtain ⟨set, hset, hvalid⟩ := h.index
  obtain ⟨last, hlast, hle, hnext⟩ := advanceIndex_spec height rfl hset (hvalid.trans hheight)
  set i := advanceIndex height (s.validatorSets.drop (s.validatorSetIndex + 1))
    (s.validatorSetIndex + 1) s.validatorSetIndex with hi
  obtain ⟨hlt, hget⟩ := List.getElem?_eq_some_iff.1 hlast
  refine ⟨s.validatorSets.take i, s.validatorSets.drop (i + 1), last, ?_, ?_, ?_, hle, ?_⟩
  · rw [← hget, List.getElem_cons_drop, List.take_append_drop]
  · rw [List.length_take, min_eq_left hlt.le]
    rfl
  · rw [Storage.getValidators, List.getD_eq_getElem?_getD]
    change (s.validatorSets[i]?).getD _ = last
    rw [hlast, Option.getD_some]
  · have hsorted : (s.validatorSets.drop (i + 1)).Pairwise fun a b => a.validFrom < b.validFrom :=
      h.sorted.sublist (List.drop_sublist _ _)
    intro later hlater
    cases hafter : s.validatorSets.drop (i + 1) with
    | nil =>
      rw [hafter] at hlater
      cases hlater
    | cons next rest =>
      rw [hafter] at hlater hsorted hnext
      have hfirst := hnext next (by simp)
      rcases List.mem_cons.1 hlater with rfl | hmem
      · exact hfirst
      · exact hfirst.trans ((List.pairwise_cons.1 hsorted).1 later hmem)

end Sets

/-! ## What calls change -/

section Calls

variable {ext : BlockExternal} {s s' : Storage}

/-- The last roots that were added, as a ring buffer. -/
def Storage.roots (s : Storage) : RingBuffer Element 64 := ⟨s.rootHashes, s.nextRootHashIndex⟩

/-- Adding a root pushes it on the ring. -/
lemma Storage.roots_addRootHash (s : Storage) (rootHash : Element) :
    (s.addRootHash rootHash).roots = s.roots.push rootHash := rfl

/-- A call that uses the mints and burns only changes nothing else. -/
lemma onRollup_eq_ok {α : Type} {p : Call α} {a : α} (h : onRollup p s = (.ok a, s')) :
    ∃ rollup, s' = { s with toRollup := rollup } := by
  unfold onRollup Program.zoom at h
  exact ⟨_, (Prod.ext_iff.1 h).2.symm⟩

/-- **A verified block**: it adds its root, after its transactions' recent roots were found. -/
lemma verifyWith_eq_ok {set : ValidatorSet} {block : BlockProof} {u : Unit}
    (h : verifyWith ext set block s = (.ok u, s')) :
    s.containsRootHashes (fun i => (block.utxoHashes i).recentRoot) = true ∧
      s'.setsView = (s.validatorSets, s.validatorSetIndex, block.height) ∧
      s'.roots = s.roots.push block.newRoot := by
  rw [verifyWith, Program.get_bind_eq_ok, Program.ensure_bind_eq_ok] at h
  obtain ⟨-, hrest⟩ := h
  obtain ⟨_, s₁, htxns, hrest⟩ := Program.bind_eq_ok.1 hrest
  obtain ⟨rollup, rfl⟩ := onRollup_eq_ok htxns
  simp only [Program.get_bind_eq_ok, Program.ensure_bind_eq_ok] at hrest
  obtain ⟨hcontains, -, -, -, hrest⟩ := hrest
  obtain ⟨_, s₂, hsigs, hrest⟩ := Program.bind_eq_ok.1 hrest
  rw [Program.run_lift, Prod.mk.injEq] at hsigs
  rw [Program.ensure_bind_eq_ok, Program.modify_eq_ok] at hrest
  obtain ⟨-, rfl⟩ := hrest
  rw [← hsigs.2]
  exact ⟨hcontains, rfl, rfl⟩

/-- What a call of `verifyBlock2` changes when it returns. -/
lemma verifyBlock2_eq_ok {block : BlockProof} {u : Unit}
    (h : verifyBlock2 ext block s = (.ok u, s')) :
    s.containsRootHashes (fun i => (block.utxoHashes i).recentRoot) = true ∧
      s'.setsView = (s.validatorSets, (s.updateValidatorSetIndex block.height).validatorSetIndex,
        block.height) ∧
      s'.roots = s.roots.push block.newRoot := by
  simp only [verifyBlock2, Program.get_bind_eq_ok, Program.ensure_bind_eq_ok,
    Program.modify_bind_eq_ok] at h
  exact verifyWith_eq_ok h.2

/-- Validators that are all marked differ, and none of them was marked before. By induction on
the validators. -/
lemma nodup_of_markValidators {validators : List Address} {before marked : Address → Bool}
    (h : markValidators validators before = .ok marked) :
    validators.Nodup ∧ ∀ validator ∈ validators, before validator = false := by
  induction validators generalizing before with
  | nil => exact ⟨List.nodup_nil, fun _ hv => absurd hv List.not_mem_nil⟩
  | cons validator rest ih =>
    unfold markValidators at h
    split_ifs at h with hmarked
    obtain ⟨hnodup, hbefore⟩ := ih h
    have hnot : validator ∉ rest := by
      intro hmem
      have hfalse := hbefore validator hmem
      rw [Function.update_self] at hfalse
      cases hfalse
    refine ⟨List.nodup_cons.2 ⟨hnot, hnodup⟩, List.forall_mem_cons.2
      ⟨Bool.eq_false_iff.2 hmarked, fun v hv => ?_⟩⟩
    have hne : v ≠ validator := fun heq => hnot (heq ▸ hv)
    rw [← hbefore v hv, Function.update_of_ne hne]

/-- The set has the mapping that `_setValidators` fills next to its array. -/
def ValidatorSet.Registered (set : ValidatorSet) : Prop :=
  markValidators set.validatorsArray (fun _ => false) = .ok set.validators

/-- A new validator set is registered after the others, for a greater height. -/
lemma setValidatorsUnchecked_eq_ok {validFrom : ℕ} {validators : List Address} {u : Unit}
    (h : setValidatorsUnchecked validFrom validators s = (.ok u, s')) :
    ∃ marked,
      s' = { s with validatorSets := s.validatorSets ++ [⟨marked, validators, validFrom⟩] } ∧
      markValidators validators (fun _ => false) = .ok marked ∧
      ∀ last ∈ s.validatorSets.getLast?, last.validFrom < validFrom := by
  rw [setValidatorsUnchecked, Program.get_bind_eq_ok, Program.ensure_bind_eq_ok] at h
  obtain ⟨hlast, hrest⟩ := h
  obtain ⟨marked, s₁, hmark, hrest⟩ := Program.bind_eq_ok.1 hrest
  rw [Program.run_lift, Prod.mk.injEq] at hmark
  rw [Program.modify_eq_ok, ← hmark.2] at hrest
  refine ⟨marked, hrest, hmark.1, fun last hmem => ?_⟩
  rw [Option.mem_def.1 hmem] at hlast
  simpa using hlast

/-- The blocks that a call rolls up. -/
def Storage.rolledUpBy (s : Storage) : ChainCall → List BlockProof
  | .verifyBlock2 ext block => if (verifyBlock2 ext block s).1.isOk then [block] else []
  | _ => []

/-- **What a call can do** to the validator sets and the recent roots: nothing, or it is one of
the three calls that are for that.

**Proof sketch.** By cases on the call. One that reverts changes nothing, and mints and burns change
another part of the storage. -/
theorem Storage.step_cases (s : Storage) (call : ChainCall) :
    ((s.step call).setsView = s.setsView ∧ (s.step call).roots = s.roots ∧
      s.rolledUpBy call = []) ∨
    (∃ isOwner newRoot, call = .setRoot isOwner newRoot ∧ (s.step call).setsView = s.setsView) ∨
    (∃ isOwner validFrom validators marked, call = .setValidators isOwner validFrom validators ∧
      markValidators validators (fun _ => false) = .ok marked ∧
      (∀ last ∈ s.validatorSets.getLast?, last.validFrom < validFrom) ∧
      s.step call =
        { s with validatorSets := s.validatorSets ++ [⟨marked, validators, validFrom⟩] }) ∨
    (∃ ext block, call = .verifyBlock2 ext block ∧ s.rolledUpBy call = [block] ∧
      (s.step call).setsView = (s.validatorSets,
        (s.updateValidatorSetIndex block.height).validatorSetIndex, block.height) ∧
      (s.step call).roots = s.roots.push block.newRoot) := by
  rcases hrun : call.run s with ⟨u | e | _, s'⟩
  · have hstep : s.step call = s' := by rw [Storage.step, Program.atomically, hrun]
    rw [hstep]
    cases call with
    | rollup verifiers ext entry =>
      obtain ⟨rollup, rfl⟩ := onRollup_eq_ok hrun
      exact .inl ⟨rfl, rfl, rfl⟩
    | addProver isOwner prover =>
      rw [ChainCall.run, Program.ensure_bind_eq_ok, Program.modify_eq_ok] at hrun
      exact .inl ⟨by rw [hrun.2]; rfl, by rw [hrun.2]; rfl, rfl⟩
    | setRoot isOwner newRoot =>
      rw [ChainCall.run, Program.ensure_bind_eq_ok, Program.modify_eq_ok] at hrun
      exact .inr (.inl ⟨isOwner, newRoot, rfl, by rw [hrun.2]; rfl⟩)
    | setValidators isOwner validFrom validators =>
      rw [ChainCall.run, setValidators, Program.ensure_bind_eq_ok] at hrun
      obtain ⟨marked, heq, hmark, hlast⟩ := setValidatorsUnchecked_eq_ok hrun.2
      exact .inr (.inr (.inl ⟨isOwner, validFrom, validators, marked, rfl, hmark, hlast, heq⟩))
    | verifyBlock2 ext block =>
      obtain ⟨-, hview, hroots⟩ := verifyBlock2_eq_ok hrun
      have hrolled : s.rolledUpBy (.verifyBlock2 ext block) = [block] := by
        rw [ChainCall.run] at hrun
        rw [Storage.rolledUpBy, hrun]
        rfl
      exact .inr (.inr (.inr ⟨ext, block, rfl, hrolled, hview, hroots⟩))
  all_goals
    -- a call that reverts changes nothing
    have hstep : s.step call = s := by rw [Storage.step, Program.atomically, hrun]
    refine .inl ⟨by rw [hstep], by rw [hstep], ?_⟩
    cases call with
    | verifyBlock2 ext block =>
      rw [ChainCall.run] at hrun
      rw [Storage.rolledUpBy, hrun]
      rfl
    | _ => rfl

/-- A list that grows by an element above its last one stays sorted. -/
lemma Storage.Sets.append (h : s.Sets) {set : ValidatorSet}
    (hlast : ∀ last ∈ s.validatorSets.getLast?, last.validFrom < set.validFrom) :
    { s with validatorSets := s.validatorSets ++ [set] }.Sets := by
  refine ⟨?_, ?_, ?_⟩
  · rw [List.pairwise_append]
    refine ⟨h.sorted, List.pairwise_singleton _ _, fun a ha b hb => ?_⟩
    rw [List.mem_singleton.1 hb]
    obtain ⟨init, last, heq⟩ : ∃ init last, s.validatorSets = init ++ [last] :=
      ⟨_, _, (List.dropLast_append_getLast (List.ne_nil_of_mem ha)).symm⟩
    have hsorted := h.sorted
    rw [heq] at ha hlast hsorted
    have hset := hlast last (by simp)
    rcases List.mem_append.1 ha with hinit | hmem
    · exact ((List.pairwise_append.1 hsorted).2.2 a hinit last (by simp)).trans hset
    · rw [List.mem_singleton.1 hmem]
      exact hset
  · have hfirst := h.first
    cases hsets : s.validatorSets with
    | nil =>
      rw [hsets] at hfirst
      cases hfirst
    | cons first rest =>
      rw [hsets] at hfirst
      exact hfirst
  · obtain ⟨set', hset', hvalid⟩ := h.index
    refine ⟨set', ?_, hvalid⟩
    rw [List.getElem?_append_left (List.getElem?_eq_some_iff.1 hset').1]
    exact hset'

/-- The verifications of a run are at non-decreasing heights. -/
def ChainCall.NotBelow (s : Storage) : ChainCall → Prop
  | .verifyBlock2 _ block => s.blockHeight ≤ block.height
  | _ => True

/-- **One call** keeps what holds of the validator sets. -/
theorem Storage.Sets.step (h : s.Sets) {call : ChainCall} (hcall : call.NotBelow s) :
    (s.step call).Sets := by
  rcases s.step_cases call with ⟨hview, -, -⟩ | ⟨isOwner, newRoot, -, hview⟩ |
    ⟨isOwner, validFrom, validators, marked, -, -, hlast, heq⟩ | ⟨ext, block, rfl, -, hview, -⟩
  · exact h.congr hview
  · exact h.congr hview
  · rw [heq]
    exact h.append hlast
  · simp only [Storage.setsView, Prod.mk.injEq] at hview
    obtain ⟨hsets, hindex, hheight⟩ := hview
    obtain ⟨before, after, set, heq, hlen, -, hvalid, -⟩ := h.getValidators_update hcall
    refine ⟨hsets ▸ h.sorted, hsets ▸ h.first, set, ?_, hheight ▸ hvalid⟩
    rw [hsets, hindex, hlen, heq, List.getElem?_append_right le_rfl, Nat.sub_self,
      List.getElem?_cons_zero]

/-- A call leaves the registered sets alone, or registers one more. -/
lemma Storage.validatorSets_step (call : ChainCall) :
    (s.step call).validatorSets = s.validatorSets ∨
      ∃ isOwner set, call = .setValidators isOwner set.validFrom set.validatorsArray ∧
        set.Registered ∧ (s.step call).validatorSets = s.validatorSets ++ [set] := by
  rcases s.step_cases call with ⟨hview, -, -⟩ | ⟨isOwner, newRoot, -, hview⟩ |
    ⟨isOwner, validFrom, validators, marked, rfl, hmark, -, heq⟩ | ⟨ext, block, rfl, -, hview, -⟩
  · exact .inl (congrArg Prod.fst hview)
  · exact .inl (congrArg Prod.fst hview)
  · exact .inr ⟨isOwner, ⟨marked, validators, validFrom⟩, rfl, hmark, by rw [heq]⟩
  · exact .inl (congrArg Prod.fst hview)

/-- A set that is registered after a call was registered before, or by the call. -/
lemma Storage.mem_validatorSets_step {call : ChainCall} {set : ValidatorSet}
    (hset : set ∈ (s.step call).validatorSets) :
    set ∈ s.validatorSets ∨
      ∃ isOwner, call = .setValidators isOwner set.validFrom set.validatorsArray := by
  rcases s.validatorSets_step call with hsame | ⟨isOwner, set', rfl, -, happend⟩
  · rw [hsame] at hset
    exact .inl hset
  · rw [happend] at hset
    rcases List.mem_append.1 hset with hmem | hnew
    · exact .inl hmem
    · rw [List.mem_singleton.1 hnew]
      exact .inr ⟨isOwner, rfl⟩

/-- The contract starts with one validator set, that is valid from height zero. -/
lemma initializeRollup_eq_ok {prover : Address} {initialValidators : List Address}
    {emptyMerkleTreeRootHash : Element} {u : Unit}
    (h : initializeRollup prover initialValidators emptyMerkleTreeRootHash .empty = (.ok u, s)) :
    (∃ set : ValidatorSet, set.validatorsArray = initialValidators ∧ set.validFrom = 0 ∧
        set.Registered ∧ s.setsView = ([set], 0, 0)) ∧
      s.roots = Storage.empty.roots.push emptyMerkleTreeRootHash := by
  rw [initializeRollup, Program.modify_bind_eq_ok] at h
  obtain ⟨_, s₁, hset, hroot⟩ := Program.bind_eq_ok.1 h
  obtain ⟨marked, rfl, hmark, -⟩ := setValidatorsUnchecked_eq_ok hset
  rw [Program.modify_eq_ok] at hroot
  rw [hroot]
  exact ⟨⟨⟨marked, initialValidators, 0⟩, rfl, rfl, hmark, rfl⟩, rfl⟩

/-- What holds of the first validator set. -/
lemma Storage.sets_of_view {set : ValidatorSet} (hzero : set.validFrom = 0)
    (h : s.setsView = ([set], 0, 0)) : s.Sets := by
  simp only [Storage.setsView, Prod.mk.injEq] at h
  obtain ⟨hsets, hindex, -⟩ := h
  refine ⟨?_, ?_, set, ?_, hzero.trans_le (Nat.zero_le _)⟩
  · rw [hsets]
    exact List.pairwise_singleton _ _
  · rw [hsets, List.head?_cons, Option.map_some, hzero]
  · rw [hsets, hindex]
    rfl

/-! ## Recent roots in every run -/

/-- The blocks that a run rolls up, in order. -/
def Storage.rolledUp (s : Storage) : List ChainCall → List BlockProof
  | [] => []
  | call :: calls => s.rolledUpBy call ++ (s.step call).rolledUp calls

/-- The storage after a run. -/
def Storage.run (s : Storage) (calls : List ChainCall) : Storage := calls.foldl Storage.step s

/-- The call is not an administrative `setRoot`. -/
def ChainCall.NotSetRoot : ChainCall → Prop
  | .setRoot _ _ => False
  | _ => True

/-- **One call** adds the root of the block that it rolls up. -/
lemma Storage.recent_step {roots : List Element} (h : s.roots.Recent roots) {call : ChainCall}
    (hcall : call.NotSetRoot) :
    (s.step call).roots.Recent (((s.rolledUpBy call).map BlockProof.newRoot).reverse ++ roots) := by
  rcases s.step_cases call with ⟨-, hroots, hrolled⟩ | ⟨isOwner, newRoot, rfl, -⟩ |
    ⟨isOwner, validFrom, validators, marked, rfl, -, -, heq⟩ | ⟨ext, block, rfl, hrolled, -, hroots⟩
  · rw [hroots, hrolled]
    exact h
  · exact hcall.elim
  · rw [heq]
    exact h
  · rw [hroots, hrolled]
    exact h.push block.newRoot

/-- **Recent roots in every run**: those of the blocks that were rolled up, the newest first. By
induction on the calls. -/
theorem Storage.recent_run {roots : List Element} (h : s.roots.Recent roots)
    {calls : List ChainCall} (hcalls : ∀ call ∈ calls, call.NotSetRoot) :
    (s.run calls).roots.Recent (((s.rolledUp calls).map BlockProof.newRoot).reverse ++ roots) := by
  induction calls generalizing s roots with
  | nil => exact h
  | cons call calls ih =>
    rw [List.forall_mem_cons] at hcalls
    have hrest := ih (Storage.recent_step h hcalls.1) hcalls.2
    rw [Storage.rolledUp, List.map_append, List.reverse_append, List.append_assoc]
    exact hrest

/-- Hashes are contained if each of them is zero or in a slot. -/
lemma Storage.containsRootHashes_iff (s : Storage) (hashes : Fin 6 → Element) :
    s.containsRootHashes hashes = true ↔
      ∀ i, hashes i = 0 ∨ ∃ j, s.rootHashes j = hashes i := by
  rw [Storage.containsRootHashes, List.all_eq_true]
  constructor
  · intro h i
    obtain ⟨j, -, hj⟩ := List.any_eq_true.1 (h i (List.mem_finRange i))
    rcases Bool.or_eq_true_iff.1 hj with heq | hzero
    · exact .inr ⟨j, (eq_of_beq heq).symm⟩
    · exact .inl (eq_of_beq hzero)
  · intro h i _
    rw [List.any_eq_true]
    rcases h i with hzero | ⟨j, hj⟩
    · exact ⟨0, List.mem_finRange 0, by simp [hzero]⟩
    · exact ⟨j, List.mem_finRange j, by simp [hj]⟩

/-- The current root is in the slot before the next one; the slot before the first is the last. -/
lemma Storage.currentRootHash_eq (s : Storage) :
    s.currentRootHash = s.roots.slots (s.roots.next - 1) := by
  unfold Storage.currentRootHash
  split_ifs with hpos
  · rfl
  · have hzero : s.nextRootHashIndex = 0 := by
      rw [gt_iff_lt, Fin.pos_iff_ne_zero, not_not] at hpos
      exact hpos
    change s.rootHashes 63 = s.rootHashes (s.nextRootHashIndex - 1)
    rw [hzero]
    rfl

/-- Adding roots pushes them on the ring. -/
lemma Storage.roots_foldl_addRootHash (s : Storage) (roots : List Element) :
    (roots.foldl Storage.addRootHash s).roots = roots.foldl RingBuffer.push s.roots := by
  induction roots generalizing s with
  | nil => rfl
  | cons root roots ih => rw [List.foldl_cons, ih, Storage.roots_addRootHash, List.foldl_cons]

/-- **The roots that are found**: after any roots were added to a storage without roots, the current
root is the last of them, and hashes are contained exactly if each of them is zero or one of the
last 64 roots.

**Proof sketch.** Adding roots is pushing them on the ring (`roots_foldl_addRootHash`), which has
the last 64 of them in its slots (`RingBuffer.Holds.foldl_push`). -/
theorem Storage.rootHashes_added (s : Storage) (hs : s.roots = Storage.empty.roots)
    (roots : List Element) (last : Element) (hashes : Fin 6 → Element) :
    ((roots ++ [last]).foldl Storage.addRootHash s).currentRootHash = last ∧
      (((roots ++ [last]).foldl Storage.addRootHash s).containsRootHashes hashes = true ↔
        ∀ i, hashes i = 0 ∨ hashes i ∈ (roots ++ [last]).reverse.take 64) := by
  have hempty : s.roots.Holds 0 [] := RingBuffer.holds_nil fun j => by rw [hs]; rfl
  have hroots := s.roots_foldl_addRootHash (roots ++ [last])
  have hholds := hempty.foldl_push (roots ++ [last])
  rw [← hroots, List.append_nil] at hholds
  constructor
  · rw [Storage.currentRootHash_eq]
    refine (hholds 0 (by decide)).trans ?_
    rw [List.reverse_append]
    rfl
  · rw [Storage.containsRootHashes_iff]
    refine forall_congr' fun i => ?_
    by_cases hzero : hashes i = 0
    · simp [hzero]
    · rw [← hholds.exists_slot_iff hzero]
      rfl

/-- 65 roots: the first one is overwritten. -/
theorem Storage.rootHashes_added_sample :
    (((List.range 64).map (fun i => BitVec.ofNat 256 (i + 1)) ++ [7]).foldl Storage.addRootHash
        Storage.empty).currentRootHash = 7 ∧
      (((List.range 64).map (fun i => BitVec.ofNat 256 (i + 1)) ++ [7]).foldl Storage.addRootHash
        Storage.empty).containsRootHashes (fun _ => 1) = false := by
  have h := Storage.rootHashes_added .empty rfl
    ((List.range 64).map fun i => BitVec.ofNat 256 (i + 1)) 7 fun _ => 1
  refine ⟨h.1, Bool.eq_false_iff.2 fun hcontains => ?_⟩
  exact absurd (h.2.1 hcontains 0) (by decide)

end Calls

end TempoRollup.Contract
