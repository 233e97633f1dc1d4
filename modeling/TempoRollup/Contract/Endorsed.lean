import TempoRollup.Contract.Digest
import TempoRollup.Contract.Signatures
import TempoRollup.Contract.Vault
import TempoRollup.Node.Ledger

set_option relaxedAutoImplicit false
set_option autoImplicit false

/-!
# Endorsed blocks

What the signatures of `verifyBlock2` (`src/rollup/RollupV5.sol`) say about the ledger of the nodes.
An honest validator signs the blocks that it proposes and the endorsements of blocks of the ledger
(`node/src/block.rs`, `doomslug/src/approval.rs`), and the contract puts an endorsement together
again from the root, the height and the hash of the header that a prover gives it. Provers are not
trusted: a block is verified against the ledger as soon as one of its signers is honest.

## Main definitions

* `SignedFor` — what an honest validator signs.
* `ValidatorSet.Trusted` — no quorum of a set is without an honest validator.
* `Storage.Settled` — the contract stands at a place of a ledger.
* `Vault.Settles` — runs of the contract with the libraries that the nodes use.

## Main results

* `SignedFor.exists_entry` — a signed message of a block is the endorsement of an entry.
* `exists_entry_of_verifyBlock2` — a verified block is an entry of the ledger.
* `Vault.Settles.exists_settled` — the contract stands at a place of the ledger in every run.

## Design

A verified block may skip entries of the ledger, and a block without leaves may be verified below
the height of the last one: the contract asks for neither. So a run of the contract does not follow
the ledger entry by entry, and `Storage.Settled` speaks of the last verified block only.
-/

open Exec

namespace TempoRollup.Contract

open Node (Primitives Hashing Ledger Block BlockContent ApprovalContent signedMessage beBytes)

/-! ## Messages -/

section Messages

/-- Each value is encoded as one word. -/
lemma length_abiEncode (values : List AbiValue) :
    (abiEncode values).length = 32 * values.length := by
  induction values with
  | nil => rfl
  | cons value values ih =>
    rw [abiEncode, List.flatMap_cons, List.length_append, Node.length_beBytes, ← abiEncode, ih,
      List.length_cons, Nat.mul_succ, Nat.add_comm]

/-- Words that fit are told from their encoding. By induction on them. -/
lemma abiEncode_inj {values values' : List AbiValue} (h : abiEncode values = abiEncode values')
    (hlen : values.length = values'.length) (hfit : ∀ value ∈ values, value.toNat < 256 ^ 32)
    (hfit' : ∀ value ∈ values', value.toNat < 256 ^ 32) :
    values.map AbiValue.toNat = values'.map AbiValue.toNat := by
  induction values generalizing values' with
  | nil => rw [List.length_eq_zero_iff.1 hlen.symm]
  | cons value values ih =>
    cases values' with
    | nil => cases hlen
    | cons value' values' =>
      rw [List.forall_mem_cons] at hfit hfit'
      rw [abiEncode, abiEncode, List.flatMap_cons, List.flatMap_cons] at h
      obtain ⟨hword, hrest⟩ := List.append_inj h (by simp only [Node.length_beBytes])
      rw [List.map_cons, List.map_cons, Node.beBytes_inj hfit.1 hfit'.1 hword,
        ih hrest (Nat.succ.inj hlen) hfit.2 hfit'.2]

/-- An element fits in one word. -/
lemma word_lt (x : Element) : x.toNat < 256 ^ 32 := lt_of_lt_of_eq x.isLt (by norm_num)

/-- The message of an endorsement tells its height and its hash. -/
lemma endorsement_inj {n m : ℕ} {x y : Element} (hn : n < 256 ^ 32) (hm : m < 256 ^ 32)
    (h : abiEncode [.uint256 n, .bytes32 x] = abiEncode [.uint256 m, .bytes32 y]) :
    n = m ∧ x = y := by
  have hfit : ∀ (n : ℕ) (x : Element), n < 256 ^ 32 →
      ∀ value ∈ [AbiValue.uint256 n, .bytes32 x], value.toNat < 256 ^ 32 := by
    intro n x hn
    simp only [List.forall_mem_cons]
    exact ⟨hn, word_lt x, fun _ h => absurd h List.not_mem_nil⟩
  have hwords := abiEncode_inj h rfl (hfit n x hn) (hfit m y hm)
  simp only [List.map_cons, List.map_nil, AbiValue.toNat, List.cons.injEq, and_true] at hwords
  exact ⟨hwords.1, BitVec.eq_of_toNat_eq hwords.2⟩

/-- The message of a block tells its root and its height. -/
lemma proposalMessage_inj {n m : ℕ} {root root' other other' : Element} (hn : n < 256 ^ 32)
    (hm : m < 256 ^ 32) (h : proposalMessage root n other = proposalMessage root' m other') :
    root = root' ∧ n = m := by
  have hfit : ∀ (root : Element) (n : ℕ) (other : Element), n < 256 ^ 32 →
      ∀ value ∈ [AbiValue.bytes32 root, .uint256 n, .bytes32 other], value.toNat < 256 ^ 32 := by
    intro root n other hn
    simp only [List.forall_mem_cons]
    exact ⟨word_lt root, hn, word_lt other, fun _ h => absurd h List.not_mem_nil⟩
  have hwords := abiEncode_inj h rfl (hfit root n other hn) (hfit root' m other' hm)
  simp only [List.map_cons, List.map_nil, AbiValue.toNat, List.cons.injEq, and_true] at hwords
  exact ⟨BitVec.eq_of_toNat_eq hwords.1, hwords.2.1⟩

/-- A signed message tells what it is about. -/
lemma sigMessage_inj {x y : Element} (h : sigMessage x = sigMessage y) : x = y := by
  simp only [sigMessage, abiEncodePacked, List.flatMap_cons, List.flatMap_nil, List.append_nil,
    AbiPart.packed, AbiValue.width, AbiValue.toNat] at h
  refine BitVec.eq_of_toNat_eq (Node.beBytes_inj (word_lt x) (word_lt y) ?_)
  exact List.append_cancel_left (List.append_cancel_left h)

/-- What the node signs in the network's name is what the contract hashes. -/
lemma signedMessage_eq (x : Element) : signedMessage x = sigMessage x := by
  simp only [signedMessage, sigMessage, abiEncodePacked, List.flatMap_cons, List.flatMap_nil,
    List.append_nil, List.append_assoc, AbiPart.packed, AbiValue.toNat, AbiValue.width,
    utf8_network, NETWORK_LEN]

/-- The message of a block of the node, from its root, its height and the hash of its header. -/
lemma message_eq (P : Primitives) (content : BlockContent) : content.message P =
    proposalMessage content.state.rootHash content.header.height (content.headerHash P) := by
  simp only [BlockContent.message, proposalMessage, abiEncode, List.flatMap_cons, List.flatMap_nil,
    List.append_nil, List.append_assoc, AbiValue.toNat]

/-- The message of an endorsement. -/
lemma endorsement_message (hash : Element) (targetHeight : ℕ) :
    (ApprovalContent.newEndorsement hash targetHeight).message =
      some (abiEncode [.uint256 targetHeight, .bytes32 hash]) := by
  simp only [ApprovalContent.newEndorsement, ApprovalContent.message, abiEncode, List.flatMap_cons,
    List.flatMap_nil, List.append_nil, AbiValue.toNat]

end Messages

/-! ## What validators sign -/

section Signing

variable (P : Primitives) (hashing : Hashing)

/-- **What an honest validator signs**: the blocks that it proposes, of any content, and the
endorsements of blocks of the ledger. -/
inductive SignedFor (log : List Block) : Element → Prop
  | proposal (content : BlockContent) (hmessage : content.message P ∈ hashing.messages)
    (hsigned : signedMessage (content.hash P) ∈ hashing.messages) :
    SignedFor log (P.keccak256 (signedMessage (content.hash P)))
  | endorsement {block : Block} (hmem : block ∈ log) {message : Bytes}
    (hendorsed : (ApprovalContent.newEndorsement (block.hash P)
      (Node.BlockHeight.next block.height)).message = some message)
    (hmessage : message ∈ hashing.messages)
    (hsigned : signedMessage (P.keccak256 message) ∈ hashing.messages) :
    SignedFor log (P.keccak256 (signedMessage (P.keccak256 message)))

/-- Signatures of honest validators are made by them. -/
def Unforgeable (log : List Block) (honest : Address → Bool)
    (recover : Element → BitVec 8 → Element → Element → Option Address) : Prop :=
  ∀ msg v r s signer, recover msg v r s = some signer → honest signer → SignedFor P hashing log msg

/-- The messages that the contract hashes for the signatures of a block. -/
def BlockProof.messages (block : BlockProof) : List Bytes :=
  let proposal := proposalMessage block.newRoot block.height block.otherHashFromBlockHash
  let accept := acceptMessage block.height (P.keccak256 proposal)
  [proposal, accept, sigMessage (P.keccak256 accept)]

/-- The messages of a block that is submitted for an entry are those of the entry and of its
endorsement. -/
lemma BlockProof.messages_eq (block : BlockProof) (entry : Block)
    (hroot : block.newRoot = entry.content.state.rootHash)
    (hheight : block.height = entry.content.header.height)
    (hother : block.otherHashFromBlockHash = entry.content.headerHash P) :
    block.messages P = [entry.content.message P, acceptMessage entry.content.header.height
      (entry.hash P), signedMessage (P.keccak256 (acceptMessage entry.content.header.height
        (entry.hash P)))] := by
  rw [messages, hroot, hheight, hother, ← message_eq, signedMessage_eq]
  rfl

/-- No quorum of the set is without an honest validator. -/
def ValidatorSet.Trusted (honest : Address → Bool) (set : ValidatorSet) : Prop :=
  set.validatorsArray.countP (fun validator => !honest validator) ≤
    set.validatorsArray.length * 2 / 3

/-- A quorum of a trusted set has an honest member. -/
lemma ValidatorSet.Trusted.exists_honest {honest : Address → Bool} {set : ValidatorSet}
    (h : set.Trusted honest) {signers : List Address} (hnodup : signers.Nodup)
    (hmembers : ∀ signer ∈ signers, signer ∈ set.validatorsArray)
    (henough : set.validatorsArray.length * 2 / 3 + 1 ≤ signers.length) :
    ∃ signer ∈ signers, honest signer = true := by
  by_contra hnone
  push Not at hnone
  have hsub : signers ⊆ set.validatorsArray.filter fun validator => !honest validator := by
    intro signer hsigner
    refine List.mem_filter.2 ⟨hmembers signer hsigner, ?_⟩
    rw [Bool.not_eq_true', Bool.eq_false_iff]
    exact hnone signer hsigner
  have hle := (hnodup.subperm hsub).length_le
  rw [← List.countP_eq_length_filter] at hle
  exact absurd (henough.trans (hle.trans h)) (Nat.not_succ_le_self _)

variable {P} {hashing} {log : List Block}

/-- **A signed message of a block is the endorsement of an entry** of the ledger, with its root, its
height and its hash: a proposal is a message of three words, an endorsement of two.

**Proof sketch.** Nothing collides, so that equal digests are of equal messages, from the signed
hash inwards. A proposal has three words and an acceptance two, so the signed message is an
endorsement; its hash is that of the entry, and the message behind it has the root and the height.
-/
theorem SignedFor.exists_entry (hcf : Set.InjOn P.keccak256 hashing.messages)
    (hlog : Ledger P hashing log) {block : BlockProof} (hheight : block.height + 1 < 2 ^ 256)
    (hmessages : ∀ message ∈ block.messages P, message ∈ hashing.messages) {msg : Element}
    (h : SignedFor P hashing log msg)
    (hmsg : msg = P.keccak256 (sigMessage (P.keccak256 (acceptMessage block.height
      (P.keccak256 (proposalMessage block.newRoot block.height block.otherHashFromBlockHash)))))) :
    ∃ entry ∈ log, block.newRoot = entry.rootHash ∧ block.height = entry.height ∧
      P.keccak256 (proposalMessage block.newRoot block.height block.otherHashFromBlockHash) =
        entry.hash P := by
  simp only [BlockProof.messages, List.forall_mem_cons] at hmessages
  obtain ⟨hproposal, haccept, hsig, -⟩ := hmessages
  have hword : (2 : ℕ) ^ 256 = 256 ^ 32 := by norm_num
  cases h with
  | proposal content hmessage hsigned =>
    have heq := hcf hsigned hsig hmsg
    rw [signedMessage_eq] at heq
    have heq' := congrArg List.length (hcf hmessage haccept (sigMessage_inj heq))
    rw [message_eq, proposalMessage, acceptMessage, length_abiEncode, length_abiEncode] at heq'
    cases heq'
  | @endorsement entry hmem message hendorsed hmessage hsigned =>
    have heq := hcf hsigned hsig hmsg
    rw [signedMessage_eq] at heq
    obtain rfl := hcf hmessage haccept (sigMessage_inj heq)
    rw [endorsement_message, Option.some.injEq, acceptMessage] at hendorsed
    have hnext : Node.BlockHeight.next entry.height < 256 ^ 32 :=
      (Nat.mod_lt _ (by decide)).trans (by decide)
    obtain ⟨-, hhash⟩ := endorsement_inj hnext (hword ▸ hheight) hendorsed
    obtain ⟨pre, -, hentry⟩ := hlog.exists_start hmem
    -- the message of the entry is hashed too, so the roots and the heights are the same
    have hmessage' : entry.content.message P ∈ hashing.messages :=
      hentry.covers.messages (.inr rfl)
    have hsame := hcf hmessage' hproposal hhash
    rw [message_eq] at hsame
    have hfits : entry.content.header.height < 256 ^ 32 :=
      hentry.covers.fits.height.trans (by decide)
    obtain ⟨hroot, hsameHeight⟩ := proposalMessage_inj hfits
      ((Nat.lt_of_succ_lt hheight).trans_eq hword) hsame
    exact ⟨entry, hmem, hroot.symm, hsameHeight.symm, hhash.symm⟩

/-- **A verified block is an entry of the ledger**, whoever the prover is, if one of the signers is
honest.

**Proof sketch.** The signers are as many distinct validators of the set as make a quorum, so one of
them is honest. What it signed is the endorsement of an entry (`SignedFor.exists_entry`), and the
contract computed the signed hash from the root, the height and the hash of the block. -/
theorem exists_entry_of_verifyBlock2 (hcf : Set.InjOn P.keccak256 hashing.messages)
    (hlog : Ledger P hashing log) {honest : Address → Bool} {ext : BlockExternal} {s s' : Storage}
    {block : BlockProof} (hok : verifyBlock2 ext block s = (.ok (), s'))
    (hregistered : ∀ set ∈ s.validatorSets, set.Registered)
    (htrusted : ∀ set ∈ s.validatorSets, set.Trusted honest)
    (hkeccak : ext.keccak256 = P.keccak256)
    (hrecover : Unforgeable P hashing log honest ext.recover)
    (hmessages : ∀ message ∈ block.messages P, message ∈ hashing.messages) :
    ∃ entry ∈ log, block.newRoot = entry.rootHash ∧ block.height = entry.height ∧
      s'.blockHash = entry.hash P := by
  have hpass : (verifyBlock2 ext block s).1.Passes (· = BlockRevert.verificationFailed) := by
    rw [hok]
    trivial
  obtain ⟨henough, hloop⟩ := passes_verifyBlock2 hpass
  obtain ⟨signers, hsigners, hvalidators, hsorted⟩ := (checkSignatures_eq_ok_iff 0 _).1 hloop
  have hnodup : signers.Nodup :=
    (List.pairwise_cons.1 hsorted).2.imp fun hlt heq => absurd (heq ▸ hlt) (BitVec.lt_irrefl _)
  -- the set that the block is verified with is a registered one: it has members
  have hset : s.activeSet block ∈ s.validatorSets := by
    have hactive : s.activeSet block = s.validatorSets.getD
        (s.updateValidatorSetIndex block.height).validatorSetIndex ⟨fun _ => false, [], 0⟩ := rfl
    rw [List.getD_eq_getElem?_getD] at hactive
    rcases hget : s.validatorSets[(s.updateValidatorSetIndex block.height).validatorSetIndex]? with
      _ | set
    · rw [hget, Option.getD_none] at hactive
      rw [hactive] at hvalidators henough
      rcases signers with _ | ⟨signer, signers⟩
      · rw [hsigners.length_eq] at henough
        cases henough
      · exact absurd (hvalidators signer List.mem_cons_self) Bool.false_ne_true
    · rw [hget, Option.getD_some] at hactive
      rw [hactive]
      exact List.mem_of_getElem? hget
  obtain ⟨signer, hsigner, hhonest⟩ := (htrusted _ hset).exists_honest hnodup
    (fun signer hsigner =>
      ((hregistered _ hset).validators_iff signer).1 (hvalidators signer hsigner))
    (henough.trans_eq hsigners.length_eq)
  obtain ⟨k, hk, rfl⟩ := List.getElem_of_mem hsigner
  have hrecovers := (List.forall₂_iff_get.1 hsigners).2 k
    (by rw [hsigners.length_eq]; exact hk) hk
  have hsigned := hrecover _ _ _ _ _ hrecovers hhonest
  obtain ⟨hheight, hhash⟩ : block.height + 1 < 2 ^ 256 ∧ s'.blockHash =
      proposalHash ext block.newRoot block.height block.otherHashFromBlockHash := by
    simp only [verifyBlock2, verifyWith, Program.get_bind_eq_ok, Program.ensure_bind_eq_ok,
      Program.modify_bind_eq_ok] at hok
    obtain ⟨-, -, hrest⟩ := hok
    obtain ⟨_, s₁, -, hrest⟩ := Program.bind_eq_ok.1 hrest
    simp only [Program.get_bind_eq_ok, Program.ensure_bind_eq_ok] at hrest
    obtain ⟨-, -, hheight, -, hrest⟩ := hrest
    obtain ⟨_, s₂, -, hrest⟩ := Program.bind_eq_ok.1 hrest
    rw [Program.ensure_bind_eq_ok, Program.modify_eq_ok] at hrest
    refine ⟨of_decide_eq_true hheight, ?_⟩
    rw [hrest.2]
  obtain ⟨entry, hmem, hroot, hheight', hentry⟩ := hsigned.exists_entry hcf hlog hheight hmessages
    (by rw [blockMessage, sigMsg_eq, acceptMsg_eq, proposalHash_eq, hkeccak])
  refine ⟨entry, hmem, hroot, hheight', ?_⟩
  rw [hhash, proposalHash_eq, hkeccak, hentry]

end Signing

/-! ## Where the contract stands -/

/-- **The contract stands at a place of a ledger**: its current root, its height and its hash are
those of the last entry. -/
structure Storage.Settled (P : Primitives) (pre : List Block) (s : Storage) : Prop where
  root : s.currentRootHash = Node.referenceRoot P (Node.ledgerLeaves pre)
  height : s.blockHeight = pre.length
  hash : ∀ entry, pre.getLast? = some entry → s.blockHash = entry.hash P

section Settled

variable {P : Primitives} {hashing : Hashing} {log : List Block} {s s' : Storage}

/-- Calls that verify no block leave the contract where it stands. -/
lemma Storage.Settled.congr {pre : List Block} (h : s.Settled P pre) (hroots : s'.roots = s.roots)
    (hheight : s'.blockHeight = s.blockHeight) (hhash : s'.blockHash = s.blockHash) :
    s'.Settled P pre := by
  refine ⟨?_, hheight.trans h.height, fun entry hlast => hhash.trans (h.hash entry hlast)⟩
  rw [Storage.currentRootHash_eq, hroots, ← Storage.currentRootHash_eq]
  exact h.root

/-- A new contract stands before the first entry. -/
lemma Storage.settled_initialized {prover : Address} {validators : List Address} {root : Element}
    (hinit : initializeRollup prover validators root .empty = (.ok (), s))
    (hroot : root = Node.referenceRoot P []) : s.Settled P [] := by
  obtain ⟨⟨set, -, -, -, hview⟩, hroots⟩ := initializeRollup_eq_ok hinit
  refine ⟨?_, congrArg (fun view => view.2.2) hview, fun entry hlast => ?_⟩
  · rw [Storage.currentRootHash_eq, hroots]
    exact (RingBuffer.slots_push_last _ root).trans hroot
  · cases hlast

/-- **A verified block** moves the contract to the place of its entry. -/
lemma Storage.settled_verifyBlock2 (hlog : Ledger P hashing log) {ext : BlockExternal}
    {block : BlockProof} (hok : verifyBlock2 ext block s = (.ok (), s')) {entry : Block}
    (hmem : entry ∈ log) (hroot : block.newRoot = entry.rootHash)
    (hheight : block.height = entry.height) (hhash : s'.blockHash = entry.hash P) :
    ∃ pre, pre <+: log ∧ s'.Settled P pre := by
  obtain ⟨-, hview, hroots⟩ := verifyBlock2_eq_ok hok
  obtain ⟨pre, hpre, hentry⟩ := hlog.exists_start hmem
  refine ⟨pre ++ [entry], hpre, ?_, ?_, fun last hlast => ?_⟩
  · rw [Storage.currentRootHash_eq, hroots, ← hentry.root, ← hroot]
    exact RingBuffer.slots_push_last _ _
  · rw [List.length_append, List.length_singleton, ← hentry.height, ← hheight]
    exact congrArg (fun view => view.2.2) hview
  · rw [List.getLast?_concat, Option.some.injEq] at hlast
    rw [hhash, hlast]

/-- The owner's calls verify no block. -/
lemma Storage.step_of_administers_keeps (s : Storage) {call : ChainCall} (h : call.Administers) :
    (s.step call).blockHeight = s.blockHeight ∧ (s.step call).blockHash = s.blockHash := by
  rcases Program.atomically_cases call.run s with hsame | ⟨u, hok⟩
  · change s.step call = s at hsame
    rw [hsame]
    exact ⟨rfl, rfl⟩
  · change call.run s = (.ok u, s.step call) at hok
    cases call with
    | addProver isOwner prover =>
      rw [ChainCall.run, Program.ensure_bind_eq_ok, Program.modify_eq_ok] at hok
      rw [hok.2]
      exact ⟨rfl, rfl⟩
    | setValidators isOwner validFrom validators =>
      rw [ChainCall.run, setValidators, Program.ensure_bind_eq_ok] at hok
      obtain ⟨marked, heq, -, -⟩ := setValidatorsUnchecked_eq_ok hok.2
      rw [heq]
      exact ⟨rfl, rfl⟩
    | rollup => exact h.elim
    | setRoot => exact h.elim
    | verifyBlock2 => exact h.elim

end Settled

/-! ## Runs -/

namespace Vault

section Settles

variable {T : Type} {token : ERC20 T} {contract : Address} {verifiers : Verifiers}
  {plonkVerifier : Bytes → List Element → Bool} {a b c : Vault T} {blocks blocks' : List BlockProof}

/-- Runs one after the other. By induction on the second one. -/
lemma Reaches.append (h : Reaches token contract verifiers plonkVerifier a blocks b)
    (h' : Reaches token contract verifiers plonkVerifier b blocks' c) :
    Reaches token contract verifiers plonkVerifier a (blocks ++ blocks') c := by
  induction h' with
  | refl =>
    rw [List.append_nil]
    exact h
  | call _ env entry hopen hsigner hrouter ih => exact ih.call env entry hopen hsigner hrouter
  | token _ t ht ih => exact ih.token t ht
  | admin _ call hcall ih => exact ih.admin call hcall
  | verifyBlock2 _ ext hverify envs hsigner hrouter block ih =>
    rw [← List.append_assoc]
    exact ih.verifyBlock2 ext hverify envs hsigner hrouter block

/-- What a run keeps of the storage: registered sets stay, and only verified blocks move the
contract. -/
structure Keeps (a b : Storage) (blocks : List BlockProof) : Prop where
  sets : a.validatorSets ⊆ b.validatorSets
  registered : (∀ set ∈ a.validatorSets, set.Registered) → ∀ set ∈ b.validatorSets, set.Registered
  stands : blocks = [] →
    b.roots = a.roots ∧ b.blockHeight = a.blockHeight ∧ b.blockHash = a.blockHash

/-- No call takes a validator set away. -/
lemma subset_validatorSets_step (s : Storage) (call : ChainCall) :
    s.validatorSets ⊆ (s.step call).validatorSets := by
  rcases s.validatorSets_step call with hsame | ⟨-, set, -, -, happend⟩
  · rw [hsame]
    exact List.Subset.refl _
  · rw [happend]
    exact List.subset_append_left _ _

/-- **What a run keeps.** By induction on the run. -/
lemma Reaches.keeps (h : Reaches token contract verifiers plonkVerifier a blocks b) :
    Keeps a.storage b.storage blocks := by
  induction h with
  | refl => exact ⟨List.Subset.refl _, id, fun _ => ⟨rfl, rfl, rfl⟩⟩
  | @call b blocks h env entry hopen hsigner hrouter ih =>
    rcases Program.atomically_cases (onWorld (Bank.call token contract verifiers env entry)) b
      with hsame | ⟨u, hok⟩
    · rw [hsame]
      exact ih
    · obtain ⟨w, -, heq⟩ := onWorld_eq_ok.1 hok
      rw [heq]
      exact ⟨ih.sets, ih.registered, ih.stands⟩
  | token _ t ht ih => exact ih
  | @admin b blocks h call hcall ih =>
    refine ⟨List.Subset.trans ih.sets (subset_validatorSets_step _ call),
      fun hregistered => Storage.registered_step (ih.registered hregistered) call, fun hnil => ?_⟩
    obtain ⟨hroots, hheight, hhash⟩ := ih.stands hnil
    obtain ⟨hheight', hhash'⟩ := b.storage.step_of_administers_keeps hcall
    exact ⟨(step_of_administers b.storage hcall).2.1.trans hroots, hheight'.trans hheight,
      hhash'.trans hhash⟩
  | @verifyBlock2 b blocks h ext hverify envs hsigner hrouter block ih =>
    rcases hrun : Vault.verifyBlock2 token contract ext envs block b with ⟨u | e | _, v'⟩
    · obtain ⟨txns, hsimulated⟩ := verifyBlock2_simulates hrun
      have hview := (Contract.verifyBlock2_eq_ok hsimulated).2.1
      have hsets : v'.storage.validatorSets = b.storage.validatorSets := congrArg Prod.fst hview
      rw [Program.atomically, hrun]
      refine ⟨fun set hset => ?_, fun hregistered set hset => ?_, fun hnil => ?_⟩
      · rw [hsets]
        exact ih.sets hset
      · rw [hsets] at hset
        exact ih.registered hregistered set hset
      · exact absurd (List.append_eq_nil_iff.1 hnil).2 (List.cons_ne_nil _ _)
    all_goals
      -- a call that reverts changes nothing
      rw [Program.atomically, hrun]
      simpa [Outcome.isOk] using ih

/-- `Settles … a blocks b`: a run of the contract from `a` to `b` that verifies the blocks with the
hash function of the nodes and one library that recovers signers; between them any other calls. -/
inductive Settles (P : Primitives) (hashing : Hashing)
    (recover : Element → BitVec 8 → Element → Element → Option Address) (token : ERC20 T)
    (contract : Address) (verifiers : Verifiers) (plonkVerifier : Bytes → List Element → Bool) :
    Vault T → List BlockProof → Vault T → Prop
  | refl (a : Vault T) : Settles P hashing recover token contract verifiers plonkVerifier a [] a
  | other {a b c : Vault T} {blocks : List BlockProof}
    (h : Settles P hashing recover token contract verifiers plonkVerifier a blocks b)
    (hother : Reaches token contract verifiers plonkVerifier b [] c) :
    Settles P hashing recover token contract verifiers plonkVerifier a blocks c
  | block {a b c : Vault T} {blocks : List BlockProof}
    (h : Settles P hashing recover token contract verifiers plonkVerifier a blocks b)
    (ext : BlockExternal) (hverify : ext.aggregateVerifies = AggregateVerifier.verify plonkVerifier)
    (hkeccak : ext.keccak256 = P.keccak256) (hrecover : ext.recover = recover)
    (envs : Fin 6 → Env T) (hsigner : ∀ i, (envs i).signer ≠ contract)
    (hrouter : ∀ i, (envs i).RoutersOpen token contract verifiers)
    (block : BlockProof) (hmessages : ∀ message ∈ block.messages P, message ∈ hashing.messages)
    (hok : verifyBlock2 token contract ext envs block b = (.ok (), c)) :
    Settles P hashing recover token contract verifiers plonkVerifier a (blocks ++ [block]) c

variable {P : Primitives} {hashing : Hashing} {log : List Block} {honest : Address → Bool}
  {recover : Element → BitVec 8 → Element → Element → Option Address}

/-- A run that settles blocks is a run of the contract. -/
lemma Settles.reaches
    (h : Settles P hashing recover token contract verifiers plonkVerifier a blocks b) :
    Reaches token contract verifiers plonkVerifier a blocks b := by
  induction h with
  | refl => exact .refl a
  | other _ hother ih =>
    have hrun := ih.append hother
    rwa [List.append_nil] at hrun
  | block _ ext hverify hkeccak hrecover envs hsigner hrouter block hmessages hok ih =>
    have hrun := ih.verifyBlock2 ext hverify envs hsigner hrouter block
    rw [Program.atomically, hok] at hrun
    exact hrun

/-- **The contract stands at a place of the ledger in every run**: whatever provers submit and in
whatever order, if no quorum of a registered set is without an honest validator. By induction on
the run. -/
theorem Settles.exists_settled
    (h : Settles P hashing recover token contract verifiers plonkVerifier a blocks b)
    (hcf : Set.InjOn P.keccak256 hashing.messages) (hlog : Ledger P hashing log)
    (hrecover : Unforgeable P hashing log honest recover)
    (hregistered : ∀ set ∈ a.storage.validatorSets, set.Registered)
    (htrusted : ∀ set ∈ b.storage.validatorSets, set.Trusted honest)
    (hsettled : a.storage.Settled P []) :
    ∃ pre, pre <+: log ∧ b.storage.Settled P pre := by
  induction h with
  | refl => exact ⟨[], List.nil_prefix, hsettled⟩
  | other _ hother ih =>
    have hkeeps := hother.keeps
    obtain ⟨pre, hpre, hpre'⟩ := ih fun set hset => htrusted set (hkeeps.sets hset)
    obtain ⟨hroots, hheight, hhash⟩ := hkeeps.stands rfl
    exact ⟨pre, hpre, hpre'.congr hroots hheight hhash⟩
  | @block b c blocks h ext hverify hkeccak hext envs hsigner hrouter block hmessages hok ih =>
    obtain ⟨txns, hsimulated⟩ := verifyBlock2_simulates hok
    have hsets : c.storage.validatorSets = b.storage.validatorSets :=
      congrArg Prod.fst (Contract.verifyBlock2_eq_ok hsimulated).2.1
    rw [hsets] at htrusted
    obtain ⟨entry, hmem, hroot, hheight, hhash⟩ := exists_entry_of_verifyBlock2 hcf hlog
      hsimulated (h.reaches.keeps.registered hregistered) htrusted hkeccak (hext ▸ hrecover)
      hmessages
    exact Storage.settled_verifyBlock2 hlog hsimulated hmem hroot hheight hhash

end Settles

end Vault

end TempoRollup.Contract
