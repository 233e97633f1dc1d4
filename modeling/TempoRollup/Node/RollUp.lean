import TempoRollup.Contract.Digest
import TempoRollup.Contract.Signatures
import TempoRollup.Node.Snapshot
import TempoRollup.Prover.Batch

set_option relaxedAutoImplicit false
set_option autoImplicit false

/-!
# From committed blocks to roll-ups

The prover worker (`node/src/prover/worker.rs`) rolls a committed block up with the approvals in
the header of the next one, and `verifyBlock2` checks them as signatures of the validators. This
file compares what `validate_block` accepts with what the worker and the contract need.

## Main definitions

* `contractSignature` — how `verify_block` passes a signature to the contract.
* `Continues` — what is needed apart from the approvals.
* `RollsUp` — the block can be rolled up with the header of the next one.
* `Accepted` — `validate_block` accepts one block after the other.
* `Endorsed` — what the two blocks must be like.

## Main results

* `rollsUp_iff` — an accepted block can be rolled up exactly when it is endorsed.
* `not_rollsUp_unapproved` — two accepted blocks without approvals.
-/

open Exec

namespace TempoRollup

namespace Node

/-! ## What the worker and the contract need -/

/-- A signature as `verify_block` passes it: its two words and its recovery byte, which is counted
from 27 on. -/
def contractSignature (signature : Signature) : Contract.Signature where
  r := signature.compact.extractLsb' 256 256
  s := signature.compact.setWidth 256
  v :=
    if signature.recovery.toNat < 27 then signature.recovery.toNat + 27
    else signature.recovery.toNat

section RollUp

variable (P : Primitives) (ext : Contract.BlockExternal) (storage : Contract.Storage)
  (block next : Block)

/-- The validator set that `verifyBlock2` takes for the height of a block. -/
def setFor : Contract.ValidatorSet := (storage.updateValidatorSetIndex block.height).getValidators

/-- The message that `verifyBlock2` recovers the signers of, for the root, the height and the header
hash of the block. -/
def contractMessage : Element :=
  Contract.sigMsg ext (Contract.acceptMsg ext block.height
    (Contract.proposalHash ext block.rootHash block.height (block.content.headerHash P)))

/-- What is needed apart from the approvals: the worker has room for the transactions of the block,
and the next block follows it. -/
structure Continues : Prop where
  room : block.content.state.txns.length ≤ Prover.MAXIMUM_TXNS
  follows : next.content.header.lastBlockHash = block.hash P

/-- **The block can be rolled up with the header of the next one**: the two continue each other, and
the approvals in their order pass the checks of `verifyBlock2`. -/
structure RollsUp : Prop extends Continues P block next where
  enough : (setFor storage block).validatorsArray.length * 2 / 3 + 1 ≤
    (next.content.header.approvals.map contractSignature).length
  signatures : Contract.checkSignatures ext (setFor storage block) (contractMessage P ext block) 0
    (next.content.header.approvals.map contractSignature) = .ok ()

/-- **What the two blocks must be like**: they continue each other, and the second one has
signatures of the first one's endorsement by more than two thirds of the validators, in ascending
order of their addresses. -/
structure Endorsed : Prop extends Continues P block next where
  approved : ∃ endorsement signers,
    ((ApprovalContent.newEndorsement (block.hash P) next.height).hash P :
      Outcome Empty CryptoHash) = .ok endorsement ∧
    List.Forall₂ (fun approval signer => Contract.RecoversTo ext (networkMessage P endorsement)
      (contractSignature approval) signer) next.content.header.approvals signers ∧
    (∀ signer ∈ signers, (setFor storage block).validators signer = true) ∧
    (0 :: signers).Pairwise (· < ·) ∧
    (setFor storage block).validatorsArray.length * 2 / 3 < signers.length

/-- `validate_block` accepts two blocks at consecutive heights that are not listed as bad, the
second one after the commit of the first. -/
structure Accepted (storeReads : Bool) (world : World) (node : NodeShared) : Prop where
  good : node.config.badBlocks.contains block.height = false
  goodNext : node.config.badBlocks.contains next.height = false
  consecutive : next.height = block.height + 1
  fits : next.height < U64
  accepted : node.validateBlock P storeReads block = .ok ()
  acceptedNext : (commitProposal P world block node).2.validateBlock P storeReads next = .ok ()

end RollUp

section Equivalence

variable {P : Primitives} {storage : Contract.Storage} {block next : Block}

/-- The message of the contract is the endorsement for the next height. -/
lemma contractMessage_eq {ext : Contract.BlockExternal} (hkeccak : ext.keccak256 = P.keccak256)
    (hconsecutive : next.height = block.height + 1) (hfits : next.height < U64) :
    ∃ endorsement,
      ((ApprovalContent.newEndorsement (block.hash P) next.height).hash P :
        Outcome Empty CryptoHash) = .ok endorsement ∧
      contractMessage P ext block = networkMessage P endorsement := by
  have hheight : block.content.header.height < U64 - 1 := by
    apply Nat.lt_sub_of_add_lt
    rw [hconsecutive] at hfits
    exact hfits
  have hnext : block.content.header.height.next = next.height := by
    rw [hconsecutive]
    apply Nat.mod_eq_of_lt
    exact Nat.add_lt_of_lt_sub hheight
  have hagree := blockDigestsAgree P ext hkeccak block.content hheight
  refine ⟨_, hnext ▸ hagree.acceptMsg, ?_⟩
  rw [contractMessage, Block.rootHash, Block.height, ← hagree.proposalHash, Contract.sigMsg_eq,
    hkeccak, ← hagree.sig]
  rfl

/-- Accepted or not, blocks at consecutive heights can be rolled up exactly when they are
endorsed. -/
lemma rollsUp_iff_endorsed {ext : Contract.BlockExternal}
    (hkeccak : ext.keccak256 = P.keccak256) (hconsecutive : next.height = block.height + 1)
    (hfits : next.height < U64) :
    RollsUp P ext storage block next ↔ Endorsed P ext storage block next := by
  obtain ⟨endorsement, hhash, hmessage⟩ := @contractMessage_eq P block next ext hkeccak hconsecutive
    hfits
  constructor
  · intro h
    have hsignatures := h.signatures
    rw [Contract.checkSignatures_eq_ok_iff, hmessage] at hsignatures
    obtain ⟨signers, hsigners, hvalidators, hsorted⟩ := hsignatures
    rw [List.forall₂_map_left_iff] at hsigners
    have henough := h.enough
    rw [List.length_map, hsigners.length_eq] at henough
    exact ⟨h.toContinues, endorsement, signers, hhash, hsigners, hvalidators, hsorted, henough⟩
  · intro h
    obtain ⟨endorsement', signers, hhash', hsigners, hvalidators, hsorted, henough⟩ := h.approved
    obtain rfl : endorsement = endorsement' := Outcome.ok.inj (hhash.symm.trans hhash')
    refine ⟨h.toContinues, ?_, ?_⟩
    · rw [List.length_map, hsigners.length_eq]
      exact henough
    · rw [Contract.checkSignatures_eq_ok_iff, hmessage]
      exact ⟨signers, List.forall₂_map_left_iff.2 hsigners, hvalidators, hsorted⟩

end Equivalence

/-- **Which accepted blocks can be rolled up.** For all nodes, all storages of the contract and all
blocks, with one Keccak on both sides: if `validate_block` accepts the two blocks one after the
other, then the first one can be rolled up exactly when they are endorsed, which `validate_block`
does not look at. That the two continue each other is asked for by both sides; what the equivalence
adds is that the loop of the contract passes exactly on approvals of the node's own endorsement. -/
theorem rollsUp_iff (P : Primitives) (external : Contract.BlockExternal)
    (storage : Contract.Storage) (storeReads : Bool) (world : World) (self : NodeShared)
    (block next : Block) :
    (Accepted P block next storeReads world self →
      RollsUp P { external with keccak256 := P.keccak256 } storage block next) ↔
      (Accepted P block next storeReads world self →
        Endorsed P { external with keccak256 := P.keccak256 } storage block next) := by
  refine forall_congr' fun haccepted => ?_
  exact rollsUp_iff_endorsed rfl haccepted.consecutive haccepted.fits

/-! ### Blocks without approvals -/

namespace Unapproved

open TwoMints

/-- An empty block on the empty tree. -/
def emptyBlock (height : ℕ) : Block :=
  blockOf height ((Smirk.Persistent.new : PersistentMerkleTree).tree.rootHash sumHash) []

/-- The contract with one validator. -/
def storage : Contract.Storage := (Contract.initializeRollup 1 [0] 0 .empty).2

/-- A block without leaves is valid on the empty tree. -/
lemma validate_emptyBlock (height : ℕ) (mode : Mode) (blockStore : BlockStore) :
    (emptyBlock height).content.validate primitives true mode blockStore .new = .ok () :=
  validate_of_applied inv_new (fun _ h => absurd h List.not_mem_nil) (apply_empty _ height _) rfl

/-- The prover after the commit of the first block: its tree is still empty. -/
lemma commit_emptyBlock :
    ∃ node, commitProposal primitives WentOver.world (emptyBlock 1) WentOver.prover =
        (.ok (), node) ∧
      (node.getLeaderForBlockHeight 2 : Outcome Error Address) = .ok 0 ∧
      node.config = WentOver.prover.config ∧ node.notesTree = .new := by
  refine ⟨_, commitProposal_run rfl fun _ _ h => absurd h List.not_mem_nil, ?_⟩
  exact ⟨rfl, rfl, rfl⟩

/-- A prover with an empty tree accepts an empty block. -/
lemma validateBlock_emptyBlock {node : NodeShared} {height : ℕ}
    (hleader : (node.getLeaderForBlockHeight height : Outcome Error Address) = .ok 0)
    (hconfig : node.config = WentOver.prover.config) (htree : node.notesTree = .new) :
    node.validateBlock primitives true (emptyBlock height) = .ok () := by
  have hsigned : ((emptyBlock height).signature.verify primitives
      ((emptyBlock height).hash primitives) : Outcome Error (Option Address)) = .ok (some 0) := rfl
  have hgood : node.config.badBlocks.contains (emptyBlock height).height = false := by
    rw [hconfig]
    rfl
  unfold NodeShared.validateBlock
  rw [hgood, if_neg Bool.false_ne_true, show (emptyBlock height).height = height from rfl, hleader,
    hsigned, htree]
  simp only [Outcome.ok_bind, ne_eq, not_true_eq_false, if_false]
  exact validate_emptyBlock height _ _

/-- A prover accepts both blocks. -/
lemma accepted_emptyBlock :
    Accepted primitives (emptyBlock 1) (emptyBlock 2) true WentOver.world WentOver.prover := by
  obtain ⟨node, hcommit, hleader, hconfig, htree⟩ := commit_emptyBlock
  refine ⟨rfl, rfl, rfl, ?_, validateBlock_emptyBlock rfl rfl rfl, ?_⟩
  · show 2 < U64
    decide
  · rw [hcommit]
    exact validateBlock_emptyBlock hleader hconfig htree

end Unapproved

/-- **Two accepted blocks without approvals**: the first one cannot be rolled up. -/
theorem not_rollsUp_unapproved :
    Accepted TwoMints.primitives (Unapproved.emptyBlock 1) (Unapproved.emptyBlock 2) true
        WentOver.world WentOver.prover ∧
      ¬ RollsUp TwoMints.primitives
        { SampleDigests.external with keccak256 := TwoMints.primitives.keccak256 }
        Unapproved.storage
        (Unapproved.emptyBlock 1) (Unapproved.emptyBlock 2) := by
  refine ⟨Unapproved.accepted_emptyBlock, fun h => ?_⟩
  exact absurd h.enough (Nat.not_succ_le_zero _)

end Node

end TempoRollup
