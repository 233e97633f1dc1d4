import TempoRollup.Node.Block

set_option relaxedAutoImplicit false
set_option autoImplicit false

/-!
# Doomslug approvals

`doomslug/src/approval.rs` and the part of `doomslug/src/doomslug.rs` that processes approvals:
for each target height and each validator the last approval is kept, and the stake that approves
a block is added up.

## Main definitions

* `ApprovalInner`, `ApprovalContent.hash`, `Approval.validate`.
* `Doomslug`, `Doomslug.onApproval`, and the trackers that it keeps for each target height.

## Main results

* `DoomslugApprovalsTrackersAtHeight.size_accountIdToStakes_iff` — when the map of stakes passes
  the assertion on its size.
* `Doomslug.onApproval_ok` — an approval is processed without a panic when the stakes are those
  of different validators.

## Design

Stakes are `u128`; their sums wrap around, as in a release build. Times of arrival, which are
kept for debugging, are left out. The timer that decides when approvals are sent is in
`DoomslugTimer`.
-/

open Exec

namespace TempoRollup.Node

/-! ## Approvals -/

/-- `ApprovalInner`. -/
inductive ApprovalInner
  | endorsement (hash : CryptoHash)
  | skip (height : BlockHeight)
  deriving DecidableEq, Repr

/-- `ApprovalContent`. -/
structure ApprovalContent where
  inner : ApprovalInner
  targetHeight : BlockHeight
  deriving DecidableEq, Repr

/-- `Approval`. -/
structure Approval where
  content : ApprovalContent
  signature : Signature
  deriving DecidableEq, Repr

/-- `ApprovalValidated`. -/
structure ApprovalValidated where
  content : ApprovalContent
  signature : Signature
  validator : Address
  deriving DecidableEq, Repr

/-- `ApprovalStake`. -/
structure ApprovalStake where
  validator : Address
  stakeThisEpoch : ℕ
  stakeNextEpoch : ℕ
  deriving DecidableEq, Repr

/-- `doomslug::Error`. -/
inductive DoomslugError
  | invalidSignature
  deriving DecidableEq, Repr

/-- `ApprovalContent::hash`: skips are not hashed yet. -/
def ApprovalContent.hash {ε : Type} (P : Primitives) (self : ApprovalContent) :
    Outcome ε CryptoHash :=
  match self.inner with
  | .endorsement h =>
    .ok (P.keccak256 (beBytes 32 self.targetHeight ++ beBytes 32 h.toNat))
  | .skip _ => .panic

/-- `ApprovalContent::new_endorsement`. -/
def ApprovalContent.newEndorsement (parentHash : CryptoHash) (targetHeight : BlockHeight) :
    ApprovalContent :=
  ⟨.endorsement parentHash, targetHeight⟩

/-- `ApprovalContent::to_approval_validated`, of the node with the given address. -/
def ApprovalContent.toApprovalValidated {ε : Type} (P : Primitives) (localPeer : Address)
    (self : ApprovalContent) : Outcome ε ApprovalValidated := do
  let hash ← self.hash P
  pure ⟨self, sign P hash, localPeer⟩

/-- `TryFrom<Approval> for ApprovalValidated`. -/
def Approval.validate (P : Primitives) (self : Approval) :
    Outcome DoomslugError ApprovalValidated := do
  let hash ← self.content.hash P
  match ← self.signature.verify P hash with
  | some validator => pure ⟨self.content, self.signature, validator⟩
  | none => .err .invalidSignature

/-! ## Trackers -/

/-- The number of values of a `Balance`. -/
def U128 : ℕ := 2 ^ 128

/-- `DoomslugThresholdMode`. -/
inductive DoomslugThresholdMode
  | noApprovals
  | twoThirds
  deriving DecidableEq, Repr

/-- `DoomslugBlockProductionReadiness`; instants are numbers. -/
inductive DoomslugBlockProductionReadiness
  | notReady
  | readySince (when : ℕ)
  deriving DecidableEq, Repr

/-- `DoomslugApprovalsTracker`. -/
structure DoomslugApprovalsTracker where
  witness : Std.TreeMap Address ApprovalValidated
  accountIdToStakes : Std.TreeMap Address (ℕ × ℕ)
  totalStakeThisEpoch : ℕ
  approvedStakeThisEpoch : ℕ
  totalStakeNextEpoch : ℕ
  approvedStakeNextEpoch : ℕ
  timePassedThreshold : Option ℕ
  thresholdMode : DoomslugThresholdMode

namespace DoomslugApprovalsTracker

/-- `new`. -/
def new (accountIdToStakes : Std.TreeMap Address (ℕ × ℕ))
    (thresholdMode : DoomslugThresholdMode) : DoomslugApprovalsTracker where
  witness := ∅
  accountIdToStakes := accountIdToStakes
  totalStakeThisEpoch := (accountIdToStakes.values.map Prod.fst).sum % U128
  approvedStakeThisEpoch := 0
  totalStakeNextEpoch := (accountIdToStakes.values.map Prod.snd).sum % U128
  approvedStakeNextEpoch := 0
  timePassedThreshold := none
  thresholdMode := thresholdMode

/-- The stakes of an account, zero when it has none. -/
def stakesOf (self : DoomslugApprovalsTracker) (validator : Address) : ℕ × ℕ :=
  self.accountIdToStakes[validator]?.getD (0, 0)

/-- `get_block_production_readiness`. -/
def getBlockProductionReadiness (now : ℕ) (self : DoomslugApprovalsTracker) :
    DoomslugBlockProductionReadiness × DoomslugApprovalsTracker :=
  if (self.approvedStakeThisEpoch > self.totalStakeThisEpoch * 2 % U128 / 3 ∧
        (self.approvedStakeNextEpoch > self.totalStakeNextEpoch * 2 % U128 / 3 ∨
          self.totalStakeNextEpoch = 0)) ∨
      self.thresholdMode = .noApprovals then
    let since := self.timePassedThreshold.getD now
    (.readySince since, { self with timePassedThreshold := some since })
  else (.notReady, self)

/-- `process_approval`. -/
def processApproval (now : ℕ) (approval : ApprovalValidated) (self : DoomslugApprovalsTracker) :
    DoomslugBlockProductionReadiness × DoomslugApprovalsTracker :=
  let self :=
    if self.witness.contains approval.validator then self
    else
      let stakes := self.stakesOf approval.validator
      { self with
        witness := self.witness.insert approval.validator approval
        approvedStakeThisEpoch := (self.approvedStakeThisEpoch + stakes.1) % U128
        approvedStakeNextEpoch := (self.approvedStakeNextEpoch + stakes.2) % U128 }
  self.getBlockProductionReadiness now

/-- `withdraw_approval`. -/
def withdrawApproval (validator : Address) (self : DoomslugApprovalsTracker) :
    DoomslugApprovalsTracker :=
  match self.witness[validator]? with
  | none => self
  | some approval =>
    let stakes := self.stakesOf approval.validator
    { self with
      witness := self.witness.erase validator
      approvedStakeThisEpoch := (self.approvedStakeThisEpoch + U128 - stakes.1) % U128
      approvedStakeNextEpoch := (self.approvedStakeNextEpoch + U128 - stakes.2) % U128 }

end DoomslugApprovalsTracker

/-- `DoomslugApprovalsTrackersAtHeight`. -/
structure DoomslugApprovalsTrackersAtHeight where
  approvalTrackers : ApprovalInner → Option DoomslugApprovalsTracker
  lastApprovalPerAccount : Address → Option ApprovalInner

namespace DoomslugApprovalsTrackersAtHeight

/-- `new`. -/
def new : DoomslugApprovalsTrackersAtHeight := ⟨fun _ => none, fun _ => none⟩

/-- The start of `process_approval`: the last approval of the account is withdrawn, and a tracker
without witnesses is removed. -/
def withdrawLast (validator : Address) (self : DoomslugApprovalsTrackersAtHeight) :
    DoomslugApprovalsTrackersAtHeight :=
  match self.lastApprovalPerAccount validator with
  | none => self
  | some lastParent =>
    match self.approvalTrackers lastParent with
    | none => self
    | some tracker =>
      let tracker := tracker.withdrawApproval validator
      let entry := if tracker.witness.isEmpty then none else some tracker
      { self with approvalTrackers := Function.update self.approvalTrackers lastParent entry }

/-- The map of the stakes of accounts that are not slashed. -/
def accountIdToStakes (stakes : List (ApprovalStake × Bool)) : Std.TreeMap Address (ℕ × ℕ) :=
  stakes.foldl
    (fun m entry =>
      if entry.2 then m
      else m.insert entry.1.validator (entry.1.stakeThisEpoch, entry.1.stakeNextEpoch))
    ∅

/-- `process_approval`. -/
def processApproval {ε : Type} (now : ℕ) (approval : ApprovalValidated)
    (stakes : List (ApprovalStake × Bool)) (thresholdMode : DoomslugThresholdMode) :
    Program DoomslugApprovalsTrackersAtHeight ε DoomslugBlockProductionReadiness := do
  Program.modify (withdrawLast approval.validator)
  let accountIdToStakes := accountIdToStakes stakes
  Program.assert (accountIdToStakes.size = stakes.length)
  if accountIdToStakes.contains approval.validator then do
    let self ← Program.get
    let tracker := (self.approvalTrackers approval.content.inner).getD
      (.new accountIdToStakes thresholdMode)
    let r := tracker.processApproval now approval
    Program.modify fun self =>
      { approvalTrackers := Function.update self.approvalTrackers approval.content.inner (some r.2)
        lastApprovalPerAccount :=
          Function.update self.lastApprovalPerAccount approval.validator
            (some approval.content.inner) }
    pure r.1
  else pure .notReady

end DoomslugApprovalsTrackersAtHeight

/-- The part of `Doomslug` that approvals change. -/
structure Doomslug where
  approvalTracking : BlockHeight → Option DoomslugApprovalsTrackersAtHeight
  largestThresholdApprovalsHeight : BlockHeight
  largestApprovalTargetHeight : BlockHeight
  tipHeight : BlockHeight
  thresholdMode : DoomslugThresholdMode

namespace Doomslug

/-- `MAX_HEIGHTS_AHEAD_TO_STORE_APPROVALS`. -/
def MAX_HEIGHTS_AHEAD_TO_STORE_APPROVALS : ℕ := 10000

/-- `Doomslug::new`. -/
def new (thresholdMode : DoomslugThresholdMode) : Doomslug where
  approvalTracking _ := none
  largestThresholdApprovalsHeight := 0
  largestApprovalTargetHeight := 0
  tipHeight := 0
  thresholdMode := thresholdMode

/-- `on_approval_internal`. -/
def onApprovalInternal {ε : Type} (now : ℕ) (approval : ApprovalValidated)
    (stakes : List (ApprovalStake × Bool)) :
    Program Doomslug ε DoomslugBlockProductionReadiness := do
  let self ← Program.get
  let target := approval.content.targetHeight
  let ret ← Program.zoom (fun self => (self.approvalTracking target).getD .new)
    (fun trackers self =>
      { self with
        approvalTracking := Function.update self.approvalTracking target (some trackers) })
    (DoomslugApprovalsTrackersAtHeight.processApproval now approval stakes self.thresholdMode)
  Program.modify fun self =>
    { self with largestApprovalTargetHeight := max self.largestApprovalTargetHeight target }
  if ret ≠ .notReady then
    Program.modify fun self =>
      { self with
        largestThresholdApprovalsHeight := max self.largestThresholdApprovalsHeight target }
  pure ret

/-- `on_approval`: approvals outside the horizon are dropped. -/
def onApproval {ε : Type} (now : ℕ) (approval : ApprovalValidated)
    (stakes : List (ApprovalStake × Bool)) : Program Doomslug ε Unit := do
  let self ← Program.get
  if approval.content.targetHeight < self.tipHeight ∨
      approval.content.targetHeight >
        (self.tipHeight + MAX_HEIGHTS_AHEAD_TO_STORE_APPROVALS) % U64 then pure ()
  else do
    let _ ← onApprovalInternal now approval stakes
    pure ()

end Doomslug

/-! ## Different validators -/

namespace DoomslugApprovalsTrackersAtHeight

variable {stakes : List (ApprovalStake × Bool)}

/-- No entries. -/
lemma accountIdToStakes_nil : accountIdToStakes [] = ∅ := rfl

/-- One more entry. -/
lemma accountIdToStakes_concat (entry : ApprovalStake × Bool) :
    accountIdToStakes (stakes ++ [entry]) =
      if entry.2 then accountIdToStakes stakes
      else (accountIdToStakes stakes).insert entry.1.validator
        (entry.1.stakeThisEpoch, entry.1.stakeNextEpoch) :=
  List.foldl_concat _ _ _ _

/-- The accounts of the map are those that are not slashed. -/
lemma mem_accountIdToStakes {v : Address} :
    v ∈ accountIdToStakes stakes ↔ ∃ entry ∈ stakes, entry.2 = false ∧ entry.1.validator = v := by
  induction stakes using List.reverseRecOn with
  | nil => simp [accountIdToStakes_nil]
  | append_singleton stakes entry ih =>
    rw [accountIdToStakes_concat]
    cases hslashed : entry.2 with
    | true => simp [ih, hslashed, or_and_right, exists_or]
    | false =>
      simp [ih, hslashed, or_and_right, exists_or, or_comm, Std.TreeMap.mem_insert,
        Std.LawfulEqCmp.compare_eq_iff_eq]

/-- A map is never larger than the list of its entries. -/
lemma size_accountIdToStakes_le : (accountIdToStakes stakes).size ≤ stakes.length := by
  induction stakes using List.reverseRecOn with
  | nil => rw [accountIdToStakes_nil, Std.TreeMap.size_emptyc, List.length_nil]
  | append_singleton stakes entry ih =>
    rw [accountIdToStakes_concat, List.length_append, List.length_singleton]
    split_ifs with hslashed
    · omega
    · exact Std.TreeMap.size_insert_le.trans (Nat.succ_le_succ ih)

/-- **The map has the size of the list** exactly when the accounts are different and not slashed.
By induction on the list, from its end.

**Proof sketch.** A further account makes the map larger unless it is slashed or already there. -/
theorem size_accountIdToStakes_iff :
    (accountIdToStakes stakes).size = stakes.length ↔
      (∀ entry ∈ stakes, entry.2 = false) ∧ (stakes.map fun entry => entry.1.validator).Nodup := by
  induction stakes using List.reverseRecOn with
  | nil => simp [accountIdToStakes_nil]
  | append_singleton stakes entry ih =>
    have hle : (accountIdToStakes stakes).size ≤ stakes.length := size_accountIdToStakes_le
    rw [accountIdToStakes_concat, List.length_append, List.length_singleton]
    cases hslashed : entry.2 with
    | true =>
      rw [if_pos rfl]
      constructor
      · intro h
        omega
      · intro h
        have hfalse := h.1 entry (List.mem_append_right _ List.mem_cons_self)
        rw [hslashed] at hfalse
        cases hfalse
    | false =>
      rw [if_neg Bool.false_ne_true, Std.TreeMap.size_insert, List.map_append, List.nodup_append]
      split_ifs with hmem
      · -- the account is there already, and the map does not grow
        rw [Std.TreeMap.contains_iff_mem, mem_accountIdToStakes] at hmem
        obtain ⟨earlier, hearlier, -, heq⟩ := hmem
        constructor
        · intro h
          omega
        · intro h
          exact absurd heq (h.2.2.2 _ (List.mem_map_of_mem hearlier) _ List.mem_cons_self)
      · rw [Std.TreeMap.contains_iff_mem, mem_accountIdToStakes] at hmem
        rw [Nat.add_right_cancel_iff, ih]
        simp only [List.forall_mem_append, List.map_singleton, List.nodup_singleton,
          List.mem_singleton, forall_eq, true_and, hslashed, and_true]
        constructor
        · rintro ⟨hall, hnodup⟩
          refine ⟨hall, hnodup, fun v hv heq => ?_⟩
          obtain ⟨earlier, hearlier, rfl⟩ := List.mem_map.1 hv
          exact hmem ⟨earlier, hearlier, hall earlier hearlier, heq⟩
        · rintro ⟨hall, hnodup, -⟩
          exact ⟨hall, hnodup⟩

/-- The stakes of an account, when the accounts are different. -/
lemma getElem?_accountIdToStakes
    (hnodup : (stakes.map fun entry => entry.1.validator).Nodup) {entry : ApprovalStake × Bool}
    (hmem : entry ∈ stakes) (hslashed : entry.2 = false) :
    (accountIdToStakes stakes)[entry.1.validator]? =
      some (entry.1.stakeThisEpoch, entry.1.stakeNextEpoch) := by
  induction stakes using List.reverseRecOn with
  | nil => cases hmem
  | append_singleton stakes last ih =>
    rw [List.map_append, List.nodup_append] at hnodup
    rw [accountIdToStakes_concat]
    rcases List.mem_append.1 hmem with hmem | hmem
    · have hne : last.1.validator ≠ entry.1.validator :=
        (hnodup.2.2 _ (List.mem_map_of_mem hmem) _ List.mem_cons_self).symm
      split_ifs with hlast
      · exact ih hnodup.1 hmem
      · rw [Std.TreeMap.getElem?_insert,
          if_neg (by rwa [Std.LawfulEqCmp.compare_eq_iff_eq]), ih hnodup.1 hmem]
    · obtain rfl := List.mem_singleton.1 hmem
      rw [if_neg (by rw [hslashed]; exact Bool.false_ne_true), Std.TreeMap.getElem?_insert_self]

end DoomslugApprovalsTrackersAtHeight

/-- **An approval is processed without a panic** when the stakes are those of different
validators that are not slashed. -/
theorem Doomslug.onApproval_ok {ε : Type} (now : ℕ) (approval : ApprovalValidated)
    {stakes : List (ApprovalStake × Bool)} (hslashed : ∀ entry ∈ stakes, entry.2 = false)
    (hnodup : (stakes.map fun entry => entry.1.validator).Nodup) (self : Doomslug) :
    (onApproval (ε := ε) now approval stakes self).1 = .ok () := by
  have hsize := DoomslugApprovalsTrackersAtHeight.size_accountIdToStakes_iff.2 ⟨hslashed, hnodup⟩
  have htrackers : ∀ mode trackers, ∃ ret,
      (DoomslugApprovalsTrackersAtHeight.processApproval (ε := ε) now approval stakes mode
        trackers).1 = .ok ret := by
    intro mode trackers
    simp only [DoomslugApprovalsTrackersAtHeight.processApproval, Program.run_bind,
      Program.run_modify, Program.run_assert, hsize, decide_true, if_true]
    split <;> exact ⟨_, rfl⟩
  simp only [onApproval, Program.run_bind, Program.run_get]
  split
  · rfl
  · simp only [onApprovalInternal, Program.run_bind, Program.run_get, Program.zoom]
    obtain ⟨ret, hret⟩ := htrackers self.thresholdMode
      ((self.approvalTracking approval.content.targetHeight).getD .new)
    rw [hret]
    cases ret <;> rfl

end TempoRollup.Node
