import TempoRollup.Node.DoomslugTrackers

set_option relaxedAutoImplicit false
set_option autoImplicit false

/-!
# The readiness of a block

The test of a leader, which reads a tracker, and the test of a verifier, which reads the approvals
in a block.

## Main definitions

* `DoomslugApprovalsTracker.Reached` — a tracker after any approvals and withdrawals.
* `Doomslug.canApprovedBlockBeProduced` — the test of the verifier.
* `Doomslug.AtBoundary` — the stakes and approvals on which the tests differ.

## Main results

* `DoomslugApprovalsTracker.reached_of_approvalTrackers` — the trackers at a height are reached.
* `totalStake_eq_stakesTotal`, `approvedStake_eq_stakesApproved` — the two tests read the same
  stakes.
* `canApprovedBlockBeProduced_of_ready` — a leader that is ready is not rejected.
* `ready_iff_canApprovedBlockBeProduced_iff` — when the two tests agree.
* `Doomslug.atBoundary_iff` — the boundary for stakes that fit.

## Design

The approvals in a block are given by the witnesses of the tracker, in the order of the stakes.
What an approval in a block is does not matter to the test, only that it is there.
-/

open Tally

namespace TempoRollup.Node

/-! ## The test of the leader -/

namespace DoomslugApprovalsTracker

/-- The operations of a tracker. -/
inductive Event
  | processApproval (now : ℕ) (approval : ApprovalValidated)
  | withdrawApproval (validator : Address)
  | getBlockProductionReadiness (now : ℕ)

/-- An operation of a tracker. -/
def step (self : DoomslugApprovalsTracker) : Event → DoomslugApprovalsTracker
  | .processApproval now approval => (self.processApproval now approval).2
  | .withdrawApproval validator => self.withdrawApproval validator
  | .getBlockProductionReadiness now => (self.getBlockProductionReadiness now).2

/-- A tracker that was made with the stakes of a list, which passed the assertion, after any
approvals and withdrawals. -/
def Reached (stakes : List (ApprovalStake × Bool)) (mode : DoomslugThresholdMode)
    (tracker : DoomslugApprovalsTracker) : Prop :=
  (DoomslugApprovalsTrackersAtHeight.accountIdToStakes stakes).size = stakes.length ∧
    ∃ events : List Event, events.foldl step
      (.new (DoomslugApprovalsTrackersAtHeight.accountIdToStakes stakes) mode) = tracker

variable {stakes : List (ApprovalStake × Bool)} {mode : DoomslugThresholdMode}
  {tracker : DoomslugApprovalsTracker}

/-- One more operation. -/
lemma Reached.step (h : Reached stakes mode tracker) (event : Event) :
    Reached stakes mode (tracker.step event) := by
  obtain ⟨hasserted, events, rfl⟩ := h
  exact ⟨hasserted, events ++ [event], List.foldl_concat _ _ _ _⟩

/-- **The trackers at one height are reached** from the stakes of their approvals. -/
theorem reached_of_approvalTrackers {ε : Type} {calls : List (ℕ × ApprovalValidated)}
    {inner : ApprovalInner}
    (h : (calls.foldl (fun trackers call =>
        (DoomslugApprovalsTrackersAtHeight.processApproval (ε := ε) call.1 call.2 stakes mode
          trackers).2) .new).approvalTrackers inner = some tracker) :
    Reached stakes mode tracker := by
  have hkept : DoomslugApprovalsTrackersAtHeight.Kept (Reached stakes mode) :=
    ⟨fun h now approval => h.step (.processApproval now approval),
      fun h validator => h.step (.withdrawApproval validator)⟩
  suffices hall : ∀ trackers : DoomslugApprovalsTrackersAtHeight,
      trackers.Consistent (Reached stakes mode) →
        (calls.foldl (fun trackers call =>
          (DoomslugApprovalsTrackersAtHeight.processApproval (ε := ε) call.1 call.2 stakes mode
            trackers).2) trackers).Consistent (Reached stakes mode) from
    (hall .new DoomslugApprovalsTrackersAtHeight.consistent_new).inv h
  clear h
  induction calls with
  | nil => exact fun trackers h => h
  | cons call calls ih =>
    intro trackers h
    exact ih _ (h.processApproval hkept call.1 call.2 fun hasserted => ⟨hasserted, [], rfl⟩)

/-- A reached tracker counts, with the settings that it was made with. -/
lemma Reached.counts (h : Reached stakes mode tracker)
    (hbalance : ∀ entry ∈ stakes, ∀ epoch, entry.1.stake epoch < U128) :
    tracker.Counts ∧ tracker.settings =
      (DoomslugApprovalsTrackersAtHeight.accountIdToStakes stakes, mode) := by
  obtain ⟨hasserted, events, rfl⟩ := h
  induction events using List.reverseRecOn with
  | nil =>
    refine ⟨?_, rfl⟩
    exact DoomslugApprovalsTrackersAtHeight.counts_new_accountIdToStakes hasserted hbalance mode
  | append_singleton events event ih =>
    rw [List.foldl_concat]
    obtain ⟨hcounts, hsettings⟩ := ih
    cases event with
    | processApproval now approval =>
      exact ⟨hcounts.processApproval now approval,
        (settings_processApproval now approval).trans hsettings⟩
    | withdrawApproval validator =>
      exact ⟨hcounts.withdrawApproval validator,
        (settings_withdrawApproval validator).trans hsettings⟩
    | getBlockProductionReadiness now =>
      exact ⟨hcounts.getBlockProductionReadiness now,
        (settings_getBlockProductionReadiness now).trans hsettings⟩

/-- When a tracker is ready. -/
lemma getBlockProductionReadiness_iff (hmode : tracker.thresholdMode = .twoThirds) (now : ℕ) :
    (tracker.getBlockProductionReadiness now).1 ≠ .notReady ↔
      tracker.approvedStake .this > tracker.totalStake .this * 2 % U128 / 3 ∧
        (tracker.approvedStake .next > tracker.totalStake .next * 2 % U128 / 3 ∨
          tracker.totalStake .next = 0) := by
  have hnot : ¬tracker.thresholdMode = .noApprovals := by
    rw [hmode]
    decide
  simp only [getBlockProductionReadiness, hnot, or_false, approvedStake, totalStake, Epoch.part]
  split_ifs with hready
  · simp [hready]
  · simp [hready]

end DoomslugApprovalsTracker

/-! ## The test of the verifier -/

namespace Doomslug

/-- The total stake of a list. -/
def stakesTotal (stakes : List (ℕ × ℕ × Bool)) (epoch : Epoch) : ℕ :=
  (stakes.map fun entry => epoch.part (entry.1, entry.2.1)).sum % U128

/-- Two thirds of the total stake of a list. -/
def stakesThreshold (stakes : List (ℕ × ℕ × Bool)) (epoch : Epoch) : ℕ :=
  stakesTotal stakes epoch * 2 % U128 / 3

/-- The stake that the approvals in a block have. -/
def stakesApproved (approvals : List (Option Bool)) (stakes : List (ℕ × ℕ × Bool))
    (epoch : Epoch) : ℕ :=
  (((approvals.zip stakes).filter fun entry => !entry.2.2.2).map fun entry =>
    if entry.1.isSome then epoch.part (entry.2.1, entry.2.2.1) else 0).sum % U128

/-- `can_approved_block_be_produced`. -/
def canApprovedBlockBeProduced (mode : DoomslugThresholdMode) (approvals : List (Option Bool))
    (stakes : List (ℕ × ℕ × Bool)) : Bool :=
  if mode = .noApprovals then true
  else
    let threshold1 := stakesThreshold stakes .this
    let threshold2 := stakesThreshold stakes .next
    let approvedStake1 := stakesApproved approvals stakes .this
    let approvedStake2 := stakesApproved approvals stakes .next
    (decide (approvedStake1 > threshold1) || decide (threshold1 = 0)) &&
      (decide (approvedStake2 > threshold2) || decide (threshold2 = 0))

/-- **The stakes and approvals at the boundary**: a threshold of zero that is not exceeded, for
this epoch, or for the next one if that has stake, while the other epoch is approved. -/
def AtBoundary (approvals : List (Option Bool)) (stakes : List (ℕ × ℕ × Bool)) : Prop :=
  stakesThreshold stakes .this = 0 ∧ stakesApproved approvals stakes .this = 0 ∧
      (stakesApproved approvals stakes .next > stakesThreshold stakes .next ∨
        stakesThreshold stakes .next = 0) ∨
    stakesThreshold stakes .next = 0 ∧ stakesApproved approvals stakes .next = 0 ∧
      stakesTotal stakes .next ≠ 0 ∧
        stakesApproved approvals stakes .this > stakesThreshold stakes .this

/-- It is decidable whether the stakes are at the boundary. -/
instance (approvals : List (Option Bool)) (stakes : List (ℕ × ℕ × Bool)) :
    Decidable (AtBoundary approvals stakes) :=
  inferInstanceAs (Decidable (_ ∨ _))

/-- When the verifier accepts. -/
lemma canApprovedBlockBeProduced_iff {approvals : List (Option Bool)}
    {stakes : List (ℕ × ℕ × Bool)} :
    canApprovedBlockBeProduced .twoThirds approvals stakes = true ↔
      (stakesApproved approvals stakes .this > stakesThreshold stakes .this ∨
          stakesThreshold stakes .this = 0) ∧
        (stakesApproved approvals stakes .next > stakesThreshold stakes .next ∨
          stakesThreshold stakes .next = 0) := by
  have hnot : ¬DoomslugThresholdMode.twoThirds = .noApprovals := by decide
  simp only [canApprovedBlockBeProduced, hnot, if_false, Bool.and_eq_true, Bool.or_eq_true,
    decide_eq_true_eq]

/-- The boundary for stakes whose doubled sums fit: a total stake of at most one, which nobody who
approved has a part of. -/
theorem atBoundary_iff {approvals : List (Option Bool)} {stakes : List (ℕ × ℕ × Bool)}
    (hfit : ∀ epoch, stakesTotal stakes epoch * 2 < U128) :
    AtBoundary approvals stakes ↔
      stakesTotal stakes .this ≤ 1 ∧ stakesApproved approvals stakes .this = 0 ∧
          (3 * stakesApproved approvals stakes .next > 2 * stakesTotal stakes .next ∨
            stakesTotal stakes .next ≤ 1) ∨
        stakesTotal stakes .next = 1 ∧ stakesApproved approvals stakes .next = 0 ∧
          3 * stakesApproved approvals stakes .this > 2 * stakesTotal stakes .this := by
  have hthreshold : ∀ epoch, stakesThreshold stakes epoch = stakesTotal stakes epoch * 2 / 3 := by
    intro epoch
    rw [stakesThreshold, Nat.mod_eq_of_lt (hfit epoch)]
  rw [AtBoundary, hthreshold, hthreshold]
  omega

/-- The stakes as the verifier gets them. -/
def blockStakes (stakes : List (ApprovalStake × Bool)) : List (ℕ × ℕ × Bool) :=
  stakes.map fun entry => (entry.1.stakeThisEpoch, entry.1.stakeNextEpoch, entry.2)

/-- The total stake of the verifier is that of the list of the leader. -/
lemma stakesTotal_blockStakes (stakes : List (ApprovalStake × Bool)) (epoch : Epoch) :
    stakesTotal (blockStakes stakes) epoch =
      (stakes.map fun entry => entry.1.stake epoch).sum % U128 := by
  rw [stakesTotal, blockStakes, List.map_map]
  rfl

/-- The approved stake of the verifier, for accounts that are not slashed. By induction on the
list. -/
lemma stakesApproved_blockStakes {stakes : List (ApprovalStake × Bool)}
    {approvals : List (Option Bool)} {approved : ApprovalStake × Bool → Bool}
    (hslashed : ∀ entry ∈ stakes, entry.2 = false)
    (happrovals : approvals.map Option.isSome = stakes.map approved) (epoch : Epoch) :
    stakesApproved approvals (blockStakes stakes) epoch =
      (stakes.map fun entry => if approved entry then entry.1.stake epoch else 0).sum % U128 := by
  rw [stakesApproved, blockStakes]
  congr 1
  induction stakes generalizing approvals with
  | nil => simp
  | cons entry stakes ih =>
    cases approvals with
    | nil => cases happrovals
    | cons approval approvals =>
      rw [List.map_cons, List.map_cons, List.cons.injEq] at happrovals
      rw [List.forall_mem_cons] at hslashed
      have hrest := ih hslashed.2 happrovals.2
      rw [List.map_cons, List.zip_cons_cons, List.filter_cons_of_pos (by simp [hslashed.1]),
        List.map_cons, List.sum_cons, hrest, happrovals.1, List.map_cons, List.sum_cons]
      rfl

end Doomslug

/-! ## The two tests -/

section Agreement

open Doomslug DoomslugApprovalsTrackersAtHeight

variable {stakes : List (ApprovalStake × Bool)} {tracker : DoomslugApprovalsTracker}
  {mode : DoomslugThresholdMode} {approvals : List (Option Bool)}

/-- The total stake of a reached tracker is that of the list. -/
theorem totalStake_eq_stakesTotal (h : tracker.Reached stakes mode)
    (hbalance : ∀ entry ∈ stakes, ∀ epoch, entry.1.stake epoch < U128) (epoch : Epoch) :
    tracker.totalStake epoch = stakesTotal (blockStakes stakes) epoch := by
  obtain ⟨hcounts, hsettings⟩ := h.counts hbalance
  have hstakes : tracker.accountIdToStakes = accountIdToStakes stakes := congrArg Prod.fst hsettings
  rw [hcounts.total_eq epoch, stakesTotal_blockStakes, ← total_accountIdToStakes h.1 epoch,
    ← hstakes]
  rfl

/-- **The approved stake of a reached tracker** is that of its witnesses in the list. -/
theorem approvedStake_eq_stakesApproved (h : tracker.Reached stakes mode)
    (hbalance : ∀ entry ∈ stakes, ∀ epoch, entry.1.stake epoch < U128)
    (happrovals : approvals.map Option.isSome =
      stakes.map fun entry => tracker.witness.contains entry.1.validator) (epoch : Epoch) :
    tracker.approvedStake epoch = stakesApproved approvals (blockStakes stakes) epoch := by
  obtain ⟨hcounts, hsettings⟩ := h.counts hbalance
  obtain ⟨hslashed, hnodup⟩ := size_accountIdToStakes_iff.1 h.1
  have hstakes : tracker.accountIdToStakes = accountIdToStakes stakes := congrArg Prod.fst hsettings
  rw [hcounts.approved_eq epoch, stakesApproved_blockStakes hslashed happrovals,
    tally_eq_ite fun v _ hne => DoomslugApprovalsTracker.mem_of_stake_ne_zero hne, hstakes,
    tally_accountIdToStakes h.1]
  congr 2
  refine List.map_congr_left fun entry hentry => ?_
  have hpart := part_accountIdToStakes hnodup hentry (hslashed entry hentry) epoch
  rw [DoomslugApprovalsTracker.stake, DoomslugApprovalsTracker.stakesOf, hstakes, hpart]
  simp only [Std.TreeMap.contains_iff_mem]

/-- When a reached tracker is ready, by the stakes and approvals that the verifier gets. -/
lemma ready_iff (h : tracker.Reached stakes .twoThirds)
    (hbalance : ∀ entry ∈ stakes, ∀ epoch, entry.1.stake epoch < U128)
    (happrovals : approvals.map Option.isSome =
      stakes.map fun entry => tracker.witness.contains entry.1.validator) (now : ℕ) :
    (tracker.getBlockProductionReadiness now).1 ≠ .notReady ↔
      stakesApproved approvals (blockStakes stakes) .this >
          stakesThreshold (blockStakes stakes) .this ∧
        (stakesApproved approvals (blockStakes stakes) .next >
            stakesThreshold (blockStakes stakes) .next ∨
          stakesTotal (blockStakes stakes) .next = 0) := by
  have hmode : tracker.thresholdMode = .twoThirds := congrArg Prod.snd (h.counts hbalance).2
  rw [DoomslugApprovalsTracker.getBlockProductionReadiness_iff hmode,
    totalStake_eq_stakesTotal h hbalance, totalStake_eq_stakesTotal h hbalance,
    approvedStake_eq_stakesApproved h hbalance happrovals,
    approvedStake_eq_stakesApproved h hbalance happrovals]
  rfl

/-- **A leader that is ready makes a block that the verifiers accept.** -/
theorem canApprovedBlockBeProduced_of_ready (h : tracker.Reached stakes .twoThirds)
    (hbalance : ∀ entry ∈ stakes, ∀ epoch, entry.1.stake epoch < U128)
    (happrovals : approvals.map Option.isSome =
      stakes.map fun entry => tracker.witness.contains entry.1.validator) {now : ℕ}
    (hready : (tracker.getBlockProductionReadiness now).1 ≠ .notReady) :
    canApprovedBlockBeProduced .twoThirds approvals (blockStakes stakes) = true := by
  obtain ⟨hthis, hnext⟩ := (ready_iff h hbalance happrovals now).1 hready
  refine canApprovedBlockBeProduced_iff.2 ⟨.inl hthis, hnext.imp_right fun htotal => ?_⟩
  rw [stakesThreshold, htotal]
  rfl

/-- **When the two tests agree**: unless the stakes and approvals are at the boundary.

**Proof sketch.** One test asks for more than two thirds of the stake, the other for at least as
much as a rounded threshold; the two differ at the threshold only. -/
theorem ready_iff_canApprovedBlockBeProduced_iff (h : tracker.Reached stakes .twoThirds)
    (hbalance : ∀ entry ∈ stakes, ∀ epoch, entry.1.stake epoch < U128)
    (happrovals : approvals.map Option.isSome =
      stakes.map fun entry => tracker.witness.contains entry.1.validator) (now : ℕ) :
    ((tracker.getBlockProductionReadiness now).1 ≠ .notReady ↔
        canApprovedBlockBeProduced .twoThirds approvals (blockStakes stakes) = true) ↔
      ¬AtBoundary approvals (blockStakes stakes) := by
  have hzero : stakesTotal (blockStakes stakes) .next = 0 →
      stakesThreshold (blockStakes stakes) .next = 0 := by
    intro htotal
    rw [stakesThreshold, htotal]
    rfl
  rw [ready_iff h hbalance happrovals, canApprovedBlockBeProduced_iff, AtBoundary]
  generalize stakesThreshold (blockStakes stakes) .this = threshold1 at *
  generalize stakesThreshold (blockStakes stakes) .next = threshold2 at *
  omega

/-- Three accounts with a stake of one each, which all approve. -/
theorem ready_iff_canApprovedBlockBeProduced_three :
    ((([.processApproval 0 ⟨.newEndorsement 0 1, .default, 1⟩,
          .processApproval 0 ⟨.newEndorsement 0 1, .default, 2⟩,
          .processApproval 0 ⟨.newEndorsement 0 1, .default, 3⟩].foldl
            DoomslugApprovalsTracker.step
            (.new (accountIdToStakes
              [(⟨1, 1, 1⟩, false), (⟨2, 1, 1⟩, false), (⟨3, 1, 1⟩, false)]) .twoThirds)
        ).getBlockProductionReadiness 0).1 ≠ .notReady ↔
      canApprovedBlockBeProduced .twoThirds [some true, some true, some true]
        (blockStakes [(⟨1, 1, 1⟩, false), (⟨2, 1, 1⟩, false), (⟨3, 1, 1⟩, false)]) = true) := by
  refine (ready_iff_canApprovedBlockBeProduced_iff ⟨by decide, _, rfl⟩ ?_ (by decide) 0).2
    (by decide)
  intro entry hentry epoch
  simp only [List.mem_cons, List.not_mem_nil, or_false] at hentry
  rcases hentry with rfl | rfl | rfl <;> cases epoch <;> decide

/-- The total stake is one, and only an account without stake approves: the leader is not ready,
but the verifier would accept the block. -/
theorem not_ready_iff_canApprovedBlockBeProduced :
    ¬((((DoomslugApprovalsTracker.new
          (accountIdToStakes [(⟨1, 1, 1⟩, false), (⟨2, 0, 0⟩, false)]) .twoThirds).processApproval 0
            ⟨.newEndorsement 0 1, .default, 2⟩).2.getBlockProductionReadiness 0).1 ≠ .notReady ↔
      canApprovedBlockBeProduced .twoThirds [none, some true]
        (blockStakes [(⟨1, 1, 1⟩, false), (⟨2, 0, 0⟩, false)]) = true) := by
  decide

end Agreement

end TempoRollup.Node
