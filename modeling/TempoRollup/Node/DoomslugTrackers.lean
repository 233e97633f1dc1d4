import TempoRollup.Lib.Tally
import TempoRollup.Node.DoomslugTimer

set_option relaxedAutoImplicit false
set_option autoImplicit false

/-!
# The count of approvals

What the trackers of Doomslug count over a run of approvals and blocks.

## Main definitions

* `Epoch` — the two epochs that stakes are counted for.
* `DoomslugApprovalsTracker.Counts` — the counters follow the stakes of the witnesses.
* `DoomslugApprovalsTracker.CountsExactly` — the approved stake is that of the witnesses.
* `DoomslugApprovalsTrackersAtHeight.Consistent` — every account is a witness of one tracker.
* `TimedDoomslug.step` — the steps of an instance that change its trackers.

## Main results

* `DoomslugApprovalsTracker.Counts.processApproval`, `Counts.withdrawApproval` — an approval is
  counted once, and not any more when it is withdrawn.
* `DoomslugApprovalsTrackersAtHeight.Consistent.processApproval` — an approval of an account
  replaces its last one.
* `trackers_count` — in every state of a run, every tracker counts what its witnesses have, and
  no account is counted twice.

## Design

A call that panics leaves what it did until then. Sums of stakes wrap around at `2 ^ 128`, as in a
release build.
-/

open Exec Tally

namespace TempoRollup.Node

/-! ## Epochs -/

/-- The epochs that stakes are counted for. -/
inductive Epoch
  | this
  | next
  deriving DecidableEq, Repr

/-- The part of a pair of stakes. -/
def Epoch.part : Epoch → ℕ × ℕ → ℕ
  | this => Prod.fst
  | next => Prod.snd

/-- Pairs that are computed by epochs. -/
lemma Epoch.part_map₂ (epoch : Epoch) (f : ℕ → ℕ → ℕ) (a b : ℕ × ℕ) :
    epoch.part (f a.1 b.1, f a.2 b.2) = f (epoch.part a) (epoch.part b) := by
  cases epoch <;> rfl

/-- The stake of an entry. -/
def ApprovalStake.stake (self : ApprovalStake) (epoch : Epoch) : ℕ :=
  epoch.part (self.stakeThisEpoch, self.stakeNextEpoch)

namespace DoomslugApprovalsTracker

variable (self : DoomslugApprovalsTracker) (epoch : Epoch)

/-- The stake of an account. -/
def stake (validator : Address) : ℕ := epoch.part (self.stakesOf validator)

/-- The total stake. -/
def totalStake : ℕ := epoch.part (self.totalStakeThisEpoch, self.totalStakeNextEpoch)

/-- The approved stake. -/
def approvedStake : ℕ := epoch.part (self.approvedStakeThisEpoch, self.approvedStakeNextEpoch)

end DoomslugApprovalsTracker

/-! ## One tracker -/

namespace DoomslugApprovalsTracker

/-- **A tracker counts its witnesses**: under every account there is an approval of its own, and
the counters follow the tally of the stakes. -/
structure Counts (tracker : DoomslugApprovalsTracker) : Prop where
  validator_eq : ∀ {v : Address} {approval : ApprovalValidated},
    tracker.witness[v]? = some approval → approval.validator = v
  balance : ∀ epoch v, tracker.stake epoch v < U128
  total_eq : ∀ epoch, tracker.totalStake epoch =
    tally (tracker.stake epoch) tracker.accountIdToStakes % U128
  approved_eq : ∀ epoch, tracker.approvedStake epoch =
    tally (tracker.stake epoch) tracker.witness % U128

variable {self : DoomslugApprovalsTracker}

/-- A tracker without approvals counts. -/
lemma counts_new {accountIdToStakes : Std.TreeMap Address (ℕ × ℕ)}
    (hbalance : ∀ (epoch : Epoch) (v : Address) (stakes : ℕ × ℕ),
      accountIdToStakes[v]? = some stakes → epoch.part stakes < U128)
    (mode : DoomslugThresholdMode) : (new accountIdToStakes mode).Counts where
  validator_eq h := by
    change (∅ : Std.TreeMap Address ApprovalValidated)[_]? = _ at h
    rw [Std.TreeMap.getElem?_emptyc] at h
    cases h
  balance epoch v := by
    change epoch.part (accountIdToStakes[v]?.getD (0, 0)) < U128
    rcases hv : accountIdToStakes[v]? with _ | stakes
    · cases epoch <;> decide
    · exact hbalance epoch v stakes hv
  total_eq epoch := by
    have hsum : (new accountIdToStakes mode).totalStake epoch =
        (accountIdToStakes.values.map epoch.part).sum % U128 := by
      cases epoch <;> rfl
    rw [hsum, sum_values]
    congr 1
    refine tally_congr fun v _ => ?_
    change _ = epoch.part (accountIdToStakes[v]?.getD (0, 0))
    rcases accountIdToStakes[v]? with _ | stakes
    · cases epoch <;> rfl
    · rfl
  approved_eq epoch := by
    change _ = tally _ (∅ : Std.TreeMap Address ApprovalValidated) % U128
    rw [tally_empty]
    cases epoch <;> rfl

/-- The readiness test changes no counter. -/
lemma Counts.getBlockProductionReadiness (h : self.Counts) (now : ℕ) :
    (self.getBlockProductionReadiness now).2.Counts := by
  unfold DoomslugApprovalsTracker.getBlockProductionReadiness
  split_ifs
  · exact ⟨h.validator_eq, h.balance, h.total_eq, h.approved_eq⟩
  · exact h

/-- **An approval is counted once.** -/
theorem Counts.processApproval (h : self.Counts) (now : ℕ) (approval : ApprovalValidated) :
    (self.processApproval now approval).2.Counts := by
  unfold DoomslugApprovalsTracker.processApproval
  refine Counts.getBlockProductionReadiness ?_ now
  split_ifs with hmem
  · exact h
  · rw [Std.TreeMap.contains_iff_mem] at hmem
    refine ⟨fun {v other} hv => ?_, h.balance, h.total_eq, fun epoch => ?_⟩
    · rw [Std.TreeMap.getElem?_insert] at hv
      split_ifs at hv with heq
      · rw [← Option.some_inj.1 hv, ← Std.LawfulEqCmp.compare_eq_iff_eq.1 heq]
      · exact h.validator_eq hv
    · have happroved := epoch.part_map₂ (fun approved stake => (approved + stake) % U128)
        (self.approvedStakeThisEpoch, self.approvedStakeNextEpoch)
        (self.stakesOf approval.validator)
      refine happroved.trans ?_
      have hold := h.approved_eq epoch
      unfold approvedStake at hold
      rw [hold, Nat.mod_add_mod]
      exact congrArg (· % U128) (tally_insert hmem).symm

/-- **A withdrawn approval is not counted any more.** -/
theorem Counts.withdrawApproval (h : self.Counts) (validator : Address) :
    (self.withdrawApproval validator).Counts := by
  unfold DoomslugApprovalsTracker.withdrawApproval
  rcases hv : self.witness[validator]? with _ | approval
  · exact h
  · obtain rfl := h.validator_eq hv
    refine ⟨fun {v other} hv => ?_, h.balance, h.total_eq, fun epoch => ?_⟩
    · change (self.witness.erase _)[v]? = _ at hv
      rw [Std.TreeMap.getElem?_erase] at hv
      split_ifs at hv
      exact h.validator_eq hv
    · have happroved := epoch.part_map₂ (fun approved stake => (approved + U128 - stake) % U128)
        (self.approvedStakeThisEpoch, self.approvedStakeNextEpoch)
        (self.stakesOf approval.validator)
      have hmem : approval.validator ∈ self.witness :=
        Std.TreeMap.mem_iff_isSome_getElem?.2 (Option.isSome_iff_exists.2 ⟨_, hv⟩)
      refine happroved.trans ?_
      have hold := h.approved_eq epoch
      unfold approvedStake at hold
      rw [hold, ← tally_erase hmem]
      exact wrap_sub (h.balance epoch approval.validator).le

/-- What a tracker was made with. -/
def settings (self : DoomslugApprovalsTracker) :
    Std.TreeMap Address (ℕ × ℕ) × DoomslugThresholdMode :=
  (self.accountIdToStakes, self.thresholdMode)

/-- A tracker keeps its settings. -/
lemma settings_getBlockProductionReadiness (now : ℕ) :
    (self.getBlockProductionReadiness now).2.settings = self.settings := by
  unfold getBlockProductionReadiness
  split_ifs <;> rfl

/-- An approval does not change the settings. -/
lemma settings_processApproval (now : ℕ) (approval : ApprovalValidated) :
    (self.processApproval now approval).2.settings = self.settings := by
  unfold processApproval
  rw [settings_getBlockProductionReadiness]
  split_ifs <;> rfl

/-- A withdrawal does not change the settings. -/
lemma settings_withdrawApproval (validator : Address) :
    (self.withdrawApproval validator).settings = self.settings := by
  unfold withdrawApproval
  split <;> rfl

/-- The readiness test changes no witness. -/
lemma witness_getBlockProductionReadiness (now : ℕ) :
    (self.getBlockProductionReadiness now).2.witness = self.witness := by
  unfold getBlockProductionReadiness
  split_ifs <;> rfl

/-- An approval makes its validator a witness. -/
lemma mem_witness_processApproval (now : ℕ) (approval : ApprovalValidated) {v : Address} :
    v ∈ (self.processApproval now approval).2.witness ↔
      v = approval.validator ∨ v ∈ self.witness := by
  unfold processApproval
  rw [witness_getBlockProductionReadiness]
  split_ifs with hmem
  · rw [Std.TreeMap.contains_iff_mem] at hmem
    constructor
    · exact Or.inr
    · rintro (rfl | hv)
      · exact hmem
      · exact hv
  · change v ∈ self.witness.insert _ _ ↔ _
    rw [Std.TreeMap.mem_insert, Std.LawfulEqCmp.compare_eq_iff_eq, eq_comm]

/-- A withdrawn validator is no witness any more. -/
lemma mem_witness_withdrawApproval (validator : Address) {v : Address} :
    v ∈ (self.withdrawApproval validator).witness ↔ v ≠ validator ∧ v ∈ self.witness := by
  unfold withdrawApproval
  split
  case h_1 hnone =>
    constructor
    · intro hv
      refine ⟨?_, hv⟩
      rintro rfl
      rw [Std.TreeMap.mem_iff_isSome_getElem?, hnone] at hv
      cases hv
    · exact And.right
  case h_2 =>
    change v ∈ self.witness.erase _ ↔ _
    rw [Std.TreeMap.mem_erase, ne_eq, Std.LawfulEqCmp.compare_eq_iff_eq, ne_eq, eq_comm]

/-- The stakes of all accounts of a tracker fit into a counter. -/
def Fits (tracker : DoomslugApprovalsTracker) : Prop :=
  ∀ epoch, tally (tracker.stake epoch) tracker.accountIdToStakes < U128

/-- The bound depends on the stakes only. -/
lemma Fits.congr {tracker : DoomslugApprovalsTracker} (h : self.Fits)
    (heq : tracker.settings = self.settings) : tracker.Fits := by
  have hstakes : tracker.accountIdToStakes = self.accountIdToStakes := congrArg Prod.fst heq
  intro epoch
  unfold stake stakesOf
  rw [hstakes]
  exact h epoch

/-- **A tracker counts exactly**: the approved stake is that of its witnesses, it is never above
the total stake, and it covers the stake of every approval that may be withdrawn. -/
structure CountsExactly (tracker : DoomslugApprovalsTracker) : Prop where
  approved_eq : ∀ epoch, tracker.approvedStake epoch =
    tally (tracker.stake epoch) tracker.witness
  approved_le : ∀ epoch, tracker.approvedStake epoch ≤ tracker.totalStake epoch
  withdraw_le : ∀ {v : Address} {approval : ApprovalValidated},
    tracker.witness[v]? = some approval →
      ∀ epoch, tracker.stake epoch approval.validator ≤ tracker.approvedStake epoch

/-- Only accounts of the tracker have stakes. -/
lemma mem_of_stake_ne_zero {epoch : Epoch} {v : Address} (h : self.stake epoch v ≠ 0) :
    v ∈ self.accountIdToStakes := by
  rw [Std.TreeMap.mem_iff_isSome_getElem?]
  rcases hv : self.accountIdToStakes[v]? with _ | stakes
  · refine absurd ?_ h
    rw [stake, stakesOf, hv]
    cases epoch <;> rfl
  · rfl

/-- Counters that cannot wrap around are exact. -/
lemma Counts.exactly (h : self.Counts) (hfits : self.Fits) : self.CountsExactly := by
  have hle : ∀ epoch, tally (self.stake epoch) self.witness ≤
      tally (self.stake epoch) self.accountIdToStakes := fun epoch =>
    tally_le fun v _ hne => mem_of_stake_ne_zero hne
  have happroved : ∀ epoch, self.approvedStake epoch = tally (self.stake epoch) self.witness := by
    intro epoch
    rw [h.approved_eq epoch, Nat.mod_eq_of_lt ((hle epoch).trans_lt (hfits epoch))]
  refine ⟨happroved, fun epoch => ?_, fun {v approval} hv epoch => ?_⟩
  · rw [happroved epoch, h.total_eq epoch, Nat.mod_eq_of_lt (hfits epoch)]
    exact hle epoch
  · have hmem : approval.validator ∈ self.witness := by
      rw [h.validator_eq hv, Std.TreeMap.mem_iff_isSome_getElem?, hv]
      rfl
    rw [happroved epoch]
    exact le_tally hmem

end DoomslugApprovalsTracker

/-! ## The trackers at one height -/

/-- An entry of an updated map is the new one or an old one. -/
lemma eq_some_of_update {α β : Type} [DecidableEq α] {f : α → Option β} {a a' : α}
    {entry : Option β} {b : β} (h : Function.update f a entry a' = some b) :
    a' = a ∧ entry = some b ∨ a' ≠ a ∧ f a' = some b := by
  rw [Function.update_apply] at h
  split_ifs at h with heq
  · exact .inl ⟨heq, h⟩
  · exact .inr ⟨heq, h⟩

namespace DoomslugApprovalsTrackersAtHeight

/-- The sums of the stakes of a list fit into a counter. -/
def StakesFit (stakes : List (ApprovalStake × Bool)) : Prop :=
  ∀ epoch, (stakes.map fun entry => entry.1.stake epoch).sum < U128

/-- An invariant of trackers that approvals and withdrawals keep. -/
structure Kept (Inv : DoomslugApprovalsTracker → Prop) : Prop where
  processApproval : ∀ {tracker}, Inv tracker → ∀ now approval,
    Inv (tracker.processApproval now approval).2
  withdrawApproval : ∀ {tracker}, Inv tracker → ∀ validator,
    Inv (tracker.withdrawApproval validator)

/-- **The trackers at one height are consistent**: each of them keeps the invariant, and an
account is a witness only for its last approval. -/
structure Consistent (Inv : DoomslugApprovalsTracker → Prop)
    (trackers : DoomslugApprovalsTrackersAtHeight) : Prop where
  inv : ∀ {inner : ApprovalInner} {tracker : DoomslugApprovalsTracker},
    trackers.approvalTrackers inner = some tracker → Inv tracker
  last_eq : ∀ {inner : ApprovalInner} {tracker : DoomslugApprovalsTracker} {v : Address},
    trackers.approvalTrackers inner = some tracker → v ∈ tracker.witness →
      trackers.lastApprovalPerAccount v = some inner

variable {self : DoomslugApprovalsTrackersAtHeight} {stakes : List (ApprovalStake × Bool)}
  {Inv : DoomslugApprovalsTracker → Prop}

/-- There are no trackers at first. -/
lemma consistent_new : Consistent Inv new where
  inv h := by cases h
  last_eq h := by cases h

/-- No account is a witness of two trackers. -/
lemma Consistent.inner_eq (h : Consistent Inv self) {inner inner' : ApprovalInner}
    {tracker tracker' : DoomslugApprovalsTracker} {v : Address}
    (htracker : self.approvalTrackers inner = some tracker) (hv : v ∈ tracker.witness)
    (htracker' : self.approvalTrackers inner' = some tracker') (hv' : v ∈ tracker'.witness) :
    inner = inner' :=
  Option.some_inj.1 ((h.last_eq htracker hv).symm.trans (h.last_eq htracker' hv'))

/-- The stake that the map of a list has for one of its entries. -/
lemma part_accountIdToStakes
    (hnodup : (stakes.map fun entry => entry.1.validator).Nodup) {entry : ApprovalStake × Bool}
    (hmem : entry ∈ stakes) (hslashed : entry.2 = false) (epoch : Epoch) :
    epoch.part ((accountIdToStakes stakes)[entry.1.validator]?.getD (0, 0)) =
      entry.1.stake epoch := by
  rw [getElem?_accountIdToStakes hnodup hmem hslashed, Option.getD_some, ApprovalStake.stake]

/-- A tally over a map that passes the assertion is a sum over the list. -/
lemma tally_accountIdToStakes (hasserted : (accountIdToStakes stakes).size = stakes.length)
    (weight : Address → ℕ) :
    tally weight (accountIdToStakes stakes) =
      (stakes.map fun entry => weight entry.1.validator).sum := by
  obtain ⟨hslashed, hnodup⟩ := size_accountIdToStakes_iff.1 hasserted
  rw [tally_eq_sum hnodup, List.map_map]
  · rfl
  · intro v
    rw [mem_accountIdToStakes, List.mem_map]
    constructor
    · rintro ⟨entry, hentry, -, heq⟩
      exact ⟨entry, hentry, heq⟩
    · rintro ⟨entry, hentry, heq⟩
      exact ⟨entry, hentry, hslashed entry hentry, heq⟩

/-- The total of a map that passes the assertion is that of the list. -/
lemma total_accountIdToStakes (hasserted : (accountIdToStakes stakes).size = stakes.length)
    (epoch : Epoch) :
    tally (fun v => epoch.part ((accountIdToStakes stakes)[v]?.getD (0, 0)))
      (accountIdToStakes stakes) = (stakes.map fun entry => entry.1.stake epoch).sum := by
  obtain ⟨hslashed, hnodup⟩ := size_accountIdToStakes_iff.1 hasserted
  rw [tally_accountIdToStakes hasserted]
  congr 1
  exact List.map_congr_left fun entry hentry =>
    part_accountIdToStakes hnodup hentry (hslashed entry hentry) epoch

/-- A tracker that was made with stakes that passed the assertion counts. -/
lemma counts_new_accountIdToStakes
    (hasserted : (accountIdToStakes stakes).size = stakes.length)
    (hbalance : ∀ entry ∈ stakes, ∀ epoch, entry.1.stake epoch < U128)
    (mode : DoomslugThresholdMode) :
    (DoomslugApprovalsTracker.new (accountIdToStakes stakes) mode).Counts := by
  obtain ⟨hslashed, hnodup⟩ := size_accountIdToStakes_iff.1 hasserted
  refine DoomslugApprovalsTracker.counts_new (fun epoch v pair hpair => ?_) mode
  have hmem : v ∈ accountIdToStakes stakes := by
    rw [Std.TreeMap.mem_iff_isSome_getElem?, hpair]
    rfl
  obtain ⟨entry, hentry, -, rfl⟩ := mem_accountIdToStakes.1 hmem
  have hpart := part_accountIdToStakes hnodup hentry (hslashed entry hentry) epoch
  rw [hpair, Option.getD_some] at hpart
  rw [hpart]
  exact hbalance entry hentry epoch

/-- A tracker that was made with stakes that fit counts exactly. -/
lemma counts_new_of_stakesFit (hasserted : (accountIdToStakes stakes).size = stakes.length)
    (hfit : StakesFit stakes) (mode : DoomslugThresholdMode) :
    (DoomslugApprovalsTracker.new (accountIdToStakes stakes) mode).Counts ∧
      (DoomslugApprovalsTracker.new (accountIdToStakes stakes) mode).Fits := by
  refine ⟨counts_new_accountIdToStakes hasserted (fun entry hentry epoch => ?_) mode,
    fun epoch => ?_⟩
  · exact (List.le_sum_of_mem (List.mem_map_of_mem hentry)).trans_lt (hfit epoch)
  · exact (total_accountIdToStakes hasserted epoch).trans_lt (hfit epoch)

/-- After the last approval of an account was withdrawn, it is no witness. -/
lemma Consistent.withdrawLast (h : Consistent Inv self) (hkept : Kept Inv)
    (validator : Address) :
    Consistent Inv (self.withdrawLast validator) ∧
      ∀ {inner : ApprovalInner} {tracker : DoomslugApprovalsTracker},
        (self.withdrawLast validator).approvalTrackers inner = some tracker →
          validator ∉ tracker.witness := by
  unfold DoomslugApprovalsTrackersAtHeight.withdrawLast
  split
  case h_1 hnone =>
    refine ⟨h, fun {inner tracker} htracker hv => ?_⟩
    have hlast := h.last_eq htracker hv
    rw [hnone] at hlast
    cases hlast
  case h_2 lastParent hlast =>
    split
    case h_1 hnone =>
      refine ⟨h, fun {inner tracker} htracker hv => ?_⟩
      have hinner := h.last_eq htracker hv
      rw [hlast, Option.some_inj] at hinner
      rw [← hinner, hnone] at htracker
      cases htracker
    case h_2 old hold =>
      -- a tracker is the one that lost the account, or an unchanged one
      have hcases : ∀ {inner : ApprovalInner} {tracker : DoomslugApprovalsTracker},
          Function.update self.approvalTrackers lastParent
              (if (old.withdrawApproval validator).witness.isEmpty then none
                else some (old.withdrawApproval validator)) inner = some tracker →
            inner = lastParent ∧ tracker = old.withdrawApproval validator ∨
              inner ≠ lastParent ∧ self.approvalTrackers inner = some tracker := by
        intro inner tracker htracker
        rcases eq_some_of_update htracker with ⟨rfl, hentry⟩ | hkept
        · split_ifs at hentry
          exact .inl ⟨rfl, (Option.some_inj.1 hentry).symm⟩
        · exact .inr hkept
      refine ⟨⟨fun {inner tracker} htracker => ?_, fun {inner tracker v} htracker hv => ?_⟩,
        fun {inner tracker} htracker hv => ?_⟩
      · rcases hcases htracker with ⟨-, rfl⟩ | ⟨-, htracker⟩
        · exact hkept.withdrawApproval (h.inv hold) validator
        · exact h.inv htracker
      · rcases hcases htracker with ⟨rfl, rfl⟩ | ⟨-, htracker⟩
        · rw [DoomslugApprovalsTracker.mem_witness_withdrawApproval] at hv
          exact h.last_eq hold hv.2
        · exact h.last_eq htracker hv
      · rcases hcases htracker with ⟨-, rfl⟩ | ⟨hne, htracker⟩
        · rw [DoomslugApprovalsTracker.mem_witness_withdrawApproval] at hv
          exact hv.1 rfl
        · have hinner := h.last_eq htracker hv
          rw [hlast, Option.some_inj] at hinner
          exact hne hinner.symm

/-- The trackers after an approval was added to that for its content. -/
def addApproval (now : ℕ) (approval : ApprovalValidated) (stakes : List (ApprovalStake × Bool))
    (thresholdMode : DoomslugThresholdMode) (self : DoomslugApprovalsTrackersAtHeight) :
    DoomslugApprovalsTrackersAtHeight where
  approvalTrackers := Function.update self.approvalTrackers approval.content.inner
    (some (((self.approvalTrackers approval.content.inner).getD
      (.new (accountIdToStakes stakes) thresholdMode)).processApproval now approval).2)
  lastApprovalPerAccount := Function.update self.lastApprovalPerAccount approval.validator
    (some approval.content.inner)

/-- What `process_approval` does: the last approval of the account is withdrawn, and the new one
is added only if the stakes pass the assertion. -/
lemma snd_processApproval {ε : Type} (now : ℕ) (approval : ApprovalValidated)
    (stakes : List (ApprovalStake × Bool)) (thresholdMode : DoomslugThresholdMode)
    (self : DoomslugApprovalsTrackersAtHeight) :
    (processApproval (ε := ε) now approval stakes thresholdMode self).2 =
        self.withdrawLast approval.validator ∨
      (accountIdToStakes stakes).size = stakes.length ∧
        (processApproval (ε := ε) now approval stakes thresholdMode self).2 =
          (self.withdrawLast approval.validator).addApproval now approval stakes thresholdMode := by
  simp only [processApproval, Program.run_bind, Program.run_modify, Program.run_assert]
  by_cases hasserted : (accountIdToStakes stakes).size = stakes.length
  · simp only [hasserted, decide_true, if_true, true_and]
    split_ifs
    · exact .inr rfl
    · exact .inl rfl
  · simp [hasserted]

/-- An approval of an account that is no witness keeps the trackers consistent. -/
lemma Consistent.addApproval (h : Consistent Inv self) (hkept : Kept Inv) (now : ℕ)
    {approval : ApprovalValidated}
    (hnot : ∀ {inner : ApprovalInner} {tracker : DoomslugApprovalsTracker},
      self.approvalTrackers inner = some tracker → approval.validator ∉ tracker.witness)
    {thresholdMode : DoomslugThresholdMode}
    (hnew : Inv (.new (accountIdToStakes stakes) thresholdMode)) :
    Consistent Inv (self.addApproval now approval stakes thresholdMode) := by
  obtain ⟨base, hbase⟩ : ∃ base, (self.approvalTrackers approval.content.inner).getD
      (.new (accountIdToStakes stakes) thresholdMode) = base := ⟨_, rfl⟩
  -- the tracker is there already, or it is made now
  obtain ⟨hinv, hlast⟩ : Inv base ∧ ∀ v ∈ base.witness, v ≠ approval.validator ∧
      self.lastApprovalPerAccount v = some approval.content.inner := by
    rcases hold : self.approvalTrackers approval.content.inner with _ | tracker
    · rw [hold, Option.getD_none] at hbase
      subst hbase
      exact ⟨hnew, fun v hv => absurd hv Std.TreeMap.not_mem_emptyc⟩
    · rw [hold, Option.getD_some] at hbase
      subst hbase
      refine ⟨h.inv hold, fun v hv => ⟨?_, h.last_eq hold hv⟩⟩
      rintro rfl
      exact hnot hold hv
  have hcases : ∀ {inner : ApprovalInner} {tracker : DoomslugApprovalsTracker},
      (self.addApproval now approval stakes thresholdMode).approvalTrackers inner = some tracker →
        inner = approval.content.inner ∧ tracker = (base.processApproval now approval).2 ∨
          inner ≠ approval.content.inner ∧ self.approvalTrackers inner = some tracker := by
    intro inner tracker htracker
    rcases eq_some_of_update htracker with ⟨hinner, hentry⟩ | hkept
    · rw [hbase, Option.some_inj] at hentry
      exact .inl ⟨hinner, hentry.symm⟩
    · exact .inr hkept
  refine ⟨fun {inner tracker} htracker => ?_, fun {inner tracker v} htracker hv => ?_⟩
  · rcases hcases htracker with ⟨-, rfl⟩ | ⟨-, htracker⟩
    · exact hkept.processApproval hinv now approval
    · exact h.inv htracker
  · change Function.update self.lastApprovalPerAccount _ _ v = _
    rcases hcases htracker with ⟨rfl, rfl⟩ | ⟨-, htracker⟩
    · rcases (DoomslugApprovalsTracker.mem_witness_processApproval now approval).1 hv with
        rfl | hv
      · rw [Function.update_self]
      · rw [Function.update_of_ne (hlast v hv).1]
        exact (hlast v hv).2
    · rw [Function.update_of_ne]
      · exact h.last_eq htracker hv
      · rintro rfl
        exact hnot htracker hv

/-- **An approval keeps the trackers consistent**, also one that panics. A new tracker is made
only if the stakes pass the assertion. -/
theorem Consistent.processApproval {ε : Type} (h : Consistent Inv self) (hkept : Kept Inv)
    (now : ℕ) (approval : ApprovalValidated) {thresholdMode : DoomslugThresholdMode}
    (hnew : (accountIdToStakes stakes).size = stakes.length →
      Inv (.new (accountIdToStakes stakes) thresholdMode)) :
    Consistent Inv (processApproval (ε := ε) now approval stakes thresholdMode self).2 := by
  obtain ⟨hwithdrawn, hnot⟩ := h.withdrawLast hkept approval.validator
  rcases snd_processApproval (ε := ε) now approval stakes thresholdMode self with
    heq | ⟨hasserted, heq⟩
  · rw [heq]
    exact hwithdrawn
  · rw [heq]
    exact hwithdrawn.addApproval hkept now hnot (hnew hasserted)

end DoomslugApprovalsTrackersAtHeight

/-! ## Runs -/

/-- What an approval does to the trackers at its target height, and to no others. -/
lemma Doomslug.approvalTracking_onApproval {ε : Type} (now : ℕ) (approval : ApprovalValidated)
    (stakes : List (ApprovalStake × Bool)) (self : Doomslug) :
    (onApproval (ε := ε) now approval stakes self).2.approvalTracking = self.approvalTracking ∨
      (onApproval (ε := ε) now approval stakes self).2.approvalTracking =
        Function.update self.approvalTracking approval.content.targetHeight
          (some (DoomslugApprovalsTrackersAtHeight.processApproval (ε := ε) now approval stakes
            self.thresholdMode
            ((self.approvalTracking approval.content.targetHeight).getD .new)).2) := by
  simp only [onApproval, Program.run_bind, Program.run_get]
  split_ifs
  · exact .inl rfl
  · right
    simp only [onApprovalInternal, Program.run_bind, Program.run_get, Program.zoom]
    rcases DoomslugApprovalsTrackersAtHeight.processApproval (ε := ε) now approval stakes
      self.thresholdMode ((self.approvalTracking approval.content.targetHeight).getD .new) with
      ⟨ret | e | _, trackers⟩
    · cases ret <;> rfl
    · rfl
    · rfl

namespace TimedDoomslug

/-- What changes the trackers of an instance. -/
inductive Event
  | onApproval (now : ℕ) (approval : ApprovalValidated) (stakes : List (ApprovalStake × Bool))
  | onBlock (now : ℕ) (blockHash : CryptoHash) (height lastFinalHeight : BlockHeight)

/-- The stakes of an approval fit. -/
def Event.StakesFit : Event → Prop
  | onApproval _ _ stakes => DoomslugApprovalsTrackersAtHeight.StakesFit stakes
  | onBlock .. => True

/-- A step. A call that panics leaves what it did until then. -/
def step (self : TimedDoomslug) : Event → TimedDoomslug
  | .onApproval now approval stakes =>
    { self with
      toDoomslug := (Doomslug.onApproval (ε := Empty) now approval stakes self.toDoomslug).2 }
  | .onBlock now blockHash height lastFinalHeight =>
    self.onBlock now blockHash height lastFinalHeight

/-- **The trackers at all heights are consistent**, and each of them counts. -/
def Consistent (node : TimedDoomslug) : Prop :=
  ∀ height trackers, node.approvalTracking height = some trackers →
    trackers.Consistent fun tracker => tracker.Counts ∧ tracker.Fits

variable {self : TimedDoomslug}

/-- Approvals and withdrawals keep the counters right. -/
lemma kept_counts :
    DoomslugApprovalsTrackersAtHeight.Kept fun tracker => tracker.Counts ∧ tracker.Fits where
  processApproval h now approval :=
    ⟨h.1.processApproval now approval,
      h.2.congr (DoomslugApprovalsTracker.settings_processApproval now approval)⟩
  withdrawApproval h validator :=
    ⟨h.1.withdrawApproval validator,
      h.2.congr (DoomslugApprovalsTracker.settings_withdrawApproval validator)⟩

/-- A step keeps the trackers consistent. -/
lemma Consistent.step (h : self.Consistent) {event : Event} (hfit : event.StakesFit) :
    (self.step event).Consistent := by
  intro height trackers htrackers
  cases event with
  | onApproval now approval stakes =>
    change (Doomslug.onApproval (ε := Empty) now approval stakes
      self.toDoomslug).2.approvalTracking height = _ at htrackers
    rcases Doomslug.approvalTracking_onApproval (ε := Empty) now approval stakes self.toDoomslug
      with heq | heq
    · rw [heq] at htrackers
      exact h height trackers htrackers
    · rw [heq] at htrackers
      rcases eq_some_of_update htrackers with ⟨-, hentry⟩ | ⟨-, htrackers⟩
      · rw [← Option.some_inj.1 hentry]
        refine DoomslugApprovalsTrackersAtHeight.Consistent.processApproval ?_ kept_counts now
          approval fun hasserted => ?_
        · rcases hold : self.approvalTracking approval.content.targetHeight with _ | old
          · exact DoomslugApprovalsTrackersAtHeight.consistent_new
          · exact h _ old hold
        · exact DoomslugApprovalsTrackersAtHeight.counts_new_of_stakesFit hasserted hfit _
      · exact h height trackers htrackers
  | onBlock now blockHash blockHeight lastFinalHeight =>
    change (if _ then self.approvalTracking height else none) = _ at htrackers
    split_ifs at htrackers
    exact h height trackers htrackers

/-- A run keeps the trackers consistent. -/
lemma consistent_of_mem_states {now endorsementDelay minDelay delayStep maxDelay : ℕ}
    {largest : BlockHeight} {mode : DoomslugThresholdMode} {events : List Event}
    (hfit : ∀ event ∈ events, event.StakesFit) {node : TimedDoomslug}
    (hnode : node ∈ Runs.states step
      (new now largest endorsementDelay minDelay delayStep maxDelay mode) events) :
    node.Consistent := by
  have hnew : (new now largest endorsementDelay minDelay delayStep maxDelay mode).Consistent := by
    intro height trackers htrackers
    cases htrackers
  have hgood : Runs.Along step (fun _ _ => True)
      (new now largest endorsementDelay minDelay delayStep maxDelay mode) events :=
    Runs.along_of_forall (fun _ _ => trivial) _ _
  exact Runs.forall_states (fun _ _ hfit h _ => h.step hfit) hnew hfit hgood node hnode

end TimedDoomslug

/-- **What the trackers count.** In every state of a run, the approved stake of every tracker is
that of its witnesses and never above the total stake, a withdrawal never underflows, and no
account is a witness of two trackers at one height.

**Proof sketch.** The counts are those of the witnesses after every step
(`consistent_of_mem_states`), and a witness is withdrawn from one tracker before it counts in
another. -/
theorem trackers_count {now endorsementDelay minDelay delayStep maxDelay : ℕ}
    {largest : BlockHeight} {mode : DoomslugThresholdMode} {events : List TimedDoomslug.Event}
    (hfit : ∀ event ∈ events, event.StakesFit) {node : TimedDoomslug}
    (hnode : node ∈ Runs.states TimedDoomslug.step
      (.new now largest endorsementDelay minDelay delayStep maxDelay mode) events)
    {height : BlockHeight} {trackers : DoomslugApprovalsTrackersAtHeight}
    (htrackers : node.approvalTracking height = some trackers) :
    (∀ inner tracker, trackers.approvalTrackers inner = some tracker → tracker.CountsExactly) ∧
      ∀ inner inner' tracker tracker' v, trackers.approvalTrackers inner = some tracker →
        trackers.approvalTrackers inner' = some tracker' → v ∈ tracker.witness →
          v ∈ tracker'.witness → inner = inner' := by
  have hconsistent := TimedDoomslug.consistent_of_mem_states hfit hnode height trackers htrackers
  refine ⟨fun inner tracker htracker => ?_, ?_⟩
  · obtain ⟨hcounts, hfits⟩ := hconsistent.inv htracker
    exact hcounts.exactly hfits
  · intro inner inner' tracker tracker' v htracker htracker' hv hv'
    exact hconsistent.inner_eq htracker hv htracker' hv'

/-- An account of two that endorses a block, and then skips it. -/
theorem trackers_count_moved :
    ∃ trackers tracker,
      ([.onApproval 0 ⟨.newEndorsement 0 1, .default, 1⟩ [(⟨1, 1, 1⟩, false), (⟨2, 1, 1⟩, false)],
        .onApproval 0 ⟨⟨.skip 0, 1⟩, .default, 1⟩ [(⟨1, 1, 1⟩, false), (⟨2, 1, 1⟩, false)]].foldl
          TimedDoomslug.step (.new 0 0 0 0 0 0 .twoThirds)).approvalTracking 1 = some trackers ∧
        trackers.approvalTrackers (.skip 0) = some tracker ∧ tracker.CountsExactly := by
  obtain ⟨tracker, hbind⟩ := Option.isSome_iff_exists.1 (show
    ((([.onApproval 0 ⟨.newEndorsement 0 1, .default, 1⟩
          [(⟨1, 1, 1⟩, false), (⟨2, 1, 1⟩, false)],
        .onApproval 0 ⟨⟨.skip 0, 1⟩, .default, 1⟩ [(⟨1, 1, 1⟩, false), (⟨2, 1, 1⟩, false)]].foldl
          TimedDoomslug.step (.new 0 0 0 0 0 0 .twoThirds)).approvalTracking 1).bind
      (·.approvalTrackers (.skip 0))).isSome = true by decide)
  obtain ⟨trackers, htrackers, htracker⟩ := Option.bind_eq_some_iff.1 hbind
  refine ⟨trackers, tracker, htrackers, htracker, ?_⟩
  refine (trackers_count ?_ (Runs.foldl_mem_states _ _) htrackers).1 _ _ htracker
  intro event hevent
  simp only [List.mem_cons, List.not_mem_nil, or_false] at hevent
  rcases hevent with rfl | rfl <;> intro epoch <;> cases epoch <;> decide

/-- Two accounts whose stakes do not fit: the total stake wraps around to zero, and the approved
stake is above it. -/
theorem approvedStake_above_total :
    ¬∀ node ∈ Runs.states TimedDoomslug.step (.new 0 0 0 0 0 0 .twoThirds)
        [.onApproval 0 ⟨.newEndorsement 0 1, .default, 1⟩
          [(⟨1, 2 ^ 127, 0⟩, false), (⟨2, 2 ^ 127, 0⟩, false)]],
      ∀ height trackers, node.approvalTracking height = some trackers →
        ∀ inner tracker, trackers.approvalTrackers inner = some tracker →
          tracker.approvedStakeThisEpoch ≤ tracker.totalStakeThisEpoch := by
  intro h
  have hlast := h _ (Runs.foldl_mem_states _ _) 1
  obtain ⟨tracker, hbind, hwrapped⟩ := Option.map_eq_some_iff.1 (show
    ((([.onApproval 0 ⟨.newEndorsement 0 1, .default, 1⟩
          [(⟨1, 2 ^ 127, 0⟩, false), (⟨2, 2 ^ 127, 0⟩, false)]].foldl
        TimedDoomslug.step (.new 0 0 0 0 0 0 .twoThirds)).approvalTracking 1).bind
      (·.approvalTrackers (.endorsement 0))).map
        (fun tracker => decide (tracker.approvedStakeThisEpoch ≤ tracker.totalStakeThisEpoch)) =
      some false by decide)
  obtain ⟨trackers, htrackers, htracker⟩ := Option.bind_eq_some_iff.1 hbind
  exact of_decide_eq_false hwrapped (hlast trackers htrackers _ tracker htracker)

end TempoRollup.Node
