import TempoRollup.Lib.HighWater
import TempoRollup.Lib.Runs
import TempoRollup.Node.Doomslug

set_option relaxedAutoImplicit false
set_option autoImplicit false

/-!
# The timer of Doomslug

The part of `doomslug/src/doomslug.rs` that decides when a validator sends approvals: an
endorsement for the tip when it has waited for it, and skip messages when the next block does not
come.

## Main definitions

* `DoomslugTimer`, `TimedDoomslug` — the timer, and Doomslug with it.
* `TimedDoomslug.onBlock`, `TimedDoomslug.processTimer`.
* `Sender` — an instance with all that it sent, and its steps.
* `VotesSafely` — endorsements are above everything that was sent before.

## Main results

* `TimedDoomslug.processTimer_sends` — once a block was seen, a call sends no endorsement at or
  below the largest height that was sent.
* `Sender.Voting.votesSafely` — from then on all votes of a run are safe.
* `votesSafely_iff` — when all votes of a run are safe: unless the timer runs out before the first
  block of a restarted instance.
* `VotesSafely.pairwise`, `VotesSafely.append` — safe votes are for different heights, also
  across a restart.

## Design

Instants and durations are numbers. Heights are `u64` and wrap around, as in a release build. The
history of approvals, which is kept for debugging, is left out.
-/

open HighWater

namespace TempoRollup.Node

/-! ## The source -/

/-- `MAX_TIMER_ITERS`. -/
def MAX_TIMER_ITERS : ℕ := 20

/-- `MAX_HEIGHTS_BEFORE_TO_STORE_APPROVALS`. -/
def MAX_HEIGHTS_BEFORE_TO_STORE_APPROVALS : ℕ := 20

/-- `DoomslugTimer`. -/
structure DoomslugTimer where
  started : ℕ
  lastEndorsementSent : ℕ
  height : BlockHeight
  endorsementDelay : ℕ
  minDelay : ℕ
  delayStep : ℕ
  maxDelay : ℕ
  deriving DecidableEq, Repr

/-- `get_delay`, of the heights since the last final block. -/
def DoomslugTimer.getDelay (n : ℕ) (self : DoomslugTimer) : ℕ :=
  let n32 := if n < 2 ^ 32 then n else 2 ^ 32 - 1
  min self.maxDelay (self.minDelay + self.delayStep * (n32 - 2))

/-- `ApprovalInner::new`. -/
def ApprovalInner.new (parentHash : CryptoHash) (parentHeight targetHeight : BlockHeight) :
    ApprovalInner :=
  if targetHeight = parentHeight.next then .endorsement parentHash else .skip parentHeight

/-- `ApprovalContent::new`. -/
def ApprovalContent.new (parentHash : CryptoHash) (parentHeight targetHeight : BlockHeight) :
    ApprovalContent :=
  ⟨ApprovalInner.new parentHash parentHeight targetHeight, targetHeight⟩

/-- The approval is an endorsement. -/
def ApprovalContent.isEndorsement (self : ApprovalContent) : Bool :=
  match self.inner with
  | .endorsement _ => true
  | .skip _ => false

/-- `Doomslug`, with what decides when approvals are sent. -/
structure TimedDoomslug extends Doomslug where
  tipBlockHash : CryptoHash
  largestSentTargetHeight : BlockHeight
  largestFinalHeight : BlockHeight
  endorsementPending : Bool
  timer : DoomslugTimer

namespace TimedDoomslug

/-- `new`, at the instant `now`. -/
def new (now : ℕ) (largestSentTargetHeight : BlockHeight)
    (endorsementDelay minDelay delayStep maxDelay : ℕ) (thresholdMode : DoomslugThresholdMode) :
    TimedDoomslug where
  toDoomslug := Doomslug.new thresholdMode
  tipBlockHash := 0
  largestSentTargetHeight := largestSentTargetHeight
  largestFinalHeight := 0
  endorsementPending := false
  timer := ⟨now, now, 0, endorsementDelay, minDelay, delayStep, maxDelay⟩

/-- `create_approval`. -/
def createApproval (targetHeight : BlockHeight) (self : TimedDoomslug) : ApprovalContent :=
  .new self.tipBlockHash self.tipHeight targetHeight

/-- The first part of a round of `process_timer`: the endorsement of the tip, if it is pending and
has waited. -/
def endorse (curTime : ℕ) (self : TimedDoomslug) : List ApprovalContent × TimedDoomslug :=
  if self.endorsementPending = true ∧
      curTime ≥ self.timer.lastEndorsementSent + self.timer.endorsementDelay then
    let waited := { self with
      timer := { self.timer with lastEndorsementSent := curTime }
      endorsementPending := false }
    if self.tipHeight ≥ self.largestSentTargetHeight then
      ([self.createApproval self.tipHeight.next],
        { waited with largestSentTargetHeight := self.tipHeight.next })
    else ([], waited)
  else ([], self)

/-- The second part of a round of `process_timer`, when the timer ran out. -/
def timeOut (skipDelay : ℕ) (self : TimedDoomslug) : ApprovalContent × TimedDoomslug :=
  (self.createApproval self.timer.height.next,
    { self with
      largestSentTargetHeight := max self.timer.height.next self.largestSentTargetHeight
      timer := { self.timer with
        started := self.timer.started + skipDelay
        height := self.timer.height.next } })

/-- The delay before a skip message. -/
def skipDelay (self : TimedDoomslug) : ℕ :=
  self.timer.getDelay (self.timer.height - self.largestFinalHeight)

/-- The rounds of `process_timer`. -/
def processTimerRounds (curTime : ℕ) :
    ℕ → TimedDoomslug → List ApprovalContent × TimedDoomslug
  | 0, self => ([], self)
  | rounds + 1, self =>
    let skipDelay := self.skipDelay
    let endorsed := self.endorse curTime
    if curTime ≥ endorsed.2.timer.started + skipDelay then
      let timedOut := endorsed.2.timeOut skipDelay
      let rest := processTimerRounds curTime rounds timedOut.2
      (endorsed.1 ++ timedOut.1 :: rest.1, rest.2)
    else endorsed

/-- `process_timer`. -/
def processTimer (curTime : ℕ) (self : TimedDoomslug) : List ApprovalContent × TimedDoomslug :=
  processTimerRounds curTime MAX_TIMER_ITERS self

/-- `on_block`. -/
def onBlock (now : ℕ) (blockHash : CryptoHash) (height lastFinalHeight : BlockHeight)
    (self : TimedDoomslug) : TimedDoomslug :=
  { self with
    tipBlockHash := blockHash
    tipHeight := height
    largestFinalHeight := lastFinalHeight
    timer := { self.timer with height := height.next, started := now }
    approvalTracking := fun h =>
      if h > height - MAX_HEIGHTS_BEFORE_TO_STORE_APPROVALS ∧
          h ≤ (height + Doomslug.MAX_HEIGHTS_AHEAD_TO_STORE_APPROVALS) % U64 then
        self.approvalTracking h
      else none
    endorsementPending := true }

end TimedDoomslug

/-! ## Runs -/

/-- An instance, and all approvals that it sent. -/
structure Sender where
  node : TimedDoomslug
  sent : List ApprovalContent

/-- What happens to an instance. -/
inductive Sender.Event
  | onBlock (now : ℕ) (blockHash : CryptoHash) (height lastFinalHeight : BlockHeight)
  | processTimer (curTime : ℕ)
  deriving DecidableEq, Repr

namespace Sender

/-- The event is a call of `process_timer`. -/
def Event.isTimer : Event → Bool
  | onBlock .. => false
  | processTimer _ => true

/-- A step. -/
def step (self : Sender) : Event → Sender
  | .onBlock now blockHash height lastFinalHeight =>
    { self with node := self.node.onBlock now blockHash height lastFinalHeight }
  | .processTimer curTime =>
    let r := self.node.processTimer curTime
    ⟨r.2, self.sent ++ r.1⟩

/-- The heights of a step do not overflow. -/
def HeightsFit (self : Sender) : Event → Prop
  | .onBlock _ _ height _ => height + 1 < U64
  | .processTimer _ => self.node.timer.height + MAX_TIMER_ITERS < U64

end Sender

/-- **Safe votes**: every endorsement has a target height above the initial one, and above that of
every approval that was sent before it. -/
def VotesSafely (largestSentTargetHeight : BlockHeight) (sent : List ApprovalContent) : Prop :=
  ∀ before approval after, sent = before ++ approval :: after →
    approval.isEndorsement = true →
      largestSentTargetHeight < approval.targetHeight ∧
        ∀ earlier ∈ before, earlier.targetHeight < approval.targetHeight

/-- Votes are safe if they stay above the high-water mark. -/
lemma votesSafely_iff_above {largest : BlockHeight} {sent : List ApprovalContent} :
    VotesSafely largest sent ↔ Above ApprovalContent.targetHeight
      (fun approval => approval.isEndorsement = true) largest sent :=
  (above_iff sent).symm

/-- Safe votes are for different heights. -/
theorem VotesSafely.pairwise {largest : BlockHeight} {sent : List ApprovalContent}
    (h : VotesSafely largest sent) :
    (sent.filter fun approval => approval.isEndorsement = true).Pairwise fun a b =>
      a.targetHeight < b.targetHeight :=
  (votesSafely_iff_above.1 h).pairwise

/-- Votes stay safe across a restart with the largest height that was sent. -/
theorem VotesSafely.append {largest : BlockHeight} {sent sent' : List ApprovalContent}
    (h : VotesSafely largest sent)
    (h' : VotesSafely (mark ApprovalContent.targetHeight largest sent) sent') :
    VotesSafely largest (sent ++ sent') :=
  votesSafely_iff_above.2
    ((above_append sent sent').2 ⟨votesSafely_iff_above.1 h, votesSafely_iff_above.1 h'⟩)

/-! ## One call of the timer -/

/-- What the approvals that a call sends do to the largest height that was sent: endorsements are
above it, and the instance keeps the mark. -/
structure Sends (node : TimedDoomslug) (r : List ApprovalContent × TimedDoomslug) : Prop where
  above : Above ApprovalContent.targetHeight (fun approval => approval.isEndorsement = true)
    node.largestSentTargetHeight r.1
  mark_eq : mark ApprovalContent.targetHeight node.largestSentTargetHeight r.1 =
    r.2.largestSentTargetHeight

/-- Calls that follow each other. -/
lemma Sends.append {node : TimedDoomslug} {r r' : List ApprovalContent × TimedDoomslug}
    (h : Sends node r) (h' : Sends r.2 r') : Sends node (r.1 ++ r'.1, r'.2) := by
  refine ⟨(above_append _ _).2 ⟨h.above, ?_⟩, ?_⟩
  · rw [h.mark_eq]
    exact h'.above
  · rw [mark_append, h.mark_eq]
    exact h'.mark_eq

/-- An approval is an endorsement if its target comes right after the parent. -/
lemma isEndorsement_new {hash : CryptoHash} {parent target : BlockHeight} :
    (ApprovalContent.new hash parent target).isEndorsement = true ↔ target = parent.next := by
  rw [ApprovalContent.new, ApprovalInner.new]
  split_ifs with h
  · simp [ApprovalContent.isEndorsement, h]
  · simp [ApprovalContent.isEndorsement, h]

namespace TimedDoomslug

variable {self : TimedDoomslug}

/-- **The timer cannot run out on the tip itself**: the timer is past the tip, or nothing was sent
beyond the tip and no endorsement waits. -/
def PastTip (self : TimedDoomslug) : Prop :=
  self.tipHeight < self.timer.height ∨
    self.tipHeight = self.timer.height ∧ self.largestSentTargetHeight ≤ self.tipHeight ∧
      self.endorsementPending = false

/-- The next height, when it fits. -/
lemma next_eq {height : BlockHeight} (h : height + 1 < U64) : height.next = height + 1 :=
  Nat.mod_eq_of_lt h

/-- The first part of a round. -/
lemma endorse_sends (curTime : ℕ) (hfit : self.timer.height + 1 < U64) (h : self.PastTip) :
    Sends self (self.endorse curTime) ∧ (self.endorse curTime).2.PastTip ∧
      (self.endorse curTime).2.timer.height = self.timer.height := by
  have htip : self.tipHeight ≤ self.timer.height := by
    rcases h with hlt | ⟨heq, -⟩ <;> grind
  have hnext : self.tipHeight.next = self.tipHeight + 1 := next_eq (by grind)
  rw [endorse]
  split_ifs with hwaited hlargest
  · -- only a tip that the timer has passed waits for its endorsement
    have hlt : self.tipHeight < self.timer.height := by
      rcases h with hlt | ⟨-, -, hpending⟩
      · exact hlt
      · rw [hpending] at hwaited
        simp at hwaited
    refine ⟨⟨⟨fun _ => ?_, trivial⟩, ?_⟩, .inl hlt, rfl⟩
    · change self.largestSentTargetHeight < self.tipHeight.next
      grind
    · change max self.largestSentTargetHeight self.tipHeight.next = self.tipHeight.next
      grind
  · exact ⟨⟨trivial, rfl⟩, h.imp_right fun ⟨heq, hle, _⟩ => ⟨heq, hle, rfl⟩, rfl⟩
  · exact ⟨⟨trivial, rfl⟩, h, rfl⟩

/-- The second part of a round. -/
lemma timeOut_sends (skipDelay : ℕ) (hfit : self.timer.height + 1 < U64) (h : self.PastTip) :
    Sends self ([(self.timeOut skipDelay).1], (self.timeOut skipDelay).2) ∧
      (self.timeOut skipDelay).2.PastTip ∧
      (self.timeOut skipDelay).2.timer.height = self.timer.height + 1 := by
  have hnext : self.timer.height.next = self.timer.height + 1 := next_eq hfit
  have htip : self.tipHeight ≤ self.timer.height := by
    rcases h with hlt | ⟨heq, -⟩ <;> grind
  have hnext' : self.tipHeight.next = self.tipHeight + 1 := next_eq (by grind)
  refine ⟨⟨⟨fun hendorsement => ?_, trivial⟩, ?_⟩, ?_, hnext⟩
  · -- the message is an endorsement on the tip itself only
    rw [timeOut, createApproval, isEndorsement_new] at hendorsement
    change self.largestSentTargetHeight < self.timer.height.next
    rcases h with hlt | ⟨heq, hle, -⟩
    · grind
    · grind
  · change max self.largestSentTargetHeight self.timer.height.next =
      max self.timer.height.next self.largestSentTargetHeight
    exact max_comm _ _
  · left
    change self.tipHeight < self.timer.height.next
    grind

/-- **What the rounds send.** By induction on the rounds. -/
lemma processTimerRounds_sends (curTime : ℕ) (rounds : ℕ)
    (hfit : self.timer.height + rounds < U64) (h : self.PastTip) :
    Sends self (processTimerRounds curTime rounds self) ∧
      (processTimerRounds curTime rounds self).2.PastTip := by
  induction rounds generalizing self with
  | zero => exact ⟨⟨trivial, rfl⟩, h⟩
  | succ rounds ih =>
    obtain ⟨hsends, hpast, hheight⟩ := self.endorse_sends curTime (by grind) h
    rw [processTimerRounds]
    split_ifs with hout
    · obtain ⟨hsends', hpast', hheight'⟩ :=
        (self.endorse curTime).2.timeOut_sends self.skipDelay (by grind) hpast
      obtain ⟨hrest, hlast⟩ := ih (by grind) hpast'
      exact ⟨hsends.append (hsends'.append hrest), hlast⟩
    · exact ⟨hsends, hpast⟩

/-- **What a call of `process_timer` sends** once the timer has passed the tip. -/
theorem processTimer_sends (curTime : ℕ) (hfit : self.timer.height + MAX_TIMER_ITERS < U64)
    (h : self.PastTip) :
    Sends self (self.processTimer curTime) ∧ (self.processTimer curTime).2.PastTip :=
  processTimerRounds_sends curTime MAX_TIMER_ITERS hfit h

/-- After a block the timer has passed the tip. -/
lemma pastTip_onBlock {now : ℕ} {blockHash : CryptoHash} {height lastFinalHeight : BlockHeight}
    (hfit : height + 1 < U64) : (self.onBlock now blockHash height lastFinalHeight).PastTip := by
  left
  change height < height.next
  rw [next_eq hfit]
  exact Nat.lt_succ_self height

/-! ## A restarted instance -/

section Restarted

variable {now endorsementDelay minDelay delayStep maxDelay curTime : ℕ}
  {largest : BlockHeight} {mode : DoomslugThresholdMode}

/-- The first delay of a new instance. -/
lemma skipDelay_new :
    (new now largest endorsementDelay minDelay delayStep maxDelay mode).skipDelay =
      min maxDelay minDelay := by
  simp [skipDelay, DoomslugTimer.getDelay, new]

/-- Nothing is pending in a new instance. -/
lemma endorse_new :
    (new now largest endorsementDelay minDelay delayStep maxDelay mode).endorse curTime =
      ([], new now largest endorsementDelay minDelay delayStep maxDelay mode) :=
  if_neg fun h => Bool.false_ne_true h.1

/-- Before the first delay has passed, a call does nothing. -/
lemma processTimer_new_of_lt (h : curTime < now + min maxDelay minDelay) :
    (new now largest endorsementDelay minDelay delayStep maxDelay mode).processTimer curTime =
      ([], new now largest endorsementDelay minDelay delayStep maxDelay mode) := by
  rw [processTimer, MAX_TIMER_ITERS, processTimerRounds, skipDelay_new, endorse_new]
  exact if_neg (Nat.not_le_of_lt h)

/-- When it has passed, and no block was seen, the timeout is for the height after that of the
tip of a new instance: what should be a skip message is an endorsement. -/
lemma processTimer_new_of_le (h : now + min maxDelay minDelay ≤ curTime) :
    ∃ rest,
      ((new now largest endorsementDelay minDelay delayStep maxDelay mode).processTimer
        curTime).1 = .newEndorsement 0 1 :: rest := by
  rw [processTimer, MAX_TIMER_ITERS, processTimerRounds, skipDelay_new, endorse_new]
  exact ⟨_, congrArg Prod.fst (if_pos h)⟩

/-- An instance that had sent nothing before is past its tip. -/
lemma pastTip_new : (new now 0 endorsementDelay minDelay delayStep maxDelay mode).PastTip :=
  .inr ⟨rfl, le_rfl, rfl⟩

end Restarted

end TimedDoomslug

/-! ## Runs -/

namespace Sender

/-- An instance that was just made, and sent nothing. -/
def start (now : ℕ) (largestSentTargetHeight : BlockHeight)
    (endorsementDelay minDelay delayStep maxDelay : ℕ) (thresholdMode : DoomslugThresholdMode) :
    Sender :=
  ⟨.new now largestSentTargetHeight endorsementDelay minDelay delayStep maxDelay thresholdMode, []⟩

variable {largest : BlockHeight} {self : Sender}

/-- **The invariant of the vote**: the timer has passed the tip, the instance knows the largest
height that it sent, and it voted safely. -/
structure Voting (largest : BlockHeight) (sender : Sender) : Prop where
  pastTip : sender.node.PastTip
  mark_eq : mark ApprovalContent.targetHeight largest sender.sent =
    sender.node.largestSentTargetHeight
  above : Above ApprovalContent.targetHeight (fun approval => approval.isEndorsement = true)
    largest sender.sent

/-- A step keeps the invariant. -/
lemma Voting.step (h : Voting largest self) {event : Event} (hfit : self.HeightsFit event) :
    Voting largest (self.step event) := by
  cases event with
  | onBlock now blockHash height lastFinalHeight =>
    exact ⟨TimedDoomslug.pastTip_onBlock hfit, h.mark_eq, h.above⟩
  | processTimer curTime =>
    obtain ⟨hsends, hpast⟩ := TimedDoomslug.processTimer_sends curTime hfit h.pastTip
    refine ⟨hpast, ?_, (above_append _ _).2 ⟨h.above, ?_⟩⟩
    · rw [Sender.step, mark_append, h.mark_eq]
      exact hsends.mark_eq
    · rw [h.mark_eq]
      exact hsends.above

/-- **All votes of a run are safe** once the timer has passed the tip. -/
theorem Voting.votesSafely (h : Voting largest self) {events : List Event}
    (hfit : Runs.Along Sender.step HeightsFit self events) :
    ∀ s ∈ Runs.states Sender.step self events, VotesSafely largest s.sent := by
  intro s hs
  have hvoting : Voting largest s :=
    Runs.forall_states (fun _ _ (_ : True) h hfit => h.step hfit) h (fun _ _ => trivial) hfit s hs
  exact votesSafely_iff_above.2 hvoting.above

section Start

variable {now endorsementDelay minDelay delayStep maxDelay curTime : ℕ}
  {mode : DoomslugThresholdMode}

/-- Before the first delay has passed, a call does nothing. -/
lemma step_start_of_lt (h : curTime < now + min maxDelay minDelay) :
    (start now largest endorsementDelay minDelay delayStep maxDelay mode).step
        (.processTimer curTime) =
      start now largest endorsementDelay minDelay delayStep maxDelay mode := by
  rw [step, start, TimedDoomslug.processTimer_new_of_lt h]
  rfl

/-- When it has passed, the call sends an endorsement of the height 1. -/
lemma not_votesSafely_step_start (hlargest : largest ≠ 0)
    (h : now + min maxDelay minDelay ≤ curTime) :
    ¬VotesSafely largest
      ((start now largest endorsementDelay minDelay delayStep maxDelay mode).step
        (.processTimer curTime)).sent := by
  intro hsafe
  obtain ⟨rest, hrest⟩ := @TimedDoomslug.processTimer_new_of_le now endorsementDelay minDelay
    delayStep maxDelay curTime largest mode h
  have hlt := (hsafe [] (.newEndorsement 0 1) rest hrest rfl).1
  exact hlargest (Nat.lt_one_iff.1 hlt)

end Start

end Sender

/-- **A run votes safely** exactly when the instance had sent nothing before it was made, or the
timer does not run out before the first block. By induction on the events before that block.

**Proof sketch.** An instance that had sent nothing is safe from the start, and any instance is once
a block has moved its tip (`Sender.Voting.votesSafely`). Before that, the timer runs out or it does
not, event by event. -/
theorem votesSafely_iff {now endorsementDelay minDelay delayStep maxDelay : ℕ}
    {largest : BlockHeight} {mode : DoomslugThresholdMode} {events : List Sender.Event}
    (hfit : Runs.Along Sender.step Sender.HeightsFit
      (.start now largest endorsementDelay minDelay delayStep maxDelay mode) events) :
    (∀ s ∈ Runs.states Sender.step
        (.start now largest endorsementDelay minDelay delayStep maxDelay mode) events,
      VotesSafely largest s.sent) ↔
      largest = 0 ∨ ∀ curTime, .processTimer curTime ∈ events.takeWhile Sender.Event.isTimer →
        curTime < now + min maxDelay minDelay := by
  rcases eq_or_ne largest 0 with rfl | hlargest
  · have hvoting : Sender.Voting 0
        (.start now 0 endorsementDelay minDelay delayStep maxDelay mode) :=
      ⟨TimedDoomslug.pastTip_new, rfl, trivial⟩
    simp only [true_or, iff_true]
    exact hvoting.votesSafely hfit
  · simp only [hlargest, false_or]
    have hstart : VotesSafely largest
        (Sender.start now largest endorsementDelay minDelay delayStep maxDelay mode).sent :=
      votesSafely_iff_above.2 trivial
    induction events with
    | nil => simpa [Runs.states] using hstart
    | cons event events ih =>
      rw [Runs.states, List.forall_mem_cons, and_iff_right hstart]
      cases event with
      | onBlock time blockHash height lastFinalHeight =>
        have hvoting : Sender.Voting largest
            ((Sender.start now largest endorsementDelay minDelay delayStep maxDelay mode).step
              (.onBlock time blockHash height lastFinalHeight)) :=
          ⟨TimedDoomslug.pastTip_onBlock hfit.1, rfl, trivial⟩
        simpa [Sender.Event.isTimer] using hvoting.votesSafely hfit.2
      | processTimer time =>
        rw [List.takeWhile_cons_of_pos rfl]
        rcases Nat.lt_or_ge time (now + min maxDelay minDelay) with hlt | hge
        · -- the call did nothing
          have hrest := hfit.2
          rw [Sender.step_start_of_lt hlt] at hrest ⊢
          refine (ih hrest).trans ?_
          simp [hlt]
        · -- the call endorsed a height that may have been endorsed before
          constructor
          · intro h
            refine absurd (h _ (Runs.self_mem_states _ _)) ?_
            exact Sender.not_votesSafely_step_start hlargest hge
          · intro h
            have hlt := h time List.mem_cons_self
            omega

/-- A restarted instance whose timer is called early, sees the block 5, and skips to 7. -/
theorem votesSafely_block_five :
    VotesSafely 5 ([.processTimer 1, .onBlock 1 7 5 4, .processTimer 5].foldl Sender.step
      (.start 0 5 1 2 1 4 .twoThirds)).sent := by
  have hfit : Runs.Along Sender.step Sender.HeightsFit (.start 0 5 1 2 1 4 .twoThirds)
      [.processTimer 1, .onBlock 1 7 5 4, .processTimer 5] := by
    refine ⟨?_, ?_, ?_, trivial⟩ <;> unfold Sender.HeightsFit <;> decide
  refine (votesSafely_iff hfit).2 (.inr fun curTime hmem => ?_) _ (Runs.foldl_mem_states _ _)
  change .processTimer curTime ∈ [Sender.Event.processTimer 1] at hmem
  rw [List.mem_singleton, Sender.Event.processTimer.injEq] at hmem
  omega

/-- A restarted instance that sees no block in time votes for the height 1 again. -/
theorem not_votesSafely_restarted :
    ¬∀ s ∈ Runs.states Sender.step (.start 0 5 1 2 1 4 .twoThirds) [.processTimer 2],
      VotesSafely 5 s.sent := by
  intro h
  refine absurd (h _ (List.mem_cons_of_mem _ (Runs.self_mem_states _ _))) ?_
  exact Sender.not_votesSafely_step_start (by decide) (by decide)

end TempoRollup.Node
