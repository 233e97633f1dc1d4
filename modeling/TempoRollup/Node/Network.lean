import TempoRollup.Node.Agreement
import TempoRollup.Node.Proposal

set_option relaxedAutoImplicit false
set_option autoImplicit false

/-!
# Events of the network

`node/src/network_handler.rs` and the handlers that it calls: `receive_accept` of
`node/src/node.rs`, `node/src/node/snapshot.rs` and the sending side of `node/src/sync.rs`.

## Main definitions

* `handleEvent` — what a node does with a message of a peer.
* `FromContract` — the validator sets of a node are those of the contract.
* `Survives` — the condition on an event under which it is handled.

## Main results

* `FromContract.registered` — there is a set from height 0 on, and the validators of a set differ.
* `handleEvent_eq_panic_iff` — when an event makes the node panic.
* `handleEvent_completes_iff` — over every run, all events are handled exactly when all of them
  meet the condition.
* `handleEvent_panics` — events of every kind that has a panic, for a validator that was just
  started.

## Design

The handlers run one after the other, and between them the node may do whatever else it does.
Errors carry the context that `handle_event` gives them. The sync worker is another task: events
for it are put on its channel.
-/

open Exec

namespace TempoRollup.Node

open Contract (Storage ChainCall)

/-- What surrounds the handling of an event: the Ethereum node, whether the block store can be
read, whether the sync worker is there, and the time. -/
structure EventWorld where
  eth : EthView
  storeReads : Bool
  syncWorker : Bool
  now : ℕ

/-- An error with the context that `handle_event` gives it. -/
structure Report where
  context : String
  error : Error
  deriving DecidableEq, Repr

section Handlers

variable (P : Primitives) (world : EventWorld)

/-- `receive_accept`. -/
def receiveAccept (approvalMessage : Approval) : Call Unit := do
  let self ← Program.get
  if self.config.mode ≠ .validator then pure ()
  else do
    let targetHeight := approvalMessage.content.targetHeight
    let leader ← Program.lift (self.getLeaderForBlockHeight targetHeight)
    if leader ≠ self.localPeer then pure ()
    else do
      let approval ← Program.lift ((approvalMessage.validate P).mapErr .doomslugError)
      let validators ← Program.lift (validatorsForHeight self.validatorSets targetHeight)
      let stakes := validators.map fun address => (⟨address, 1, 1⟩, false)
      Program.zoom NodeShared.doomslug (fun doomslug self => { self with doomslug := doomslug })
        (Doomslug.onApproval world.now approval stakes)

/-- `receive_snapshot_offer`, `receive_snapshot_chunk`: the event goes to the sync worker. -/
def toSyncWorker (peer : PeerId) (event : NetworkEvent) : Call Unit := do
  Program.ensure world.syncWorker .syncChannelWasClosed
  emit (.toSyncWorker peer event)

/-- `handle_snapshot_request`. -/
def handleSnapshotRequest (peer : PeerId) (snapshotId : SnapshotId) (fromHeight : BlockHeight) :
    Call Unit := do
  let self ← Program.get
  let outOfSync ← Program.lift self.blockCache.isOutOfSync
  if outOfSync = true ∨ fromHeight > self.height then pure ()
  else emit (.send peer (.snapshotOffer snapshotId))

/-- `send_snapshot_chunk_slow`. -/
def sendSnapshotChunkSlow (peer : PeerId) (snapshotId : SnapshotId)
    (fromHeight toHeight : BlockHeight) : Call Unit := do
  let self ← Program.get
  let toHeight := min toHeight self.height.next
  Program.ensure world.storeReads .blockStore
  let blocks := self.blockStore.list fromHeight toHeight
  let pendingProposals ← Program.lift (self.blockCache.getRange fromHeight toHeight)
  emit (.send peer (.snapshotChunk (.slow snapshotId (blocks ++ pendingProposals))))

/-- `send_snapshot_chunk_fast`: the elements that were inserted up to the height. -/
def sendSnapshotChunkFast (peer : PeerId) (snapshotId : SnapshotId) (toHeight : BlockHeight) :
    Call Unit := do
  let self ← Program.get
  Program.ensure world.storeReads .blockStore
  let elements := (self.notesTree.tree.entries.toList.filter fun entry =>
    entry.2 ≤ toHeight).map Prod.fst
  emit (.send peer (.snapshotChunk (.fast snapshotId (self.blockStore.get toHeight) elements)))

/-- `handle_snapshot_accept`. -/
def handleSnapshotAccept (peer : PeerId) (snapshotId : SnapshotId)
    (fromHeight toHeight : BlockHeight) : SnapshotKind → Call Unit
  | .slow => sendSnapshotChunkSlow world peer snapshotId fromHeight toHeight
  | .fast => sendSnapshotChunkFast world peer snapshotId toHeight

/-- `handle_event`. -/
def handleEvent (peer : PeerId) : NetworkEvent → Program NodeShared Report Unit
  | .approval approval =>
    (receiveAccept P world approval).mapErr (Report.mk "Accept failed")
  | .block block =>
    -- the ticker does not fail
    (do receiveProposal P block; emit .tick : Call Unit).mapErr
      (Report.mk "Failed to process block")
  | .transaction txn =>
    (receiveTransaction P world.storeReads world.eth txn).mapErr (Report.mk "Transaction failed")
  | .snapshotRequest snapshotId fromHeight _ _ =>
    (handleSnapshotRequest peer snapshotId fromHeight).mapErr
      (Report.mk "Snapshot request failed")
  | .snapshotOffer snapshotId =>
    (toSyncWorker world peer (.snapshotOffer snapshotId)).mapErr
      (Report.mk "Snapshot offer failed")
  | .snapshotChunk chunk =>
    (toSyncWorker world peer (.snapshotChunk chunk)).mapErr (Report.mk "Snapshot chunk failed")
  | .snapshotAccept snapshotId fromHeight toHeight kind =>
    (handleSnapshotAccept world peer snapshotId fromHeight toHeight kind).mapErr
      (Report.mk "Snapshot accept failed")

end Handlers

/-! ## The validators of the contract -/

/-- The validator sets that a node has seen: those that the contract returns in some state of a
run. -/
def FromContract (sets : List ValidatorSet) : Prop :=
  ∃ (prover : Address) (initialValidators : List Address) (emptyMerkleTreeRootHash : Element)
    (s₀ s : Storage) (calls : List ChainCall) (publicSets : List Contract.PublicValidatorSet),
    Contract.initializeRollup prover initialValidators emptyMerkleTreeRootHash .empty =
        (.ok (), s₀) ∧
      s ∈ Runs.states Storage.step s₀ calls ∧ s.getValidatorSets 0 = some publicSets ∧
      sets = ofPublic publicSets

/-- One set is valid from height zero, and within each set the validators differ. -/
structure Listed (sets : List Contract.ValidatorSet) : Prop where
  start : ∃ set ∈ sets, set.validFrom = 0
  nodup : ∀ set ∈ sets, set.validatorsArray.Nodup

/-- The sets of the contract in every run. -/
lemma listed_of_run {s₀ : Storage} (h : Listed s₀.validatorSets) (calls : List ChainCall) :
    ∀ s ∈ Runs.states Storage.step s₀ calls, Listed s.validatorSets := by
  refine @Runs.forall_states _ _ Storage.step (fun s => Listed s.validatorSets) (fun _ _ => True)
    (fun _ => True) ?_ _ h _ (fun _ _ => trivial) (Runs.along_of_forall (fun _ _ => trivial) _ _)
  intro s call _ hs _
  rcases s.validatorSets_step call with hsame | ⟨isOwner, set, -, hmark, happend⟩
  · rw [hsame]
    exact hs
  · rw [happend]
    obtain ⟨first, hfirst, hzero⟩ := hs.start
    refine ⟨⟨first, List.mem_append_left _ hfirst, hzero⟩, fun set' hset' => ?_⟩
    rcases List.mem_append.1 hset' with hold | hnew
    · exact hs.nodup set' hold
    · rw [List.mem_singleton.1 hnew]
      exact (Contract.nodup_of_markValidators hmark).1

/-- **What the contract guarantees** of the sets of a node. -/
theorem FromContract.registered {sets : List ValidatorSet} (h : FromContract sets)
    (hne : ∀ v ∈ sets, v.validators ≠ []) (hfits : ∀ v ∈ sets, v.validFrom < U64) :
    Registered sets := by
  obtain ⟨prover, initialValidators, root, s₀, s, calls, publicSets, hinit, hs, hget, rfl⟩ := h
  obtain ⟨⟨initial, -, hfrom, hmark, hview⟩, -⟩ := Contract.initializeRollup_eq_ok hinit
  have hfirst : s₀.validatorSets = [initial] := congrArg Prod.fst hview
  have hlisted : Listed s₀.validatorSets := by
    rw [hfirst]
    exact ⟨⟨_, List.mem_singleton.2 rfl, hfrom⟩, fun set hset => by
      rw [List.mem_singleton.1 hset]
      exact (Contract.nodup_of_markValidators hmark).1⟩
  obtain ⟨⟨first, hmem, hzero⟩, hdiffer⟩ := listed_of_run hlisted calls s hs
  have hpublic : publicSets = s.validatorSets.map fun set =>
      ⟨set.validatorsArray, set.validFrom⟩ := (Option.some.inj hget).symm
  refine ⟨hfits, ⟨⟨first.validFrom, first.validatorsArray⟩, ?_, hzero⟩, hne, fun v hv => ?_⟩
  · rw [hpublic, ofPublic, List.map_map]
    exact List.mem_map.2 ⟨first, hmem, rfl⟩
  · rw [hpublic, ofPublic, List.map_map] at hv
    obtain ⟨set, hset, rfl⟩ := List.mem_map.1 hv
    exact hdiffer set hset

/-- What is assumed of the validator sets of a node: they are the contract's, and none is
empty. -/
structure NodeShared.Elected (node : NodeShared) : Prop where
  contract : FromContract node.validatorSets
  nonempty : ∀ v ∈ node.validatorSets, v.validators ≠ []

/-! ## Events that panic -/

/-- **The events that make a node panic.** -/
def Fatal (P : Primitives) (world : EventWorld) (node : NodeShared) : NetworkEvent → Prop
  -- a validator reads the sets of the contract, and the leader of the height hashes the approval
  -- and parses its signature
  | .approval approval => node.config.mode = .validator ∧
      ((∃ v ∈ node.validatorSets, U64 ≤ v.validFrom) ∨
        ((node.getLeaderForBlockHeight approval.content.targetHeight : Outcome Error Address) =
            .ok node.localPeer ∧
          ((∃ height, approval.content.inner = .skip height) ∨
            (approval.signature.recovery.toNat < 4 ∧
              P.fromCompact approval.signature.compact = false))))
  | .block _ => node.config.mode = .validator
  -- an error of the verifier is unwrapped
  | .transaction txn =>
      (txn.mbHash ≠ 0 → txn.mbValue ≠ 0 →
        checkContract world.eth node.config.safeEthHeightOffset txn = .ok ()) ∧
      P.verifyProof txn.proof (txn.instances.map Element.toBase) = none
  | .snapshotRequest _ _ _ _ => node.blockCache.blockHashHeights.isEmpty = true
  -- the range of a map is inverted
  | .snapshotAccept _ fromHeight toHeight .slow =>
      world.storeReads = true ∧ fromHeight > min toHeight node.height.next
  | .snapshotAccept _ _ _ .fast => False
  | .snapshotOffer _ => False
  | .snapshotChunk _ => False

section Panics

variable {P : Primitives} {world : EventWorld} {self : NodeShared}

/-- The translation of an error does not touch a panic. -/
lemma fst_mapErr_eq_panic {σ ε ε' α : Type} (f : ε → ε') (p : Program σ ε α) (s : σ) :
    (p.mapErr f s).1 = .panic ↔ (p s).1 = .panic := by
  unfold Program.mapErr
  rcases p s with ⟨a | e | _, s'⟩ <;> simp

/-- Sets that do not fit in a `u64` make `validators_for_height` panic. -/
lemma validatorsForHeight_of_not_fits {ε : Type} {sets : List ValidatorSet}
    (h : ∃ v ∈ sets, U64 ≤ v.validFrom) (height : BlockHeight) :
    (validatorsForHeight sets height : Outcome ε (List Address)) = .panic := by
  obtain ⟨v, hv, hlarge⟩ := h
  have hany : (sets.any fun v => v.validFrom ≥ U64) = true :=
    List.any_eq_true.2 ⟨v, hv, by simpa using hlarge⟩
  rw [validatorsForHeight, hany, if_pos rfl]

/-- **When an approval is not parsed.** -/
lemma validate_eq_panic_iff (approval : Approval) :
    approval.validate P = .panic ↔
      (∃ height, approval.content.inner = .skip height) ∨
        (approval.signature.recovery.toNat < 4 ∧
          P.fromCompact approval.signature.compact = false) := by
  cases hinner : approval.content.inner with
  | skip height =>
    have hpanic : approval.validate P = .panic := by
      rw [Approval.validate, ApprovalContent.hash, hinner]
      rfl
    simp [hpanic]
  | endorsement h =>
    simp only [Approval.validate, ApprovalContent.hash, hinner, Outcome.ok_bind, Signature.verify,
      reduceCtorEq, exists_false, false_or]
    split_ifs with hrecovery hcompact
    · simp only [Outcome.ok_bind, hcompact, Bool.true_eq_false, and_false, iff_false]
      split <;> exact fun h => by cases h
    · simp [hrecovery, hcompact]
    · simp [hrecovery]

/-- **When an approval makes a node panic.** -/
lemma receiveAccept_eq_panic_iff (hself : self.Elected) (approval : Approval) :
    (receiveAccept P world approval self).1 = .panic ↔ Fatal P world self (.approval approval) := by
  simp only [receiveAccept, Program.run_bind, Program.run_get, Fatal]
  by_cases hmode : self.config.mode = .validator
  · rw [if_neg (not_not.2 hmode)]
    simp only [hmode, true_and, Program.run_bind, Program.run_lift]
    by_cases hfits : ∃ v ∈ self.validatorSets, U64 ≤ v.validFrom
    · have hpanic : (self.getLeaderForBlockHeight approval.content.targetHeight :
          Outcome Error Address) = .panic := by
        rw [NodeShared.getLeaderForBlockHeight, validatorsForHeight_of_not_fits hfits]
        rfl
      simp [hpanic, hfits]
    · have hregistered : Registered self.validatorSets :=
        hself.contract.registered hself.nonempty fun v hv =>
          not_le.1 fun hle => hfits ⟨v, hv, hle⟩
      obtain ⟨leader, hleader⟩ := getLeaderForBlockHeight_ok (ε := Error) hregistered
        approval.content.targetHeight
      obtain ⟨validators, hvalidators, -, hnodup⟩ := validatorsForHeight_spec (ε := Error)
        hregistered approval.content.targetHeight
      simp only [hleader, hfits, false_or, Outcome.ok.injEq]
      by_cases hlocal : leader = self.localPeer
      · rw [if_neg (not_not.2 hlocal), ← validate_eq_panic_iff]
        simp only [hlocal, true_and, Program.run_bind, Program.run_lift]
        cases hvalidate : approval.validate P with
        | err e => simp [Outcome.mapErr]
        | panic => simp [Outcome.mapErr]
        | ok validated =>
          simp only [Outcome.mapErr, hvalidators, Program.zoom, reduceCtorEq, iff_false]
          rw [Doomslug.onApproval_ok (ε := Error) world.now validated]
          · exact fun h => by cases h
          · intro entry hentry
            obtain ⟨address, -, rfl⟩ := List.mem_map.1 hentry
            rfl
          · rw [List.map_map]
            exact hnodup.map fun _ _ h => h
      · rw [if_pos hlocal]
        simp [hlocal]
  · rw [if_pos hmode]
    simp [hmode]

/-- A validator does not take the blocks of others. -/
lemma receiveProposal_tick_eq_panic_iff (block : Block) :
    ((do receiveProposal P block; emit .tick : Call Unit) self).1 = .panic ↔
      self.config.mode = .validator := by
  simp only [receiveProposal, emit, Program.run_bind, Program.run_get, Program.run_assert,
    Program.run_modify]
  by_cases hmode : self.config.mode = .validator
  · simp [hmode]
  · simp [hmode]

/-- A transaction panics when its validation does. -/
lemma receiveTransaction_eq_panic_iff (txn : UtxoProof) :
    (receiveTransaction P world.storeReads world.eth txn self).1 = .panic ↔
      Fatal P world self (.transaction txn) := by
  simp only [Fatal]
  rw [← @validateTransaction_eq_panic_iff P world.storeReads txn]
  unfold receiveTransaction
  split
  · next h => simp [h]
  · next h => simp [h]
  · next h => simp [h]

/-- A request panics when no height is known. -/
lemma handleSnapshotRequest_eq_panic_iff (peer : PeerId) (snapshotId : SnapshotId)
    (fromHeight : BlockHeight) :
    (handleSnapshotRequest peer snapshotId fromHeight self).1 = .panic ↔
      self.blockCache.blockHashHeights.isEmpty = true := by
  rw [← BlockCache.isOutOfSync_isPanic (ε := Error)]
  simp only [handleSnapshotRequest, Program.run_bind, Program.run_get, Program.run_lift]
  cases (self.blockCache.isOutOfSync : Outcome Error Bool) with
  | ok outOfSync =>
    simp only [Outcome.isPanic_ok, Bool.false_eq_true, iff_false]
    split_ifs <;> exact fun h => by cases h
  | err e => simp
  | panic => simp

/-- A slow chunk panics on an inverted range. -/
lemma sendSnapshotChunkSlow_eq_panic_iff (peer : PeerId) (snapshotId : SnapshotId)
    (fromHeight toHeight : BlockHeight) :
    (sendSnapshotChunkSlow world peer snapshotId fromHeight toHeight self).1 = .panic ↔
      world.storeReads = true ∧ fromHeight > min toHeight self.height.next := by
  simp only [sendSnapshotChunkSlow, Program.run_bind, Program.run_get, Program.run_ensure,
    Program.run_lift]
  cases world.storeReads with
  | false => simp
  | true =>
    simp only [if_true, true_and, BlockCache.getRange]
    by_cases hinverted : fromHeight > min toHeight self.height.next
    · simp [hinverted]
    · simp [hinverted, emit]

/-- **When an event makes a node panic**: exactly when it is one of the fatal events.

**Proof sketch.** By cases on the event, each handler with its own lemma; what only passes a message
on does not panic. -/
theorem handleEvent_eq_panic_iff (hself : self.Elected) (peer : PeerId) (event : NetworkEvent) :
    (handleEvent P world peer event self).1 = .panic ↔ Fatal P world self event := by
  cases event with
  | approval approval =>
    rw [handleEvent, fst_mapErr_eq_panic]
    exact receiveAccept_eq_panic_iff hself approval
  | block block =>
    rw [handleEvent, fst_mapErr_eq_panic]
    exact receiveProposal_tick_eq_panic_iff block
  | transaction txn =>
    rw [handleEvent, fst_mapErr_eq_panic]
    exact receiveTransaction_eq_panic_iff txn
  | snapshotRequest snapshotId fromHeight toHeight kind =>
    rw [handleEvent, fst_mapErr_eq_panic]
    exact handleSnapshotRequest_eq_panic_iff peer snapshotId fromHeight
  | snapshotOffer snapshotId =>
    rw [handleEvent, fst_mapErr_eq_panic]
    simp only [toSyncWorker, emit, Program.run_bind, Program.run_ensure, Fatal, iff_false]
    cases world.syncWorker <;> exact fun h => by cases h
  | snapshotChunk chunk =>
    rw [handleEvent, fst_mapErr_eq_panic]
    simp only [toSyncWorker, emit, Program.run_bind, Program.run_ensure, Fatal, iff_false]
    cases world.syncWorker <;> exact fun h => by cases h
  | snapshotAccept snapshotId fromHeight toHeight kind =>
    rw [handleEvent, fst_mapErr_eq_panic]
    cases kind with
    | slow => exact sendSnapshotChunkSlow_eq_panic_iff peer snapshotId fromHeight toHeight
    | fast =>
      simp only [handleSnapshotAccept, sendSnapshotChunkFast, emit, Program.run_bind,
        Program.run_get, Program.run_ensure, Fatal, iff_false]
      cases world.storeReads <;> exact fun h => by cases h

end Panics

/-! ## Events in every run -/

/-- What happens to a node: an event of the network is handled, or the node does anything else,
after which it may be in any state. -/
inductive NetworkStep
  | event (world : EventWorld) (peer : PeerId) (event : NetworkEvent)
  | others (node : NodeShared)

/-- One step. -/
def networkStep (P : Primitives) (self : NodeShared) : NetworkStep → NodeShared
  | .event world peer event => (handleEvent P world peer event self).2
  | .others node => node

/-- An event is handled: `handle_event` returns, with a value or with an error. -/
def Completes (P : Primitives) (self : NodeShared) : NetworkStep → Prop
  | .event world peer event => (handleEvent P world peer event self).1 ≠ .panic
  | .others _ => True

/-- The condition on the events of a run. -/
def Survives (P : Primitives) (self : NodeShared) : NetworkStep → Prop
  | .event world _ event => ¬ Fatal P world self event
  | .others _ => True

section Run

variable {P : Primitives}

/-- No event changes the validator sets. -/
lemma handleEvent_keeps (world : EventWorld) (peer : PeerId) (event : NetworkEvent) :
    (handleEvent P world peer event).Keeps NodeShared.validatorSets := by
  have hemit : ∀ effect, (emit effect).Keeps NodeShared.validatorSets :=
    fun _ => .modify fun _ => rfl
  cases event with
  | approval approval =>
    refine .mapErr (.bind .get fun _ => .ite (.pure ()) (.bind (.lift _) fun _ =>
      .ite (.pure ()) (.bind (.lift _) fun _ => .bind (.lift _) fun _ => ?_))) _
    apply Program.Keeps.zoom
    intro doomslug self
    rfl
  | block block =>
    refine .mapErr (.bind (.bind .get fun _ => .bind (.assert _) fun _ => ?_) fun _ => hemit _) _
    exact .bind (.modify fun _ => rfl) fun _ => .modify fun _ => rfl
  | transaction txn =>
    refine .mapErr (fun self => ?_) _
    unfold receiveTransaction
    split <;> rfl
  | snapshotRequest snapshotId fromHeight toHeight kind =>
    exact .mapErr (.bind .get fun _ => .bind (.lift _) fun _ => .ite (.pure ()) (hemit _)) _
  | snapshotOffer snapshotId => exact .mapErr (.bind (.ensure _ _) fun _ => hemit _) _
  | snapshotChunk chunk => exact .mapErr (.bind (.ensure _ _) fun _ => hemit _) _
  | snapshotAccept snapshotId fromHeight toHeight kind =>
    cases kind with
    | slow =>
      exact .mapErr (.bind .get fun _ => .bind (.ensure _ _) fun _ => .bind (.lift _) fun _ =>
        hemit _) _
    | fast => exact .mapErr (.bind .get fun _ => .bind (.ensure _ _) fun _ => hemit _) _

/-- **The events of a run.** Whatever else a node does between them, all the events that it
receives in a run are handled exactly when none of them is fatal.

**Proof sketch.** By `Runs.along_congr`: the sets of validators stay as they are, so that every
event is handled by a node for which `handleEvent_eq_panic_iff` says when it panics. -/
theorem handleEvent_completes_iff {node : NodeShared} (hnode : node.Elected)
    (steps : List NetworkStep) (hothers : ∀ node', .others node' ∈ steps → node'.Elected) :
    Runs.Along (networkStep P) (Completes P) node steps ↔
      Runs.Along (networkStep P) (Survives P) node steps := by
  refine @Runs.along_congr _ _ (networkStep P) NodeShared.Elected (Completes P)
    (fun step => ∀ node', step = .others node' → node'.Elected) (Survives P) ?_ ?_ _ hnode steps
    fun step hstep node' heq => hothers node' (heq ▸ hstep)
  · intro self step hvalid hself
    cases step with
    | event world peer event =>
      have hsets : (networkStep P self (.event world peer event)).validatorSets =
          self.validatorSets := handleEvent_keeps world peer event self
      exact ⟨hsets ▸ hself.contract, hsets ▸ hself.nonempty⟩
    | others node' => exact hvalid node' rfl
  · intro self step _ hself
    cases step with
    | event world peer event => exact not_congr (handleEvent_eq_panic_iff hself peer event)
    | others node' => exact Iff.rfl

end Run

/-! ### A validator that was just started -/

namespace JustStarted

/-- A validator set of one, the node itself. -/
lemma elected : (freshValidator SharedLowBits.primitives).Elected where
  contract := ⟨0, [0], 0, _, _, [], _, rfl, Runs.self_mem_states _ _, rfl, rfl⟩
  nonempty v hv := by
    rw [List.mem_singleton.1 hv]
    exact List.cons_ne_nil _ _

/-- Storage and the sync worker are there. -/
def world : EventWorld := ⟨.constant .initial, true, true, 0⟩

/-- An endorsement, a snapshot that is requested, offered and accepted. -/
def steps : List NetworkStep :=
  [.event world 1 (.approval ⟨⟨.endorsement 0, 1⟩, .default⟩),
    .event world 1 (.snapshotRequest 7 0 1 .slow), .event world 1 (.snapshotOffer 7),
    .event world 1 (.snapshotAccept 7 0 1 .slow)]

/-- The sample survives its run. -/
lemma survives_steps : Runs.Along (networkStep SharedLowBits.primitives)
    (Survives SharedLowBits.primitives) (freshValidator SharedLowBits.primitives) steps := by
  refine ⟨?_, ?_, id, ?_, trivial⟩
  · rintro ⟨-, ⟨v, hv, hlarge⟩ | ⟨-, ⟨height, hskip⟩ | ⟨-, hcompact⟩⟩⟩
    · rw [List.mem_singleton.1 hv] at hlarge
      exact absurd hlarge (by decide)
    · cases hskip
    · cases hcompact
  · intro hempty
    have hknown : (networkStep SharedLowBits.primitives (freshValidator SharedLowBits.primitives)
        (.event world 1
          (.approval ⟨⟨.endorsement 0, 1⟩, .default⟩))).blockCache.blockHashHeights.isEmpty
          = false := by decide
    rw [Fatal, hknown] at hempty
    cases hempty
  · rintro ⟨-, hinverted⟩
    exact absurd hinverted (Nat.not_lt_zero _)

end JustStarted

/-- A validator that was just started handles an endorsement and a snapshot. -/
theorem handleEvent_completes_started :
    (freshValidator SharedLowBits.primitives).Elected ∧
      Runs.Along (networkStep SharedLowBits.primitives) (Completes SharedLowBits.primitives)
        (freshValidator SharedLowBits.primitives) JustStarted.steps := by
  refine ⟨JustStarted.elected, (handleEvent_completes_iff JustStarted.elected _ ?_).2
    JustStarted.survives_steps⟩
  intro node' hmem
  simp [JustStarted.steps] at hmem

/-- **Events that panic**: a validator that was just started receives a block, the skip of a
height that it leads, and the acceptance of a snapshot with an inverted range. Each of them makes
it panic. -/
theorem handleEvent_panics :
    (handleEvent SharedLowBits.primitives JustStarted.world 1 (.block .genesis)
        (freshValidator SharedLowBits.primitives)).1 = .panic ∧
      (handleEvent SharedLowBits.primitives JustStarted.world 1
        (.approval ⟨⟨.skip 0, 1⟩, .default⟩) (freshValidator SharedLowBits.primitives)).1 =
          .panic ∧
      (handleEvent SharedLowBits.primitives JustStarted.world 1 (.snapshotAccept 7 5 9 .slow)
        (freshValidator SharedLowBits.primitives)).1 = .panic ∧
      ¬ Runs.Along (networkStep SharedLowBits.primitives) (Completes SharedLowBits.primitives)
        (freshValidator SharedLowBits.primitives)
        [.event JustStarted.world 1 (.block .genesis)] := by
  have hblock : (handleEvent SharedLowBits.primitives JustStarted.world 1 (.block .genesis)
      (freshValidator SharedLowBits.primitives)).1 = .panic :=
    (handleEvent_eq_panic_iff JustStarted.elected 1 _).2 rfl
  refine ⟨hblock, ?_, ?_, fun h => h.1 hblock⟩
  · exact (handleEvent_eq_panic_iff JustStarted.elected 1 _).2
      ⟨rfl, .inr ⟨by decide, .inl ⟨0, rfl⟩⟩⟩
  · exact (handleEvent_eq_panic_iff JustStarted.elected 1 _).2 ⟨rfl, by decide⟩

end TempoRollup.Node
