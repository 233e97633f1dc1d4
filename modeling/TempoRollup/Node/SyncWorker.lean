import TempoRollup.Node.Load

set_option relaxedAutoImplicit false
set_option autoImplicit false
set_option maxRecDepth 20000

/-!
# The sync worker

`SyncWorker::run` of `node/src/sync.rs`: one task takes messages from a channel, asks the network
for a snapshot when the node is out of sync, accepts an offer and applies the chunk. An error or a
panic ends the task for ever.

## Main definitions

* `Profile` — arithmetic with and without overflow checks.
* `Message`, `Phase`, `Syncing`, `SyncStep`, `syncStep` — the worker beside the rest of the node.
* `Alive` — the worker runs, and asked for fast syncs only when it was far enough behind.
* `TakesChunk`, `Handles` — the condition on the steps.

## Main results

* `handleSnapshotChunkFastIn_returns_iff` — when a chunk of a fast sync is handled.
* `alive_iff` — over every run the worker is alive exactly when all steps meet the condition.
* `not_alive_sameSlot` — two elements for one slot end it.

## Design

The worker is cut where it waits: between two of its steps anything else may happen to the node.
Whatever comes over the channel while it waits for something else is dropped. The answers of the
contract and the random identifiers are inputs of the steps. Time is left out: a wait may end at any
moment.
-/

open Exec

namespace TempoRollup.Node

/-! ## Arithmetic -/

/-- How the program was built: with overflow checks or without. -/
inductive Profile
  | dev
  | release
  deriving DecidableEq, Repr

namespace Profile

variable {ε : Type}

/-- Overflow checks panic. -/
def check (profile : Profile) (overflows : Bool) : Outcome ε Unit :=
  match profile with
  | .dev => if overflows then .panic else .ok ()
  | .release => .ok ()

/-- `a + b` of two `u64`. -/
def add (profile : Profile) (a b : ℕ) : Outcome ε ℕ := do
  profile.check (U64 ≤ a + b)
  pure ((a + b) % U64)

/-- `a - b` of two `u64`. -/
def sub (profile : Profile) (a b : ℕ) : Outcome ε ℕ := do
  profile.check (a < b)
  pure (if b ≤ a then a - b else (a + (U64 - b)) % U64)

/-- What does not overflow passes in both profiles. -/
@[simp] lemma check_false (profile : Profile) :
    (profile.check false : Outcome ε Unit) = .ok () := by
  cases profile <;> rfl

/-- In a debug build an overflow does not pass. -/
lemma check_dev_eq_ok {overflows : Bool} :
    (Profile.dev.check overflows : Outcome ε Unit) = .ok () ↔ overflows = false := by
  cases overflows <;> simp [check]

/-- A sum in range is the sum. -/
lemma add_of_lt {profile : Profile} {a b : ℕ} (h : a + b < U64) :
    (profile.add a b : Outcome ε ℕ) = .ok (a + b) := by
  rw [add, decide_eq_false (not_le.2 h), check_false, Outcome.ok_bind, Nat.mod_eq_of_lt h]
  rfl

/-- A difference in range is the difference. -/
lemma sub_of_le {profile : Profile} {a b : ℕ} (h : b ≤ a) :
    (profile.sub a b : Outcome ε ℕ) = .ok (a - b) := by
  rw [sub, decide_eq_false (not_lt.2 h), check_false, Outcome.ok_bind, if_pos h]
  rfl

/-- With overflow checks a sum is returned only if it fits. -/
lemma lt_of_add_dev {a b c : ℕ} (h : (Profile.dev.add a b : Outcome ε ℕ) = .ok c) :
    a + b < U64 ∧ c = a + b := by
  obtain ⟨_, hcheck, hrest⟩ := Outcome.bind_eq_ok.1 h
  have hlt : a + b < U64 := by simpa using check_dev_eq_ok.1 hcheck
  refine ⟨hlt, ?_⟩
  rw [add_of_lt hlt] at h
  exact (Outcome.ok.inj h).symm

/-- With overflow checks a difference is returned only if it is not negative. -/
lemma le_of_sub_dev {a b c : ℕ} (h : (Profile.dev.sub a b : Outcome ε ℕ) = .ok c) : b ≤ a := by
  obtain ⟨_, hcheck, -⟩ := Outcome.bind_eq_ok.1 h
  simpa using check_dev_eq_ok.1 hcheck

end Profile

/-! ## The worker -/

/-- `Message`. -/
inductive Message
  | outOfSync (maxSeenHeight : BlockHeight)
  | snapshotOffer (peer : PeerId) (snapshotId : SnapshotId)
  | snapshotChunk (peer : PeerId) (chunk : SnapshotChunk)

/-- `SnapshotChunk::snapshot_id`. -/
def SnapshotChunk.snapshotId : SnapshotChunk → SnapshotId
  | .slow snapshotId _ => snapshotId
  | .fast snapshotId _ _ => snapshotId

/-- The numbers of the configuration that the worker reads. -/
structure SyncConfig where
  /-- The number of blocks to request in a snapshot chunk. -/
  chunkSize : ℕ
  /-- Only request fast sync if the node is this many blocks behind. -/
  fastSyncThreshold : ℕ

/-- `SnapshotRequest`, but for its identifier. -/
structure SnapshotRequest where
  fromHeight : BlockHeight
  toHeight : BlockHeight
  kind : SnapshotKind
  deriving DecidableEq, Repr

section Worker

variable (P : Primitives) (profile : Profile)

/-- `is_out_of_sync`. The next height is computed only if the last seen block is cached. -/
def NodeShared.isOutOfSync {ε : Type} (self : NodeShared) : Outcome ε Bool :=
  match self.blockCache.blockHashHeights.maxKey? with
  | none => .panic
  | some last =>
    if self.blockCache.maxHeight > last then .ok true
    else do
      profile.check (U64 ≤ self.height + 1)
      self.blockCache.isOutOfSync

/-- The start of `handle_out_of_sync`: what is requested, if the node is out of sync.
`contractHeight` is the answer of the contract, if there is one. -/
def snapshotRequest (config : SyncConfig) (contractHeight : Option BlockHeight)
    (maxSeenHeight : BlockHeight) (self : NodeShared) : Outcome Error (Option SnapshotRequest) := do
  let outOfSync ← self.isOutOfSync profile
  if !outOfSync then pure none
  else
    let fromHeight ← profile.add self.height 1
    let toHeight ← profile.add fromHeight config.chunkSize
    let behind ← profile.sub maxSeenHeight self.height
    let farEnoughToTryFastSync : Bool := behind > config.fastSyncThreshold
    match contractHeight with
    | some contractHeight =>
      if self.config.mode.isProver && farEnoughToTryFastSync && contractHeight > toHeight then
        pure (some ⟨fromHeight, contractHeight, .fast⟩)
      else pure (some ⟨fromHeight, toHeight, .slow⟩)
    | none => pure (some ⟨fromHeight, toHeight, .slow⟩)

/-- The end of `handle_snapshot_chunk_fast`, with the subtraction of the given build. -/
def adoptElementsIn (world : World) (block : Block)
    (batch : Smirk.Batch MERKLE_TREE_DEPTH BlockHeight) : Call Unit := do
  Program.zoom NodeShared.notesTree (fun notesTree self => { self with notesTree := notesTree })
    ((Smirk.Persistent.insertBatch P.poseidon world.treeWrites batch).mapErr .smirk)
  Program.lift (profile.check (block.height < 1))
  Program.modify fun self => { self with blockCache := self.blockCache.confirm block.height.prev }
  receiveProposal P block
  emit .tick

/-- `handle_snapshot_chunk_fast`, with the subtraction of the given build. -/
def handleSnapshotChunkFastIn (world : World) (block : Option Block) (elements : List Element) :
    Call Unit :=
  match block with
  | none => pure ()
  | some block => do
    let self ← Program.get
    match ← Program.lift (checkElements P self.notesTree block elements) with
    | none => pure ()
    | some batch => adoptElementsIn P profile world block batch

/-- Without overflow checks this is the handler of fast syncs. -/
lemma handleSnapshotChunkFastIn_release (world : World) (block : Option Block)
    (elements : List Element) :
    handleSnapshotChunkFastIn P .release world block elements =
      handleSnapshotChunkFast P world block elements := rfl

end Worker

/-- Where the worker waits. -/
inductive Phase
  /-- In `wait_for_out_of_sync`. -/
  | idle
  /-- In `wait_for_snapshot_offer`, after a request. -/
  | requested (snapshotId : SnapshotId) (kind : SnapshotKind) (toHeight : BlockHeight)
  /-- In `wait_for_snapshot_chunk`, after an offer was accepted. -/
  | accepted (snapshotId : SnapshotId) (peer : PeerId)
  /-- In the loop of `handle_snapshot_chunk_slow`, with the blocks that are left. -/
  | receiving (chunk : List Block)
  /-- The task is over. -/
  | ended

/-- The worker reads from the channel. -/
def Phase.waits : Phase → Bool
  | .idle => true
  | .requested _ _ _ => true
  | .accepted _ _ => true
  | _ => false

/-- A request that was made: the height of the node, the height that was reported, the kind. -/
structure Requested where
  height : ℕ
  maxSeenHeight : ℕ
  kind : SnapshotKind

/-- The worker and the node that it works for. -/
structure Syncing where
  life : Life
  channel : List Message
  phase : Phase
  requests : List Requested

namespace Syncing

/-- Nothing was started yet. -/
def initial : Syncing := ⟨.down .empty, [], .idle, []⟩

/-- The worker goes on with a value; an error or a panic ends it. -/
def proceed {α : Type} (s : Syncing) (outcome : Outcome Error α) (next : α → Syncing) : Syncing :=
  match outcome with
  | .ok a => next a
  | _ => { s with phase := .ended }

end Syncing

/-- What happens. -/
inductive SyncStep
  /-- A step of the rest of the node, which may be stopped and started. -/
  | node (step : LifeStep)
  /-- The tick worker reports the node out of sync. -/
  | outOfSync
  /-- An offer or a chunk comes from the network. -/
  | snapshotOffer (peer : PeerId) (snapshotId : SnapshotId)
  | snapshotChunk (peer : PeerId) (chunk : SnapshotChunk)
  /-- The worker takes the next message. -/
  | recv (world : World) (snapshotId : SnapshotId) (contractHeight : Option BlockHeight)
  /-- The worker receives the next block of a chunk, or is done with it. -/
  | receive
  /-- The worker stops waiting for an offer or a chunk. -/
  | timeout

section Steps

variable (P : Primitives) (config : SyncConfig) (profile : Profile)

/-- `handle_out_of_sync`, until it waits for an offer. -/
def handleOutOfSync (snapshotId : SnapshotId) (contractHeight : Option BlockHeight)
    (maxSeenHeight : BlockHeight) (self : NodeShared) (s : Syncing) : Syncing :=
  s.proceed (snapshotRequest profile config contractHeight maxSeenHeight self) fun request? =>
    match request? with
    | none => s
    | some request =>
      { s with
        life := .up (emit (.sendAll (.snapshotRequest snapshotId request.fromHeight
          request.toHeight request.kind)) self).2
        phase := .requested snapshotId request.kind request.toHeight
        requests := s.requests ++ [⟨self.height, maxSeenHeight, request.kind⟩] }

/-- `handle_snapshot_offer`, until it waits for a chunk. -/
def handleSnapshotOffer (peer : PeerId) (snapshotId : SnapshotId) (kind : SnapshotKind)
    (toHeight : BlockHeight) (self : NodeShared) (s : Syncing) : Syncing :=
  s.proceed (profile.add self.height 1) fun fromHeight =>
    { s with
      life := .up
        (emit (.send peer (.snapshotAccept snapshotId fromHeight toHeight kind)) self).2
      phase := .accepted snapshotId peer }

/-- `handle_snapshot_chunk`, until the first block of a slow chunk. -/
def handleSnapshotChunk (world : World) (chunk : SnapshotChunk) (self : NodeShared)
    (s : Syncing) : Syncing :=
  match chunk with
  | .slow _ blocks =>
    { s with phase := .receiving (blocks.mergeSort fun a b => a.height ≤ b.height) }
  | .fast _ block elements =>
    let r := handleSnapshotChunkFastIn P profile world block elements self
    { s with life := .up r.2 }.proceed r.1 fun _ => { s with life := .up r.2, phase := .idle }

/-- A message is taken from the channel. What the worker does not wait for is dropped. -/
def handleMessage (world : World) (snapshotId : SnapshotId) (contractHeight : Option BlockHeight)
    (message : Message) (self : NodeShared) (s : Syncing) : Syncing :=
  match s.phase, message with
  | .idle, .outOfSync maxSeenHeight =>
    handleOutOfSync config profile snapshotId contractHeight maxSeenHeight self s
  | .requested requestId kind toHeight, .snapshotOffer peer offerId =>
    if offerId = requestId then handleSnapshotOffer profile peer offerId kind toHeight self s
    else s
  | .accepted requestId peer, .snapshotChunk chunkPeer chunk =>
    if chunkPeer = peer ∧ chunk.snapshotId = requestId then
      handleSnapshotChunk P profile world chunk self s
    else s
  | _, _ => s

/-- The loop of `handle_snapshot_chunk_slow`, and what comes after it. The loop runs in a task of
its own, whose panic is an error of the worker; errors of `receive_proposal` are logged. -/
def receiveNext (chunk : List Block) (self : NodeShared) (s : Syncing) : Syncing :=
  match chunk with
  | block :: chunk =>
    match receiveProposal P block self with
    | (.panic, self) => { s with life := .up self, phase := .ended }
    | (_, self) => { s with life := .up (emit .tick self).2, phase := .receiving chunk }
  | [] =>
    s.proceed (self.isOutOfSync profile) fun outOfSync =>
      { s with
        phase := .idle
        channel :=
          if outOfSync then s.channel ++ [.outOfSync self.blockCache.maxHeight] else s.channel }

/-- One step. The worker is there as long as the node is up. -/
def syncStep (setup : Setup) (s : Syncing) : SyncStep → Syncing
  | .node step =>
    match lifeStep P setup s.life step with
    | .up self => { s with life := .up self }
    | .down disk => { s with life := .down disk, channel := [], phase := .idle }
  | .outOfSync =>
    match s.life with
    | .up self => { s with channel := s.channel ++ [.outOfSync self.blockCache.maxHeight] }
    | .down _ => s
  | .snapshotOffer peer snapshotId =>
    match s.life with
    | .up _ => { s with channel := s.channel ++ [.snapshotOffer peer snapshotId] }
    | .down _ => s
  | .snapshotChunk peer chunk =>
    match s.life with
    | .up _ => { s with channel := s.channel ++ [.snapshotChunk peer chunk] }
    | .down _ => s
  | .recv world snapshotId contractHeight =>
    match s.life, s.channel with
    | .up self, message :: channel =>
      if s.phase.waits then
        handleMessage P config profile world snapshotId contractHeight message self
          { s with channel := channel }
      else s
    | _, _ => s
  | .receive =>
    match s.life, s.phase with
    | .up self, .receiving chunk => receiveNext P profile chunk self s
    | _, _ => s
  | .timeout =>
    match s.phase with
    | .requested _ _ _ => { s with phase := .idle }
    | .accepted _ _ => { s with phase := .idle }
    | _ => s

end Steps

/-! ## The condition -/

/-- The node was more than a number of blocks behind what was reported. -/
def Requested.Behind (threshold : ℕ) (request : Requested) : Prop :=
  request.height + threshold < request.maxSeenHeight

/-- The worker runs, and asked for fast syncs only when it was far enough behind. -/
structure Alive (config : SyncConfig) (s : Syncing) : Prop where
  running : s.phase ≠ .ended
  behind : ∀ request ∈ s.requests, request.kind = .fast → request.Behind config.fastSyncThreshold

/-- **The condition on a chunk of a fast sync**: no two of its new elements have the same free slot;
if the root with them is the block's, those that are not leaves of the block have different slots;
and if in addition the leaves of the block are among them, the others are new, they can be written,
and the block can be received: its height is not zero, and the node is not a validator. -/
structure TakesChunk (P : Primitives) (world : World) (node : NodeShared) (block : Block)
    (elements : List Element) : Prop where
  slots : (newElements node.notesTree elements).Pairwise fun a b =>
    a.slot (MERKLE_TREE_DEPTH - 1) = b.slot (MERKLE_TREE_DEPTH - 1) →
      ∃ key ∈ node.notesTree.tree.entries.keys,
        key.slot (MERKLE_TREE_DEPTH - 1) = a.slot (MERKLE_TREE_DEPTH - 1)
  distinct : node.notesTree.tree.rootHashWith P.poseidon (newElements node.notesTree elements) =
      .ok block.rootHash →
    (olderElements node.notesTree block elements).Pairwise fun a b =>
      a.slot (MERKLE_TREE_DEPTH - 1) ≠ b.slot (MERKLE_TREE_DEPTH - 1)
  adopts : node.notesTree.tree.rootHashWith P.poseidon (newElements node.notesTree elements) =
      .ok block.rootHash →
    (∀ leaf ∈ block.content.state.leavesNonNull, leaf ∈ newElements node.notesTree elements) →
    node.notesTree.tree.Fresh (olderElements node.notesTree block elements) ∧
      (world.treeWrites = true ∨ olderElements node.notesTree block elements = []) ∧
      1 ≤ block.height ∧ node.config.mode ≠ .validator

/-- The cache can answer `is_out_of_sync`: it has a block, and the next height is a `u64` if it is
computed. -/
def NodeShared.Answers (self : NodeShared) : Prop :=
  ∃ last, self.blockCache.blockHashHeights.maxKey? = some last ∧
    (last < self.blockCache.maxHeight ∨ self.height + 1 < U64)

/-- **The condition on a message**: a report that is taken while the node is out of sync is not
below the height of the node, and the heights to request are `u64`; the next height is one when an
offer is accepted; and a chunk can be taken. -/
def HandlesMessage (P : Primitives) (config : SyncConfig) (world : World) (self : NodeShared) :
    Phase → Message → Prop
  | .idle, .outOfSync maxSeenHeight =>
    self.Answers ∧
      ((self.blockCache.isOutOfSync : Outcome Error Bool) = .ok true →
        self.height ≤ maxSeenHeight ∧ self.height + 1 + config.chunkSize < U64)
  | .requested requestId _ _, .snapshotOffer _ offerId =>
    offerId = requestId → self.height + 1 < U64
  | .accepted requestId peer, .snapshotChunk chunkPeer (.fast snapshotId (some block) elements) =>
    chunkPeer = peer ∧ snapshotId = requestId → TakesChunk P world self block elements
  | _, _ => True

/-- **The condition on a step**: that of the message; and blocks of a slow chunk are not received by
a validator. -/
def Handles (P : Primitives) (config : SyncConfig) (s : Syncing) : SyncStep → Prop
  | .recv world _ _ =>
    match s.life, s.channel with
    | .up self, message :: _ => HandlesMessage P config world self s.phase message
    | _, _ => True
  | .receive =>
    match s.life, s.phase with
    | .up self, .receiving (_ :: _) => self.config.mode ≠ .validator
    | .up self, .receiving [] => self.Answers
    | _, _ => True
  | _ => True

/-! ## Requests -/

section Requests

variable {self : NodeShared} {config : SyncConfig} {contractHeight : Option BlockHeight}
  {maxSeenHeight : ℕ}

/-- A cache that can answer does, whatever the build. -/
lemma NodeShared.Answers.isOutOfSync {ε : Type} (h : self.Answers) (profile : Profile) :
    (self.isOutOfSync profile : Outcome ε Bool) = self.blockCache.isOutOfSync := by
  obtain ⟨last, hlast, hnext⟩ := h
  unfold NodeShared.isOutOfSync
  rw [hlast]
  simp only
  split_ifs with hbeyond
  · unfold BlockCache.isOutOfSync
    rw [hlast]
    simp only [hbeyond, if_true]
  · rw [decide_eq_false (not_le.2 (hnext.resolve_left hbeyond)), Profile.check_false]
    rfl

/-- The answer of a cache. -/
lemma NodeShared.Answers.exists_isOutOfSync {ε : Type} (h : self.Answers) :
    ∃ outOfSync, (self.blockCache.isOutOfSync : Outcome ε Bool) = .ok outOfSync := by
  obtain ⟨last, hlast, -⟩ := h
  unfold BlockCache.isOutOfSync
  rw [hlast]
  simp only
  split_ifs
  · exact ⟨_, rfl⟩
  · exact ⟨_, rfl⟩

/-- With overflow checks only a cache that can answer does. -/
lemma answers_of_isOutOfSync_dev {ε : Type} {outOfSync : Bool}
    (hok : (self.isOutOfSync .dev : Outcome ε Bool) = .ok outOfSync) : self.Answers := by
  unfold NodeShared.isOutOfSync at hok
  cases hlast : self.blockCache.blockHashHeights.maxKey? with
  | none =>
    rw [hlast] at hok
    cases hok
  | some last =>
    refine ⟨last, hlast, ?_⟩
    rw [hlast] at hok
    simp only at hok
    split_ifs at hok with hbeyond
    · exact .inl hbeyond
    · obtain ⟨_, hcheck, -⟩ := Outcome.bind_eq_ok.1 hok
      exact .inr (by simpa using Profile.check_dev_eq_ok.1 hcheck)

/-- **A report that meets the condition**: what is requested does not depend on the build, and a
fast sync is requested only when the node is far enough behind. -/
lemma snapshotRequest_of_handles (hanswers : self.Answers)
    (hsync : (self.blockCache.isOutOfSync : Outcome Error Bool) = .ok true →
      self.height ≤ maxSeenHeight ∧ self.height + 1 + config.chunkSize < U64) :
    ∃ request?, (∀ profile, snapshotRequest profile config contractHeight maxSeenHeight self =
        .ok request?) ∧
      ∀ request, request? = some request → request.kind = .fast →
        self.height + config.fastSyncThreshold < maxSeenHeight := by
  obtain ⟨outOfSync, hout⟩ := @NodeShared.Answers.exists_isOutOfSync self Error hanswers
  unfold snapshotRequest
  cases outOfSync with
  | false =>
    refine ⟨none, fun profile => ?_, fun request h => by cases h⟩
    rw [hanswers.isOutOfSync, hout]
    rfl
  | true =>
    obtain ⟨hle, hlt⟩ := hsync hout
    have hnext : self.height + 1 < U64 := (Nat.le_add_right _ _).trans_lt hlt
    have hrun : ∀ {request? : Option SnapshotRequest},
        (match contractHeight with
          | some contractHeight =>
            if self.config.mode.isProver &&
                decide (maxSeenHeight - self.height > config.fastSyncThreshold) &&
                decide (contractHeight > self.height + 1 + config.chunkSize) then
              (pure (some ⟨self.height + 1, contractHeight, .fast⟩) :
                Outcome Error (Option SnapshotRequest))
            else pure (some ⟨self.height + 1, self.height + 1 + config.chunkSize, .slow⟩)
          | none =>
            pure (some ⟨self.height + 1, self.height + 1 + config.chunkSize, .slow⟩)) =
          .ok request? →
        ∀ profile, snapshotRequest profile config contractHeight maxSeenHeight self =
          .ok request? := by
      intro request? hrequest profile
      unfold snapshotRequest
      rw [hanswers.isOutOfSync, hout]
      simp only [Outcome.ok_bind, Bool.not_true, Bool.false_eq_true, if_false,
        Profile.add_of_lt hnext, Profile.add_of_lt hlt, Profile.sub_of_le hle]
      exact hrequest
    cases contractHeight with
    | none =>
      refine ⟨_, hrun rfl, ?_⟩
      rintro request ⟨⟩ hfast
      cases hfast
    | some contractHeight =>
      by_cases hfar : (self.config.mode.isProver &&
          decide (maxSeenHeight - self.height > config.fastSyncThreshold) &&
          decide (contractHeight > self.height + 1 + config.chunkSize)) = true
      · refine ⟨_, hrun (if_pos hfar), fun _ _ _ => ?_⟩
        simp only [Bool.and_eq_true, decide_eq_true_eq] at hfar
        exact Nat.add_comm _ _ ▸ Nat.add_lt_of_lt_sub hfar.1.2
      · refine ⟨_, hrun (if_neg hfar), ?_⟩
        rintro request ⟨⟩ hfast
        cases hfast

/-- **With overflow checks** only a report that meets the condition is handled. -/
lemma handles_of_snapshotRequest_dev {request? : Option SnapshotRequest}
    (hok : snapshotRequest .dev config contractHeight maxSeenHeight self = .ok request?) :
    self.Answers ∧
      ((self.blockCache.isOutOfSync : Outcome Error Bool) = .ok true →
        self.height ≤ maxSeenHeight ∧ self.height + 1 + config.chunkSize < U64) := by
  unfold snapshotRequest at hok
  obtain ⟨outOfSync, hout, hok⟩ := Outcome.bind_eq_ok.1 hok
  have hanswers := answers_of_isOutOfSync_dev hout
  refine ⟨hanswers, fun htrue => ?_⟩
  rw [hanswers.isOutOfSync, htrue] at hout
  cases hout
  simp only [Bool.not_true, Bool.false_eq_true, if_false] at hok
  obtain ⟨fromHeight, hfrom, hok⟩ := Outcome.bind_eq_ok.1 hok
  obtain ⟨toHeight, hto, hok⟩ := Outcome.bind_eq_ok.1 hok
  obtain ⟨behind, hbehind, -⟩ := Outcome.bind_eq_ok.1 hok
  obtain ⟨-, rfl⟩ := Profile.lt_of_add_dev hfrom
  exact ⟨Profile.le_of_sub_dev hbehind, (Profile.lt_of_add_dev hto).1⟩

end Requests

/-! ## Chunks of a fast sync -/

section Chunks

variable {P : Primitives} {world : World} {self : NodeShared} {block : Block}
  {elements : List Element} {profile : Profile}

/-- **When the elements are adopted**: they are inserted, and the block can be received. -/
lemma adoptElementsIn_returns_iff {batch : Smirk.Batch MERKLE_TREE_DEPTH BlockHeight} :
    (adoptElementsIn P profile world block batch self).1 = .ok () ↔
      (Smirk.Persistent.insertBatch P.poseidon world.treeWrites batch self.notesTree).1 = .ok () ∧
        (profile.check (block.height < 1) : Outcome Error Unit) = .ok () ∧
        self.config.mode ≠ .validator := by
  simp only [adoptElementsIn, Program.run_bind, Program.zoom, Program.mapErr]
  rcases Smirk.Persistent.insertBatch P.poseidon world.treeWrites batch self.notesTree with
    ⟨⟨⟩ | e | _, notesTree⟩
  · simp only [Program.run_lift, true_and]
    cases (profile.check (block.height < 1) : Outcome Error Unit) with
    | err e => simp
    | panic => simp
    | ok u =>
      simp only [Program.run_modify, receiveProposal, Program.run_bind, Program.run_get,
        Program.run_assert, true_and]
      by_cases hmode : self.config.mode = .validator
      · simp [hmode]
      · simp [hmode, emit]
  · simp
  · simp

/-- To receive a block touches neither the configuration nor the stores. -/
lemma receiveProposal_keeps_stores (P : Primitives) (block : Block) :
    (receiveProposal P block).Keeps fun self =>
      (self.config, self.blockStore, self.notesTree) :=
  .bind .get fun _ => .bind (.assert _) fun _ => .bind (.modify fun _ => rfl) fun _ =>
    .modify fun _ => rfl

/-- The store and the configuration stay, and the tree is what the insertion leaves. -/
lemma adoptElementsIn_spec (profile : Profile) (world : World) (block : Block)
    (batch : Smirk.Batch MERKLE_TREE_DEPTH BlockHeight) (self : NodeShared) :
    let after := (adoptElementsIn P profile world block batch self).2
    after.config = self.config ∧ after.blockStore = self.blockStore ∧
      after.notesTree =
        (Smirk.Persistent.insertBatch P.poseidon world.treeWrites batch self.notesTree).2 := by
  have hrest : ∀ u : Unit, (do
      Program.lift (profile.check (block.height < 1))
      Program.modify fun self =>
        { self with blockCache := self.blockCache.confirm block.height.prev }
      receiveProposal P block
      emit .tick : Call Unit).Keeps fun self =>
        (self.config, self.blockStore, self.notesTree) := fun _ =>
    .bind (.lift _) fun _ => .bind (.modify fun _ => rfl) fun _ =>
      .bind (receiveProposal_keeps_stores P block) fun _ => .modify fun _ => rfl
  have hview := @Program.view_bind _ _ _ _ _
    (fun self : NodeShared => (self.config, self.blockStore, self.notesTree))
    (Program.zoom NodeShared.notesTree (fun notesTree self => { self with notesTree := notesTree })
      ((Smirk.Persistent.insertBatch P.poseidon world.treeWrites batch).mapErr .smirk)) _ hrest self
  obtain ⟨hconfig, hview⟩ := Prod.mk.inj hview
  obtain ⟨hstore, htree⟩ := Prod.mk.inj hview
  exact ⟨hconfig, hstore, htree.trans (Program.snd_mapErr _ _ _)⟩

/-- The root with the elements of a chunk. -/
lemma rootHashWith_newElements_cases (hinv : self.notesTree.tree.Inv P.poseidon) :
    (∃ root, self.notesTree.tree.rootHashWith P.poseidon (newElements self.notesTree elements) =
        .ok root ∧ (newElements self.notesTree elements).Pairwise fun a b =>
          a.slot (MERKLE_TREE_DEPTH - 1) = b.slot (MERKLE_TREE_DEPTH - 1) →
            ∃ key ∈ self.notesTree.tree.entries.keys,
              key.slot (MERKLE_TREE_DEPTH - 1) = a.slot (MERKLE_TREE_DEPTH - 1)) ∨
      (self.notesTree.tree.rootHashWith P.poseidon (newElements self.notesTree elements) = .panic ∧
        ¬ (newElements self.notesTree elements).Pairwise fun a b =>
          a.slot (MERKLE_TREE_DEPTH - 1) = b.slot (MERKLE_TREE_DEPTH - 1) →
            ∃ key ∈ self.notesTree.tree.entries.keys,
              key.slot (MERKLE_TREE_DEPTH - 1) = a.slot (MERKLE_TREE_DEPTH - 1)) := by
  have hiff := @Smirk.Tree.rootHashWith_returns_iff MERKLE_TREE_DEPTH BlockHeight P.poseidon
    self.notesTree.tree (newElements self.notesTree elements) MERKLE_TREE_DEPTH_le hinv
  cases hroot : self.notesTree.tree.rootHashWith P.poseidon
      (newElements self.notesTree elements) with
  | ok root => exact .inl ⟨root, rfl, hiff.1 ⟨root, hroot⟩⟩
  | err e => exact e.elim
  | panic =>
    refine .inr ⟨rfl, fun hslots => ?_⟩
    obtain ⟨root, hok⟩ := hiff.2 hslots
    rw [hroot] at hok
    cases hok

/-- **When a chunk of a fast sync is handled**, with overflow checks: exactly when it meets the
condition.

**Proof sketch.** By the checks of the handler in order: whether the elements have a root, whether
it is the block's, whether they are apart in their slots, and whether the leaves of the block are
among them. What is left is the insertion and the arithmetic on heights. -/
theorem handleSnapshotChunkFastIn_returns_iff (hinv : self.notesTree.tree.Inv P.poseidon) :
    (handleSnapshotChunkFastIn P .dev world (some block) elements self).1 = .ok () ↔
      TakesChunk P world self block elements := by
  simp only [handleSnapshotChunkFastIn, Program.run_bind, Program.run_get, Program.run_lift]
  rcases @rootHashWith_newElements_cases P self elements hinv with
    ⟨root, hroot, hslots⟩ | ⟨hroot, hslots⟩
  · by_cases hne : root = block.rootHash
    · subst hne
      rcases Smirk.Batch.fromEntries_cases MERKLE_TREE_DEPTH_le
        (olderElements self.notesTree block elements) 0 with
        ⟨hdistinct, batch, hbatch, helements⟩ | ⟨hdistinct, e, herr⟩
      · rw [checkElements_of_root hroot hbatch]
        by_cases hcomplete : ∀ leaf ∈ block.content.state.leavesNonNull,
            leaf ∈ newElements self.notesTree elements
        · have hmissing : (block.content.state.leavesNonNull.any fun leaf =>
              !(newElements self.notesTree elements).contains leaf) = false := by
            simpa using hcomplete
          rw [hmissing, if_neg Bool.false_ne_true]
          simp only [adoptElementsIn_returns_iff]
          rw [Smirk.Persistent.insertBatch_eq_ok_iff MERKLE_TREE_DEPTH_pos MERKLE_TREE_DEPTH_le
            hinv, helements, Profile.check_dev_eq_ok, decide_eq_false_iff_not, not_lt]
          constructor
          · rintro ⟨⟨hfresh, hwrites⟩, hheight, hmode⟩
            exact ⟨hslots, fun _ => hdistinct, fun _ _ => ⟨hfresh, hwrites, hheight, hmode⟩⟩
          · intro h
            obtain ⟨hfresh, hwrites, hheight, hmode⟩ := h.adopts hroot hcomplete
            exact ⟨⟨hfresh, hwrites⟩, hheight, hmode⟩
        · have hmissing : (block.content.state.leavesNonNull.any fun leaf =>
              !(newElements self.notesTree elements).contains leaf) = true := by
            simpa using hcomplete
          rw [hmissing, if_pos rfl]
          exact iff_of_true rfl ⟨hslots, fun _ => hdistinct, fun _ h => absurd h hcomplete⟩
      · refine iff_of_false ?_ fun h => hdistinct (h.distinct hroot)
        unfold checkElements
        rw [hroot, herr]
        simp only [Outcome.unwrap, Outcome.ok_bind, ne_eq, not_true_eq_false, if_false,
          Outcome.mapErr, Outcome.err_bind, reduceCtorEq, not_false_eq_true]
    · refine iff_of_true ?_ ⟨hslots, fun h => ?_, fun h => ?_⟩
      · unfold checkElements
        rw [hroot]
        simp only [Outcome.unwrap, Outcome.ok_bind, ne_eq, hne, not_false_eq_true, if_true]
        rfl
      · rw [hroot] at h
        exact absurd (Outcome.ok.inj h) hne
      · rw [hroot] at h
        exact absurd (Outcome.ok.inj h) hne
  · refine iff_of_false ?_ fun h => hslots h.slots
    unfold checkElements
    rw [hroot]
    simp only [Outcome.unwrap, Outcome.panic_bind, reduceCtorEq, not_false_eq_true]

/-- A chunk that meets the condition is handled in the same way without overflow checks. -/
lemma TakesChunk.handleSnapshotChunkFastIn_eq (h : TakesChunk P world self block elements)
    (profile : Profile) :
    handleSnapshotChunkFastIn P profile world (some block) elements self =
      handleSnapshotChunkFastIn P .dev world (some block) elements self := by
  simp only [handleSnapshotChunkFastIn, Program.run_bind, Program.run_get, Program.run_lift]
  cases hcheck : checkElements P self.notesTree block elements with
  | err e => rfl
  | panic => rfl
  | ok batch? =>
    cases batch? with
    | none => rfl
    | some batch =>
      obtain ⟨hroot, hcomplete, -⟩ := checkElements_eq_some hcheck
      have hheight := (h.adopts hroot hcomplete).2.2.1
      unfold adoptElementsIn
      rw [decide_eq_false (not_lt.2 hheight), Profile.check_false, Profile.check_false]

/-- The stores of the node after a chunk. -/
lemma NodeShared.Kept.handleSnapshotChunkFastIn {config : Config} (h : self.Kept P config)
    (profile : Profile) (world : World) (block : Option Block) (elements : List Element) :
    (Node.handleSnapshotChunkFastIn P profile world block elements self).2.Kept P config := by
  cases block with
  | none => exact h
  | some block =>
    simp only [Node.handleSnapshotChunkFastIn, Program.run_bind, Program.run_get, Program.run_lift]
    cases checkElements P self.notesTree block elements with
    | err e => exact h
    | panic => exact h
    | ok batch? =>
      cases batch? with
      | none => exact h
      | some batch =>
        obtain ⟨hconfig, hstore, htree⟩ := @adoptElementsIn_spec P profile world block batch self
        refine ⟨hconfig.trans h.config, ?_, ?_⟩
        · rw [hstore]
          exact h.store
        · rw [htree]
          exact h.tree.insertBatch MERKLE_TREE_DEPTH_pos MERKLE_TREE_DEPTH_le _ batch

end Chunks

/-! ## Runs -/

section Steps

variable {P : Primitives} {config : SyncConfig} {setup : Setup} {world : World} {self : NodeShared}
  {s : Syncing}

/-- The worker is alive after a call exactly when it returns and the rest keeps the worker alive. -/
lemma alive_proceed_iff {α : Type} {outcome : Outcome Error α} {next : α → Syncing} :
    Alive config (s.proceed outcome next) ↔ ∃ a, outcome = .ok a ∧ Alive config (next a) := by
  cases outcome with
  | ok a => simp [Syncing.proceed]
  | err e =>
    refine iff_of_false (fun h => h.running rfl) ?_
    rintro ⟨a, h, -⟩
    cases h
  | panic =>
    refine iff_of_false (fun h => h.running rfl) ?_
    rintro ⟨a, h, -⟩
    cases h

/-- **The step of a report.** -/
lemma alive_handleOutOfSync_iff (h : Alive config s) (snapshotId : SnapshotId)
    (contractHeight : Option BlockHeight) (maxSeenHeight : ℕ) :
    Alive config (handleOutOfSync config .dev snapshotId contractHeight maxSeenHeight self s) ↔
      HandlesMessage P config world self .idle (.outOfSync maxSeenHeight) := by
  unfold handleOutOfSync
  rw [alive_proceed_iff]
  constructor
  · rintro ⟨request?, hok, -⟩
    exact handles_of_snapshotRequest_dev hok
  · rintro ⟨hanswers, hsync⟩
    obtain ⟨request?, hok, hfast⟩ := @snapshotRequest_of_handles self config contractHeight
      maxSeenHeight hanswers hsync
    refine ⟨request?, hok .dev, ?_⟩
    cases request? with
    | none => exact h
    | some request =>
      refine ⟨fun hended => (by cases hended), fun requested hmem hkind => ?_⟩
      rcases List.mem_append.1 hmem with hold | hnew
      · exact h.behind requested hold hkind
      · rw [List.mem_singleton.1 hnew] at hkind ⊢
        exact hfast request rfl hkind

/-- **The step of a chunk.** -/
lemma alive_handleSnapshotChunk_iff (h : Alive config s)
    (hinv : self.notesTree.tree.Inv P.poseidon) (chunk : SnapshotChunk) :
    Alive config (handleSnapshotChunk P .dev world chunk self s) ↔
      ∀ snapshotId block elements, chunk = .fast snapshotId (some block) elements →
        TakesChunk P world self block elements := by
  cases chunk with
  | slow snapshotId blocks =>
    refine iff_of_true ⟨fun hended => (by cases hended), h.behind⟩ ?_
    intro _ _ _ hchunk
    cases hchunk
  | fast snapshotId block elements =>
    simp only [handleSnapshotChunk]
    rw [alive_proceed_iff]
    cases block with
    | none =>
      refine iff_of_true ⟨(), rfl, fun hended => (by cases hended), h.behind⟩ ?_
      intro _ _ _ hchunk
      cases hchunk
    | some block =>
      have hiff := @handleSnapshotChunkFastIn_returns_iff P world self block elements hinv
      constructor
      · rintro ⟨_, hok, -⟩ _ _ _ hchunk
        cases hchunk
        exact hiff.1 hok
      · intro htakes
        exact ⟨(), hiff.2 (htakes _ _ _ rfl), fun hended => (by cases hended), h.behind⟩

/-- **The step of a message.** -/
lemma alive_handleMessage_iff (h : Alive config s) (hinv : self.notesTree.tree.Inv P.poseidon)
    (snapshotId : SnapshotId) (contractHeight : Option BlockHeight) (message : Message) :
    Alive config (handleMessage P config .dev world snapshotId contractHeight message self s) ↔
      HandlesMessage P config world self s.phase message := by
  obtain ⟨life, channel, phase, requests⟩ := s
  cases phase with
  | idle =>
    cases message with
    | outOfSync maxSeenHeight => exact alive_handleOutOfSync_iff h _ _ _
    | snapshotOffer peer offerId => exact iff_of_true h trivial
    | snapshotChunk peer chunk => exact iff_of_true h trivial
  | requested requestId kind toHeight =>
    cases message with
    | snapshotOffer peer offerId =>
      simp only [handleMessage, HandlesMessage]
      split_ifs with hid
      · unfold handleSnapshotOffer
        rw [alive_proceed_iff]
        constructor
        · rintro ⟨fromHeight, hok, -⟩ _
          exact (Profile.lt_of_add_dev hok).1
        · intro hlt
          exact ⟨_, Profile.add_of_lt (hlt hid), fun hended => (by cases hended), h.behind⟩
      · exact iff_of_true h fun heq => absurd heq hid
    | outOfSync maxSeenHeight => exact iff_of_true h trivial
    | snapshotChunk peer chunk => exact iff_of_true h trivial
  | accepted requestId peer =>
    cases message with
    | snapshotChunk chunkPeer chunk =>
      simp only [handleMessage]
      split_ifs with hmatch
      · rw [alive_handleSnapshotChunk_iff h hinv]
        rcases chunk with ⟨chunkId, blocks⟩ | ⟨chunkId, _ | block, elements⟩
        · exact iff_of_true (fun _ _ _ hchunk => (by cases hchunk)) trivial
        · exact iff_of_true (fun _ _ _ hchunk => (by cases hchunk)) trivial
        · refine ⟨fun htakes _ => htakes _ _ _ rfl, fun htakes _ _ _ hchunk => ?_⟩
          cases hchunk
          exact htakes hmatch
      · refine iff_of_true h ?_
        rcases chunk with ⟨chunkId, blocks⟩ | ⟨chunkId, _ | block, elements⟩
        · trivial
        · trivial
        · exact fun hmatch' => absurd hmatch' hmatch
    | outOfSync maxSeenHeight => exact iff_of_true h trivial
    | snapshotOffer peer offerId => exact iff_of_true h trivial
  | receiving chunk => exact iff_of_true h trivial
  | ended => exact iff_of_true h trivial

/-- **The step of a block** of a slow chunk, and of the end of the chunk. -/
lemma alive_receiveNext_iff (h : Alive config s) (chunk : List Block) :
    Alive config (receiveNext P .dev chunk self s) ↔
      match chunk with
      | _ :: _ => self.config.mode ≠ .validator
      | [] => self.Answers := by
  cases chunk with
  | nil =>
    simp only [receiveNext]
    rw [alive_proceed_iff]
    constructor
    · rintro ⟨outOfSync, hok, -⟩
      exact answers_of_isOutOfSync_dev hok
    · intro hanswers
      obtain ⟨outOfSync, hok⟩ := @NodeShared.Answers.exists_isOutOfSync self Error hanswers
      refine ⟨outOfSync, ?_, fun hended => (by cases hended), h.behind⟩
      rw [hanswers.isOutOfSync]
      exact hok
  | cons block chunk =>
    simp only [receiveNext, receiveProposal, Program.run_bind, Program.run_get, Program.run_assert]
    by_cases hmode : self.config.mode = .validator
    · simp only [hmode, ne_eq, not_true_eq_false, decide_false, Bool.false_eq_true, if_false]
      exact iff_of_false (fun h => h.running rfl) id
    · simp only [hmode, ne_eq, not_false_eq_true, decide_true, if_true, Program.run_modify]
      exact iff_of_true ⟨fun hended => (by cases hended), h.behind⟩ trivial

/-- The tree of a node that is up. -/
lemma Life.Inv.tree (h : (Life.up self).Inv P setup.config) :
    self.notesTree.tree.Inv P.poseidon := NodeShared.Kept.tree h |>.tree

/-- **The step of the worker**, with overflow checks: it stays alive exactly when the step meets the
condition. -/
lemma alive_syncStep_iff (hinv : s.life.Inv P setup.config) (h : Alive config s)
    (step : SyncStep) :
    Alive config (syncStep P config .dev setup s step) ↔ Handles P config s step := by
  obtain ⟨life, channel, phase, requests⟩ := s
  cases step with
  | node step =>
    refine iff_of_true ?_ trivial
    simp only [syncStep]
    cases lifeStep P setup life step with
    | up self => exact ⟨h.running, h.behind⟩
    | down disk => exact ⟨fun hended => (by cases hended), h.behind⟩
  | outOfSync =>
    refine iff_of_true ?_ trivial
    cases life with
    | up self => exact ⟨h.running, h.behind⟩
    | down disk => exact h
  | snapshotOffer peer snapshotId =>
    refine iff_of_true ?_ trivial
    cases life with
    | up self => exact ⟨h.running, h.behind⟩
    | down disk => exact h
  | snapshotChunk peer chunk =>
    refine iff_of_true ?_ trivial
    cases life with
    | up self => exact ⟨h.running, h.behind⟩
    | down disk => exact h
  | recv world snapshotId contractHeight =>
    cases life with
    | down disk => exact iff_of_true h trivial
    | up self =>
      cases channel with
      | nil => exact iff_of_true h trivial
      | cons message channel =>
        simp only [syncStep, Handles]
        have hiff := @alive_handleMessage_iff P config world self
          ⟨.up self, channel, phase, requests⟩ ⟨h.running, h.behind⟩ (Life.Inv.tree hinv)
          snapshotId contractHeight message
        cases phase with
        | idle => exact hiff
        | requested _ _ _ => exact hiff
        | accepted _ _ => exact hiff
        | receiving _ => exact iff_of_true h trivial
        | ended => exact iff_of_true h trivial
  | receive =>
    cases life with
    | down disk => exact iff_of_true h trivial
    | up self =>
      cases phase with
      | receiving chunk =>
        have hiff := @alive_receiveNext_iff P config self _ h chunk
        cases chunk with
        | nil => exact hiff
        | cons block chunk => exact hiff
      | _ => exact iff_of_true h trivial
  | timeout =>
    refine iff_of_true ?_ trivial
    cases phase with
    | requested _ _ _ => exact ⟨fun hended => (by cases hended), h.behind⟩
    | accepted _ _ => exact ⟨fun hended => (by cases hended), h.behind⟩
    | _ => exact h

/-- A message that meets the condition is handled in the same way without overflow checks. -/
lemma handleMessage_eq (profile : Profile) (snapshotId : SnapshotId)
    (contractHeight : Option BlockHeight) (message : Message)
    (h : HandlesMessage P config world self s.phase message) :
    handleMessage P config profile world snapshotId contractHeight message self s =
      handleMessage P config .dev world snapshotId contractHeight message self s := by
  obtain ⟨life, channel, phase, requests⟩ := s
  cases phase with
  | idle =>
    cases message with
    | outOfSync maxSeenHeight =>
      obtain ⟨request?, hok, -⟩ := @snapshotRequest_of_handles self config contractHeight
        maxSeenHeight h.1 h.2
      simp only [handleMessage, handleOutOfSync, hok]
    | _ => rfl
  | requested requestId kind toHeight =>
    cases message with
    | snapshotOffer peer offerId =>
      simp only [handleMessage]
      split_ifs with hid
      · unfold handleSnapshotOffer
        rw [Profile.add_of_lt (h hid), Profile.add_of_lt (h hid)]
      · rfl
    | _ => rfl
  | accepted requestId peer =>
    cases message with
    | snapshotChunk chunkPeer chunk =>
      simp only [handleMessage]
      split_ifs with hmatch
      · rcases chunk with ⟨chunkId, blocks⟩ | ⟨chunkId, _ | block, elements⟩
        · rfl
        · rfl
        · have htakes : TakesChunk P world self block elements := h hmatch
          simp only [handleSnapshotChunk]
          rw [htakes.handleSnapshotChunkFastIn_eq]
      · rfl
    | _ => rfl
  | receiving chunk => rfl
  | ended => rfl

/-- **A step that meets the condition** is the same without overflow checks. -/
lemma syncStep_eq_of_handles (profile : Profile) (s : Syncing) (step : SyncStep)
    (h : Handles P config s step) :
    syncStep P config profile setup s step = syncStep P config .dev setup s step := by
  obtain ⟨life, channel, phase, requests⟩ := s
  cases step with
  | recv world snapshotId contractHeight =>
    cases life with
    | down disk => rfl
    | up self =>
      cases channel with
      | nil => rfl
      | cons message channel =>
        simp only [syncStep]
        rw [@handleMessage_eq P config world self ⟨.up self, channel, phase, requests⟩ profile _ _
          _ h]
  | receive =>
    cases life with
    | down disk => rfl
    | up self =>
      cases phase with
      | receiving chunk =>
        cases chunk with
        | nil =>
          have hanswers : self.Answers := h
          simp only [syncStep, receiveNext]
          rw [hanswers.isOutOfSync, hanswers.isOutOfSync]
        | cons block chunk => rfl
      | _ => rfl
  | _ => rfl

/-- The stores of the node after a message. -/
lemma inv_handleMessage (hinv : s.life.Inv P setup.config) (hself : self.Kept P setup.config)
    (profile : Profile) (snapshotId : SnapshotId) (contractHeight : Option BlockHeight)
    (message : Message) :
    (handleMessage P config profile world snapshotId contractHeight message self s).life.Inv P
      setup.config := by
  have hemit : ∀ effect, (Life.up (emit effect self).2).Inv P setup.config :=
    fun effect => ⟨hself.config, hself.store, hself.tree⟩
  obtain ⟨life, channel, phase, requests⟩ := s
  unfold handleMessage
  split
  · unfold handleOutOfSync
    rcases snapshotRequest profile config contractHeight _ self with (_ | request) | e | _
    · exact hinv
    · exact hemit _
    · exact hinv
    · exact hinv
  · split_ifs
    · unfold handleSnapshotOffer
      rcases (profile.add self.height 1 : Outcome Error ℕ) with fromHeight | e | _
      · exact hemit _
      · exact hinv
      · exact hinv
    · exact hinv
  · split_ifs
    · unfold handleSnapshotChunk
      split
      · exact hinv
      · have hkept := hself.handleSnapshotChunkFastIn profile world
        unfold Syncing.proceed
        simp only
        split
        · exact hkept _ _
        · exact hkept _ _
    · exact hinv
  · exact hinv

/-- The stores of the node after a block of a slow chunk. -/
lemma inv_receiveNext (hinv : s.life.Inv P setup.config) (hself : self.Kept P setup.config)
    (profile : Profile) (chunk : List Block) :
    (receiveNext P profile chunk self s).life.Inv P setup.config := by
  cases chunk with
  | nil =>
    simp only [receiveNext, Syncing.proceed]
    split
    · exact hinv
    · exact hinv
  | cons block chunk =>
    have hkeeps := receiveProposal_keeps_stores P block self
    rw [Prod.mk.injEq, Prod.mk.injEq] at hkeeps
    obtain ⟨hconfig, hstore, htree⟩ := hkeeps
    have hkept : (receiveProposal P block self).2.Kept P setup.config := by
      refine ⟨hconfig.trans hself.config, ?_, ?_⟩
      · rw [hstore]
        exact hself.store
      · rw [htree]
        exact hself.tree
    simp only [receiveNext]
    generalize receiveProposal P block self = r at hkept
    rcases r with ⟨_ | _ | _, after⟩
    · exact ⟨hkept.config, hkept.store, hkept.tree⟩
    · exact ⟨hkept.config, hkept.store, hkept.tree⟩
    · exact hkept

/-- **The stores of the node are kept** by every step, however it ends. -/
lemma inv_syncStep (hinv : s.life.Inv P setup.config) (profile : Profile) (step : SyncStep) :
    (syncStep P config profile setup s step).life.Inv P setup.config := by
  obtain ⟨life, channel, phase, requests⟩ := s
  cases step with
  | node step =>
    have hstep := hinv.step step
    simp only [syncStep]
    cases hlife : lifeStep P setup life step with
    | up self =>
      rw [hlife] at hstep
      exact hstep
    | down disk =>
      rw [hlife] at hstep
      exact hstep
  | outOfSync => cases life <;> exact hinv
  | snapshotOffer peer snapshotId => cases life <;> exact hinv
  | snapshotChunk peer chunk => cases life <;> exact hinv
  | recv world snapshotId contractHeight =>
    cases life with
    | down disk => exact hinv
    | up self =>
      cases channel with
      | nil => exact hinv
      | cons message channel =>
        simp only [syncStep]
        split_ifs
        · exact @inv_handleMessage P config setup world self ⟨.up self, channel, phase, requests⟩
            hinv hinv profile _ _ _
        · exact hinv
  | receive =>
    cases life with
    | down disk => exact hinv
    | up self =>
      cases phase with
      | receiving chunk =>
        exact @inv_receiveNext P setup self ⟨.up self, channel, .receiving chunk, requests⟩ hinv
          hinv profile chunk
      | _ => exact hinv
  | timeout => cases phase <;> exact hinv

end Steps

/-- **The worker over every run.** Whatever happens to the node, whatever is sent to it and in
whatever order, in both builds the worker runs in every state, and it asked for fast syncs only when
it was far enough behind, exactly when every step meets the condition.

**Proof sketch.** With overflow checks this is `Runs.forall_states_iff`, for which each step is
exact (`alive_syncStep_iff`). Without them a step that meets the condition does the same
(`syncStep_eq_of_handles`). -/
theorem alive_iff (P : Primitives) (setup : Setup) (config : SyncConfig) (steps : List SyncStep) :
    (∀ profile, ∀ s ∈ Runs.states (syncStep P config profile setup) .initial steps,
        Alive config s) ↔
      Runs.Along (syncStep P config .dev setup) (Handles P config) .initial steps := by
  have hinitial : (Syncing.initial.life.Inv P setup.config) ∧ Alive config .initial :=
    ⟨Disk.inv_empty, fun hended => (by cases hended), fun _ hmem => absurd hmem List.not_mem_nil⟩
  have hdev : (∀ s ∈ Runs.states (syncStep P config .dev setup) .initial steps, Alive config s) ↔
      Runs.Along (syncStep P config .dev setup) (Handles P config) .initial steps :=
    @Runs.forall_states_iff _ _ (syncStep P config .dev setup)
      (fun s => s.life.Inv P setup.config ∧ Alive config s) (Alive config) (Handles P config)
      (fun _ => True) (fun _ h => h.2)
      (fun s step _ h hstep =>
        ⟨inv_syncStep h.1 .dev step, (alive_syncStep_iff h.1 h.2 step).2 hstep⟩)
      (fun s step _ h halive => (alive_syncStep_iff h.1 h.2 step).1 halive) _ hinitial _
      (fun _ _ => trivial)
  refine ⟨fun h => hdev.1 (h .dev), fun h profile => ?_⟩
  -- without overflow checks the good steps are the same
  have halong := Runs.along_of_step_eq
    (fun s step => @syncStep_eq_of_handles P config setup profile s step) h
  refine fun s hs => (@Runs.forall_states _ _ (syncStep P config profile setup)
    (fun s => s.life.Inv P setup.config ∧ Alive config s) (Handles P config) (fun _ => True)
    (fun s step _ h hstep => ⟨inv_syncStep h.1 profile step, ?_⟩) _ hinitial _
    (fun _ _ => trivial) halong s hs).2
  rw [syncStep_eq_of_handles profile s step hstep]
  exact (alive_syncStep_iff h.1 h.2 step).2 hstep

/-! ### Two elements for one slot -/

namespace SameSlot

open BlockCache.Sample

/-- What a prover is started with. -/
def setup : Setup where
  config := { mode := .prover, badBlocks := [], blockTxnsCount := 1, safeEthHeightOffset := 0 }
  localPeer := 0
  validatorSets := [⟨0, [0]⟩]

/-- The configuration of the sample. -/
def config : SyncConfig := ⟨10, 100⟩

/-- Storage works. -/
def world : World := .reliable fun _ => .constant .initial

/-- A prover that starts from genesis, -/
def started : NodeShared :=
  .new primitives setup.config setup.localPeer setup.validatorSets .empty .new .genesis

/-- and receives the block of height 2 before that of height 1. -/
def received : NodeShared := (receiveProposal primitives (emptyBlock 2 0) started).2

/-- Two elements with the same last 160 bits. -/
def elements : List Element := [1, 1 + 2 ^ 160]

/-- The node asks for a snapshot, and gets a chunk with the two elements. -/
def steps : List SyncStep :=
  [.node (.start .reliable), .node (.others received), .outOfSync, .recv world 7 none,
    .snapshotOffer 1 7, .recv world 0 none,
    .snapshotChunk 1 (.fast 7 (some (emptyBlock 2 0)) elements)]

/-- The cache has the heights 0 and 2. -/
lemma maxKey?_received : received.blockCache.blockHashHeights.maxKey? = some 2 := by
  have hkeys : received.blockCache.blockHashHeights.keys = [0, 2] := by decide
  rw [Std.TreeMap.maxKey?_eq_some_iff_mem_and_forall]
  simp only [← Std.TreeMap.mem_keys, hkeys]
  decide

/-- The node of the sample is out of sync. -/
lemma isOutOfSync_received {ε : Type} :
    (received.blockCache.isOutOfSync : Outcome ε Bool) = .ok true := by
  have hrange : ((List.range' received.blockCache.height.next
      (received.blockCache.maxHeight + 1 - received.blockCache.height.next)).any fun height =>
        !received.blockCache.blockHashHeights.contains height) = true := by decide
  have hmax : ¬ received.blockCache.maxHeight > 2 := by decide
  unfold BlockCache.isOutOfSync
  rw [maxKey?_received]
  simp only [hmax, if_false, hrange]

/-- The node is at height zero. -/
lemma answers_received : received.Answers := ⟨2, maxKey?_received, .inr (by decide)⟩

/-- The request. -/
lemma snapshotRequest_received (profile : Profile) :
    snapshotRequest profile config none 2 received = .ok (some ⟨1, 11, .slow⟩) := by
  have hheight : received.height = 0 := by decide
  unfold snapshotRequest
  rw [answers_received.isOutOfSync, isOutOfSync_received, hheight]
  cases profile with
  | dev => decide
  | release => decide

/-- The node after the request and the acceptance. -/
def accepted : NodeShared :=
  (emit (.send 1 (.snapshotAccept 7 1 11 .slow))
    (emit (.sendAll (.snapshotRequest 7 1 11 .slow)) received).2).2

/-- The worker when the chunk is there. -/
def waiting : Syncing :=
  ⟨.up accepted, [.snapshotChunk 1 (.fast 7 (some (emptyBlock 2 0)) elements)], .accepted 7 1,
    [⟨0, 2, .slow⟩]⟩

/-- The worker asks for a snapshot and accepts the offer. -/
lemma foldl_steps (profile : Profile) :
    steps.foldl (syncStep primitives config profile setup) .initial = waiting := by
  have hreport : (steps.take 3).foldl (syncStep primitives config profile setup) .initial =
      ⟨.up received, [.outOfSync received.blockCache.maxHeight], .idle, []⟩ := rfl
  have hmax : received.blockCache.maxHeight = 2 := by decide
  have hheight : received.height = 0 := by decide
  have hrequest : syncStep primitives config profile setup
      ⟨.up received, [.outOfSync 2], .idle, []⟩ (.recv world 7 none) =
        ⟨.up (emit (.sendAll (.snapshotRequest 7 1 11 .slow)) received).2, [],
          .requested 7 .slow 11, [⟨0, 2, .slow⟩]⟩ := by
    simp only [syncStep, Phase.waits, if_true, handleMessage, handleOutOfSync,
      snapshotRequest_received, Syncing.proceed, hheight, List.nil_append]
  have haccept : syncStep primitives config profile setup
      ⟨.up (emit (.sendAll (.snapshotRequest 7 1 11 .slow)) received).2, [.snapshotOffer 1 7],
        .requested 7 .slow 11, [⟨0, 2, .slow⟩]⟩ (.recv world 0 none) =
      ⟨.up accepted, [], .accepted 7 1, [⟨0, 2, .slow⟩]⟩ := by
    have hnext : (emit (.sendAll (.snapshotRequest 7 1 11 .slow)) received).2.height = 0 := hheight
    simp only [syncStep, Phase.waits, if_true, handleMessage, handleSnapshotOffer, hnext,
      Profile.add_of_lt (show 0 + 1 < U64 by decide), Syncing.proceed]
    rfl
  rw [← List.take_append_drop 3 steps, List.foldl_append, hreport, hmax]
  change List.foldl (syncStep primitives config profile setup)
    (syncStep primitives config profile setup ⟨.up received, [.outOfSync 2], .idle, []⟩
      (.recv world 7 none)) (steps.drop 4) = waiting
  rw [hrequest]
  change List.foldl (syncStep primitives config profile setup)
    (syncStep primitives config profile setup
      ⟨.up (emit (.sendAll (.snapshotRequest 7 1 11 .slow)) received).2, [.snapshotOffer 1 7],
        .requested 7 .slow 11, [⟨0, 2, .slow⟩]⟩ (.recv world 0 none)) (steps.drop 6) = waiting
  rw [haccept]
  rfl

/-- The dry run fails its assertion. -/
lemma checkElements_accepted :
    checkElements primitives accepted.notesTree (emptyBlock 2 0) elements = .panic := by
  have hinv : accepted.notesTree.tree.Inv primitives.poseidon :=
    Smirk.Tree.inv_new MERKLE_TREE_DEPTH_pos
  have hnew : newElements accepted.notesTree elements = [1, 1 + 2 ^ 160] := by decide
  have hkeys : accepted.notesTree.tree.entries.keys = [] := by decide
  rcases @rootHashWith_newElements_cases primitives accepted elements hinv with
    ⟨root, hroot, hslots⟩ | ⟨hroot, -⟩
  · rw [hnew, List.pairwise_cons] at hslots
    obtain ⟨key, hkey, -⟩ := hslots.1 (1 + 2 ^ 160) List.mem_cons_self (by decide)
    rw [hkeys] at hkey
    exact absurd hkey List.not_mem_nil
  · unfold checkElements
    rw [hroot]
    rfl

/-- The worker takes the chunk. -/
lemma syncStep_waiting (profile : Profile) :
    syncStep primitives config profile setup waiting (.recv world 0 none) =
      { waiting with channel := [], phase := .ended } := by
  simp only [syncStep, waiting, Phase.waits, if_true, handleMessage, SnapshotChunk.snapshotId,
    and_self, handleSnapshotChunk, handleSnapshotChunkFastIn, Program.run_bind, Program.run_get,
    Program.run_lift, checkElements_accepted, Syncing.proceed]

/-- The last state of the run. -/
lemma not_alive (profile : Profile) :
    ¬ ∀ s ∈ Runs.states (syncStep primitives config profile setup) .initial
      (steps ++ [.recv world 0 none]), Alive config s := by
  intro h
  have hlast := h _ (Runs.foldl_mem_states _ _)
  rw [List.foldl_append, foldl_steps, List.foldl_cons, List.foldl_nil, syncStep_waiting] at hlast
  exact hlast.running rfl

end SameSlot

/-- **Two elements for one slot**: a peer answers the request of a node with a chunk of a fast sync
whose elements have the same last 160 bits. The worker takes it, and is over, in both builds. -/
theorem not_alive_sameSlot :
    (¬ ∀ s ∈ Runs.states
      (syncStep BlockCache.Sample.primitives SameSlot.config .dev SameSlot.setup) .initial
      (SameSlot.steps ++ [.recv SameSlot.world 0 none]), Alive SameSlot.config s) ∧
    ¬ ∀ s ∈ Runs.states
      (syncStep BlockCache.Sample.primitives SameSlot.config .release SameSlot.setup) .initial
      (SameSlot.steps ++ [.recv SameSlot.world 0 none]), Alive SameSlot.config s :=
  ⟨SameSlot.not_alive .dev, SameSlot.not_alive .release⟩

end TempoRollup.Node
