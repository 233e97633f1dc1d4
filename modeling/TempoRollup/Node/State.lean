import TempoRollup.Node.Cache
import TempoRollup.Node.Doomslug
import TempoRollup.Node.Mempool
import TempoRollup.Smirk.Storage

set_option relaxedAutoImplicit false
set_option autoImplicit false

/-!
# The state of a node

`node/src/node.rs`: the configuration, the stores and caches of a node, its errors, the messages
between nodes and the leader of a height.

## Main definitions

* `Mode`, `Config`, `Error`, `NetworkEvent`.
* `NodeShared`, `NodeShared.new` — the state of a node.
* `Effect` — what a node sends to others, to waiting callers and to its workers.
* `validatorsForHeight`, `NodeShared.getLeaderForBlockHeight`.
* `Registered` — what the contract guarantees of its validator sets.

## Main results

* `validatorsForHeight_spec`, `getLeaderForBlockHeight_ok` — with registered validator sets
  there is a leader at every height.
-/

open Exec

namespace TempoRollup.Node

/-- `MERKLE_TREE_DEPTH`. -/
def MERKLE_TREE_DEPTH : ℕ := 161

/-- `RECENT_ROOT_COUNT`. -/
def RECENT_ROOT_COUNT : ℕ := 64

/-- `PersistentMerkleTree`; the metadata of an element is the height that it was inserted at. -/
abbrev PersistentMerkleTree : Type := Smirk.Persistent MERKLE_TREE_DEPTH BlockHeight

/-- `Mode`. -/
inductive Mode
  | validator
  | node
  | prover
  | mockProver
  deriving DecidableEq, Repr

/-- `Mode::is_prover`. -/
def Mode.isProver : Mode → Bool
  | .prover => true
  | .mockProver => true
  | _ => false

/-- The fields of `Config` that the node's logic reads. -/
structure Config where
  mode : Mode
  /-- Blocks that should not be validated or rolled up. -/
  badBlocks : List BlockHeight
  /-- Maximum number of transactions in a block. -/
  blockTxnsCount : ℕ
  safeEthHeightOffset : ℕ

/-- `ValidatorSet` of the contract's client. -/
structure ValidatorSet where
  validFrom : ℕ
  validators : List Address

/-- `Error`, as far as the modelled functions return it. -/
inductive Error
  | invalidProof
  | noteAlreadySpent (spentNote : Element) (failingTxnHash : CryptoHash)
  | leafAlreadyInsertedInTheSameBlock (insertedLeaf : Element) (txnHash : CryptoHash)
    (failingTxnHash : CryptoHash)
  | outputNoteExists (outputNote : Element)
  | invalidElementSize (element : Element)
  | utxoRootIsNotRecentEnough (utxoRecentRoot : Element) (recentRoots : List Element)
    (txnHash : CryptoHash)
  | mintIsNotInTheContract (key : Element)
  | burnIsNotInTheContract (key : Element)
  | invalidMintOrBurnLeaves
  | invalidSignature
  | invalidTransaction (txn : CryptoHash)
  | invalidBlockRoot (got expected : Element)
  | failedToGetEthBlockNumber
  | doomslugError (e : DoomslugError)
  /-- `sync::Error::ChannelWasClosed`. -/
  | syncChannelWasClosed
  | blockStore
  | smirk (e : Smirk.StorageError)
  | contracts
  | io
  | collision (e : Smirk.CollisionError)
  deriving DecidableEq, Repr

/-! ## Messages -/

/-- A peer of the network. -/
abbrev PeerId : Type := ℕ

/-- `SnapshotId`. -/
abbrev SnapshotId : Type := ℕ

/-- `SnapshotKind`. -/
inductive SnapshotKind
  | slow
  | fast
  deriving DecidableEq, Repr

/-- `SnapshotChunk`. -/
inductive SnapshotChunk
  | slow (snapshotId : SnapshotId) (chunk : List Block)
  | fast (snapshotId : SnapshotId) (block : Option Block) (elements : List Element)

/-- `NetworkEvent`. -/
inductive NetworkEvent
  | approval (approval : Approval)
  | block (block : Block)
  | transaction (txn : UtxoProof)
  | snapshotRequest (snapshotId : SnapshotId) (fromHeight toHeight : BlockHeight)
    (kind : SnapshotKind)
  | snapshotOffer (snapshotId : SnapshotId)
  | snapshotAccept (snapshotId : SnapshotId) (fromHeight toHeight : BlockHeight)
    (kind : SnapshotKind)
  | snapshotChunk (chunk : SnapshotChunk)

/-- The channel that a caller of `add_wait` waits on. -/
abbrev Waiter : Type := ℕ

/-- What a node sends. -/
inductive Effect
  | send (peer : PeerId) (event : NetworkEvent)
  | sendAll (event : NetworkEvent)
  /-- The result of a transaction, to the caller that waits for it. -/
  | reply (waiter : Waiter) (result : Except Error Block)
  /-- A snapshot message, to the sync worker. -/
  | toSyncWorker (peer : PeerId) (event : NetworkEvent)
  /-- A committed block, to the listeners. -/
  | committed (block : Block)
  /-- The ticker is woken up. -/
  | tick

/-! ## The node -/

/-- `NodeShared`, with the effects so far. -/
structure NodeShared where
  config : Config
  localPeer : Address
  /-- The validator sets that the contract's client has seen. -/
  validatorSets : List ValidatorSet
  doomslug : Doomslug
  mempool : Mempool CryptoHash UtxoProof BlockHeight Element Waiter
  blockCache : BlockCache
  blockStore : BlockStore
  notesTree : PersistentMerkleTree
  effects : List Effect

/-- A call on the node. -/
abbrev Call (α : Type) : Type := Program NodeShared Error α

/-- Record an effect. -/
def emit (effect : Effect) : Call Unit :=
  Program.modify fun node => { node with effects := node.effects ++ [effect] }

/-- The end of `Node::new`: a node that starts from loaded data. -/
def NodeShared.new (P : Primitives) (config : Config) (localPeer : Address)
    (validatorSets : List ValidatorSet) (blockStore : BlockStore)
    (notesTree : PersistentMerkleTree) (initialBlock : Block) : NodeShared where
  config := config
  localPeer := localPeer
  validatorSets := validatorSets
  doomslug := .new .twoThirds
  mempool := .empty
  blockCache := .new P initialBlock 10000
  blockStore := blockStore
  notesTree := notesTree
  effects := []

/-- `NodeShared::height`. -/
def NodeShared.height (self : NodeShared) : BlockHeight := self.blockCache.height

/-! ## Validators -/

/-- `RollupContract::validators_for_height`: the last set that is valid from the height on. -/
def validatorsForHeight {ε : Type} (sets : List ValidatorSet) (height : BlockHeight) :
    Outcome ε (List Address) :=
  -- `as_u64` panics on larger numbers
  if sets.any fun v => v.validFrom ≥ U64 then .panic
  else
    match (sets.filter fun v => height ≥ v.validFrom).getLast? with
    | none => .panic
    | some set => .ok set.validators

/-- `get_leader_for_block_height`. -/
def NodeShared.getLeaderForBlockHeight {ε : Type} (self : NodeShared) (height : BlockHeight) :
    Outcome ε Address := do
  let validators ← validatorsForHeight self.validatorSets height
  -- a remainder by zero panics, as does an index out of bounds
  Outcome.ofOption (if validators.length = 0 then none else validators[height % validators.length]?)

/-- What the contract guarantees of its validator sets: the first is valid from height zero, and
within each set the validators differ. That no set is empty and that heights fit in a `u64` is
up to its owner. -/
structure Registered (sets : List ValidatorSet) : Prop where
  fits : ∀ v ∈ sets, v.validFrom < U64
  start : ∃ v ∈ sets, v.validFrom = 0
  nonempty : ∀ v ∈ sets, v.validators ≠ []
  nodup : ∀ v ∈ sets, v.validators.Nodup

/-- With registered sets there are validators at every height, and they differ. -/
theorem validatorsForHeight_spec {ε : Type} {sets : List ValidatorSet} (h : Registered sets)
    (height : BlockHeight) :
    ∃ validators, (validatorsForHeight sets height : Outcome ε (List Address)) = .ok validators ∧
      validators ≠ [] ∧ validators.Nodup := by
  have hfits : (sets.any fun v => v.validFrom ≥ U64) = false := by
    rw [List.any_eq_false]
    intro v hv
    simpa using h.fits v hv
  obtain ⟨first, hfirst, hzero⟩ := h.start
  have hne : (sets.filter fun v => height ≥ v.validFrom) ≠ [] := by
    intro hnil
    have := List.filter_eq_nil_iff.1 hnil first hfirst
    simp [hzero] at this
  unfold validatorsForHeight
  rw [hfits, if_neg Bool.false_ne_true, List.getLast?_eq_some_getLast hne]
  have hmem := List.mem_of_mem_filter (List.getLast_mem hne)
  exact ⟨_, rfl, h.nonempty _ hmem, h.nodup _ hmem⟩

/-- With registered sets there is a leader at every height. -/
theorem getLeaderForBlockHeight_ok {ε : Type} {self : NodeShared}
    (h : Registered self.validatorSets) (height : BlockHeight) :
    ∃ leader, (self.getLeaderForBlockHeight height : Outcome ε Address) = .ok leader := by
  obtain ⟨validators, hok, hne, -⟩ := validatorsForHeight_spec (ε := ε) h height
  have hpos : 0 < validators.length := List.length_pos_iff.2 hne
  refine ⟨validators.get ⟨height % validators.length, Nat.mod_lt _ hpos⟩, ?_⟩
  rw [NodeShared.getLeaderForBlockHeight, hok, Outcome.ok_bind, if_neg hpos.ne',
    List.getElem?_eq_getElem (Nat.mod_lt _ hpos)]
  rfl

end TempoRollup.Node
