import TempoRollup.Contract.Rollup

set_option relaxedAutoImplicit false
set_option autoImplicit false

/-!
# Transactions, blocks and signatures

The data that nodes exchange: `zk-circuits/src/utxo/proof.rs`, `node/src/block.rs` and
`primitives/src/sig.rs`, `peer.rs`, with the bytes that their hashes cover, and the store of
committed blocks.

## Main definitions

* `Primitives` — the third-party functions that the node calls.
* `UtxoProof`, `UtxoProof.hash`, `UtxoProof.verify`.
* `Signature`, `Signature.verify`, `sign`.
* `Block`, `BlockContent.hash`, `Block.genesis`.
* `BlockStore` — `block-store/src/lib.rs`.

## Design

Heights are natural numbers; where the source adds to a height it wraps around `2 ^ 64`, as in
a release build. The indexes of the block store by hash and by transaction are left out, as
nothing here reads them.
-/

open Exec

namespace TempoRollup.Node

/-- A peer or validator, by its Ethereum address. -/
abbrev Address : Type := Contract.Address

/-- A byte string. -/
abbrev Bytes : Type := Contract.Bytes

/-- `CryptoHash`: 32 bytes. -/
abbrev CryptoHash : Type := BitVec 256

/-- `BlockHeight`. -/
abbrev BlockHeight : Type := ℕ

/-- The number of values of a `u64`. -/
def U64 : ℕ := 2 ^ 64

/-- `BlockHeight::next`. -/
def BlockHeight.next (height : BlockHeight) : BlockHeight := (height + 1) % U64

/-! ## Bytes -/

/-- The given number of bytes of a number, most significant first. -/
def beBytes (count n : ℕ) : Bytes :=
  (List.range count).map fun i => BitVec.ofNat 8 (n / 256 ^ (count - 1 - i))

/-- The given number of bytes of a number, least significant first. -/
def leBytes (count n : ℕ) : Bytes :=
  (List.range count).map fun i => BitVec.ofNat 8 (n / 256 ^ i)

/-! ## Signatures -/

/-- `Signature`: 64 bytes of the compact form, and the recovery byte. -/
structure Signature where
  compact : BitVec 512
  recovery : BitVec 8
  deriving DecidableEq, Repr

/-- The 65 bytes of a signature. -/
def Signature.inner (self : Signature) : Bytes := beBytes 64 self.compact.toNat ++ [self.recovery]

/-- `Signature::default`. -/
def Signature.default : Signature := ⟨0, 0⟩

/-- The third-party functions that the node calls. -/
structure Primitives where
  /-- The Poseidon hash behind `hash_merge`. -/
  poseidon : List Fr → Fr
  keccak256 : Bytes → CryptoHash
  /-- `verify_proof` for the UTXO circuit: the proof bytes and the instances; `none` is an
  error of the verifier, e.g. when the bytes are not a transcript. -/
  verifyProof : Bytes → List Fr → Option Bool
  /-- `RecoverableSignature::from_compact` returns. -/
  fromCompact : BitVec 512 → Bool
  /-- `recover_ecdsa`: the public key without its prefix. -/
  recoverEcdsa : CryptoHash → Signature → Option (BitVec 512)
  /-- `sign_ecdsa_recoverable` with the node's own key, in serialized form. -/
  signEcdsa : CryptoHash → Signature

section Primitives

variable (P : Primitives)

/-- The message that is signed for a hash: the network's name goes before it. -/
def networkMessage (msg : CryptoHash) : CryptoHash :=
  P.keccak256 (beBytes 8 5 ++ [0x54, 0x65, 0x6d, 0x70, 0x6f] ++ beBytes 32 msg.toNat)

/-- `Address::from_public_key`: the last 20 bytes of the hash. -/
def addressFromPublicKey (publicKey : BitVec 512) : Address :=
  (P.keccak256 (beBytes 64 publicKey.toNat)).setWidth 160

/-- `Signature::verify`: the signer. A recovery byte above 3 is refused; a compact form that
does not parse is unwrapped. -/
def Signature.verify {ε : Type} (self : Signature) (msg : CryptoHash) :
    Outcome ε (Option Address) :=
  if self.recovery.toNat < 4 then
    if P.fromCompact self.compact then
      .ok ((P.recoverEcdsa (networkMessage P msg) self).map (addressFromPublicKey P))
    else .panic
  else .ok none

/-- `PeerIdSigner::sign`. -/
def sign (msg : CryptoHash) : Signature := P.signEcdsa (networkMessage P msg)

end Primitives

/-! ## Transactions -/

/-- `UTXOProof`. -/
structure UtxoProof where
  recentRoot : Element
  mbHash : Element
  mbValue : Element
  inputLeaves : Element × Element
  outputLeaves : Element × Element
  proof : Bytes
  deriving DecidableEq, Repr

namespace UtxoProof

/-- `leaves`. -/
def leaves (self : UtxoProof) : List Element :=
  [self.inputLeaves.1, self.inputLeaves.2, self.outputLeaves.1, self.outputLeaves.2]

/-- `instances`. -/
def instances (self : UtxoProof) : List Element :=
  [self.recentRoot, self.mbHash, self.mbValue] ++ self.leaves

/-- Two leaves, sorted. -/
def sortedLeaves (leaves : Element × Element) : List Element :=
  if leaves.1 ≤ leaves.2 then [leaves.1, leaves.2] else [leaves.2, leaves.1]

/-- `hash`: the proof is not part of it, and the order of the leaves does not matter. -/
def hash (P : Primitives) (self : UtxoProof) : CryptoHash :=
  P.keccak256 <| ([self.recentRoot, self.mbHash, self.mbValue] ++ sortedLeaves self.inputLeaves ++
    sortedLeaves self.outputLeaves).flatMap fun e => beBytes 32 e.toNat

/-- `SnarkWitnessV1::verify` of `to_snark_witness`: an error of the verifier is unwrapped. -/
def verify {ε : Type} (P : Primitives) (self : UtxoProof) : Outcome ε Bool :=
  Outcome.ofOption (P.verifyProof self.proof (self.instances.map Element.toBase))

/-- The leaves that are not zero. -/
def leavesNonNull (self : UtxoProof) : List Element :=
  self.leaves.filter fun e => e != Element.NULL_HASH

end UtxoProof

/-! ## Blocks -/

/-- `BlockHeader`. -/
structure BlockHeader where
  height : BlockHeight
  lastBlockHash : CryptoHash
  epochId : ℕ
  lastFinalBlockHash : CryptoHash
  approvals : List Signature
  deriving DecidableEq, Repr

/-- `BlockState`. -/
structure BlockState where
  rootHash : Element
  txns : List UtxoProof
  deriving DecidableEq, Repr

/-- `BlockContent`. -/
structure BlockContent where
  header : BlockHeader
  state : BlockState
  deriving DecidableEq, Repr

/-- `Block`. -/
structure Block where
  content : BlockContent
  signature : Signature
  deriving DecidableEq, Repr

/-- `BlockState::leaves_non_null`, also spelled out where blocks are committed. -/
def BlockState.leavesNonNull (self : BlockState) : List Element :=
  (self.txns.flatMap UtxoProof.leaves).filter fun e => e != Element.NULL_HASH

namespace BlockContent

variable (P : Primitives)

/-- `BlockContent::genesis`. -/
def genesis : BlockContent where
  header := { height := 0, lastBlockHash := 0, epochId := 0, lastFinalBlockHash := 0,
              approvals := [] }
  state := { rootHash := 0, txns := [] }

/-- `header_hash`, over the borsh encoding of the header. -/
def headerHash (self : BlockContent) : CryptoHash :=
  P.keccak256 <|
    leBytes 8 self.header.height ++ beBytes 32 self.header.lastBlockHash.toNat ++
      leBytes 8 self.header.epochId ++ beBytes 32 self.header.lastFinalBlockHash.toNat ++
      leBytes 4 self.header.approvals.length ++ self.header.approvals.flatMap Signature.inner

/-- `BlockContent::hash`, also the hash of the block. -/
def hash (self : BlockContent) : CryptoHash :=
  P.keccak256 <|
    beBytes 32 self.state.rootHash.toNat ++ beBytes 32 self.header.height ++
      beBytes 32 (self.headerHash P).toNat

/-- `to_block`. -/
def toBlock (self : BlockContent) : Block := ⟨self, sign P (self.hash P)⟩

end BlockContent

/-- `Block::genesis`. -/
def Block.genesis : Block := ⟨.genesis, .default⟩

/-- `Block::hash`. -/
def Block.hash (P : Primitives) (self : Block) : CryptoHash := self.content.hash P

/-- The height of a block. -/
def Block.height (self : Block) : BlockHeight := self.content.header.height

/-- The root of the notes tree after a block, as the block says. -/
def Block.rootHash (self : Block) : Element := self.content.state.rootHash

/-! ## The block store -/

/-- `BlockStore`: the blocks by height, and the record of the greatest height. -/
structure BlockStore where
  blocks : Std.TreeMap BlockHeight Block
  maxHeight : Option BlockHeight

namespace BlockStore

/-- An empty database. -/
def empty : BlockStore := ⟨∅, none⟩

/-- `get`. -/
def get (self : BlockStore) (height : BlockHeight) : Option Block := self.blocks[height]?

/-- `set`, when the write succeeds. -/
def set (self : BlockStore) (block : Block) : BlockStore where
  blocks := self.blocks.insert block.height block
  maxHeight :=
    match self.maxHeight with
    | none => some block.height
    | some max => if block.height > max then some block.height else some max

/-- `list` of the heights from `start` up to `stop`, lowest first. -/
def list (self : BlockStore) (start stop : BlockHeight) : List Block :=
  (self.blocks.toList.filter fun entry => start ≤ entry.1 ∧ entry.1 < stop).map Prod.snd

/-- A block that is set is found at its height. -/
lemma get_set (self : BlockStore) (block : Block) (height : BlockHeight) :
    (self.set block).get height =
      if block.height = height then some block else self.get height := by
  rw [get, set, Std.TreeMap.getElem?_insert]
  simp only [Std.LawfulEqCmp.compare_eq_iff_eq]
  rfl

/-- **The invariant of a block store**: blocks are stored under their height, and the greatest
height that is stored is recorded. -/
structure Wf (store : BlockStore) : Prop where
  keyed : ∀ h block, store.get h = some block → block.height = h
  le_max : ∀ h block, store.get h = some block → ∃ max, store.maxHeight = some max ∧ h ≤ max
  stored : ∀ max, store.maxHeight = some max → ∃ block, store.get max = some block

/-- The empty store is well formed. -/
lemma wf_empty : empty.Wf :=
  ⟨fun h block hget => by simp [get, empty] at hget,
    fun h block hget => by simp [get, empty] at hget, nofun⟩

/-- **`set` keeps the invariant.** -/
lemma Wf.set {self : BlockStore} (h : self.Wf) (block : Block) : (self.set block).Wf := by
  have hmax : ∃ max, (self.set block).maxHeight = some max ∧ block.height ≤ max ∧
      (∀ old, self.maxHeight = some old → old ≤ max) ∧
      (max = block.height ∨ self.maxHeight = some max) := by
    cases hold : self.maxHeight with
    | none =>
      refine ⟨block.height, by rw [BlockStore.set, hold], le_rfl, nofun, .inl rfl⟩
    | some old =>
      by_cases hgt : block.height > old
      · refine ⟨block.height, by simp only [BlockStore.set, hold, if_pos hgt], le_rfl, ?_, .inl rfl⟩
        rintro _ ⟨⟩
        exact hgt.le
      · refine ⟨old, by simp only [BlockStore.set, hold, if_neg hgt], not_lt.1 hgt, ?_, .inr rfl⟩
        rintro _ ⟨⟩
        exact le_rfl
  obtain ⟨max, hmax, hle, hold, hwhich⟩ := hmax
  refine ⟨fun height stored hget => ?_, fun height stored hget => ⟨max, hmax, ?_⟩,
    fun max' hmax' => ?_⟩
  · rw [get_set] at hget
    split_ifs at hget with hsame
    · cases hget
      exact hsame
    · exact h.keyed height stored hget
  · rw [get_set] at hget
    split_ifs at hget with hsame
    · exact hsame.ge.trans hle
    · obtain ⟨old, holdMax, hleOld⟩ := h.le_max height stored hget
      exact hleOld.trans (hold old holdMax)
  · rw [hmax] at hmax'
    cases hmax'
    rw [get_set]
    split_ifs with hsame
    · exact ⟨block, rfl⟩
    · exact h.stored max (hwhich.resolve_left fun heq => hsame heq.symm)

/-- A block beyond which nothing is stored becomes the greatest. -/
lemma Wf.maxHeight_set {self : BlockStore} (h : self.Wf) {block : Block}
    (hnewest : ∀ height stored, self.get height = some stored → height ≤ block.height) :
    (self.set block).maxHeight = some block.height := by
  cases hold : self.maxHeight with
  | none => rw [BlockStore.set, hold]
  | some old =>
    obtain ⟨stored, hstored⟩ := h.stored old hold
    by_cases hgt : block.height > old
    · simp only [BlockStore.set, hold, if_pos hgt]
    · simp only [BlockStore.set, hold, if_neg hgt]
      rw [le_antisymm (hnewest old stored hstored) (not_lt.1 hgt)]

end BlockStore

end TempoRollup.Node
