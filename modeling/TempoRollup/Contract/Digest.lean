import TempoRollup.Contract.Block
import TempoRollup.Node.Binding
import TempoRollup.Node.Doomslug

set_option relaxedAutoImplicit false
set_option autoImplicit false

/-!
# Digests in Rust and in Solidity

The messages behind the signatures that the contract checks. Validators sign the endorsement of a
block, which `verifyBlock2` puts together again from the root, the height and the hash of the
header; wallets sign the typed data of `mintWithAuthorization`. Rust appends bytes by hand
(`node/src/block.rs`, `doomslug/src/approval.rs`, `primitives/src/peer.rs`,
`contracts/src/rollup.rs`), Solidity uses `abi.encode` and `abi.encodePacked`
(`src/rollup/RollupV1.sol`, `src/rollup/RollupV5.sol`).

## Main definitions

* `AbiValue`, `abiEncode`, `abiEncodePacked` — the encodings of Solidity.
* `proposalMessage`, `acceptMessage`, `sigMessage` — what `verifyBlock2` hashes.
* `domainSeparator`, `structMessage`, `computedMessage` — what `mintWithAuthorization` hashes.
* `Client.mintData`, `Client.signatureMsgDigestForMint` — what the client hashes.

## Main results

* `beBytes_add` — numbers are padded with zeros on the left.
* `blockDigestsAgree`, `mintDigestsAgree` — the bytes are the same.

## Design

A string is its UTF-8 bytes. The encodings are those of the types that occur here: the static ones
take one word each in `abi.encode`, and their own width in `abi.encodePacked`. The client reads
the domain separator from the contract when it is loaded.
-/

open Exec

namespace TempoRollup

open Node (beBytes)
open Contract (Bytes)

namespace Contract

/-! ## The encodings of Solidity -/

/-- A value with its type. -/
inductive AbiValue
  | bytes32 (value : BitVec 256)
  | uint256 (value : ℕ)
  | uint64 (value : ℕ)
  | address (value : Address)

namespace AbiValue

/-- The number behind a value: an address is a `uint160`. -/
def toNat : AbiValue → ℕ
  | bytes32 value => value.toNat
  | uint256 value => value
  | uint64 value => value
  | address value => value.toNat

/-- The number of bytes of a type. -/
def width : AbiValue → ℕ
  | bytes32 _ => 32
  | uint256 _ => 32
  | uint64 _ => 8
  | address _ => 20

end AbiValue

/-- `abi.encode` of values of static types: one word of 32 bytes for each. -/
def abiEncode (values : List AbiValue) : Bytes := values.flatMap fun value => beBytes 32 value.toNat

/-- A part of a packed encoding: a value, or a string. -/
inductive AbiPart
  | value (v : AbiValue)
  | string (bytes : Bytes)

/-- The bytes of a part, without padding. -/
def AbiPart.packed : AbiPart → Bytes
  | value v => beBytes v.width v.toNat
  | string bytes => bytes

/-- `abi.encodePacked`. -/
def abiEncodePacked (parts : List AbiPart) : Bytes := parts.flatMap AbiPart.packed

/-- The bytes of a string. -/
def utf8 (s : String) : Bytes := s.toByteArray.data.toList.map UInt8.toBitVec

/-! ## What the contract hashes -/

/-- `NETWORK`. -/
def NETWORK : Bytes := utf8 "Tempo"

/-- `NETWORK_LEN`. -/
def NETWORK_LEN : ℕ := 5

/-- The message behind `proposalHash`. -/
def proposalMessage (newRoot : Element) (height : ℕ) (otherHashFromBlockHash : Element) : Bytes :=
  abiEncode [.bytes32 newRoot, .uint256 height, .bytes32 otherHashFromBlockHash]

/-- The message behind `acceptMsg`. -/
def acceptMessage (height : ℕ) (proposalHash : Element) : Bytes :=
  abiEncode [.uint256 (height + 1), .bytes32 proposalHash]

/-- The message behind `sigMsg`. -/
def sigMessage (acceptMsg : Element) : Bytes :=
  abiEncodePacked [.value (.uint64 NETWORK_LEN), .string NETWORK, .value (.bytes32 acceptMsg)]

section Block

variable (ext : BlockExternal)

/-- The contract's hash of a proposal is the digest of its message. -/
lemma proposalHash_eq (newRoot : Element) (height : ℕ) (otherHashFromBlockHash : Element) :
    proposalHash ext newRoot height otherHashFromBlockHash =
      ext.keccak256 (proposalMessage newRoot height otherHashFromBlockHash) := by
  simp only [proposalHash, proposalMessage, abiEncode, List.flatMap_cons, List.flatMap_nil,
    List.append_nil, List.append_assoc, AbiValue.toNat]

/-- The contract's hash of an acceptance is the digest of its message. -/
lemma acceptMsg_eq (height : ℕ) (proposalHash : Element) :
    acceptMsg ext height proposalHash = ext.keccak256 (acceptMessage height proposalHash) := by
  simp only [acceptMsg, acceptMessage, abiEncode, List.flatMap_cons, List.flatMap_nil,
    List.append_nil, AbiValue.toNat]

/-- The bytes of the network's name. -/
lemma utf8_network : NETWORK = [0x54, 0x65, 0x6d, 0x70, 0x6f] := by decide

/-- The contract's signed hash is the digest of its message. -/
lemma sigMsg_eq (acceptMsg : Element) :
    sigMsg ext acceptMsg = ext.keccak256 (sigMessage acceptMsg) := by
  simp only [sigMsg, sigMessage, abiEncodePacked, List.flatMap_cons, List.flatMap_nil,
    List.append_nil, List.append_assoc, AbiPart.packed, AbiValue.toNat, AbiValue.width,
    utf8_network, NETWORK_LEN]

end Block

/-- The arguments of `mintWithAuthorization` that are signed. -/
structure MintAuthorization where
  commitment : Element
  value : Element
  source : Element
  /-- `from` -/
  sender : Address
  validAfter : BitVec 256
  validBefore : BitVec 256
  nonce : BitVec 256

section Mint

variable (keccak256 : Bytes → Element)

/-- `DOMAIN_SEPARATOR`, on the chain and at the address of the contract. -/
def domainSeparator (chainId : ℕ) (this : Address) : Element :=
  keccak256 <| abiEncode
    [.bytes32 (keccak256 (utf8
      "EIP712Domain(string name,string version,uint256 chainId,address verifyingContract)")),
     .bytes32 (keccak256 (utf8 "Rollup")), .bytes32 (keccak256 (utf8 "1")),
     .uint256 chainId, .address this]

/-- The type of `MINT_WITH_AUTHORIZATION_TYPE_HASH`. -/
def MINT_WITH_AUTHORIZATION_TYPE : Bytes := utf8 <|
  "MintWithAuthorization(bytes32 commitment,bytes32 value,bytes32 source,address from," ++
    "uint256 validAfter,uint256 validBefore,bytes32 nonce)"

/-- The message behind `structHash`. -/
def structMessage (args : MintAuthorization) : Bytes :=
  abiEncode [.bytes32 (keccak256 MINT_WITH_AUTHORIZATION_TYPE), .bytes32 args.commitment,
    .bytes32 args.value, .bytes32 args.source, .address args.sender,
    .uint256 args.validAfter.toNat, .uint256 args.validBefore.toNat, .bytes32 args.nonce]

/-- The message behind `computedHash`. -/
def computedMessage (chainId : ℕ) (this : Address) (args : MintAuthorization) : Bytes :=
  abiEncodePacked [.string [0x19, 0x01], .value (.bytes32 (domainSeparator keccak256 chainId this)),
    .value (.bytes32 (keccak256 (structMessage keccak256 args)))]

/-- `computedHash`, of which `mintWithAuthorization` recovers the signer. -/
def computedHash (chainId : ℕ) (this : Address) (args : MintAuthorization) : Element :=
  keccak256 (computedMessage keccak256 chainId this args)

end Mint

end Contract

/-! ## What the node hashes -/

namespace Node

/-- The bytes that `ApprovalContent::hash` hashes; a skip is not hashed yet. -/
def ApprovalContent.message (self : ApprovalContent) : Option Bytes :=
  match self.inner with
  | .endorsement h => some (beBytes 32 self.targetHeight ++ beBytes 32 h.toNat)
  | .skip _ => none

/-- The bytes that `PeerIdSigner::sign` hashes. -/
def signedMessage (msg : CryptoHash) : Bytes :=
  beBytes 8 5 ++ [0x54, 0x65, 0x6d, 0x70, 0x6f] ++ beBytes 32 msg.toNat

/-- The hash of an approval is the digest of its message, if it has one. -/
lemma ApprovalContent.hash_eq {ε : Type} (P : Primitives) (self : ApprovalContent) :
    (self.hash P : Outcome ε CryptoHash) = Outcome.ofOption (self.message.map P.keccak256) := by
  obtain ⟨_ | _, _⟩ := self
  · rfl
  · rfl

end Node

/-! ## What the client hashes -/

namespace Client

variable (keccak256 : Bytes → BitVec 256)

/-- `H256::from` for an address: zeros go before its bytes. -/
def h256FromAddress (address : Contract.Address) : Bytes :=
  List.replicate 12 0 ++ beBytes 20 address.toNat

/-- `RollupContract`, as far as it signs. -/
structure RollupContract where
  domainSeparator : BitVec 256

/-- `RollupContract::load` asks the contract for its domain separator. -/
def RollupContract.load (chainId : ℕ) (rollupContractAddr : Contract.Address) : RollupContract :=
  ⟨Contract.domainSeparator keccak256 chainId rollupContractAddr⟩

/-- `data` of `signature_msg_digest_for_mint`. -/
def mintData (args : Contract.MintAuthorization) : Bytes :=
  beBytes 32 (keccak256 (Contract.utf8 <|
    "MintWithAuthorization(bytes32 commitment,bytes32 value,bytes32 source,address from," ++
      "uint256 validAfter,uint256 validBefore,bytes32 nonce)")).toNat ++
    beBytes 32 args.commitment.toNat ++ beBytes 32 args.value.toNat ++
    beBytes 32 args.source.toNat ++ h256FromAddress args.sender ++
    beBytes 32 args.validAfter.toNat ++ beBytes 32 args.validBefore.toNat ++
    beBytes 32 args.nonce.toNat

/-- The bytes that `signature_msg_digest_for_mint` hashes last. -/
def mintMessage (self : RollupContract) (args : Contract.MintAuthorization) : Bytes :=
  [0x19, 0x01] ++ beBytes 32 self.domainSeparator.toNat ++
    beBytes 32 (keccak256 (mintData keccak256 args)).toNat

/-- `signature_msg_digest_for_mint`. -/
def signatureMsgDigestForMint (self : RollupContract) (args : Contract.MintAuthorization) :
    BitVec 256 :=
  keccak256 (mintMessage keccak256 self args)

end Client

/-! ## The bytes are the same -/

namespace Node

/-- **Numbers are padded with zeros on the left.** -/
theorem beBytes_add {count n : ℕ} (k : ℕ) (hn : n < 256 ^ count) :
    beBytes (k + count) n = List.replicate k 0 ++ beBytes count n := by
  apply List.ext_getElem
  · simp [beBytes]
  · intro i hi hi'
    rw [List.getElem_append]
    split_ifs with hik
    · -- a byte above the number
      have hpow : 256 ^ count ≤ 256 ^ (k + count - 1 - i) := by
        apply Nat.pow_le_pow_right
        · omega
        · simp only [List.length_replicate] at hik
          omega
      simp [beBytes, Nat.div_eq_of_lt (lt_of_lt_of_le hn hpow)]
    · simp only [List.length_replicate] at hik
      have hexp : k + count - 1 - i = count - 1 - (i - k) := by omega
      simp [beBytes, hexp]

end Node

/-- An address takes one word. -/
lemma h256FromAddress_eq (address : Contract.Address) :
    Client.h256FromAddress address = beBytes 32 address.toNat := by
  have hlt : address.toNat < 256 ^ 20 := lt_of_lt_of_le address.isLt (by norm_num)
  exact (Node.beBytes_add 12 hlt).symm

/-- The bytes that the node hashes for a block are those that `verifyBlock2` hashes, which is given
the root and the height of the block and the hash of its header. -/
structure BlockDigestsAgree (P : Node.Primitives) (ext : Contract.BlockExternal)
    (content : Node.BlockContent) : Prop where
  proposal : content.message P = Contract.proposalMessage content.state.rootHash
    content.header.height (content.headerHash P)
  proposalHash : content.hash P = Contract.proposalHash ext content.state.rootHash
    content.header.height (content.headerHash P)
  /-- The endorsement is for the next height. -/
  accept :
    (Node.ApprovalContent.newEndorsement (content.hash P) content.header.height.next).message =
    some (Contract.acceptMessage content.header.height (content.hash P))
  acceptMsg :
    ((Node.ApprovalContent.newEndorsement (content.hash P) content.header.height.next).hash P :
        Outcome Empty Node.CryptoHash) =
      .ok (Contract.acceptMsg ext content.header.height (content.hash P))
  sig : ∀ msg, Node.signedMessage msg = Contract.sigMessage msg
  sigMsg : ∀ msg, Node.sign P msg = P.signEcdsa (Contract.sigMsg ext msg)

/-- The bytes that the client hashes for a mint are those that `mintWithAuthorization` hashes. -/
structure MintDigestsAgree (keccak256 : Bytes → BitVec 256) (chainId : ℕ) (this : Contract.Address)
    (args : Contract.MintAuthorization) : Prop where
  structHash : Client.mintData keccak256 args = Contract.structMessage keccak256 args
  computed : Client.mintMessage keccak256 (Client.RollupContract.load keccak256 chainId this) args =
    Contract.computedMessage keccak256 chainId this args
  computedHash :
    Client.signatureMsgDigestForMint keccak256
        (Client.RollupContract.load keccak256 chainId this) args =
      Contract.computedHash keccak256 chainId this args

/-- **The digests of a block.** Only the target height can go wrong, and it does not wrap around.

**Proof sketch.** The bytes on both sides are the same words in the same order, after unfolding. The
height of an endorsement is the next one, which does not wrap around by the bound on the height. -/
theorem blockDigestsAgree (P : Node.Primitives) (ext : Contract.BlockExternal)
    (hkeccak : ext.keccak256 = P.keccak256) (content : Node.BlockContent)
    (hheight : content.header.height < Node.U64 - 1) : BlockDigestsAgree P ext content := by
  have hmessage : content.message P = Contract.proposalMessage content.state.rootHash
      content.header.height (content.headerHash P) := by
    simp only [Node.BlockContent.message, Contract.proposalMessage, Contract.abiEncode,
      List.flatMap_cons, List.flatMap_nil, List.append_nil, List.append_assoc,
      Contract.AbiValue.toNat]
  have hnext : content.header.height.next = content.header.height + 1 := by
    apply Nat.mod_eq_of_lt
    exact Nat.add_lt_of_lt_sub hheight
  have haccept : (Node.ApprovalContent.newEndorsement (content.hash P)
      content.header.height.next).message =
        some (Contract.acceptMessage content.header.height (content.hash P)) := by
    rw [hnext]
    simp only [Node.ApprovalContent.newEndorsement, Node.ApprovalContent.message,
      Contract.acceptMessage, Contract.abiEncode, List.flatMap_cons, List.flatMap_nil,
      List.append_nil, Contract.AbiValue.toNat]
  have hsigned : ∀ msg, Node.signedMessage msg = Contract.sigMessage msg := by
    intro msg
    simp only [Node.signedMessage, Contract.sigMessage, Contract.abiEncodePacked,
      List.flatMap_cons, List.flatMap_nil, List.append_nil, List.append_assoc,
      Contract.AbiPart.packed, Contract.AbiValue.toNat, Contract.AbiValue.width,
      Contract.utf8_network, Contract.NETWORK_LEN]
  refine ⟨hmessage, ?_, haccept, ?_, hsigned, fun msg => ?_⟩
  · rw [Contract.proposalHash_eq, hkeccak, ← hmessage]
    rfl
  · rw [Node.ApprovalContent.hash_eq, haccept, Contract.acceptMsg_eq, hkeccak]
    rfl
  · rw [Contract.sigMsg_eq, hkeccak, ← hsigned]
    rfl

/-- **The digest of a mint.** The address of the sender is padded to a word. -/
theorem mintDigestsAgree (keccak256 : Bytes → BitVec 256) (chainId : ℕ) (this : Contract.Address)
    (args : Contract.MintAuthorization) : MintDigestsAgree keccak256 chainId this args := by
  have hdata : Client.mintData keccak256 args = Contract.structMessage keccak256 args := by
    simp only [Client.mintData, Contract.structMessage, Contract.abiEncode, List.flatMap_cons,
      List.flatMap_nil, List.append_nil, List.append_assoc, Contract.AbiValue.toNat,
      h256FromAddress_eq, Contract.MINT_WITH_AUTHORIZATION_TYPE]
  have hmessage : Client.mintMessage keccak256 (Client.RollupContract.load keccak256 chainId this)
      args = Contract.computedMessage keccak256 chainId this args := by
    simp only [Client.mintMessage, hdata, Contract.computedMessage, Contract.abiEncodePacked,
      List.flatMap_cons, List.flatMap_nil, List.append_nil, List.append_assoc,
      Contract.AbiPart.packed, Contract.AbiValue.toNat, Contract.AbiValue.width]
    rfl
  refine ⟨hdata, hmessage, ?_⟩
  rw [Client.signatureMsgDigestForMint, hmessage]
  rfl

/-- **Signatures are over the messages of the contract.** With one Keccak on both sides: for every
block below the last height, the bytes that the node hashes for the block, for its endorsement and
for the signature are those that `verifyBlock2` hashes; and for all arguments the bytes that the
client hashes are those that `mintWithAuthorization` hashes. -/
theorem digests_agree (P : Node.Primitives) (external : Contract.BlockExternal)
    (content : Node.BlockContent) (hheight : content.header.height < Node.U64 - 1) (chainId : ℕ)
    (this : Contract.Address) (args : Contract.MintAuthorization) :
    BlockDigestsAgree P { external with keccak256 := P.keccak256 } content ∧
      MintDigestsAgree P.keccak256 chainId this args :=
  ⟨blockDigestsAgree P _ rfl content hheight, mintDigestsAgree P.keccak256 chainId this args⟩

namespace SampleDigests

/-- A digest that depends on every byte and on the order of the bytes. -/
def primitives : Node.Primitives where
  poseidon _ := 0
  keccak256 bytes := bytes.foldl (fun digest byte => 257 * digest + byte.setWidth 256 + 1) 0
  verifyProof _ _ := some true
  fromCompact _ := true
  recoverEcdsa _ _ := some 0
  signEcdsa _ := .default

/-- What the contract calls. -/
def external : Contract.BlockExternal where
  msgSender := 0
  txns _ :=
    { msgSender := 0, transferFromReturns := true, transferReturns := true, approveReturns := true,
      resetReturns := true, isUSDCBlacklisted := fun _ => false,
      isRouterWhitelisted := fun _ => false, signerIsFrom := true, keccak := fun _ _ _ => 0,
      routerReturns := true, afterRouterCall := .initial }
  keccak256 _ := 0
  recover _ _ _ _ := some 0
  aggregateVerifies _ _ _ _ _ := true

/-- A block with one transaction, whose fields all differ. -/
def content : Node.BlockContent where
  header :=
    { height := 7, lastBlockHash := 11, epochId := 2, lastFinalBlockHash := 13,
      approvals := [⟨17, 28⟩, ⟨19, 27⟩] }
  state := { rootHash := 23, txns := [⟨29, 31, 37, (41, 43), (47, 53), [59]⟩] }

/-- The arguments of a mint. -/
def mint : Contract.MintAuthorization := ⟨1, 2, 3, 4, 5, 6, 7⟩

end SampleDigests

/-- A block and a mint whose fields all differ. -/
theorem digests_agree_sample :
    BlockDigestsAgree SampleDigests.primitives
        { SampleDigests.external with keccak256 := SampleDigests.primitives.keccak256 }
        SampleDigests.content ∧
      MintDigestsAgree SampleDigests.primitives.keccak256 1 8 SampleDigests.mint :=
  digests_agree SampleDigests.primitives SampleDigests.external SampleDigests.content (by decide)
    1 8
    SampleDigests.mint

end TempoRollup
