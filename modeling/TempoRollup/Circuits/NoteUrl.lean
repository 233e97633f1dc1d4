import TempoRollup.Element
import TempoRollup.Lib.Base58
import TempoRollup.Lib.Codec
import TempoRollup.Lib.Exec

set_option relaxedAutoImplicit false
set_option autoImplicit false

/-!
# Links to notes

`zk-circuits/src/data.rs`: the payload of a link, which holds the private key of a note.

## Main definitions

* `NoteURLPayload`, `encodeActivityUrlPayload`, `decodeActivityUrlPayload`.
* `Bs58` — the library that turns bytes into text.

## Main results

* `decodeActivityUrlPayload_encode` — a payload comes back from its link, and different payloads
  have different links.

## Design

A slice that is out of range, a text that is not in base 58 and a code that is not UTF-8 are
panics. The library is a parameter; `Base58` is an instance of it.
-/

open Exec

namespace TempoRollup

/-- `Element::to_be_bytes`. -/
def Element.toBeBytes (e : Element) : List UInt8 := Codec.toBE 32 e.toNat

/-- `Element::from_be_bytes`. -/
def Element.fromBeBytes (bytes : List UInt8) : Element := BitVec.ofNat 256 (Codec.ofBE bytes)

/-- An element has 32 bytes. -/
@[simp] lemma Element.length_toBeBytes (e : Element) : e.toBeBytes.length = 32 :=
  Codec.length_toBE 32 _

/-- The bytes of an element are read back. -/
@[simp] lemma Element.fromBeBytes_toBeBytes (e : Element) : fromBeBytes e.toBeBytes = e := by
  have hlt : e.toNat < 256 ^ 32 := by
    rw [show 256 ^ 32 = 2 ^ 256 by norm_num]
    exact e.isLt
  rw [fromBeBytes, toBeBytes, Codec.ofBE_toBE, Nat.mod_eq_of_lt hlt, BitVec.ofNat_toNat,
    BitVec.setWidth_eq]

namespace Circuits

/-! ## The format -/

/-- `NoteURLPayload`. -/
structure NoteURLPayload where
  version : UInt8
  privateKey : Element
  psi : Option Element
  value : Element
  referralCode : String
  deriving DecidableEq

/-- The functions of `bs58`. -/
structure Bs58 where
  encode : List UInt8 → String
  decode : String → Option (List UInt8)

section Payload

variable {ε : Type}

/-- The first byte, and the rest. -/
def splitFirst : List UInt8 → Outcome ε (UInt8 × List UInt8)
  | [] => .panic
  | byte :: rest => .ok (byte, rest)

/-- The first bytes, and the rest. -/
def splitBytes (count : ℕ) (rest : List UInt8) : Outcome ε (List UInt8 × List UInt8) :=
  if count ≤ rest.length then .ok (rest.take count, rest.drop count) else .panic

/-- The part of `decode_activity_url_payload` that reads `psi`. -/
def decodePsi (version : UInt8) (rest : List UInt8) :
    Outcome ε (Option Element × List UInt8) :=
  if version = 0 then do
    let (psiBytes, rest) ← splitBytes 32 rest
    pure (some (Element.fromBeBytes psiBytes), rest)
  else pure (none, rest)

/-- The part that reads the value: the difference from 32 does not fit when there are more leading
zeros. -/
def decodeValue (rest : List UInt8) : Outcome ε (Element × List UInt8) := do
  let (leadingZeros, rest) ← splitFirst rest
  if leadingZeros.toNat ≤ 32 then do
    let (valueWithoutLeadingZeros, rest) ← splitBytes (32 - leadingZeros.toNat) rest
    let valueBytes := List.replicate leadingZeros.toNat 0 ++ valueWithoutLeadingZeros
    pure (Element.fromBeBytes valueBytes, rest)
  else .panic

/-- `decode_activity_url_payload`. -/
def decodeActivityUrlPayload (bs58 : Bs58) (payload : String) : Outcome ε NoteURLPayload := do
  let payloadBytes ← Outcome.ofOption (bs58.decode payload)
  let (version, rest) ← splitFirst payloadBytes
  let (privateKeyBytes, rest) ← splitBytes 32 rest
  let (psi, rest) ← decodePsi version rest
  let (value, rest) ← decodeValue rest
  let referralCode ← Outcome.ofOption (String.fromUTF8? rest.toByteArray)
  pure
    { version := version
      privateKey := Element.fromBeBytes privateKeyBytes
      psi := psi
      value := value
      referralCode := referralCode }

/-- The bytes of `psi`, if the version is 0. -/
def encodePsi (version : UInt8) : Option Element → List UInt8
  | some psi => if version = 0 then psi.toBeBytes else []
  | none => []

/-- The bytes of the value: the count of its leading zeros, and the others. -/
def encodeValue (value : Element) : List UInt8 :=
  let leadingZeros := (value.toBeBytes.takeWhile fun b => b = 0).length
  UInt8.ofNat leadingZeros :: value.toBeBytes.drop leadingZeros

/-- The bytes of a payload. -/
def payloadBytes (payload : NoteURLPayload) : List UInt8 :=
  payload.version :: (payload.privateKey.toBeBytes ++ (encodePsi payload.version payload.psi ++
    (encodeValue payload.value ++ payload.referralCode.toByteArray.data.toList)))

/-- `encode_activity_url_payload`. -/
def encodeActivityUrlPayload (bs58 : Bs58) (payload : NoteURLPayload) : String :=
  bs58.encode (payloadBytes payload)

/-! ## The round trip -/

/-- The first bytes are split off. -/
lemma splitBytes_append {count : ℕ} {first : List UInt8} (hlen : first.length = count)
    (rest : List UInt8) :
    (splitBytes count (first ++ rest) : Outcome ε (List UInt8 × List UInt8)) =
      .ok (first, rest) := by
  have hle : count ≤ (first ++ rest).length := by
    rw [List.length_append]
    omega
  rw [splitBytes, if_pos hle, List.take_left' hlen, List.drop_left' hlen]

/-- The bytes of a string are read as the string. -/
lemma fromUTF8?_toByteArray (s : String) :
    String.fromUTF8? s.toByteArray.data.toList.toByteArray = some s := by
  have hbytes : s.toByteArray.data.toList.toByteArray = s.toByteArray := by
    apply ByteArray.ext
    rw [List.data_toByteArray, Array.toArray_toList]
  rw [hbytes, String.fromUTF8?, dif_pos s.isValidUTF8]
  rfl

/-- The leading zeros of a number are restored from their count. -/
lemma replicate_append_drop (bytes : List UInt8) :
    List.replicate (bytes.takeWhile fun b => b = 0).length 0 ++
      bytes.drop (bytes.takeWhile fun b => b = 0).length = bytes := by
  have hsplit := @List.takeWhile_append_dropWhile _ (fun b => decide (b = 0)) bytes
  have hdrop : bytes.drop (bytes.takeWhile fun b => b = 0).length =
      bytes.dropWhile fun b => b = 0 :=
    (congrArg (List.drop _) hsplit.symm).trans List.drop_left
  rw [hdrop, Positional.replicate_append_dropWhile]

/-- A payload has the blinding `psi` exactly if it is of the first version. -/
def NoteURLPayload.WellFormed (payload : NoteURLPayload) : Prop :=
  payload.psi.isSome ↔ payload.version = 0

/-- What was written of `psi` is read back. -/
lemma decodePsi_append {version : UInt8} {psi : Option Element}
    (hpsi : psi.isSome ↔ version = 0) (rest : List UInt8) :
    (decodePsi version (encodePsi version psi ++ rest) :
      Outcome ε (Option Element × List UInt8)) = .ok (psi, rest) := by
  rcases psi with _ | psi
  · have hversion : ¬ version = 0 := fun h => Bool.false_ne_true (hpsi.2 h)
    rw [decodePsi, if_neg hversion]
    rfl
  · have hversion : version = 0 := hpsi.1 rfl
    rw [decodePsi, if_pos hversion, encodePsi, if_pos hversion,
      splitBytes_append psi.length_toBeBytes, Outcome.ok_bind]
    dsimp only
    rw [psi.fromBeBytes_toBeBytes]
    rfl

/-- **The value is read back**: the count of its leading zeros fits a byte, and the other bytes
follow. -/
lemma decodeValue_append (value : Element) (rest : List UInt8) :
    (decodeValue (encodeValue value ++ rest) : Outcome ε (Element × List UInt8)) =
      .ok (value, rest) := by
  have hle : (value.toBeBytes.takeWhile fun b => b = 0).length ≤ 32 := by
    rw [← value.length_toBeBytes]
    exact (List.takeWhile_prefix _).length_le
  have hcount : (UInt8.ofNat (value.toBeBytes.takeWhile fun b => b = 0).length).toNat =
      (value.toBeBytes.takeWhile fun b => b = 0).length := by
    rw [UInt8.toNat_ofNat']
    omega
  have hlen : (value.toBeBytes.drop (value.toBeBytes.takeWhile fun b => b = 0).length).length =
      32 - (value.toBeBytes.takeWhile fun b => b = 0).length := by
    rw [List.length_drop, value.length_toBeBytes]
  rw [decodeValue, encodeValue, List.cons_append, splitFirst, Outcome.ok_bind]
  dsimp only
  rw [hcount, if_pos hle, splitBytes_append hlen, Outcome.ok_bind]
  dsimp only
  rw [replicate_append_drop, value.fromBeBytes_toBeBytes]
  rfl

/-- A zero is all leading zeros. -/
example : encodeValue 0 = [32] := by decide +kernel

/-- **A payload comes back** from its bytes. -/
lemma decodeActivityUrlPayload_of_decode {bs58 : Bs58} {text : String} {payload : NoteURLPayload}
    (hpayload : payload.WellFormed) (htext : bs58.decode text = some (payloadBytes payload)) :
    (decodeActivityUrlPayload bs58 text : Outcome ε NoteURLPayload) = .ok payload := by
  rw [decodeActivityUrlPayload, htext, Outcome.ofOption, payloadBytes, Outcome.ok_bind, splitFirst,
    Outcome.ok_bind]
  dsimp only
  rw [splitBytes_append payload.privateKey.length_toBeBytes, Outcome.ok_bind]
  dsimp only
  rw [decodePsi_append hpayload, Outcome.ok_bind]
  dsimp only
  rw [decodeValue_append, Outcome.ok_bind]
  dsimp only
  rw [fromUTF8?_toByteArray, Outcome.ofOption, Outcome.ok_bind,
    payload.privateKey.fromBeBytes_toBeBytes]
  rfl

/-- **Links.** The payload of every link comes back, so that different payloads have different
links. -/
theorem decodeActivityUrlPayload_encode (bs58 : Bs58)
    (hbs58 : ∀ bytes, bs58.decode (bs58.encode bytes) = some bytes) :
    (∀ payload : NoteURLPayload, payload.WellFormed →
      (decodeActivityUrlPayload bs58 (encodeActivityUrlPayload bs58 payload) :
        Outcome ε NoteURLPayload) = .ok payload) ∧
    ∀ payload payload' : NoteURLPayload, payload.WellFormed → payload'.WellFormed →
      encodeActivityUrlPayload bs58 payload = encodeActivityUrlPayload bs58 payload' →
        payload = payload' := by
  have hback : ∀ payload : NoteURLPayload, payload.WellFormed →
      (decodeActivityUrlPayload bs58 (encodeActivityUrlPayload bs58 payload) :
        Outcome ε NoteURLPayload) = .ok payload :=
    fun payload hpayload => decodeActivityUrlPayload_of_decode hpayload (hbs58 _)
  refine ⟨hback, fun payload payload' h h' heq => ?_⟩
  have hpayload := hback payload h
  rw [heq, hback payload' h', Outcome.ok.injEq] at hpayload
  exact hpayload.symm

end Payload

/-! ### Two links -/

/-- The library, with the usual alphabet. -/
def bitcoinBs58 : Bs58 := ⟨Base58.encode, Base58.decode⟩

/-- A payload of the first version, with a value of zero. -/
def firstPayload : NoteURLPayload := ⟨0, 7, some 5, 0, "tempo"⟩

/-- A payload of the second version. -/
def secondPayload : NoteURLPayload := ⟨1, 7, none, 1000, ""⟩

/-- Their links lead back to them, and differ. -/
theorem decodeActivityUrlPayload_encode_bitcoin :
    (decodeActivityUrlPayload bitcoinBs58 (encodeActivityUrlPayload bitcoinBs58 firstPayload) :
        Outcome Empty NoteURLPayload) = .ok firstPayload ∧
      encodeActivityUrlPayload bitcoinBs58 firstPayload ≠
        encodeActivityUrlPayload bitcoinBs58 secondPayload := by
  have hfirst : firstPayload.WellFormed := iff_of_true rfl rfl
  have hsecond : secondPayload.WellFormed := iff_of_false Bool.false_ne_true (by decide)
  obtain ⟨hback, hinjective⟩ :=
    decodeActivityUrlPayload_encode (ε := Empty) bitcoinBs58 Base58.decode_encode
  refine ⟨hback firstPayload hfirst, fun heq => ?_⟩
  exact absurd (hinjective _ _ hfirst hsecond heq) (by decide)

end Circuits

end TempoRollup
