import TempoRollup.Lib.ByteOrder
import TempoRollup.Lib.Exec

set_option relaxedAutoImplicit false
set_option autoImplicit false

/-!
# The keys of the block store

`block-store/src/keys.rs`: the kinds of records that share one rocksdb instance, and the bytes of
their keys. A byte for the kind comes first; heights are written with the most significant byte
first, so that a range of keys is a range of heights.

## Main definitions

* `Error` — `block_store::Error`.
* `Key`, `Key.serialize`, `Key.deserialize`.
* `ListableKey`, `KeyBlock`, `KeyNonEmptyBlock` — the two kinds of keys that are listed.

## Main results

* `Key.deserialize_serialize` — a key is read back.
* `Key.compare_block`, `Key.compare_of_kind_lt` — keys of a kind are in the order of the heights,
  and the kinds follow each other.
* `Key.key_format` — these facts, and when a byte string that is no key is refused.
-/

open Exec

namespace TempoRollup.Store

/-- `BlockHeight`. -/
abbrev BlockHeight : Type := BitVec 64

/-- A hash of 32 bytes. -/
abbrev Hash : Type := BitVec 256

/-- `block_store::Error`, in the variants that these functions return. -/
inductive Error
  | invalidKey
  | invalidVersion (version : ℕ)
  | rocksDb
  | wireMessage
  deriving DecidableEq, Repr

/-- `Key`. -/
inductive Key
  | block (height : BlockHeight)
  | maxHeight
  | blockHashToHeight (hash : Hash)
  | pendingBlock
  | txnByHash (hash : Hash)
  | storeVersion
  | nonEmptyBlock (height : BlockHeight)
  deriving DecidableEq, Repr

namespace Key

/-- `kind`. -/
def kind : Key → UInt8
  | block _ => 0
  | maxHeight => 1
  | blockHashToHeight _ => 2
  | pendingBlock => 3
  | txnByHash _ => 4
  | storeVersion => 5
  | nonEmptyBlock _ => 6

/-- What follows the kind: `serialize_to` of a height, or the bytes of a hash. -/
def payload : Key → List UInt8
  | block height => Codec.toBE 8 height.toNat
  | maxHeight => []
  | blockHashToHeight hash => Codec.toBE 32 hash.toNat
  | pendingBlock => []
  | txnByHash hash => Codec.toBE 32 hash.toNat
  | storeVersion => []
  | nonEmptyBlock height => Codec.toBE 8 height.toNat

/-- `serialize`. -/
def serialize (self : Key) : List UInt8 := self.kind :: self.payload

/-- `serialize_immediate_successor`. -/
def serializeImmediateSuccessor (self : Key) : List UInt8 := self.serialize ++ [0]

/-- `deserialize` of a `KeyBlock` or a `KeyNonEmptyBlock`: the first eight bytes are sliced off
before anything is checked. -/
def deserializeHeight (bytes : List UInt8) : Outcome Error BlockHeight :=
  if bytes.length < 8 then .panic else .ok (BitVec.ofNat 64 (Codec.ofBE (bytes.take 8)))

/-- The copy of a hash from the first 32 bytes, which are sliced off. -/
def deserializeHash (bytes : List UInt8) : Outcome Error Hash :=
  if bytes.length < 32 then .panic else .ok (BitVec.ofNat 256 (Codec.ofBE (bytes.take 32)))

/-- `deserialize`. -/
def deserialize : List UInt8 → Outcome Error Key
  | [] => .err .invalidKey
  | kind :: bytes =>
    if kind = 0 then do
      let height ← deserializeHeight bytes
      pure (block height)
    else if kind = 1 then pure maxHeight
    else if kind = 2 then do
      let hash ← deserializeHash bytes
      pure (blockHashToHeight hash)
    else if kind = 3 then pure pendingBlock
    else if kind = 4 then do
      let hash ← deserializeHash bytes
      pure (txnByHash hash)
    else if kind = 5 then pure storeVersion
    else if kind = 6 then do
      let height ← deserializeHeight bytes
      pure (nonEmptyBlock height)
    else .err .invalidKey

/-! ## Reading a key back -/

/-- A serialized height is read back. -/
lemma deserializeHeight_toBE (height : BlockHeight) :
    deserializeHeight (Codec.toBE 8 height.toNat) = .ok height := by
  have hlt : height.toNat < 256 ^ 8 := height.isLt
  have hlen : (Codec.toBE 8 height.toNat).length = 8 := Codec.length_toBE 8 _
  rw [deserializeHeight, hlen, if_neg (lt_irrefl 8), List.take_of_length_le hlen.le,
    Codec.ofBE_toBE, Nat.mod_eq_of_lt hlt, BitVec.ofNat_toNat, BitVec.setWidth_eq]

/-- A serialized hash is read back. -/
lemma deserializeHash_toBE (hash : Hash) :
    deserializeHash (Codec.toBE 32 hash.toNat) = .ok hash := by
  have hlt : hash.toNat < 256 ^ 32 := hash.isLt
  have hlen : (Codec.toBE 32 hash.toNat).length = 32 := Codec.length_toBE 32 _
  rw [deserializeHash, hlen, if_neg (lt_irrefl 32), List.take_of_length_le hlen.le,
    Codec.ofBE_toBE, Nat.mod_eq_of_lt hlt, BitVec.ofNat_toNat, BitVec.setWidth_eq]

/-- **A key is read back.** -/
theorem deserialize_serialize (key : Key) : deserialize key.serialize = .ok key := by
  cases key with
  | block height =>
    change (deserializeHeight (Codec.toBE 8 height.toNat) >>= fun height => pure (block height)) = _
    rw [deserializeHeight_toBE]
    rfl
  | maxHeight => rfl
  | blockHashToHeight hash =>
    change (deserializeHash (Codec.toBE 32 hash.toNat) >>= fun hash =>
      pure (blockHashToHeight hash)) = _
    rw [deserializeHash_toBE]
    rfl
  | pendingBlock => rfl
  | txnByHash hash =>
    change (deserializeHash (Codec.toBE 32 hash.toNat) >>= fun hash => pure (txnByHash hash)) = _
    rw [deserializeHash_toBE]
    rfl
  | storeVersion => rfl
  | nonEmptyBlock height =>
    change (deserializeHeight (Codec.toBE 8 height.toNat) >>= fun height =>
      pure (nonEmptyBlock height)) = _
    rw [deserializeHeight_toBE]
    rfl

/-- Serialized keys tell the keys. -/
lemma serialize_injective : Function.Injective serialize := by
  intro a b h
  have ha := deserialize_serialize a
  rw [h, deserialize_serialize b] at ha
  exact (Outcome.ok.inj ha).symm

/-- Keys are equal if their bytes are. -/
lemma serialize_inj {a b : Key} : a.serialize = b.serialize ↔ a = b :=
  serialize_injective.eq_iff

/-! ## The order of the keys -/

/-- **Keys of different kinds do not interleave**: the keys of a kind come before all keys of a
greater one. -/
theorem compare_of_kind_lt {a b : Key} (h : a.kind < b.kind) :
    compare a.serialize b.serialize = .lt := by
  rw [serialize, serialize, List.compare_cons_cons, Std.compare_eq_lt.2 h]
  rfl

/-- Keys of one kind are in the order of what follows it. -/
lemma compare_of_kind_eq {a b : Key} (h : a.kind = b.kind) :
    compare a.serialize b.serialize = compare a.payload b.payload := by
  rw [serialize, serialize, List.compare_cons_cons, h, Std.ReflOrd.compare_self]
  rfl

/-- **Block keys are in the order of the heights.** -/
theorem compare_block (h h' : BlockHeight) :
    compare (block h).serialize (block h').serialize = compare h.toNat h'.toNat :=
  (compare_of_kind_eq (a := block h) (b := block h') rfl).trans
    (ByteOrder.compare_toBE h.isLt h'.isLt)

/-- Keys of blocks with transactions are compared by height. -/
lemma compare_nonEmptyBlock (h h' : BlockHeight) :
    compare (nonEmptyBlock h).serialize (nonEmptyBlock h').serialize =
      compare h.toNat h'.toNat :=
  (compare_of_kind_eq (a := nonEmptyBlock h) (b := nonEmptyBlock h') rfl).trans
    (ByteOrder.compare_toBE h.isLt h'.isLt)

/-! ## Byte strings that are no key -/

/-- A refusal is that of an empty string or of an unknown kind. -/
lemma deserialize_eq_err_iff (bytes : List UInt8) :
    (∃ e, deserialize bytes = .err e) ↔ ∀ kind rest, bytes = kind :: rest → 7 ≤ kind := by
  have hheight : ∀ (bytes : List UInt8) (f : BlockHeight → Key) e,
      (do let height ← deserializeHeight bytes; pure (f height)) ≠ Outcome.err (α := Key) e := by
    intro bytes f e
    unfold deserializeHeight
    split_ifs <;> rintro ⟨⟩
  have hhash : ∀ (bytes : List UInt8) (f : Hash → Key) e,
      (do let hash ← deserializeHash bytes; pure (f hash)) ≠ Outcome.err (α := Key) e := by
    intro bytes f e
    unfold deserializeHash
    split_ifs <;> rintro ⟨⟩
  cases bytes with
  | nil =>
    refine ⟨fun _ kind rest h => ?_, fun _ => ⟨.invalidKey, rfl⟩⟩
    cases h
  | cons kind bytes =>
    have hpure : ∀ (key : Key) e, (pure key : Outcome Error Key) ≠ .err e := by
      intro key e h
      cases h
    constructor
    · rintro ⟨e, he⟩ kind' rest heq
      obtain ⟨rfl, rfl⟩ := List.cons.inj heq
      by_contra hlt
      rw [UInt8.not_le, UInt8.lt_iff_toNat_lt] at hlt
      have hcases : kind = 0 ∨ kind = 1 ∨ kind = 2 ∨ kind = 3 ∨ kind = 4 ∨ kind = 5 ∨ kind = 6 := by
        simp only [← UInt8.toNat_inj]
        change kind.toNat < 7 at hlt
        change kind.toNat = 0 ∨ kind.toNat = 1 ∨ kind.toNat = 2 ∨ kind.toNat = 3 ∨
          kind.toNat = 4 ∨ kind.toNat = 5 ∨ kind.toNat = 6
        omega
      rcases hcases with rfl | rfl | rfl | rfl | rfl | rfl | rfl
      · exact hheight _ block e he
      · exact hpure maxHeight e he
      · exact hhash _ blockHashToHeight e he
      · exact hpure pendingBlock e he
      · exact hhash _ txnByHash e he
      · exact hpure storeVersion e he
      · exact hheight _ nonEmptyBlock e he
    · intro h
      have hge := h kind bytes rfl
      have hne : ∀ k : UInt8, k < 7 → kind ≠ k := by
        rintro k hk rfl
        exact absurd hge (UInt8.not_le.2 hk)
      refine ⟨.invalidKey, ?_⟩
      rw [deserialize, if_neg (hne 0 (by decide)), if_neg (hne 1 (by decide)),
        if_neg (hne 2 (by decide)), if_neg (hne 3 (by decide)), if_neg (hne 4 (by decide)),
        if_neg (hne 5 (by decide)), if_neg (hne 6 (by decide))]

/-- **The format of the keys.** Keys are read back; block keys are in the order of the heights, and
keys of different kinds do not interleave. A byte string that is no key is refused with an error
exactly if it is empty or its first byte is none of the kinds: shorter ones of these kinds panic or
pass for another key, and longer ones pass for the key that they start with. -/
theorem key_format (key a b : Key) (h h' : BlockHeight) (bytes : List UInt8) :
    deserialize key.serialize = .ok key ∧
      (compare (block h).serialize (block h').serialize = compare h.toNat h'.toNat ∧
        compare (nonEmptyBlock h).serialize (nonEmptyBlock h').serialize =
          compare h.toNat h'.toNat) ∧
      (a.kind < b.kind → compare a.serialize b.serialize = .lt) ∧
      ((∀ key : Key, bytes ≠ key.serialize) →
        ((∃ e, deserialize bytes = .err e) ↔
          ∀ kind rest, bytes = kind :: rest → 7 ≤ kind)) :=
  ⟨deserialize_serialize key, ⟨compare_block h h', compare_nonEmptyBlock h h'⟩,
    compare_of_kind_lt, fun _ => deserialize_eq_err_iff bytes⟩

/-- The key of a block without its height makes the decoder panic, and the key of the greatest
height with one more byte passes for that key. -/
theorem deserialize_malformed :
    (∀ key : Key, [0] ≠ key.serialize) ∧ deserialize [0] = .panic ∧
      (∀ key : Key, [1, 0] ≠ key.serialize) ∧ deserialize [1, 0] = .ok maxHeight ∧
      ¬ ∀ bytes : List UInt8, (∀ key : Key, bytes ≠ key.serialize) →
        ∃ e, deserialize bytes = .err e := by
  have hshort : ∀ key : Key, [0] ≠ key.serialize := by
    intro key h
    have hread := deserialize_serialize key
    rw [← h] at hread
    cases hread
  have hlong : ∀ key : Key, [1, 0] ≠ key.serialize := by
    intro key h
    have hread := deserialize_serialize key
    rw [← h] at hread
    obtain rfl : maxHeight = key := Outcome.ok.inj hread
    cases h
  refine ⟨hshort, rfl, hlong, rfl, fun h => ?_⟩
  obtain ⟨e, he⟩ := h [0] hshort
  cases he

end Key

/-! ## Keys that are listed -/

/-- `StoreKey` and `ListableKey`, of a kind of keys that carry a height. -/
structure ListableKey where
  toKey : BlockHeight → Key
  fromKey : Key → Option BlockHeight
  fromKey_eq_some_iff : ∀ key height, fromKey key = some height ↔ key = toKey height
  compare_toKey : ∀ h h', compare (toKey h).serialize (toKey h').serialize =
    compare h.toNat h'.toNat
  kind_toKey : ∀ h h', (toKey h).kind = (toKey h').kind
  eq_toKey : ∀ key h, key.kind = (toKey h).kind → ∃ h', key = toKey h'

/-- `KeyBlock`. -/
def KeyBlock : ListableKey where
  toKey := .block
  fromKey
    | .block height => some height
    | _ => none
  fromKey_eq_some_iff key height := by cases key <;> simp
  compare_toKey := Key.compare_block
  kind_toKey _ _ := rfl
  eq_toKey key h hkind := by
    cases key with
    | block height => exact ⟨height, rfl⟩
    | _ => cases hkind

/-- `KeyNonEmptyBlock`. -/
def KeyNonEmptyBlock : ListableKey where
  toKey := .nonEmptyBlock
  fromKey
    | .nonEmptyBlock height => some height
    | _ => none
  fromKey_eq_some_iff key height := by cases key <;> simp
  compare_toKey := Key.compare_nonEmptyBlock
  kind_toKey _ _ := rfl
  eq_toKey key h hkind := by
    cases key with
    | nonEmptyBlock height => exact ⟨height, rfl⟩
    | _ => cases hkind

end TempoRollup.Store
