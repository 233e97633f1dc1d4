import Mathlib.Logic.Equiv.Defs
import Mathlib.Data.List.Induction
import Mathlib.Data.Nat.ModEq

set_option relaxedAutoImplicit false
set_option autoImplicit false

/-!
# Self-delimiting codecs

A codec writes values as bytes and reads them back from the front of a stream. Codecs of fixed
width, of pairs and of two variants are put together; the law that reading undoes writing is a
field, so that a codec cannot be built without it.

## Main definitions

* `Codec`, `Codec.fromBytes`.
* `Codec.unit`, `Codec.bigEndian`, `Codec.prod`, `Codec.either`, `Codec.map`.

## Main results

* `Codec.fromBytes_serialize` — what was written is read.
* `Codec.serialize_injective` — different values are written differently.
* `Codec.ofBE_injective` — bytes of one length are determined by their number.
-/

/-- A codec: what is read from the front of a stream is what was written there. -/
structure Codec (α : Type) where
  serialize : α → List UInt8
  deserialize : List UInt8 → Option (α × List UInt8)
  deserialize_serialize : ∀ a rest, deserialize (serialize a ++ rest) = some (a, rest)

namespace Codec

variable {α β : Type}

/-- Read a value; bytes after it are ignored. -/
def fromBytes (c : Codec α) (bytes : List UInt8) : Option α := (c.deserialize bytes).map Prod.fst

/-- What was serialized is read back. -/
theorem fromBytes_serialize (c : Codec α) (a : α) : c.fromBytes (c.serialize a) = some a := by
  have h := c.deserialize_serialize a []
  rw [List.append_nil] at h
  rw [fromBytes, h]
  rfl

/-- Serialized values tell the values. -/
theorem serialize_injective (c : Codec α) : Function.Injective c.serialize := by
  intro a b h
  have ha := c.fromBytes_serialize a
  rw [h, c.fromBytes_serialize b] at ha
  exact (Option.some.inj ha).symm

/-- The codec of a type with one value: nothing is written. -/
def unit : Codec Unit where
  serialize _ := []
  deserialize bytes := some ((), bytes)
  deserialize_serialize _ _ := rfl

/-- The codec of a type through an equivalent one. -/
def map (c : Codec α) (e : α ≃ β) : Codec β where
  serialize b := c.serialize (e.symm b)
  deserialize bytes := (c.deserialize bytes).map fun r => (e r.1, r.2)
  deserialize_serialize b rest := by
    rw [c.deserialize_serialize, Option.map_some, Equiv.apply_symm_apply]

/-- The codec of pairs: one after the other. -/
def prod (c : Codec α) (d : Codec β) : Codec (α × β) where
  serialize p := c.serialize p.1 ++ d.serialize p.2
  deserialize bytes := do
    let (a, bytes) ← c.deserialize bytes
    let (b, bytes) ← d.deserialize bytes
    return ((a, b), bytes)
  deserialize_serialize p rest := by
    rw [List.append_assoc, c.deserialize_serialize]
    simp only [Option.bind_eq_bind, Option.bind_some, d.deserialize_serialize, Option.pure_def]

/-- The codec of two variants: a byte for the variant, then its value. -/
def either (c : Codec α) (d : Codec β) : Codec (α ⊕ β) where
  serialize
    | .inl a => 0 :: c.serialize a
    | .inr b => 1 :: d.serialize b
  deserialize
    | 0 :: bytes => (c.deserialize bytes).map fun r => (.inl r.1, r.2)
    | 1 :: bytes => (d.deserialize bytes).map fun r => (.inr r.1, r.2)
    | _ => none
  deserialize_serialize s rest := by
    cases s with
    | inl a => simp [c.deserialize_serialize]
    | inr b => simp [d.deserialize_serialize]

/-! ## Fixed width -/

/-- The last bytes of a number, the most significant first. -/
def toBE : ℕ → ℕ → List UInt8
  | 0, _ => []
  | width + 1, n => toBE width (n / 256) ++ [UInt8.ofNat n]

/-- The number that bytes stand for, the most significant first. -/
def ofBE (bytes : List UInt8) : ℕ := bytes.foldl (fun n b => n * 256 + b.toNat) 0

/-- One more byte at the end is the lowest one. -/
lemma ofBE_concat (bytes : List UInt8) (byte : UInt8) :
    ofBE (bytes ++ [byte]) = ofBE bytes * 256 + byte.toNat := by
  rw [ofBE, List.foldl_append, List.foldl_cons, List.foldl_nil, ← ofBE]

/-- A number of so many bytes is in range. -/
lemma ofBE_lt (bytes : List UInt8) : ofBE bytes < 256 ^ bytes.length := by
  induction bytes using List.reverseRecOn with
  | nil => simp [ofBE]
  | append_singleton bytes byte ih =>
    have hbyte := byte.toNat_lt
    rw [ofBE_concat, List.length_append, List.length_singleton, pow_succ]
    omega

/-- Bytes of one length are determined by their number. -/
theorem ofBE_injective {as bs : List UInt8} (hlen : as.length = bs.length)
    (h : ofBE as = ofBE bs) : as = bs := by
  induction as using List.reverseRecOn generalizing bs with
  | nil => exact (List.length_eq_zero_iff.1 hlen.symm).symm
  | append_singleton as a ih =>
    rcases List.eq_nil_or_concat bs with rfl | ⟨bs, b, rfl⟩
    · simp at hlen
    · rw [List.concat_eq_append] at h hlen ⊢
      rw [ofBE_concat, ofBE_concat] at h
      have ha := a.toNat_lt
      have hb := b.toNat_lt
      have hbyte : a = b := UInt8.toNat_inj.1 (by omega)
      rw [ih (by simpa using hlen) (by omega), hbyte]

/-- As many bytes as are asked for. -/
@[simp] lemma length_toBE (width n : ℕ) : (toBE width n).length = width := by
  induction width generalizing n with
  | zero => rfl
  | succ width ih => rw [toBE, List.length_append, ih, List.length_singleton]

/-- Reading back takes the number modulo the range. -/
lemma ofBE_toBE (width n : ℕ) : ofBE (toBE width n) = n % 256 ^ width := by
  induction width generalizing n with
  | zero => simp [toBE, ofBE, Nat.mod_one]
  | succ width ih =>
    have hrest : ofBE (toBE width (n / 256)) = n / 256 % 256 ^ width := ih (n / 256)
    have hstep : ofBE (toBE (width + 1) n) = ofBE (toBE width (n / 256)) * 256 + n % 256 := by
      rw [toBE, ofBE_concat, UInt8.toNat_ofNat']
    rw [hstep, hrest, Nat.pow_succ', Nat.mod_mul]
    omega

/-- The codec of words of a number of bytes, the most significant byte first. -/
def bigEndian (width : ℕ) : Codec (BitVec (8 * width)) where
  serialize x := toBE width x.toNat
  deserialize bytes :=
    if width ≤ bytes.length then
      some (BitVec.ofNat (8 * width) (ofBE (bytes.take width)), bytes.drop width)
    else none
  deserialize_serialize x rest := by
    have hlen := length_toBE width x.toNat
    have hlt : x.toNat < 256 ^ width := by
      have h := x.isLt
      rwa [Nat.pow_mul] at h
    rw [if_pos (by rw [List.length_append, hlen]; omega), List.take_left' hlen,
      List.drop_left' hlen, ofBE_toBE, Nat.mod_eq_of_lt hlt, BitVec.ofNat_toNat,
      BitVec.setWidth_eq]

end Codec
