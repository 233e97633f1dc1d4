import Mathlib.Algebra.Field.ZMod
import Mathlib.Data.BitVec
import Mathlib.Tactic.NormNum.Prime
import TempoRollup.Lib.Merkle
import TempoRollup.Lib.Primality

set_option relaxedAutoImplicit false
set_option autoImplicit false

/-!
# Elements and the scalar field

The `zk-primitives` crate: 256-bit elements, the scalar field of BN254 they are read in, the
least significant bits that place an element in a tree, `hash_merge` and the Merkle fold.

## Main definitions

* `Element`, `Element.MODULUS`, `Fr` — `zk-primitives/src/element`.
* `Element.toBase`, `Element.fromBase`, `Element.isCanonical` — `element/halo2.rs`.
* `Element.lsb` — `element/lsb.rs`.
* `hashMerge`, `computeMerkleRoot` — `hash.rs`, `path.rs`.
* `emptyTreeHash` — `smirk/src/hash.rs`.

## Main results

* `Element.prime_MODULUS` — the modulus is prime, so `Fr` is a field.
* `Element.fromBase_toBase` — canonical elements are their own representatives.
* `Element.reverse_lsb` — the low bits, deepest first, are the sides of the element's slot.
* `computeMerkleRoot_eq` — the Merkle fold is the fold of the sparse Merkle tree.

## Design

The Poseidon permutation is a third-party primitive: `hash_merge` takes the hash of field
elements as a parameter `H : List Fr → Fr`, one function for all arities.
-/

namespace TempoRollup

/-! ## The modulus -/

namespace Element

/-- `Element::MODULUS`, the order of the scalar field of BN254. -/
def MODULUS : ℕ := 0x30644e72e131a029b85045b68181585d2833e84879b9709143e1f593f0000001

/-- The factors of `MODULUS - 1`, their own factors and so on down to `2`, each with a residue
of full order. -/
def modulusCertificate : List Primality.Step :=
  [⟨3, 2, [2]⟩, ⟨5, 2, [2, 2]⟩, ⟨7, 3, [2, 3]⟩, ⟨11, 2, [2, 5]⟩, ⟨13, 2, [2, 2, 3]⟩,
    ⟨17, 3, [2, 2, 2, 2]⟩, ⟨19, 2, [2, 3, 3]⟩, ⟨23, 5, [2, 11]⟩, ⟨29, 2, [2, 2, 7]⟩,
    ⟨31, 3, [2, 3, 5]⟩, ⟨37, 2, [2, 2, 3, 3]⟩, ⟨41, 6, [2, 2, 2, 5]⟩, ⟨47, 5, [2, 23]⟩,
    ⟨53, 2, [2, 2, 13]⟩, ⟨71, 7, [2, 5, 7]⟩, ⟨83, 2, [2, 41]⟩, ⟨107, 2, [2, 53]⟩,
    ⟨137, 3, [2, 2, 2, 17]⟩, ⟨223, 3, [2, 3, 37]⟩, ⟨229, 6, [2, 2, 3, 19]⟩,
    ⟨379, 2, [2, 3, 3, 3, 7]⟩, ⟨409, 21, [2, 2, 2, 3, 17]⟩, ⟨449, 3, [2, 2, 2, 2, 2, 2, 7]⟩,
    ⟨491, 2, [2, 5, 7, 7]⟩, ⟨661, 2, [2, 2, 3, 5, 11]⟩, ⟨823, 3, [2, 3, 137]⟩,
    ⟨853, 2, [2, 2, 3, 71]⟩, ⟨983, 5, [2, 491]⟩, ⟨1637, 2, [2, 2, 409]⟩,
    ⟨3691, 2, [2, 3, 3, 5, 41]⟩, ⟨4999, 3, [2, 3, 7, 7, 17]⟩, ⟨5501, 2, [2, 2, 5, 5, 5, 11]⟩,
    ⟨11003, 2, [2, 5501]⟩, ⟨20963, 2, [2, 47, 223]⟩, ⟨41927, 5, [2, 20963]⟩,
    ⟨93001, 14, [2, 2, 2, 3, 5, 5, 5, 31]⟩, ⟨237073, 15, [2, 2, 2, 2, 3, 11, 449]⟩,
    ⟨1593227, 2, [2, 19, 41927]⟩, ⟨405928799, 22, [2, 11, 3691, 4999]⟩,
    ⟨639533339, 2, [2, 229, 853, 1637]⟩, ⟨12048837557, 2, [2, 2, 7, 7, 661, 93001]⟩,
    ⟨5156902474397, 2, [2, 2, 107, 12048837557]⟩,
    ⟨1670836401704629, 2, [2, 2, 3, 3, 3, 3, 5156902474397]⟩,
    ⟨65865678001877903, 5, [2, 83, 379, 1637, 639533339]⟩,
    ⟨13818364434197438864469338081, 3, [2, 2, 2, 2, 2, 5, 823, 1593227, 65865678001877903]⟩,
    ⟨MODULUS, 5, List.replicate 28 2 ++ [3, 3, 13, 29, 983, 11003, 237073, 405928799,
      1670836401704629, 13818364434197438864469338081]⟩]

/-- The modulus is prime. -/
theorem prime_MODULUS : Nat.Prime MODULUS := by
  have hchain : Primality.checks [2] modulusCertificate = true := by decide +kernel
  have hprimes := Primality.prime_of_checks (List.forall_mem_singleton.2 Nat.prime_two) hchain
  exact hprimes _ (List.getLast_mem (List.cons_ne_nil _ _))

/-- The modulus is prime, for the instances of `ZMod`. -/
instance : Fact (Nat.Prime MODULUS) := ⟨prime_MODULUS⟩

/-- The modulus has at most 254 bits. -/
lemma MODULUS_lt : MODULUS < 2 ^ 254 := by
  unfold MODULUS
  norm_num

/-- The modulus has at least 254 bits. -/
lemma lt_MODULUS : 2 ^ 253 < MODULUS := by
  unfold MODULUS
  norm_num

end Element

/-- The scalar field of BN254, `Base` of `zk-primitives` and `Fr` of the circuits. -/
abbrev Fr : Type := ZMod Element.MODULUS

/-! ## Literals

A literal of `Fr` is the cast of a number with a proof that it is at least two. The literals that
the constants of the circuits and the sample runs use have theirs here, under a name. -/

/-- The literal 2. -/
instance Literal.atLeastTwo_two : Nat.AtLeastTwo 2 := ⟨by decide⟩

/-- The literal 3. -/
instance Literal.atLeastTwo_three : Nat.AtLeastTwo 3 := ⟨by decide⟩

/-- The literal 4. -/
instance Literal.atLeastTwo_four : Nat.AtLeastTwo 4 := ⟨by decide⟩

/-- The literal 5. -/
instance Literal.atLeastTwo_five : Nat.AtLeastTwo 5 := ⟨by decide⟩

/-- The literal 7. -/
instance Literal.atLeastTwo_seven : Nat.AtLeastTwo 7 := ⟨by decide⟩

/-- The literal 8. -/
instance Literal.atLeastTwo_eight : Nat.AtLeastTwo 8 := ⟨by decide⟩

/-- The literal 9. -/
instance Literal.atLeastTwo_nine : Nat.AtLeastTwo 9 := ⟨by decide⟩

/-- The literal 10. -/
instance Literal.atLeastTwo_ten : Nat.AtLeastTwo 10 := ⟨by decide⟩

/-- The literal 11. -/
instance Literal.atLeastTwo_eleven : Nat.AtLeastTwo 11 := ⟨by decide⟩

/-- The literal 16. -/
instance Literal.atLeastTwo_sixteen : Nat.AtLeastTwo 16 := ⟨by decide⟩

/-- The literal 320. -/
instance Literal.atLeastTwo_threeHundredTwenty : Nat.AtLeastTwo 320 := ⟨by decide⟩

/-- `Element` wraps a 256-bit unsigned integer. -/
abbrev Element : Type := BitVec 256

namespace Element

/-! ## Conversions -/

/-- `Element::ZERO`, also named `NULL_HASH`: the hash of an empty leaf. -/
def NULL_HASH : Element := 0

/-- `Element::to_base`: reduction into the field. -/
def toBase (e : Element) : Fr := (e.toNat : Fr)

/-- `Element::from_base`: the representative of a field element. -/
def fromBase (x : Fr) : Element := BitVec.ofNat 256 x.val

/-- `Element::canonicalize`. -/
def canonicalize (e : Element) : Element := BitVec.ofNat 256 (e.toNat % MODULUS)

/-- `Element::is_canonical`. -/
def isCanonical (e : Element) : Bool := e == e.canonicalize

/-- The representative of a field element fits an element. -/
@[simp] lemma toNat_fromBase (x : Fr) : (fromBase x).toNat = x.val := by
  have hx : x.val < MODULUS := ZMod.val_lt x
  have hM := MODULUS_lt
  simp only [fromBase, BitVec.toNat_ofNat]
  exact Nat.mod_eq_of_lt (by omega)

/-- Canonical elements are those below the modulus. -/
lemma isCanonical_iff (e : Element) : e.isCanonical = true ↔ e.toNat < MODULUS := by
  have hM := MODULUS_lt
  have hpos : 0 < MODULUS := prime_MODULUS.pos
  have hlt : e.toNat % MODULUS < MODULUS := Nat.mod_lt _ hpos
  have hfit : (canonicalize e).toNat = e.toNat % MODULUS := by
    simp only [canonicalize, BitVec.toNat_ofNat]
    exact Nat.mod_eq_of_lt (by omega)
  rw [isCanonical, beq_iff_eq, ← BitVec.toNat_inj, hfit]
  constructor
  · intro h
    omega
  · intro h
    rw [Nat.mod_eq_of_lt h]

/-- The representative of a field element is canonical. -/
@[simp] lemma isCanonical_fromBase (x : Fr) : (fromBase x).isCanonical = true := by
  rw [isCanonical_iff, toNat_fromBase]
  exact ZMod.val_lt x

/-- A representative reads back as its field element. -/
@[simp] lemma toBase_fromBase (x : Fr) : (fromBase x).toBase = x := by
  rw [toBase, toNat_fromBase]
  exact ZMod.natCast_zmod_val x

/-- The field element of a canonical element has that element's value. -/
lemma val_toBase {e : Element} (he : e.isCanonical = true) : e.toBase.val = e.toNat := by
  rw [toBase, ZMod.val_natCast]
  exact Nat.mod_eq_of_lt ((isCanonical_iff e).1 he)

/-- Canonical elements are their own representatives. -/
theorem fromBase_toBase {e : Element} (he : e.isCanonical = true) : fromBase e.toBase = e := by
  rw [← BitVec.toNat_inj, toNat_fromBase, val_toBase he]

/-- The representative of an element is that of its field element. -/
lemma canonicalize_eq (e : Element) : e.canonicalize = fromBase e.toBase := by
  rw [canonicalize, fromBase, toBase, ZMod.val_natCast]

/-- Canonical elements that agree in the field are equal. -/
lemma toBase_injOn {e f : Element} (he : e.isCanonical = true) (hf : f.isCanonical = true)
    (h : e.toBase = f.toBase) : e = f := by
  rw [← fromBase_toBase he, ← fromBase_toBase hf, h]

/-- A field element is one element. -/
lemma fromBase_injective : Function.Injective fromBase := fun x y h => by
  rw [← toBase_fromBase x, ← toBase_fromBase y, h]

/-- Zero is the zero of the field. -/
lemma toBase_zero : toBase 0 = 0 := by simp [toBase]

/-- The literal zero is the zero of the field, too. -/
@[simp] lemma toBase_ofNat_zero : toBase (0#256) = 0 := toBase_zero

/-- The zero of the field is zero. -/
@[simp] lemma fromBase_zero : fromBase 0 = 0 := by simp [fromBase]

/-- Zero is the only canonical element that is zero in the field. -/
lemma toBase_eq_zero_iff {e : Element} (he : e.isCanonical = true) : e.toBase = 0 ↔ e = 0 := by
  constructor
  · intro h
    rw [← fromBase_toBase he, h, fromBase_zero]
  · rintro rfl
    exact toBase_zero

/-! ## Least significant bits -/

/-- `Element::to_be_bits`: the 256 bits, most significant first. -/
def toBeBits (e : Element) : List Bool := (List.range 256).map e.getMsbD

/-- `Element::lsb`: the last `count` of the big-endian bits. -/
def lsb (e : Element) (count : ℕ) : List Bool := e.toBeBits.drop (256 - count)

/-- An element has 256 bits. -/
@[simp] lemma length_toBeBits (e : Element) : e.toBeBits.length = 256 := by simp [toBeBits]

/-- As many low bits as are asked for. -/
lemma length_lsb (e : Element) {count : ℕ} (hc : count ≤ 256) : (e.lsb count).length = count := by
  simp only [lsb, List.length_drop, length_toBeBits]
  omega

/-- The slot of an element in a tree with `2 ^ count` leaves. -/
def slot (e : Element) (count : ℕ) : ℕ := e.toNat % 2 ^ count

/-- A slot of `count` bits is below `2 ^ count`. -/
lemma slot_lt (e : Element) (count : ℕ) : e.slot count < 2 ^ count :=
  Nat.mod_lt _ (by positivity)

/-- The low bits, deepest first, are the sides of the element's slot. -/
theorem reverse_lsb (e : Element) {count : ℕ} (hc : count ≤ 256) :
    (e.lsb count).reverse = Bits.toLE count e.toNat := by
  apply List.ext_getElem?
  intro j
  by_cases hj : j < count
  · rw [Bits.getElem?_toLE _ _ _ hj, List.getElem?_reverse (by rw [length_lsb e hc]; exact hj),
      length_lsb e hc, lsb, List.getElem?_drop, toBeBits, List.getElem?_map,
      List.getElem?_range (by omega)]
    simp only [Option.map_some, Option.some.injEq, BitVec.getMsbD, BitVec.getLsbD]
    rw [show 256 - 1 - (256 - count + (count - 1 - j)) = j by omega,
      decide_eq_true (show 256 - count + (count - 1 - j) < 256 by omega), Bool.true_and]
  · rw [List.getElem?_eq_none (by rw [List.length_reverse, length_lsb e hc]; omega),
      List.getElem?_eq_none (by rw [Bits.length_toLE]; omega)]

/-- Two elements have the same low bits exactly when they have the same slot. -/
lemma lsb_eq_iff (e f : Element) {count : ℕ} (hc : count ≤ 256) :
    e.lsb count = f.lsb count ↔ e.slot count = f.slot count := by
  rw [← List.reverse_inj, reverse_lsb e hc, reverse_lsb f hc]
  constructor
  · intro h
    rw [slot, slot, ← Bits.ofLE_toLE, ← Bits.ofLE_toLE, h]
  · intro h
    rw [← Bits.toLE_mod, ← Bits.toLE_mod count f.toNat]
    exact congrArg (Bits.toLE count) h

end Element

/-! ## Hashing -/

/-- `hash_merge`: the elements are reduced into the field, hashed there, and the digest is
read back as an element. -/
def hashMerge (H : List Fr → Fr) (elements : List Element) : Element :=
  Element.fromBase (H (elements.map Element.toBase))

/-- A digest is canonical. -/
@[simp] lemma isCanonical_hashMerge (H : List Fr → Fr) (elements : List Element) :
    (hashMerge H elements).isCanonical = true :=
  Element.isCanonical_fromBase _

/-- `compute_merkle_root`: a set bit puts the running hash on the right of its sibling. -/
def computeMerkleRoot (H : List Fr → Fr) (leaf : Element) (siblings : List (Element × Bool)) :
    Element :=
  siblings.foldl
    (fun leaf entry =>
      match entry.2 with
      | false => hashMerge H [leaf, entry.1]
      | true => hashMerge H [entry.1, leaf])
    leaf

/-- The Merkle fold is the fold of the sparse Merkle tree. -/
theorem computeMerkleRoot_eq (H : List Fr → Fr) (leaf : Element)
    (siblings : List (Element × Bool)) :
    computeMerkleRoot H leaf siblings =
      SparseMerkle.foldPath (fun a b => hashMerge H [a, b]) leaf siblings := by
  induction siblings generalizing leaf with
  | nil => rfl
  | cons entry siblings ih =>
    obtain ⟨sibling, bit⟩ := entry
    cases bit <;> exact ih _

/-- `empty_tree_hash` of `smirk`: the hash of an empty tree of the given depth. There is no
tree of depth zero; the source asserts so. -/
def emptyTreeHash (H : List Fr → Fr) : ℕ → Element
  | 0 => Element.NULL_HASH
  | 1 => Element.NULL_HASH
  | n + 2 => hashMerge H [emptyTreeHash H (n + 1), emptyTreeHash H (n + 1)]

end TempoRollup
