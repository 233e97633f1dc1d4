import TempoRollup.Node.Binding

set_option relaxedAutoImplicit false
set_option autoImplicit false
set_option maxRecDepth 20000

/-!
# What the hash of a transaction identifies

`UTXOProof::hash` covers all 256 bits of the public fields of a transaction, while the proof is
checked for the fields reduced modulo the prime. This file compares the two on transactions that
`validate_txn` accepts.

## Main definitions

* `UtxoProof.message` — the bytes that are hashed.
* `UtxoProof.SameFields` — the same field elements, up to the order of the leaves.
* `Identified` — two transactions have the same hash exactly when they have the same fields.

## Main results

* `hash_eq_iff` — canonical transactions are identified by their hashes.
* `identified_iff` — what must be canonical beyond the checks of `validate_txn`.
* `not_identified_shifted` — one mint under two hashes.
-/

open Exec

namespace TempoRollup.Node

namespace UtxoProof

/-- The fields in the order in which they are hashed. -/
def hashed (self : UtxoProof) : List Element :=
  [self.recentRoot, self.mbHash, self.mbValue] ++ sortedLeaves self.inputLeaves ++
    sortedLeaves self.outputLeaves

/-- The bytes that are hashed. -/
def message (self : UtxoProof) : Bytes := self.hashed.flatMap fun e => beBytes 32 e.toNat

/-- The same two elements, in one order or the other. -/
def SamePair {α : Type} (a b : α × α) : Prop := a = b ∨ a = b.swap

/-- The public fields are the same field elements, up to the order of the two input leaves and of
the two output leaves. -/
structure SameFields (u v : UtxoProof) : Prop where
  recentRoot : u.recentRoot.toBase = v.recentRoot.toBase
  mbHash : u.mbHash.toBase = v.mbHash.toBase
  mbValue : u.mbValue.toBase = v.mbValue.toBase
  inputLeaves : SamePair (u.inputLeaves.map Element.toBase Element.toBase)
    (v.inputLeaves.map Element.toBase Element.toBase)
  outputLeaves : SamePair (u.outputLeaves.map Element.toBase Element.toBase)
    (v.outputLeaves.map Element.toBase Element.toBase)

/-- Every public field is the canonical representative of its field element. -/
def Canonical (self : UtxoProof) : Prop := ∀ e ∈ self.instances, e.isCanonical = true

/-- The fields that `validate_txn` does not compare with the prime. -/
def unchecked (self : UtxoProof) : List Element := [self.recentRoot, self.mbHash, self.mbValue]

/-! ## The bytes -/

/-- Two pairs have the same sorted list exactly when they have the same elements. -/
lemma sortedLeaves_eq_iff (a b : Element × Element) :
    sortedLeaves a = sortedLeaves b ↔ SamePair a b := by
  obtain ⟨a1, a2⟩ := a
  obtain ⟨b1, b2⟩ := b
  simp only [sortedLeaves, SamePair, Prod.swap, Prod.mk.injEq]
  constructor
  · intro h
    split_ifs at h with ha hb hb
    · simp only [List.cons.injEq, and_true] at h
      exact .inl h
    · simp only [List.cons.injEq, and_true] at h
      exact .inr h
    · simp only [List.cons.injEq, and_true] at h
      exact .inr ⟨h.2, h.1⟩
    · simp only [List.cons.injEq, and_true] at h
      exact .inl ⟨h.2, h.1⟩
  · rintro (⟨rfl, rfl⟩ | ⟨rfl, rfl⟩)
    · rfl
    · split_ifs with h h' h'
      · rw [BitVec.le_antisymm h h']
      · rfl
      · rfl
      · exact absurd (BitVec.le_total a1 a2) (not_or.2 ⟨h, h'⟩)

/-- Sorting keeps both leaves. -/
lemma length_sortedLeaves (leaves : Element × Element) : (sortedLeaves leaves).length = 2 := by
  unfold sortedLeaves
  split_ifs
  · rfl
  · rfl

/-- The message determines the fields that are hashed. -/
lemma message_eq_iff (u v : UtxoProof) : u.message = v.message ↔ u.hashed = v.hashed := by
  constructor
  · intro h
    have hinj : Function.Injective fun e : Element => beBytes 32 e.toNat :=
      fun _ _ heq => @beBytes_toNat_inj 32 _ _ heq
    refine flatMap_inj_of_length hinj (fun e => length_beBytes 32 e.toNat) ?_ h
    simp only [hashed, List.length_append, length_sortedLeaves]
    rfl
  · intro h
    rw [message, message, h]

/-- The hashed bytes tell the fields, and the leaves up to their order. -/
lemma hashed_eq_iff (u v : UtxoProof) :
    u.hashed = v.hashed ↔ u.recentRoot = v.recentRoot ∧ u.mbHash = v.mbHash ∧
      u.mbValue = v.mbValue ∧ SamePair u.inputLeaves v.inputLeaves ∧
      SamePair u.outputLeaves v.outputLeaves := by
  simp only [hashed, List.cons_append, List.nil_append, List.cons.injEq]
  rw [← sortedLeaves_eq_iff, ← sortedLeaves_eq_iff]
  refine and_congr_right fun _ => and_congr_right fun _ => and_congr_right fun _ => ?_
  constructor
  · intro h
    exact List.append_inj h (by rw [length_sortedLeaves, length_sortedLeaves])
  · rintro ⟨hin, hout⟩
    rw [hin, hout]

/-! ## Canonical fields -/

/-- Canonical leaves are the same exactly when their field elements are. -/
lemma samePair_toBase_iff {a b : Element × Element} (ha : a.1.isCanonical = true)
    (ha' : a.2.isCanonical = true) (hb : b.1.isCanonical = true) (hb' : b.2.isCanonical = true) :
    SamePair (a.map Element.toBase Element.toBase) (b.map Element.toBase Element.toBase) ↔
      SamePair a b := by
  obtain ⟨a1, a2⟩ := a
  obtain ⟨b1, b2⟩ := b
  have hbase : ∀ {e f : Element}, e.isCanonical = true → f.isCanonical = true →
      (e.toBase = f.toBase ↔ e = f) :=
    fun he hf => ⟨Element.toBase_injOn he hf, fun h => by rw [h]⟩
  simp only [SamePair, Prod.map, Prod.swap, Prod.mk.injEq, hbase ha hb, hbase ha' hb',
    hbase ha hb', hbase ha' hb]

/-- **Canonical transactions are identified by what is hashed.** -/
lemma sameFields_iff {u v : UtxoProof} (hu : u.Canonical) (hv : v.Canonical) :
    u.SameFields v ↔ u.hashed = v.hashed := by
  simp only [Canonical, instances, leaves, List.cons_append, List.nil_append,
    List.forall_mem_cons] at hu hv
  obtain ⟨hu1, hu2, hu3, hu4, hu5, hu6, hu7, -⟩ := hu
  obtain ⟨hv1, hv2, hv3, hv4, hv5, hv6, hv7, -⟩ := hv
  rw [hashed_eq_iff]
  constructor
  · intro h
    exact ⟨Element.toBase_injOn hu1 hv1 h.recentRoot, Element.toBase_injOn hu2 hv2 h.mbHash,
      Element.toBase_injOn hu3 hv3 h.mbValue,
      (samePair_toBase_iff hu4 hu5 hv4 hv5).1 h.inputLeaves,
      (samePair_toBase_iff hu6 hu7 hv6 hv7).1 h.outputLeaves⟩
  · rintro ⟨hroot, hhash, hvalue, hin, hout⟩
    refine ⟨by rw [hroot], by rw [hhash], by rw [hvalue], ?_, ?_⟩
    · exact (samePair_toBase_iff hu4 hu5 hv4 hv5).2 hin
    · exact (samePair_toBase_iff hu6 hu7 hv6 hv7).2 hout

/-- **Canonical transactions are identified by their hashes**, when their messages do not
collide. -/
theorem hash_eq_iff {P : Primitives} {u v : UtxoProof} (hu : u.Canonical) (hv : v.Canonical)
    (hkeccak : Set.InjOn P.keccak256 {u.message, v.message}) :
    u.SameFields v ↔ u.hash P = v.hash P := by
  rw [sameFields_iff hu hv, ← message_eq_iff]
  constructor
  · intro h
    exact congrArg P.keccak256 h
  · intro h
    exact hkeccak (.inl rfl) (.inr rfl) h

end UtxoProof

/-! ## Transactions that are accepted -/

/-- Two transactions are identified: the same fields give the same hash and the other way round, and
every public field is canonical. -/
def Identified (P : Primitives) (u v : UtxoProof) : Prop :=
  (u.SameFields v ↔ u.hash P = v.hash P) ∧ u.Canonical ∧ v.Canonical

section Accepted

variable {P : Primitives} {storeReads : Bool} {mode : Mode} {height : BlockHeight}
  {blockStore : BlockStore} {notesTree : PersistentMerkleTree}

/-- An accepted transaction has canonical leaves. -/
lemma canonical_iff_of_validateTxn {u : UtxoProof}
    (hu : validateTxn P storeReads mode u height blockStore notesTree = .ok ()) :
    u.Canonical ↔ ∀ e ∈ u.unchecked, e.isCanonical = true := by
  obtain ⟨⟨-, hleaves, -⟩, -⟩ := validateTxn_eq_ok_iff.1 hu
  have hcanonical : ∀ e ∈ u.leaves, e.isCanonical = true :=
    fun e he => (Element.isCanonical_iff e).2 (hleaves e he)
  unfold UtxoProof.Canonical UtxoProof.instances UtxoProof.unchecked
  rw [List.forall_mem_append]
  exact and_iff_left hcanonical

/-- **What identifies accepted transactions.** Two transactions that `validate_txn` accepts on the
same state, with messages that do not collide, are identified exactly when the fields that it does
not compare with the prime are canonical. -/
theorem identified_iff {u v : UtxoProof}
    (hu : validateTxn P storeReads mode u height blockStore notesTree = .ok ())
    (hv : validateTxn P storeReads mode v height blockStore notesTree = .ok ())
    (hkeccak : Set.InjOn P.keccak256 {u.message, v.message}) :
    Identified P u v ↔
      (∀ e ∈ u.unchecked, e.isCanonical = true) ∧ ∀ e ∈ v.unchecked, e.isCanonical = true := by
  rw [← canonical_iff_of_validateTxn hu, ← canonical_iff_of_validateTxn hv]
  constructor
  · intro h
    exact h.2
  · rintro ⟨hcu, hcv⟩
    exact ⟨UtxoProof.hash_eq_iff hcu hcv hkeccak, hcu, hcv⟩

end Accepted

/-! ### One mint under two hashes -/

namespace Shifted

/-- A hash function that is easy to compute. -/
def sumHash (l : List Fr) : Fr := l.sum

/-- The mint of a note of value 10. -/
def mint : UtxoProof := mintProof sumHash (⟨2, 0, 10, 0⟩, ⟨2, 0, 0, 0⟩)

/-- The mint of another note. -/
def other : UtxoProof := mintProof sumHash (⟨2, 1, 10, 0⟩, ⟨2, 0, 0, 0⟩)

/-- The first mint, with the prime added to its value. -/
def shifted : UtxoProof := { mint with mbValue := mint.mbValue + BitVec.ofNat 256 Element.MODULUS }

/-- The verifier accepts the public inputs of the mints; a digest is the number that its message
writes in base 257. -/
def primitives : Primitives where
  poseidon := sumHash
  keccak256 bytes := BitVec.ofNat 256 (bytes.foldl (fun n b => 257 * n + b.toNat) 0)
  verifyProof _ instances :=
    some (decide (instances = mint.instances.map Element.toBase ∨
      instances = other.instances.map Element.toBase))
  fromCompact _ := true
  recoverEcdsa _ _ := some 0
  signEcdsa _ := .default

/-- The mint is valid. -/
lemma validate_mint :
    validateTxn primitives true .validator mint 0 .empty .new = .ok () := by decide

/-- The mint with the shifted value is valid, too. -/
lemma validate_shifted :
    validateTxn primitives true .validator shifted 0 .empty .new = .ok () := by decide

/-- The other mint is valid. -/
lemma validate_other :
    validateTxn primitives true .validator other 0 .empty .new = .ok () := by decide

/-- The hash of the other mint differs. -/
lemma hash_ne_other : mint.hash primitives ≠ other.hash primitives := by decide

/-- The hash of the shifted mint differs. -/
lemma hash_ne : mint.hash primitives ≠ shifted.hash primitives := by decide

end Shifted

/-- Two mints with canonical fields are identified. -/
theorem identified_iff_mint : Identified Shifted.primitives Shifted.mint Shifted.other := by
  refine (identified_iff Shifted.validate_mint Shifted.validate_other ?_).2 ⟨?_, ?_⟩
  · rw [Set.injOn_pair]
    intro h
    exact absurd h Shifted.hash_ne_other
  · simp only [UtxoProof.unchecked, List.forall_mem_cons]
    exact ⟨by decide, by decide, by decide, fun e he => absurd he List.not_mem_nil⟩
  · simp only [UtxoProof.unchecked, List.forall_mem_cons]
    exact ⟨by decide, by decide, by decide, fun e he => absurd he List.not_mem_nil⟩

/-- **A mint that is accepted under two hashes**: the prime is added to the value, which no check
refuses. -/
theorem not_identified_shifted :
    validateTxn Shifted.primitives true .validator Shifted.mint 0 .empty .new = .ok () ∧
      validateTxn Shifted.primitives true .validator Shifted.shifted 0 .empty .new = .ok () ∧
      Set.InjOn Shifted.primitives.keccak256 {Shifted.mint.message, Shifted.shifted.message} ∧
      Shifted.mint.SameFields Shifted.shifted ∧
      Shifted.mint.hash Shifted.primitives ≠ Shifted.shifted.hash Shifted.primitives ∧
      Shifted.shifted.mbValue.isCanonical = false ∧
      ¬ Identified Shifted.primitives Shifted.mint Shifted.shifted := by
  have hsame : Shifted.mint.SameFields Shifted.shifted :=
    ⟨rfl, rfl, by decide, .inl rfl, .inl rfl⟩
  refine ⟨Shifted.validate_mint, Shifted.validate_shifted, ?_, hsame, Shifted.hash_ne, by decide,
    fun h => Shifted.hash_ne (h.1.1 hsame)⟩
  rw [Set.injOn_pair]
  intro h
  exact absurd h Shifted.hash_ne

end TempoRollup.Node
