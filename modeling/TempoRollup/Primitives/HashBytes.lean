import TempoRollup.Element
import TempoRollup.Lib.Codec
import TempoRollup.Lib.HashChain

set_option relaxedAutoImplicit false
set_option autoImplicit false

/-!
# Hashing bytes

`hash_bytes` of `zk-primitives/src/hash.rs`: a byte string is cut into chunks of 16 bytes, the
last one is padded with zeros, and `hash_merge` folds the chunks into the initialization vector.

## Main definitions

* `bytesToElement`, `hashBytes` — the functions of the source.
* `mergedPairs` — what `hash_merge` is applied to for a byte string.
* `Resistant` — what is assumed of `hash_merge`.

## Main results

* `hashBytes_eq_iff` — two byte strings have the same hash exactly if they are the same after they
  are padded with zeros to a multiple of 16 bytes.
* `isCanonical_of_mem_mergedPairs` — only canonical elements are merged.
* `hashBytes_not_injective` — the length of a string does not enter its hash.
-/

open HashChain

namespace TempoRollup

/-! ## The functions -/

/-- `Element::BYTE_HASH_IV`. -/
def Element.BYTE_HASH_IV : Element := 2

/-- `bytes_to_element`, of at most 16 bytes: the lower bytes are padded with zeros. -/
def bytesToElement (bytes : List UInt8) : Element :=
  BitVec.ofNat 256 (Codec.ofBE (bytes.rightpad 16 0))

/-- `hash_bytes`. -/
def hashBytes (H : List Fr → Fr) (bytes : List UInt8) : Element :=
  let initial := Element.BYTE_HASH_IV
  let elementsFromBytes := (chunks 16 bytes).map bytesToElement
  elementsFromBytes.foldl (fun left right => hashMerge H [left, right]) initial

/-! ## What is merged -/

/-- The pairs that are merged for a byte string. -/
def mergedPairs (H : List Fr → Fr) (bytes : List UInt8) : List (Element × Element) :=
  steps (fun left right => hashMerge H [left, right]) Element.BYTE_HASH_IV
    ((chunks 16 bytes).map bytesToElement)

/-- **What is assumed of `hash_merge`** on the pairs that are merged: it is injective on them, and
its values are longer than the 16 bytes of an input. -/
structure Resistant (H : List Fr → Fr) (merged : Set (Element × Element)) : Prop where
  injOn : merged.InjOn fun pair => hashMerge H [pair.1, pair.2]
  long : ∀ pair ∈ merged, 2 ^ 128 ≤ (hashMerge H [pair.1, pair.2]).toNat

variable {H : List Fr → Fr}

/-- A chunk is a number of 128 bits. -/
lemma toNat_bytesToElement {bytes : List UInt8} (hlen : bytes.length ≤ 16) :
    (bytesToElement bytes).toNat = Codec.ofBE (bytes.rightpad 16 0) ∧
      (bytesToElement bytes).toNat < 2 ^ 128 := by
  have hlt := Codec.ofBE_lt (bytes.rightpad 16 0)
  rw [List.length_rightpad, Nat.max_eq_left hlen] at hlt
  have hmod : (bytesToElement bytes).toNat = Codec.ofBE (bytes.rightpad 16 0) := by
    rw [bytesToElement, BitVec.toNat_ofNat]
    exact Nat.mod_eq_of_lt (by omega)
  exact ⟨hmod, by omega⟩

/-- A chunk has 16 bytes at most. -/
lemma length_le_of_mem_chunks {bytes chunk : List UInt8} (h : chunk ∈ chunks 16 bytes) :
    chunk.length ≤ 16 := by
  obtain ⟨i, -, rfl⟩ := List.mem_map.1 h
  exact List.length_take_le _ _

/-- Two chunks are the same element exactly if they are the same after the padding. -/
lemma bytesToElement_eq_iff {as bs : List UInt8} (ha : as.length ≤ 16) (hb : bs.length ≤ 16) :
    bytesToElement as = bytesToElement bs ↔ as.rightpad 16 0 = bs.rightpad 16 0 := by
  constructor
  · intro h
    have hnat := congrArg BitVec.toNat h
    rw [(toNat_bytesToElement ha).1, (toNat_bytesToElement hb).1] at hnat
    apply Codec.ofBE_injective _ hnat
    rw [List.length_rightpad, List.length_rightpad, Nat.max_eq_left ha, Nat.max_eq_left hb]
  · intro h
    rw [bytesToElement, h, bytesToElement]

/-- A relation between the members of two lists lifts to their images. -/
lemma map_eq_map_iff {α β γ : Type} {f : α → β} {g : α → γ} {as bs : List α}
    (h : ∀ a ∈ as, ∀ b ∈ bs, f a = f b ↔ g a = g b) :
    as.map f = bs.map f ↔ as.map g = bs.map g := by
  induction as generalizing bs with
  | nil => simp [eq_comm]
  | cons a as ih =>
    cases bs with
    | nil => simp
    | cons b bs =>
      have hrest : as.map f = bs.map f ↔ as.map g = bs.map g := ih fun x hx y hy =>
        h x (List.mem_cons_of_mem _ hx) y (List.mem_cons_of_mem _ hy)
      simp only [List.map_cons, List.cons.injEq]
      rw [h a List.mem_cons_self b List.mem_cons_self, hrest]

/-- Two byte strings have the same elements exactly if they are the same after the padding. -/
lemma map_bytesToElement_eq_iff (as bs : List UInt8) :
    (chunks 16 as).map bytesToElement = (chunks 16 bs).map bytesToElement ↔
      padded 16 0 as = padded 16 0 bs := by
  rw [← map_rightpad_chunks_inj (by omega)]
  apply map_eq_map_iff
  intro a ha b hb
  exact bytesToElement_eq_iff (length_le_of_mem_chunks ha) (length_le_of_mem_chunks hb)

/-- Only canonical elements are merged: the initialization vector, digests and chunks. -/
theorem isCanonical_of_mem_mergedPairs {bytes : List UInt8} :
    ∀ pair ∈ mergedPairs H bytes,
      pair.1.isCanonical = true ∧ pair.2.isCanonical = true := by
  have hM := Element.lt_MODULUS
  have hchunks : ∀ e ∈ (chunks 16 bytes).map bytesToElement, e.isCanonical = true := by
    intro e he
    obtain ⟨chunk, hchunk, rfl⟩ := List.mem_map.1 he
    have hlt := (toNat_bytesToElement (length_le_of_mem_chunks hchunk)).2
    rw [Element.isCanonical_iff]
    omega
  have hiv : Element.BYTE_HASH_IV.isCanonical = true := by
    rw [Element.isCanonical_iff]
    decide
  rw [mergedPairs]
  generalize (chunks 16 bytes).map bytesToElement = elements at hchunks ⊢
  generalize Element.BYTE_HASH_IV = digest at hiv ⊢
  induction elements generalizing digest with
  | nil => simp [steps]
  | cons e elements ih =>
    rw [List.forall_mem_cons] at hchunks
    rw [steps, List.forall_mem_cons]
    exact ⟨⟨hiv, hchunks.1⟩, ih hchunks.2 _ (isCanonical_hashMerge H _)⟩

/-! ## The hash of a byte string -/

/-- **What a hash says of a byte string**: it is the string after the padding with zeros to a
multiple of 16 bytes.

**Proof sketch.** A chain of injective steps that never leads back to its start tells the blocks it
absorbed (`foldl_eq_iff`), and the blocks are the chunks with zeros at the end of the last one. -/
theorem hashBytes_eq_iff {merged : Set (Element × Element)} (h : Resistant H merged)
    {as bs : List UInt8} (ha : ∀ pair ∈ mergedPairs H as, pair ∈ merged)
    (hb : ∀ pair ∈ mergedPairs H bs, pair ∈ merged) :
    hashBytes H as = hashBytes H bs ↔ padded 16 0 as = padded 16 0 bs := by
  have hiv : ∀ pair ∈ merged, hashMerge H [pair.1, pair.2] ≠ Element.BYTE_HASH_IV := by
    intro pair hpair heq
    have hlong := h.long pair hpair
    rw [heq] at hlong
    exact absurd hlong (by decide)
  rw [hashBytes, hashBytes, foldl_eq_iff h.injOn hiv ha hb]
  exact map_bytesToElement_eq_iff as bs

/-! ### Strings of three chunks -/

/-- A hash with long values that tells the two sides of a pair apart. -/
def chainHash (l : List Fr) : Fr := 2 ^ 200 + 3 * l.getD 0 0 + l.getD 1 0

/-- The bytes from 1 to 40, and the same with another byte in the second chunk. -/
def countUp : List UInt8 := (List.range 40).map fun i => UInt8.ofNat (i + 1)

/-- The same bytes, with another one in the second chunk. -/
def countUpWith (byte : UInt8) : List UInt8 := countUp.set 20 byte

/-- What is merged for the two strings; the first chunk is the same. -/
def countUpPairs : List (Element × Element) :=
  mergedPairs chainHash countUp ++ (mergedPairs chainHash (countUpWith 0)).tail

/-- The strings of the sample start with the same pair, and merge three. -/
lemma head_mergedPairs_countUp : (mergedPairs chainHash (countUpWith 0)).head? =
    (mergedPairs chainHash countUp).head? ∧ (mergedPairs chainHash countUp).length = 3 := by
  decide +kernel

/-- The hash is resistant on them. -/
lemma resistant_chainHash : Resistant chainHash {pair | pair ∈ countUpPairs} := by
  have hpairwise : countUpPairs.Pairwise fun q q' =>
      hashMerge chainHash [q.1, q.2] ≠ hashMerge chainHash [q'.1, q'.2] := by
    decide +kernel
  have : Std.Symm fun q q' : Element × Element =>
      hashMerge chainHash [q.1, q.2] ≠ hashMerge chainHash [q'.1, q'.2] := ⟨fun _ _ => Ne.symm⟩
  have hlong : (countUpPairs.all fun pair =>
      2 ^ 128 ≤ (hashMerge chainHash [pair.1, pair.2]).toNat) = true := by
    decide +kernel
  refine ⟨fun q hq q' hq' heq => ?_, fun pair hpair => ?_⟩
  · by_contra hne
    exact hpairwise.forall hq hq' hne heq
  · exact of_decide_eq_true (List.all_eq_true.1 hlong pair hpair)

/-- Strings of three chunks: two that differ in a byte of the second chunk have different hashes;
one that is the same but for two zeros at its end has the same hash. -/
theorem hashBytes_countUp :
    hashBytes chainHash countUp ≠ hashBytes chainHash (countUpWith 0) ∧
      hashBytes chainHash countUp = hashBytes chainHash (countUp ++ [0, 0]) := by
  have hfirst : ∀ pair ∈ mergedPairs chainHash countUp, pair ∈ {pair | pair ∈ countUpPairs} :=
    fun pair hpair => List.mem_append_left _ hpair
  have hsecond : ∀ pair ∈ mergedPairs chainHash (countUpWith 0),
      pair ∈ {pair | pair ∈ countUpPairs} := by
    obtain ⟨hhead, -⟩ := head_mergedPairs_countUp
    intro pair hpair
    rcases hother : mergedPairs chainHash (countUpWith 0) with _ | ⟨first, rest⟩
    · rw [hother] at hpair
      cases hpair
    · rw [hother] at hpair hhead
      rcases List.mem_cons.1 hpair with rfl | hrest
      · exact hfirst _ (List.mem_of_head? hhead.symm)
      · refine List.mem_append_right _ ?_
        rw [hother]
        exact hrest
  have hpadded : mergedPairs chainHash (countUp ++ [0, 0]) = mergedPairs chainHash countUp := by
    decide +kernel
  constructor
  · intro heq
    have h := (hashBytes_eq_iff resistant_chainHash hfirst hsecond).1 heq
    revert h
    decide +kernel
  · exact (hashBytes_eq_iff resistant_chainHash hfirst (hpadded ▸ hfirst)).2 (by decide +kernel)

/-! ### Zero bytes -/

/-- The hash of the pair of the initialization vector and zero, which the snapshot of the tests
records for the strings of one and of 16 zero bytes. -/
def zeroDigest : ℕ := 0x102e556ec4988e1840bf21346caf51bd80edf235c54387f24e58e2f336f6e4a8

/-- A hash with that value is resistant on the pair. -/
lemma resistant_zeroDigest :
    Resistant (fun _ => (zeroDigest : Fr)) {(Element.BYTE_HASH_IV, 0)} := by
  refine ⟨Set.injOn_singleton _ _, ?_⟩
  rintro pair -
  rw [hashMerge, Element.toNat_fromBase, ZMod.val_natCast]
  decide

/-- One zero byte, like 16 of them, is one chunk. -/
lemma chunks_zeros :
    (chunks 16 ([0] : List UInt8)).map bytesToElement = [0] ∧
      (chunks 16 (List.replicate 16 (0 : UInt8))).map bytesToElement = [0] := by
  decide

/-- What is merged for them. -/
lemma mem_of_mem_mergedPairs_zeros {bytes : List UInt8}
    (h : (chunks 16 bytes).map bytesToElement = [0]) :
    ∀ pair ∈ mergedPairs H bytes,
      pair ∈ ({(Element.BYTE_HASH_IV, 0)} : Set (Element × Element)) := by
  intro pair hpair
  rw [mergedPairs, h] at hpair
  exact List.mem_singleton.1 hpair

/-- **The length does not enter the hash**: one zero byte and 16 zero bytes have the same hash. -/
theorem hashBytes_not_injective :
    ¬ ∀ (H : List Fr → Fr) (merged : Set (Element × Element)), Resistant H merged →
      ∀ as bs : List UInt8, (∀ pair ∈ mergedPairs H as, pair ∈ merged) →
        (∀ pair ∈ mergedPairs H bs, pair ∈ merged) → as ≠ bs →
          hashBytes H as ≠ hashBytes H bs := by
  intro h
  refine h _ _ resistant_zeroDigest [0] (List.replicate 16 0)
    (mem_of_mem_mergedPairs_zeros chunks_zeros.1) (mem_of_mem_mergedPairs_zeros chunks_zeros.2)
    (by decide) ?_
  rw [hashBytes, hashBytes, chunks_zeros.1, chunks_zeros.2]

end TempoRollup
