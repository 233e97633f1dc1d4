import TempoRollup.Node.Commit

set_option relaxedAutoImplicit false
set_option autoImplicit false
set_option maxRecDepth 20000

/-!
# What the hash of a block binds

The leader signs the hash of a block, and the validators approve it. The hash covers the header,
the height and the root of the notes tree; the transactions enter through the root only. This
file says what two valid blocks with the same hash have in common.

## Main definitions

* `BlockContent.headerMessage`, `BlockContent.message` — the bytes that are hashed.
* `BlockHeader.Fits` — the ranges of the fields of a header.
* `BlockContent.pairs` — the pairs of nodes that the dry run of a block hashes.

## Main results

* `headerMessage_inj` — the encoding of headers is injective.
* `perm_of_rootHash_eq` — the root binds the leaves that are inserted.
* `hash_binds` — the header and the leaves of a valid block are bound by its hash.
* `hash_swapped` — the list of transactions is not.
-/

open Exec

namespace TempoRollup.Node

/-! ## Bytes -/

/-- The first byte is the lowest one. -/
lemma leBytes_succ (count n : ℕ) :
    leBytes (count + 1) n = BitVec.ofNat 8 n :: leBytes count (n / 256) := by
  simp only [leBytes, List.range_succ_eq_map, List.map_cons, List.map_map, pow_zero, Nat.div_one]
  congr 1
  refine List.map_congr_left fun i _ => ?_
  simp only [Function.comp_apply, pow_succ', Nat.div_div_eq_div_mul]

/-- As many bytes in little endian order as are asked for. -/
lemma length_leBytes (count n : ℕ) : (leBytes count n).length = count := by simp [leBytes]

/-- As many bytes in big endian order as are asked for. -/
lemma length_beBytes (count n : ℕ) : (beBytes count n).length = count := by simp [beBytes]

/-- Numbers of the given size are written differently. -/
lemma leBytes_inj {count n m : ℕ} (hn : n < 256 ^ count) (hm : m < 256 ^ count)
    (h : leBytes count n = leBytes count m) : n = m := by
  induction count generalizing n m with
  | zero =>
    rw [pow_zero] at hn hm
    omega
  | succ count ih =>
    rw [leBytes_succ, leBytes_succ, List.cons.injEq] at h
    obtain ⟨hbyte, hrest⟩ := h
    have hmod : n % 256 = m % 256 := by simpa using congrArg BitVec.toNat hbyte
    rw [pow_succ'] at hn hm
    have hdiv : n / 256 = m / 256 := ih (Nat.div_lt_of_lt_mul hn) (Nat.div_lt_of_lt_mul hm) hrest
    omega

/-- The most significant byte first is the other order. -/
lemma beBytes_eq_reverse (count n : ℕ) : beBytes count n = (leBytes count n).reverse := by
  apply List.ext_getElem
  · simp [beBytes, leBytes]
  · intro i hi hi'
    simp [beBytes, leBytes]

/-- Numbers in range are told apart by their bytes. -/
lemma beBytes_inj {count n m : ℕ} (hn : n < 256 ^ count) (hm : m < 256 ^ count)
    (h : beBytes count n = beBytes count m) : n = m := by
  rw [beBytes_eq_reverse, beBytes_eq_reverse, List.reverse_inj] at h
  exact leBytes_inj hn hm h

/-- Words of a number of bytes are written differently. -/
lemma beBytes_toNat_inj {count : ℕ} {x y : BitVec (8 * count)}
    (h : beBytes count x.toNat = beBytes count y.toNat) : x = y := by
  have hlt : ∀ z : BitVec (8 * count), z.toNat < 256 ^ count := by
    intro z
    have hz := z.isLt
    rwa [Nat.pow_mul] at hz
  exact BitVec.eq_of_toNat_eq (beBytes_inj (hlt x) (hlt y) h)

/-- A signature is its bytes. -/
lemma Signature.inner_inj {s s' : Signature} (h : s.inner = s'.inner) : s = s' := by
  obtain ⟨hcompact, hrecovery⟩ := List.append_inj h (by rw [length_beBytes, length_beBytes])
  have hword : s.compact = s'.compact := @beBytes_toNat_inj 64 s.compact s'.compact hcompact
  have hbyte : s.recovery = s'.recovery := by simpa using hrecovery
  obtain ⟨compact, recovery⟩ := s
  obtain ⟨compact', recovery'⟩ := s'
  rw [Signature.mk.injEq]
  exact ⟨hword, hbyte⟩

/-- A signature has 65 bytes. -/
lemma Signature.length_inner (s : Signature) : s.inner.length = 65 := by
  simp [Signature.inner, length_beBytes]

/-- Lists of one length are written differently, when their entries are, all with the same number of
bytes. By induction on the lists. -/
lemma flatMap_inj_of_length {α β : Type} {f : α → List β} {n : ℕ}
    (hinj : Function.Injective f) (hlength : ∀ a, (f a).length = n) {l l' : List α}
    (hlen : l.length = l'.length) (h : l.flatMap f = l'.flatMap f) : l = l' := by
  induction l generalizing l' with
  | nil =>
    symm at hlen
    rw [List.length_eq_zero_iff.1 hlen]
  | cons a l ih =>
    obtain ⟨a', l', rfl⟩ := List.exists_cons_of_length_eq_add_one hlen.symm
    rw [List.flatMap_cons, List.flatMap_cons] at h
    obtain ⟨hhead, htail⟩ := List.append_inj h (by rw [hlength, hlength])
    rw [hinj hhead, ih (by simpa using hlen) htail]

/-- As many signatures are written differently. -/
lemma flatMap_inner_inj {l l' : List Signature} (hlen : l.length = l'.length)
    (h : l.flatMap Signature.inner = l'.flatMap Signature.inner) : l = l' :=
  flatMap_inj_of_length (fun _ _ => Signature.inner_inj) Signature.length_inner hlen h

/-! ## The messages of a block -/

/-- The ranges of the fields of a header: heights and epochs are `u64`, and the length of a list is
written as a `u32`. -/
structure BlockHeader.Fits (header : BlockHeader) : Prop where
  height : header.height < U64
  epochId : header.epochId < U64
  approvals : header.approvals.length < 2 ^ 32

namespace BlockContent

/-- The borsh encoding of the header. -/
def headerMessage (self : BlockContent) : Bytes :=
  leBytes 8 self.header.height ++ beBytes 32 self.header.lastBlockHash.toNat ++
    leBytes 8 self.header.epochId ++ beBytes 32 self.header.lastFinalBlockHash.toNat ++
    leBytes 4 self.header.approvals.length ++ self.header.approvals.flatMap Signature.inner

/-- The bytes behind the hash of a block. -/
def message (P : Primitives) (self : BlockContent) : Bytes :=
  beBytes 32 self.state.rootHash.toNat ++ beBytes 32 self.header.height ++
    beBytes 32 (self.headerHash P).toNat

/-- The messages that are hashed for a block. -/
def messages (P : Primitives) (self : BlockContent) : Set Bytes :=
  {self.headerMessage, self.message P}

end BlockContent

/-- **The encoding of headers is injective.** -/
theorem headerMessage_inj {c c' : BlockContent} (hfit : c.header.Fits) (hfit' : c'.header.Fits)
    (h : c.headerMessage = c'.headerMessage) : c.header = c'.header := by
  simp only [BlockContent.headerMessage, List.append_assoc] at h
  obtain ⟨hheight, h⟩ := List.append_inj h (by rw [length_leBytes, length_leBytes])
  obtain ⟨hlast, h⟩ := List.append_inj h (by rw [length_beBytes, length_beBytes])
  obtain ⟨hepoch, h⟩ := List.append_inj h (by rw [length_leBytes, length_leBytes])
  obtain ⟨hfinal, h⟩ := List.append_inj h (by rw [length_beBytes, length_beBytes])
  obtain ⟨hcount, happrovals⟩ := List.append_inj h (by rw [length_leBytes, length_leBytes])
  have hu64 : U64 = 256 ^ 8 := by decide
  have hu32 : 2 ^ 32 = 256 ^ 4 := by decide
  have h1 := leBytes_inj (hu64 ▸ hfit.height) (hu64 ▸ hfit'.height) hheight
  have h2 := @beBytes_toNat_inj 32 _ _ hlast
  have h3 := leBytes_inj (hu64 ▸ hfit.epochId) (hu64 ▸ hfit'.epochId) hepoch
  have h4 := @beBytes_toNat_inj 32 _ _ hfinal
  have h5 := flatMap_inner_inj
    (leBytes_inj (hu32 ▸ hfit.approvals) (hu32 ▸ hfit'.approvals) hcount) happrovals
  obtain ⟨⟨height, lastBlockHash, epochId, lastFinalBlockHash, approvals⟩, state⟩ := c
  obtain ⟨⟨height', lastBlockHash', epochId', lastFinalBlockHash', approvals'⟩, state'⟩ := c'
  simp only [BlockHeader.mk.injEq]
  exact ⟨h1, h2, h3, h4, h5⟩

/-- The header and the root are bound by the hash, when the messages do not collide. -/
lemma header_eq_of_hash_eq {P : Primitives} {c c' : BlockContent} (hfit : c.header.Fits)
    (hfit' : c'.header.Fits)
    (hkeccak : Set.InjOn P.keccak256 (c.messages P ∪ c'.messages P))
    (h : c.hash P = c'.hash P) :
    c.header = c'.header ∧ c.state.rootHash = c'.state.rootHash := by
  have hmessage : c.message P = c'.message P := hkeccak (.inl (.inr rfl)) (.inr (.inr rfl)) h
  simp only [BlockContent.message, List.append_assoc] at hmessage
  obtain ⟨hroot, hrest⟩ := List.append_inj hmessage (by rw [length_beBytes, length_beBytes])
  obtain ⟨-, hheader⟩ := List.append_inj hrest (by rw [length_beBytes, length_beBytes])
  have hdigest : c.headerHash P = c'.headerHash P :=
    @beBytes_toNat_inj 32 _ _ hheader
  have hheaders : c.headerMessage = c'.headerMessage :=
    hkeccak (.inl (.inl rfl)) (.inr (.inl rfl)) hdigest
  exact ⟨headerMessage_inj hfit hfit' hheaders, @beBytes_toNat_inj 32 _ _ hroot⟩

/-! ## The root binds the leaves -/

/-- The pairs of nodes hashed in the tree with the leaves of a block. -/
def BlockContent.pairs (P : Primitives) (notesTree : PersistentMerkleTree) (self : BlockContent) :
    Set (Element × Element) :=
  SparseMerkle.nodePairs (Smirk.merge P.poseidon)
    (Smirk.occupant (MERKLE_TREE_DEPTH - 1)
      (notesTree.tree.entries.keys ++ self.state.leavesNonNull)) (MERKLE_TREE_DEPTH - 1)

section Leaves

variable {P : Primitives} {storeReads : Bool} {mode : Mode} {blockStore : BlockStore}
  {notesTree : PersistentMerkleTree}

/-- The root of new leaves is that of the reference tree with them. -/
lemma newRootHash_eq_root (hinv : notesTree.Inv P.poseidon) {leaves : List Element}
    (hfresh : notesTree.tree.Fresh leaves) :
    newRootHash P notesTree leaves =
      .ok (SparseMerkle.root (Smirk.merge P.poseidon)
        (Smirk.occupant (MERKLE_TREE_DEPTH - 1) (notesTree.tree.entries.keys ++ leaves))
        (MERKLE_TREE_DEPTH - 1)) := by
  unfold newRootHash
  split_ifs with hempty
  · rw [List.isEmpty_iff.1 hempty, List.append_nil, hinv.tree.rootHash_eq]
  · rw [Smirk.Tree.rootHashWith_spec MERKLE_TREE_DEPTH_le hinv.tree hfresh
      (fun e => List.mem_append)]
    rfl

/-- A new leaf is the occupant of its slot. -/
lemma occupant_of_fresh (hinv : notesTree.Inv P.poseidon) {leaves : List Element}
    (hfresh : notesTree.tree.Fresh leaves) {leaf : Element} (hleaf : leaf ∈ leaves) :
    Smirk.occupant (MERKLE_TREE_DEPTH - 1) (notesTree.tree.entries.keys ++ leaves)
      (leaf.slot (MERKLE_TREE_DEPTH - 1)) = leaf :=
  Smirk.occupant_of_mem (hfresh.slotDistinct hinv.tree fun _ => List.mem_append)
    (List.mem_append_right _ hleaf)

/-- New leaves that give the same reference tree are the same. -/
lemma mem_of_occupant_eq (hinv : notesTree.Inv P.poseidon) {leaves leaves' : List Element}
    (hfresh : notesTree.tree.Fresh leaves)
    (hsame : ∀ i < 2 ^ (MERKLE_TREE_DEPTH - 1),
      Smirk.occupant (MERKLE_TREE_DEPTH - 1) (notesTree.tree.entries.keys ++ leaves) i =
        Smirk.occupant (MERKLE_TREE_DEPTH - 1) (notesTree.tree.entries.keys ++ leaves') i)
    {leaf : Element} (hleaf : leaf ∈ leaves) : leaf ∈ leaves' := by
  have hslot := hsame _ (leaf.slot_lt (MERKLE_TREE_DEPTH - 1))
  rw [occupant_of_fresh hinv hfresh hleaf] at hslot
  rcases Smirk.occupant_cases (MERKLE_TREE_DEPTH - 1) (notesTree.tree.entries.keys ++ leaves')
    (leaf.slot (MERKLE_TREE_DEPTH - 1)) with ⟨hmem, -⟩ | ⟨hnull, -⟩
  · rw [← hslot, List.mem_append] at hmem
    refine hmem.resolve_left fun hkey => ?_
    exact hfresh.free leaf hkey leaf hleaf rfl
  · exact absurd (hslot.trans hnull) (hfresh.ne_null leaf hleaf)

/-- **The root binds the leaves**: valid blocks with the same root have the same leaves, in some
order, when none of them shares its low bits with an element of the tree and no hashed pairs
collide. -/
theorem perm_of_rootHash_eq (hinv : notesTree.Inv P.poseidon) {c c' : BlockContent}
    (hok : c.validate P storeReads mode blockStore notesTree = .ok ())
    (hok' : c'.validate P storeReads mode blockStore notesTree = .ok ())
    (hmerge : Set.InjOn (Function.uncurry (Smirk.merge P.poseidon))
      (c.pairs P notesTree ∪ c'.pairs P notesTree))
    (hfree : Uncontested notesTree c.state.leavesNonNull)
    (hfree' : Uncontested notesTree c'.state.leavesNonNull)
    (hroot : c.state.rootHash = c'.state.rootHash) :
    c.state.leavesNonNull.Perm c'.state.leavesNonNull := by
  have hfresh := fresh_of_validate hinv hok hfree
  have hfresh' := fresh_of_validate hinv hok' hfree'
  obtain ⟨-, hnodup, hnew⟩ := validate_eq_ok_iff.1 hok
  obtain ⟨-, hnodup', hnew'⟩ := validate_eq_ok_iff.1 hok'
  rw [newRootHash_eq_root hinv hfresh] at hnew
  rw [newRootHash_eq_root hinv hfresh', ← hroot] at hnew'
  have hsame := SparseMerkle.eq_of_root_eq hmerge Set.subset_union_left Set.subset_union_right
    (Outcome.ok.inj (hnew.trans hnew'.symm))
  rw [List.perm_ext_iff_of_nodup hnodup hnodup']
  intro leaf
  constructor
  · exact mem_of_occupant_eq hinv hfresh hsame
  · exact mem_of_occupant_eq hinv hfresh' fun i hi => (hsame i hi).symm

/-- **What the hash of a block binds.** Two blocks that pass validation on the same tree and block
store and have the same hash, while no messages and no pairs of nodes collide, have the same
header and the same root, and, as long as no leaf shares its low bits with an element of the tree,
the same non-zero leaves in some order.

**Proof sketch.** Equal digests are of equal messages, so that the headers and the roots are the
same (`header_eq_of_hash_eq`). Equal roots are of trees with the same keys, and the leaves are the
new ones among these. -/
theorem hash_binds (hinv : notesTree.Inv P.poseidon) {c c' : BlockContent}
    (hfit : c.header.Fits) (hfit' : c'.header.Fits)
    (hok : c.validate P storeReads mode blockStore notesTree = .ok ())
    (hok' : c'.validate P storeReads mode blockStore notesTree = .ok ())
    (hkeccak : Set.InjOn P.keccak256 (c.messages P ∪ c'.messages P))
    (hmerge : Set.InjOn (Function.uncurry (Smirk.merge P.poseidon))
      (c.pairs P notesTree ∪ c'.pairs P notesTree))
    (hhash : c.hash P = c'.hash P) :
    c.header = c'.header ∧ c.state.rootHash = c'.state.rootHash ∧
      (Uncontested notesTree c.state.leavesNonNull →
        Uncontested notesTree c'.state.leavesNonNull →
        c.state.leavesNonNull.Perm c'.state.leavesNonNull) := by
  obtain ⟨hheader, hroot⟩ := header_eq_of_hash_eq hfit hfit' hkeccak hhash
  exact ⟨hheader, hroot, fun hfree hfree' =>
    perm_of_rootHash_eq hinv hok hok' hmerge hfree hfree' hroot⟩

end Leaves

/-! ### Two mints in one transaction or in two -/

namespace Regrouped

/-- A hash function that is easy to compute. -/
def sumHash (l : List Fr) : Fr := l.sum + 1

/-- A note with commitment `2 ^ 200`. -/
def firstNote : Circuits.Note := ⟨0, 2 ^ 200 - 13, 10, 0⟩

/-- A note with commitment `2 ^ 201 + 1`. -/
def secondNote : Circuits.Note := ⟨0, 2 ^ 201 - 12, 10, 0⟩

/-- The mint of the first note. -/
def firstTxn : UtxoProof := mintProof sumHash (firstNote, ⟨0, 0, 0, 0⟩)

/-- The mint of the second note. -/
def secondTxn : UtxoProof := mintProof sumHash (secondNote, ⟨0, 0, 0, 0⟩)

/-- The mint of both notes, the second one first. -/
def bothTxn : UtxoProof := mintProof sumHash (secondNote, firstNote)

/-- The verifier accepts the public inputs of the mints; a digest is the length of its message. -/
def primitives : Primitives where
  poseidon := sumHash
  keccak256 bytes := BitVec.ofNat 256 bytes.length
  verifyProof _ instances :=
    some (decide (instances = firstTxn.instances.map Element.toBase ∨
      instances = secondTxn.instances.map Element.toBase ∨
      instances = bothTxn.instances.map Element.toBase))
  fromCompact _ := true
  recoverEcdsa _ _ := some 0
  signEcdsa _ := .default

/-- The leaves of both notes. -/
def leaves : List Element := [2 ^ 200, 2 ^ 201 + 1]

/-- A block of height 1 on the empty tree. -/
def content (rootHash : Element) (txns : List UtxoProof) : BlockContent where
  header := { height := 1, lastBlockHash := 0, epochId := 0, lastFinalBlockHash := 0,
              approvals := [] }
  state := { rootHash := rootHash, txns := txns }

/-- The root of the tree with both notes. -/
def rootHash : Element :=
  SparseMerkle.root (Smirk.merge sumHash) (Smirk.occupant (MERKLE_TREE_DEPTH - 1) leaves)
    (MERKLE_TREE_DEPTH - 1)

/-- The block that mints the notes in two transactions. -/
def separate : BlockContent := content rootHash [firstTxn, secondTxn]

/-- The block that mints the notes in one transaction. -/
def together : BlockContent := content rootHash [bothTxn]

/-- The leaves of a block of the sample are those of its transactions. -/
lemma leavesNonNull_content (root : Element) (txns : List UtxoProof) :
    (content root txns).state.leavesNonNull = txns.flatMap UtxoProof.leavesNonNull := by
  simp only [BlockState.leavesNonNull, content, List.filter_flatMap]
  rfl

/-- The leaves of the two separate mints, in order. -/
lemma leavesNonNull_separate : separate.state.leavesNonNull = leaves := by
  rw [separate, leavesNonNull_content]
  decide

/-- The leaves of the regrouped mints, in the other order. -/
lemma leavesNonNull_together : together.state.leavesNonNull = leaves.reverse := by
  rw [together, leavesNonNull_content]
  decide

/-- The empty tree has the invariant. -/
lemma inv_new : (Smirk.Persistent.new : PersistentMerkleTree).Inv primitives.poseidon :=
  Smirk.Persistent.inv_new MERKLE_TREE_DEPTH_pos

/-- The leaves differ. -/
lemma nodup_leaves : leaves.Nodup := by decide

/-- In any order, the leaves are fresh in the empty tree. -/
lemma fresh_of_perm {l : List Element} (h : l.Perm leaves) :
    (Smirk.Persistent.new : PersistentMerkleTree).tree.Fresh l := by
  have hdist : leaves.Pairwise fun a b : Element =>
      a.slot (MERKLE_TREE_DEPTH - 1) ≠ b.slot (MERKLE_TREE_DEPTH - 1) := by
    decide
  have hnull : ∀ e ∈ leaves, e ≠ Element.NULL_HASH := by
    simp only [leaves, List.forall_mem_cons]
    exact ⟨by decide, by decide, fun _ h => absurd h List.not_mem_nil⟩
  refine ⟨fun e he => hnull e (h.mem_iff.1 he), ?_, fun e he => absurd he List.not_mem_nil⟩
  exact h.symm.pairwise hdist fun hab => hab.symm

/-- A block with both leaves, in any order, and accepted transactions is valid. -/
lemma validate_content {txns : List UtxoProof}
    (hvalid : ∀ txn ∈ txns, validateTxn primitives true .validator txn 1 .empty .new = .ok ())
    (hperm : (txns.flatMap UtxoProof.leavesNonNull).Perm leaves) :
    (content rootHash txns).validate primitives true .validator .empty .new = .ok () := by
  have hfresh := fresh_of_perm hperm
  have hdist : Smirk.SlotDistinct (MERKLE_TREE_DEPTH - 1) leaves :=
    Smirk.Tree.slotDistinct_of_pairwise (fresh_of_perm (List.Perm.refl _)).distinct
  rw [validate_eq_ok_iff, leavesNonNull_content]
  refine ⟨hvalid, hperm.nodup_iff.2 nodup_leaves, ?_⟩
  have hkeys : (Smirk.Persistent.new : PersistentMerkleTree).tree.entries.keys = [] := rfl
  rw [newRootHash_eq_root inv_new hfresh, hkeys, List.nil_append,
    Smirk.occupant_congr hdist fun e => hperm.mem_iff]
  rfl

/-- Small numbers are added without a reduction. -/
lemma merge_ofNat {x y : ℕ} (h : x + y + 1 < Element.MODULUS) :
    Smirk.merge sumHash (BitVec.ofNat 256 x) (BitVec.ofNat 256 y) =
      BitVec.ofNat 256 (x + y + 1) := by
  have hM := Element.MODULUS_lt
  have hfield : sumHash [Element.toBase (BitVec.ofNat 256 x), Element.toBase (BitVec.ofNat 256 y)] =
      ((x + y + 1 : ℕ) : Fr) := by
    rw [Element.toBase, Element.toBase, BitVec.toNat_ofNat, BitVec.toNat_ofNat,
      Nat.mod_eq_of_lt (by omega), Nat.mod_eq_of_lt (by omega)]
    simp [sumHash]
  rw [Smirk.merge, hashMerge, List.map_cons, List.map_cons, List.map_nil, hfield,
    Element.fromBase, ZMod.val_natCast, Nat.mod_eq_of_lt h]

/-- The tree with both notes. -/
def slots : ℕ → Element := Smirk.occupant (MERKLE_TREE_DEPTH - 1) leaves

/-- Slot 0 of the tree holds the first leaf. -/
lemma slots_zero : slots 0 = BitVec.ofNat 256 (2 ^ 200) := by decide

/-- Slot 1 of the tree holds the second leaf. -/
lemma slots_one : slots 1 = BitVec.ofNat 256 (2 ^ 201 + 1) := by decide

/-- The other slots are empty. -/
lemma slots_of_two_le {i : ℕ} (h : 2 ≤ i) : slots i = BitVec.ofNat 256 (2 ^ 0 - 1) := by
  refine Smirk.occupant_of_forall_ne ?_
  simp only [leaves, List.forall_mem_cons]
  have hfirst : (2 ^ 200 : Element).slot (MERKLE_TREE_DEPTH - 1) = 0 := by decide
  have hsecond : (2 ^ 201 + 1 : Element).slot (MERKLE_TREE_DEPTH - 1) = 1 := by decide
  exact ⟨by omega, by omega, fun _ h => absurd h List.not_mem_nil⟩

/-- Away from the notes, a node is the hash of an empty tree. -/
lemma node_empty {k i : ℕ} (hk : k ≤ 160) (hi : 2 ≤ 2 ^ k * i) :
    SparseMerkle.node (Smirk.merge sumHash) slots k i = BitVec.ofNat 256 (2 ^ k - 1) := by
  induction k generalizing i with
  | zero => exact slots_of_two_le (by simpa using hi)
  | succ k ih =>
    have hpow : 2 ^ (k + 1) * i = 2 ^ k * (2 * i) := by rw [pow_succ]; ring
    have hle : 2 ^ k * (2 * i) ≤ 2 ^ k * (2 * i + 1) := Nat.mul_le_mul_left _ (Nat.le_succ _)
    have hbound : 2 ^ k ≤ 2 ^ 160 := Nat.pow_le_pow_right (by omega) (by omega)
    have hpos : 0 < 2 ^ k := by positivity
    have hM := Element.lt_MODULUS
    rw [SparseMerkle.node, ih (by omega) (by omega), ih (by omega) (by omega),
      merge_ofNat (by omega), pow_succ]
    congr 1
    omega

/-- The nodes over the notes. -/
lemma node_zero {k : ℕ} (hk : k < 160) :
    SparseMerkle.node (Smirk.merge sumHash) slots (k + 1) 0 =
      BitVec.ofNat 256 (3 * 2 ^ 200 + 2 ^ (k + 1)) := by
  have hM := Element.lt_MODULUS
  induction k with
  | zero =>
    rw [SparseMerkle.node, SparseMerkle.node, SparseMerkle.node, mul_zero, zero_add, slots_zero,
      slots_one, merge_ofNat (by omega)]
    congr 1
  | succ k ih =>
    have hbound : 2 ^ (k + 1) ≤ 2 ^ 160 := Nat.pow_le_pow_right (by omega) (by omega)
    have hpos : 2 ^ 1 ≤ 2 ^ (k + 1) := Nat.pow_le_pow_right (by omega) (by omega)
    rw [SparseMerkle.node, mul_zero, zero_add, ih (by omega),
      node_empty (by omega) (by omega), merge_ofNat (by omega), pow_succ 2 (k + 1)]
    congr 1
    omega

/-- The digests of the tree with both notes are different numbers. -/
lemma eq_of_node_eq {k k' i i' : ℕ} (hk : k < 160) (hk' : k' < 160)
    (h : SparseMerkle.node (Smirk.merge sumHash) slots (k + 1) i =
      SparseMerkle.node (Smirk.merge sumHash) slots (k' + 1) i') :
    k = k' ∧ (i = 0 ↔ i' = 0) := by
  have hbound : ∀ m < 160, 2 ≤ 2 ^ (m + 1) ∧ 2 ^ (m + 1) ≤ 2 ^ 160 := fun m hm =>
    ⟨Nat.pow_le_pow_right (show 0 < 2 by omega) (show 1 ≤ m + 1 by omega),
      Nat.pow_le_pow_right (by omega) (by omega)⟩
  have hempty : ∀ m j, m < 160 → j ≠ 0 →
      SparseMerkle.node (Smirk.merge sumHash) slots (m + 1) j =
        BitVec.ofNat 256 (2 ^ (m + 1) - 1) := by
    intro m j hm hj
    refine node_empty (by omega) ?_
    exact (hbound m hm).1.trans (Nat.le_mul_of_pos_right _ (Nat.pos_of_ne_zero hj))
  have hnat : ∀ x y : ℕ, x < 2 ^ 256 → y < 2 ^ 256 →
      BitVec.ofNat 256 x = BitVec.ofNat 256 y → x = y := by
    intro x y hx hy hxy
    have hval := congrArg BitVec.toNat hxy
    rwa [BitVec.toNat_ofNat, BitVec.toNat_ofNat, Nat.mod_eq_of_lt hx, Nat.mod_eq_of_lt hy] at hval
  have hb := hbound k hk
  have hb' := hbound k' hk'
  have hexp : 2 ^ (k + 1) = 2 ^ (k' + 1) → k = k' := fun heq => by
    have := Nat.pow_right_injective (le_refl 2) heq
    omega
  by_cases hi : i = 0 <;> by_cases hi' : i' = 0
  · subst hi hi'
    rw [node_zero hk, node_zero hk'] at h
    have := hnat _ _ (by omega) (by omega) h
    exact ⟨hexp (by omega), Iff.rfl⟩
  · subst hi
    rw [node_zero hk, hempty k' i' hk' hi'] at h
    have := hnat _ _ (by omega) (by omega) h
    omega
  · subst hi'
    rw [hempty k i hk hi, node_zero hk'] at h
    have := hnat _ _ (by omega) (by omega) h
    omega
  · rw [hempty k i hk hi, hempty k' i' hk' hi'] at h
    have := hnat _ _ (by omega) (by omega) h
    exact ⟨hexp (by omega), by omega⟩

/-- No pairs of nodes collide in the tree with both notes. -/
lemma injOn_merge :
    Set.InjOn (Function.uncurry (Smirk.merge sumHash))
      (SparseMerkle.nodePairs (Smirk.merge sumHash) slots (MERKLE_TREE_DEPTH - 1)) := by
  rintro _ ⟨k, i, hk, -, rfl⟩ _ ⟨k', i', hk', -, rfl⟩ h
  obtain ⟨rfl, hzero⟩ := eq_of_node_eq hk hk' h
  by_cases hi : i = 0
  · rw [hi, hzero.1 hi]
  · -- Both pairs are of empty subtrees of the same height.
    have hi' : i' ≠ 0 := fun h0 => hi (hzero.2 h0)
    have hempty : ∀ j, 2 ≤ j →
        SparseMerkle.node (Smirk.merge sumHash) slots k j = BitVec.ofNat 256 (2 ^ k - 1) :=
      fun j hj => node_empty hk.le (hj.trans (Nat.le_mul_of_pos_left _ (by positivity)))
    rw [hempty (2 * i) (by omega), hempty (2 * i + 1) (by omega), hempty (2 * i') (by omega),
      hempty (2 * i' + 1) (by omega)]

/-- Both orders of the leaves hash the pairs of one tree. -/
lemma pairs_of_perm {c : BlockContent} (h : c.state.leavesNonNull.Perm leaves) :
    c.pairs primitives .new =
      SparseMerkle.nodePairs (Smirk.merge sumHash) slots (MERKLE_TREE_DEPTH - 1) := by
  have hdist : Smirk.SlotDistinct (MERKLE_TREE_DEPTH - 1) leaves :=
    Smirk.Tree.slotDistinct_of_pairwise (fresh_of_perm (List.Perm.refl _)).distinct
  have hkeys : (Smirk.Persistent.new : PersistentMerkleTree).tree.entries.keys = [] := rfl
  rw [BlockContent.pairs, hkeys, List.nil_append, Smirk.occupant_congr hdist fun e => h.mem_iff]
  rfl

/-- The first content has the leaves in order. -/
lemma perm_separate : separate.state.leavesNonNull.Perm leaves := by
  rw [leavesNonNull_separate]

/-- The second content has them in another order. -/
lemma perm_together : together.state.leavesNonNull.Perm leaves := by
  rw [leavesNonNull_together]
  exact List.reverse_perm _

/-- The first content passes validation. -/
lemma validate_separate :
    separate.validate primitives true .validator .empty .new = .ok () := by
  refine validate_content ?_ (by rw [← leavesNonNull_content rootHash]; exact perm_separate)
  simp only [List.forall_mem_cons]
  exact ⟨by decide, by decide, fun _ h => absurd h List.not_mem_nil⟩

/-- The second content passes validation, too. -/
lemma validate_together :
    together.validate primitives true .validator .empty .new = .ok () := by
  refine validate_content ?_ (by rw [← leavesNonNull_content rootHash]; exact perm_together)
  simp only [List.forall_mem_cons]
  exact ⟨by decide, fun _ h => absurd h List.not_mem_nil⟩

/-- The headers of the sample fit their fields. -/
lemma fits_content (root : Element) (txns : List UtxoProof) : (content root txns).header.Fits :=
  ⟨show 1 < U64 by decide, show 0 < U64 by decide, show 0 < 2 ^ 32 by decide⟩

/-- The hashed messages do not depend on the transactions. -/
lemma messages_content (root : Element) (txns txns' : List UtxoProof) :
    (content root txns).messages primitives = (content root txns').messages primitives := rfl

/-- The hash of a content does not depend on its transactions. -/
lemma hash_content (root : Element) (txns txns' : List UtxoProof) :
    (content root txns).hash primitives = (content root txns').hash primitives := rfl

/-- The header and the block are messages of different lengths, and the two blocks share them. -/
lemma injOn_keccak256 :
    Set.InjOn primitives.keccak256
      (separate.messages primitives ∪ together.messages primitives) := by
  have hmessages : together.messages primitives = separate.messages primitives :=
    messages_content rootHash [bothTxn] [firstTxn, secondTxn]
  have hlen : separate.headerMessage.length = 84 := by
    decide
  have hlen' : (separate.message primitives).length = 96 := by
    simp [BlockContent.message, length_beBytes]
  have hdigest : primitives.keccak256 separate.headerMessage ≠
      primitives.keccak256 (separate.message primitives) := by
    show BitVec.ofNat 256 separate.headerMessage.length ≠
      BitVec.ofNat 256 (separate.message primitives).length
    rw [hlen, hlen']
    decide
  rw [hmessages, Set.union_self]
  rintro m (rfl | rfl) m' (rfl | rfl) h
  · rfl
  · exact absurd h hdigest
  · exact absurd h.symm hdigest
  · rfl

/-- The pairs of the two contents do not collide. -/
lemma injOn_pairs :
    Set.InjOn (Function.uncurry (Smirk.merge primitives.poseidon))
      (separate.pairs primitives .new ∪ together.pairs primitives .new) := by
  rw [pairs_of_perm perm_separate, pairs_of_perm perm_together, Set.union_self]
  exact injOn_merge

end Regrouped

/-- The two blocks have the same leaves. -/
theorem hash_binds_regrouped :
    Regrouped.separate.state.leavesNonNull.Perm Regrouped.together.state.leavesNonNull :=
  (hash_binds Regrouped.inv_new (Regrouped.fits_content _ _) (Regrouped.fits_content _ _)
    Regrouped.validate_separate Regrouped.validate_together Regrouped.injOn_keccak256
    Regrouped.injOn_pairs (Regrouped.hash_content _ _ _)).2.2
    (fun _ hkey => absurd hkey List.not_mem_nil) (fun _ hkey => absurd hkey List.not_mem_nil)

/-- **The transactions are not bound**: two mints, in two transactions or in one, give valid blocks
with the same header, the same root and the same hash, although every proof is of a satisfied
circuit and nothing collides. -/
theorem hash_swapped :
    (∀ txn ∈ [Regrouped.firstTxn, Regrouped.secondTxn, Regrouped.bothTxn],
        SatisfiedBy 161 Regrouped.sumHash Set.univ (txn.instances.map Element.toBase)) ∧
      Regrouped.separate.validate Regrouped.primitives true .validator .empty .new = .ok () ∧
      Regrouped.together.validate Regrouped.primitives true .validator .empty .new = .ok () ∧
      Set.InjOn Regrouped.primitives.keccak256
        (Regrouped.separate.messages Regrouped.primitives ∪
          Regrouped.together.messages Regrouped.primitives) ∧
      Set.InjOn (Function.uncurry (Smirk.merge Regrouped.primitives.poseidon))
        (Regrouped.separate.pairs Regrouped.primitives .new ∪
          Regrouped.together.pairs Regrouped.primitives .new) ∧
      Regrouped.separate.hash Regrouped.primitives = Regrouped.together.hash Regrouped.primitives ∧
      Regrouped.separate.state.txns ≠ Regrouped.together.state.txns := by
  refine ⟨?_, Regrouped.validate_separate, Regrouped.validate_together, Regrouped.injOn_keccak256,
    Regrouped.injOn_pairs, Regrouped.hash_content _ _ _, fun h => ?_⟩
  · simp only [List.forall_mem_cons]
    exact ⟨satisfiedBy_mintProof _ _ (by decide) (by decide),
      satisfiedBy_mintProof _ _ (by decide) (by decide),
      satisfiedBy_mintProof _ _ (by decide) (by decide), fun _ h => absurd h List.not_mem_nil⟩
  · have hlength : [Regrouped.firstTxn, Regrouped.secondTxn].length = [Regrouped.bothTxn].length :=
      congrArg List.length h
    simp at hlength

end TempoRollup.Node
