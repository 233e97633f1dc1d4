import TempoRollup.Element
import TempoRollup.Lib.Exec

set_option relaxedAutoImplicit false
set_option autoImplicit false

/-!
# The node representation of a tree

`smirk/src/tree/tree_repr.rs`: a sparse tree whose empty subtrees are single nodes. Inserts
change the shape first and mark the nodes above as dirty; the hashes are recalculated in a
second pass.

## Main definitions

* `Node`, `Node.hash`, `Node.insertWithoutHashing`, `Node.recalculateHashes`,
  `Node.hashWith`.
* `Shape`, `Clean`, `MaybeDirty` — what a node at a place of a tree represents, and how far
  its hashes can be trusted.

## Main results

* `Shape.hash_eq` — a clean node has the hash of the sparse Merkle tree.
* `insertParent_rule` — what an insertion makes of a parent, from what it makes of its children.
* `Node.insertWithoutHashing_spec` — sorted new elements are inserted without error, and mark
  every node above them.
* `Node.recalculateHashes_spec` — the second pass makes every node clean.

## Design

The recursion of the source splits an empty node into a parent of two empty nodes and tries
again. Here that parent's body is a function of its own, `insertParent`, which both kinds of
nodes use, so that the recursion is structural.
-/

open Exec

namespace TempoRollup.Smirk

/-! ## The functions of the source -/

/-- `StructName`. -/
inductive StructName
  | batch
  | tree
  deriving DecidableEq, Repr

/-- `Collision`. -/
structure Collision where
  inTree : Element
  inserted : Element
  depth : ℕ
  structName : StructName
  deriving DecidableEq, Repr

/-- `Node` of `tree_repr.rs`. -/
inductive Node
  /-- A single leaf at the greatest depth of the tree. -/
  | leaf (e : Element)
  /-- A tree of the given depth with null elements only. -/
  | empty (depth : ℕ)
  /-- A parent of two nodes, with its hash; the flag says that the children have changed since
  it was calculated. -/
  | parent (left right : Node) (hash : Element) (hashDirty : Bool)
  deriving DecidableEq, Repr

namespace Node

variable (H : List Fr → Fr)

/-- `Node::hash`. -/
def hash : Node → Element
  | leaf e => e
  | empty depth => emptyTreeHash H depth
  | parent _ _ hash _ => hash

/-- The index of the first bit string whose bit at `pathDepth` is set: from there on the
elements belong to the right child. -/
def rightsStart (bits : List (List Bool)) (pathDepth : ℕ) : ℕ :=
  bits.findIdx fun b => b.getD pathDepth false

/-- The end of the parent's branch of `insert_without_hashing`: the results of the two children,
in the order the source looks at them, mark the parent and end the call. -/
def finishParent (left right : Node) (hash : Element) (hashDirty : Bool)
    (first second : Outcome Collision Bool) : Node × Outcome Collision Bool :=
  -- a child's call that panicked does not come back to set the flag
  if first.isPanic || second.isPanic then (parent left right hash hashDirty, .panic)
  else
    let hashDirty := decide (first = .ok true) || decide (second = .ok true)
    (parent left right hash hashDirty,
      do
        let _ ← first
        let _ ← second
        pure hashDirty)

/-- The parent's branch of `insert_without_hashing`, over the calls for the children. -/
def insertParent (insertLeft insertRight :
      List Element → List (List Bool) → ℕ → Node × Outcome Collision Bool)
    (left right : Node) (hash : Element) (hashDirty : Bool) (elements : List Element)
    (bits : List (List Bool)) (pathDepth : ℕ) : Node × Outcome Collision Bool :=
  let start := rightsStart bits pathDepth
  let lefts := bits.take start
  let rights := bits.drop start
  let leftsElements := elements.take start
  let rightsElements := elements.drop start
  match lefts.isEmpty, rights.isEmpty with
  | true, true => (parent left right hash hashDirty, .ok false)
  | false, true =>
    let r := insertLeft leftsElements lefts (pathDepth + 1)
    finishParent r.1 right hash hashDirty (.ok false) r.2
  | true, false =>
    let r := insertRight rightsElements rights (pathDepth + 1)
    finishParent left r.1 hash hashDirty r.2 (.ok false)
  | false, false =>
    let r := insertRight rightsElements rights (pathDepth + 1)
    let l := insertLeft leftsElements lefts (pathDepth + 1)
    finishParent l.1 r.1 hash hashDirty l.2 r.2

/-- `Node::insert_without_hashing` on an empty node of the given depth. -/
def insertEmpty : ℕ → List Element → List (List Bool) → ℕ → Node × Outcome Collision Bool
  | 0, _, _, _ => (empty 0, .panic)
  | 1, elements, _, _ =>
    match elements with
    | [e] => (leaf e, .ok true)
    | _ => (empty 1, .panic)
  | depth + 2, elements, bits, pathDepth =>
    insertParent (insertEmpty (depth + 1)) (insertEmpty (depth + 1)) (empty (depth + 1))
      (empty (depth + 1)) (emptyTreeHash H (depth + 2)) false elements bits pathDepth

/-- `Node::insert_without_hashing`, in a tree of depth `treeDepth`: the node afterwards, and how
the call ends. -/
def insertWithoutHashing (treeDepth : ℕ) :
    Node → List Element → List (List Bool) → ℕ → Node × Outcome Collision Bool
  | leaf e, elements, bits, _ =>
    if elements.contains e then (leaf e, .ok false)
    else if bits.any fun b => b == e.lsb (treeDepth - 1) then
      -- the search for the colliding element compares each element with itself
      (leaf e, .err { inTree := e, inserted := elements.headD 0, depth := treeDepth,
                      structName := .tree })
    else (leaf e, .panic)
  | empty depth, elements, bits, pathDepth => insertEmpty H depth elements bits pathDepth
  | parent left right hash hashDirty, elements, bits, pathDepth =>
    insertParent (insertWithoutHashing treeDepth left) (insertWithoutHashing treeDepth right)
      left right hash hashDirty elements bits pathDepth

/-- `Node::recalculate_hashes`, with a cache that returns `hash_merge`. -/
def recalculateHashes : Node → Node
  | leaf e => leaf e
  | empty depth => empty depth
  | parent left right hash hashDirty =>
    if hashDirty then
      let left := recalculateHashes left
      let right := recalculateHashes right
      parent left right (hashMerge H [left.hash H, right.hash H]) false
    else parent left right hash hashDirty

/-- The parent's branch of `hash_with_inner`, over the calls for the children. -/
def hashWithParent
    (hashLeft hashRight : List Element → List (List Bool) → ℕ → Outcome Empty Element)
    (left right : Element) (elements : List Element) (bits : List (List Bool)) (pathDepth : ℕ) :
    Outcome Empty Element := do
  let start := rightsStart bits pathDepth
  let lefts := bits.take start
  let rights := bits.drop start
  let leftHash ←
    if lefts.isEmpty then pure left else hashLeft (elements.take start) lefts (pathDepth + 1)
  let rightHash ←
    if rights.isEmpty then pure right else hashRight (elements.drop start) rights (pathDepth + 1)
  pure (hashMerge H [leftHash, rightHash])

/-- `Node::hash_with_inner` on an empty node of the given depth. -/
def hashWithEmpty : ℕ → List Element → List (List Bool) → ℕ → Outcome Empty Element
  | 0, _, _, _ => .panic
  | 1, elements, _, _ =>
    -- the source asserts that at most one element is left
    match elements with
    | [] => .ok (emptyTreeHash H 1)
    | [e] => .ok e
    | _ => .panic
  | depth + 2, elements, bits, pathDepth =>
    hashWithParent H (hashWithEmpty (depth + 1)) (hashWithEmpty (depth + 1))
      (emptyTreeHash H (depth + 1)) (emptyTreeHash H (depth + 1)) elements bits pathDepth

/-- `Node::hash_with_inner`. -/
def hashWithInner : Node → List Element → List (List Bool) → ℕ → Outcome Empty Element
  | leaf e, _, _, _ => .ok e
  | empty depth, elements, bits, pathDepth => hashWithEmpty H depth elements bits pathDepth
  | parent left right _ _, elements, bits, pathDepth =>
    hashWithParent H (hashWithInner left) (hashWithInner right) (left.hash H) (right.hash H)
      elements bits pathDepth

end Node

/-- `BitSlice::cmp`, the lexicographic order of bit strings. -/
def bitsLe : List Bool → List Bool → Bool
  | [], _ => true
  | _ :: _, [] => false
  | a :: as, b :: bs => if a = b then bitsLe as bs else b

/-- The elements with their bits, sorted by the bits. -/
def sortByBits (depth : ℕ) (elements : List Element) : List (Element × List Bool) :=
  (elements.map fun e => (e, e.lsb (depth - 1))).mergeSort fun a b => bitsLe a.2 b.2

/-- `Node::hash_with`. -/
def Node.hashWith (H : List Fr → Fr) (depth : ℕ) (self : Node) (extraElements : List Element) :
    Outcome Empty Element :=
  let sorted := sortByBits depth extraElements
  self.hashWithInner H (sorted.map Prod.fst) (sorted.map Prod.snd) 0

/-! ## Splitting sorted elements -/

section Split

variable {n k i p : ℕ}

/-- The bit that decides a step is a bit of the slot. -/
lemma getD_lsb (e : Element) (hn : n ≤ 256) (hp : p < n) :
    (e.lsb n).getD p false = (e.slot n).testBit (n - 1 - p) := by
  have hrev : e.lsb n = (Bits.toLE n e.toNat).reverse := by
    rw [← e.reverse_lsb hn, List.reverse_reverse]
  rw [hrev, List.getD_eq_getElem?_getD,
    List.getElem?_reverse (by rw [Bits.length_toLE]; exact hp), Bits.length_toLE,
    Bits.getElem?_toLE _ _ _ (by omega), Element.slot, Nat.testBit_mod_two_pow]
  simp only [Option.getD_some]
  rw [decide_eq_true (show n - 1 - p < n by omega), Bool.true_and]

/-- One step down from the node above a slot: the bit at the path's depth says which child is
above it. -/
lemma slot_div_two_pow (e : Element) (hn : n ≤ 256) (hp : p + (k + 1) = n)
    (hi : e.slot n / 2 ^ (k + 1) = i) :
    e.slot n / 2 ^ k = 2 * i + ((e.lsb n).getD p false).toNat := by
  have hdiv : e.slot n / 2 ^ k / 2 = i := by
    rw [Nat.div_div_eq_div_mul, ← pow_succ]
    exact hi
  rw [getD_lsb e hn (by omega), show n - 1 - p = k by omega, Nat.testBit_eq_decide_div_mod_eq]
  rcases Nat.mod_two_eq_zero_or_one (e.slot n / 2 ^ k) with h | h
  · simp only [h, Nat.zero_ne_one, decide_false, Bool.toNat_false]
    omega
  · simp only [h, decide_true, Bool.toNat_true]
    omega

/-- Elements for the node at height `k` with index `i`, sorted, no two of them with the same
slot. -/
structure Placed (n k i : ℕ) (elements : List Element) : Prop where
  sorted : elements.Pairwise fun a b => a.slot n < b.slot n
  place : ∀ e ∈ elements, e.slot n / 2 ^ k = i

/-- At the greatest depth there is one element at most. -/
lemma Placed.length_le_one {elements : List Element} (h : Placed n 0 i elements) :
    elements.length ≤ 1 := by
  match elements, h with
  | [], _ => simp
  | [e], _ => simp
  | a :: b :: rest, h =>
    have hlt : a.slot n < b.slot n := (List.pairwise_cons.1 h.sorted).1 b (by simp)
    have ha := h.place a (by simp)
    have hb := h.place b (by simp)
    rw [pow_zero, Nat.div_one] at ha hb
    omega

/-- Where the elements for the right child start. -/
def splitAt (n p : ℕ) (elements : List Element) : ℕ :=
  Node.rightsStart (elements.map fun e => e.lsb n) p

/-- The split is at the first element with the bit. -/
lemma splitAt_eq (elements : List Element) :
    splitAt n p elements = elements.findIdx fun e => (e.lsb n).getD p false := by
  rw [splitAt, Node.rightsStart, List.findIdx_map]
  rfl

/-- The same for elements of which some may have the same slot. -/
structure Gathered (n k i : ℕ) (elements : List Element) : Prop where
  sorted : elements.Pairwise fun a b => a.slot n ≤ b.slot n
  place : ∀ e ∈ elements, e.slot n / 2 ^ k = i

/-- Elements that are placed are gathered. -/
lemma Placed.gathered {elements : List Element} (h : Placed n k i elements) :
    Gathered n k i elements :=
  ⟨h.sorted.imp fun hlt => hlt.le, h.place⟩

/-- The elements before the split belong to the left child. -/
lemma Gathered.left {elements : List Element} (h : Gathered n (k + 1) i elements)
    (hn : n ≤ 256) (hp : p + (k + 1) = n) :
    Gathered n k (2 * i) (elements.take (splitAt n p elements)) := by
  refine ⟨h.sorted.sublist (List.take_sublist _ _), fun e he => ?_⟩
  obtain ⟨j, hj, rfl⟩ := List.mem_iff_getElem.1 he
  rw [List.length_take] at hj
  rw [List.getElem_take]
  have hlt : j < elements.findIdx fun e => (e.lsb n).getD p false := by
    rw [← splitAt_eq]
    omega
  have hbit := List.not_of_lt_findIdx hlt
  rw [slot_div_two_pow _ hn hp (h.place _ (List.getElem_mem _)), hbit]
  rfl

/-- The elements from the split on belong to the right child: the first of them does, and the
others have slots that are not smaller. -/
lemma Gathered.right {elements : List Element} (h : Gathered n (k + 1) i elements)
    (hn : n ≤ 256) (hp : p + (k + 1) = n) :
    Gathered n k (2 * i + 1) (elements.drop (splitAt n p elements)) := by
  refine ⟨h.sorted.sublist (List.drop_sublist _ _), fun e he => ?_⟩
  generalize hstart : splitAt n p elements = start at he
  obtain ⟨j, hj, rfl⟩ := List.mem_iff_getElem.1 he
  rw [List.length_drop] at hj
  rw [List.getElem_drop]
  have hlt : start < elements.length := by omega
  have hbit : (elements[start].lsb n).getD p false = true := by
    have hidx : elements.findIdx (fun e => (e.lsb n).getD p false) = start := by
      rw [← splitAt_eq, hstart]
    have := List.findIdx_getElem (w := hidx ▸ hlt)
    simpa only [hidx] using this
  have hfirst := slot_div_two_pow elements[start] hn hp (h.place _ (List.getElem_mem _))
  rw [hbit, Bool.toNat_true] at hfirst
  have hle : elements[start].slot n ≤ elements[start + j].slot n := by
    rcases Nat.eq_zero_or_pos j with rfl | hj0
    · rfl
    · exact List.pairwise_iff_getElem.1 h.sorted _ _ _ _ (by omega)
  have hge := Nat.div_le_div_right (c := 2 ^ k) hle
  have hstep := slot_div_two_pow elements[start + j] hn hp (h.place _ (List.getElem_mem _))
  have := Bool.toNat_le ((elements[start + j].lsb n).getD p false)
  omega

/-- The elements before the split belong to the left half. -/
lemma Placed.left {elements : List Element} (h : Placed n (k + 1) i elements) (hn : n ≤ 256)
    (hp : p + (k + 1) = n) : Placed n k (2 * i) (elements.take (splitAt n p elements)) :=
  ⟨h.sorted.sublist (List.take_sublist _ _), (h.gathered.left hn hp).place⟩

/-- The elements after the split belong to the right half. -/
lemma Placed.right {elements : List Element} (h : Placed n (k + 1) i elements) (hn : n ≤ 256)
    (hp : p + (k + 1) = n) :
    Placed n k (2 * i + 1) (elements.drop (splitAt n p elements)) :=
  ⟨h.sorted.sublist (List.drop_sublist _ _), (h.gathered.right hn hp).place⟩

end Split

/-! ## What a node represents -/

/-- The merge of two hashes in a tree. -/
abbrev merge (H : List Fr → Fr) (a b : Element) : Element := hashMerge H [a, b]

/-- `Shape T node k i`: the node represents the part of the tree `T` below the place at height
`k` with index `i`. Empty nodes have the depth of their place, and leaves stand at the greatest
depth. -/
inductive Shape (T : ℕ → Element) : Node → ℕ → ℕ → Prop
  | leaf {e : Element} {i : ℕ} (he : T i = e) (hne : e ≠ Element.NULL_HASH) :
    Shape T (.leaf e) 0 i
  | empty {k i : ℕ} (hnull : ∀ s, s / 2 ^ k = i → T s = Element.NULL_HASH) :
    Shape T (.empty (k + 1)) k i
  | parent {l r : Node} {hash : Element} {hashDirty : Bool} {k i : ℕ}
    (hl : Shape T l k (2 * i)) (hr : Shape T r k (2 * i + 1)) :
    Shape T (.parent l r hash hashDirty) (k + 1) i

namespace Node

/-- No node is marked, and every parent has the hash of its children. -/
def Clean (H : List Fr → Fr) : Node → Prop
  | parent l r hash hashDirty =>
    hashDirty = false ∧ hash = merge H (l.hash H) (r.hash H) ∧ Clean H l ∧ Clean H r
  | _ => True

/-- Between the two passes: what stands below an unmarked parent is clean. -/
def MaybeDirty (H : List Fr → Fr) : Node → Prop
  | parent l r hash hashDirty =>
    (hashDirty = false → Clean H (parent l r hash hashDirty)) ∧ MaybeDirty H l ∧ MaybeDirty H r
  | _ => True

/-- The leaves, from left to right. -/
def leaves : Node → List Element
  | leaf e => [e]
  | empty _ => []
  | parent l r _ _ => leaves l ++ leaves r

/-- A tree of the given depth: empty nodes say their own depth, leaves have depth 1, and the
children of a parent are one less deep. -/
def HasDepth : Node → ℕ → Prop
  | leaf _, depth => depth = 1
  | empty d, depth => d = depth ∧ 0 < depth
  | parent l r _ _, depth => ∃ d, depth = d + 1 ∧ HasDepth l d ∧ HasDepth r d

/-- A node with right hashes is right but where it is dirty. -/
lemma Clean.maybeDirty {H : List Fr → Fr} {node : Node} (h : node.Clean H) :
    node.MaybeDirty H := by
  induction node with
  | leaf => trivial
  | empty => trivial
  | parent l r hash hashDirty ihl ihr => exact ⟨fun _ => h, ihl h.2.2.1, ihr h.2.2.2⟩

end Node

section Shape

variable {H : List Fr → Fr} {T T' : ℕ → Element} {node : Node} {k i : ℕ}

/-- The slots below the two children of a place are the slots below it. -/
lemma div_two_pow_succ (s k : ℕ) : s / 2 ^ (k + 1) = s / 2 ^ k / 2 := by
  rw [pow_succ, Nat.div_div_eq_div_mul]

/-- What holds of the slots below a place holds of the slots below its children. -/
lemma forall_halves {P : ℕ → Prop} (h : ∀ s, s / 2 ^ (k + 1) = i → P s) :
    (∀ s, s / 2 ^ k = 2 * i → P s) ∧ ∀ s, s / 2 ^ k = 2 * i + 1 → P s := by
  constructor
  · intro s hs
    exact h s (by rw [div_two_pow_succ]; omega)
  · intro s hs
    exact h s (by rw [div_two_pow_succ]; omega)

/-- A node represents every tree that agrees with `T` below its place. -/
lemma Shape.congr (h : Shape T node k i) (hT : ∀ s, s / 2 ^ k = i → T' s = T s) :
    Shape T' node k i := by
  induction h with
  | leaf he hne =>
    refine .leaf ?_ hne
    rw [hT _ (by simp), he]
  | empty hnull => exact .empty fun s hs => by rw [hT s hs, hnull s hs]
  | parent hl hr ihl ihr =>
    obtain ⟨hleft, hright⟩ := forall_halves hT
    exact .parent (ihl hleft) (ihr hright)

/-- The hash of an empty node is that of the null elements below it. -/
lemma node_eq_emptyTreeHash (hnull : ∀ s, s / 2 ^ k = i → T s = Element.NULL_HASH) :
    SparseMerkle.node (merge H) T k i = emptyTreeHash H (k + 1) := by
  induction k generalizing i with
  | zero => exact hnull i (by simp)
  | succ k ih =>
    obtain ⟨hleft, hright⟩ := forall_halves hnull
    rw [SparseMerkle.node, emptyTreeHash, ih hleft, ih hright]

/-- **A clean node has the hash of the sparse Merkle tree** at its place. -/
theorem Shape.hash_eq (h : Shape T node k i) (hclean : node.Clean H) :
    node.hash H = SparseMerkle.node (merge H) T k i := by
  induction h with
  | leaf he hne => exact he.symm
  | empty hnull => exact (node_eq_emptyTreeHash hnull).symm
  | parent hl hr ihl ihr =>
    obtain ⟨-, hhash, hcl, hcr⟩ := hclean
    rw [Node.hash, hhash, ihl hcl, ihr hcr, SparseMerkle.node]

/-- A node has the depth of its place. -/
lemma Shape.hasDepth (h : Shape T node k i) : node.HasDepth (k + 1) := by
  induction h with
  | leaf he hne => rfl
  | empty hnull => exact ⟨rfl, by omega⟩
  | parent hl hr ihl ihr => exact ⟨_, rfl, ihl, ihr⟩

/-- The leaves of a node are the elements below its place. -/
lemma Shape.mem_leaves (h : Shape T node k i) (e : Element) :
    e ∈ node.leaves ↔ e ≠ Element.NULL_HASH ∧ ∃ s, s / 2 ^ k = i ∧ T s = e := by
  induction h with
  | @leaf e' i he hne =>
    simp only [Node.leaves, List.mem_singleton, pow_zero, Nat.div_one, exists_eq_left, he]
    constructor
    · rintro rfl
      exact ⟨hne, rfl⟩
    · intro h
      exact h.2.symm
  | empty hnull =>
    simp only [Node.leaves, List.not_mem_nil, false_iff, not_and, not_exists]
    intro hne s hs hT
    exact hne (by rw [← hT, hnull s hs])
  | @parent l r _ _ k i hl hr ihl ihr =>
    rw [Node.leaves, List.mem_append, ihl, ihr, ← and_or_left]
    refine and_congr_right fun _ => ⟨?_, ?_⟩
    · rintro (⟨s, hs, hT⟩ | ⟨s, hs, hT⟩)
      · exact ⟨s, by rw [div_two_pow_succ]; omega, hT⟩
      · exact ⟨s, by rw [div_two_pow_succ]; omega, hT⟩
    · rintro ⟨s, hs, hT⟩
      rw [div_two_pow_succ] at hs
      rcases Nat.mod_two_eq_zero_or_one (s / 2 ^ k) with h2 | h2
      · exact .inl ⟨s, by omega, hT⟩
      · exact .inr ⟨s, by omega, hT⟩

/-- No element stands at two leaves, when every element stands in its own slot. -/
lemma Shape.nodup_leaves {n : ℕ} (h : Shape T node k i)
    (hT : ∀ s, T s ≠ Element.NULL_HASH → (T s).slot n = s) : node.leaves.Nodup := by
  induction h with
  | leaf he hne => simp [Node.leaves]
  | empty hnull => simp [Node.leaves]
  | parent hl hr ihl ihr =>
    refine List.nodup_append.2 ⟨ihl, ihr, ?_⟩
    intro a ha b hb hab
    subst hab
    obtain ⟨hne, s, hs, rfl⟩ := (hl.mem_leaves a).1 ha
    obtain ⟨-, s', hs', hTs⟩ := (hr.mem_leaves _).1 hb
    -- both leaves stand in the slot of the element
    have hslot : s = s' := by rw [← hT s hne, ← hTs, hT s' (by rw [hTs]; exact hne)]
    rw [hslot] at hs
    omega

end Shape

/-! ## Insertion -/

section Insert

variable {H : List Fr → Fr} {T T' : ℕ → Element} {node : Node} {n k i p : ℕ}

/-- The elements can be inserted below the place at height `k` with index `i`: they are sorted,
their slots are free, and `T'` is `T` with the elements in their slots. -/
structure Insertable (T T' : ℕ → Element) (n k i : ℕ) (elements : List Element) : Prop extends
    Placed n k i elements where
  ne_null : ∀ e ∈ elements, e ≠ Element.NULL_HASH
  free : ∀ e ∈ elements, T (e.slot n) = Element.NULL_HASH
  filled : ∀ e ∈ elements, T' (e.slot n) = e
  kept : ∀ s, s / 2 ^ k = i → (∀ e ∈ elements, e.slot n ≠ s) → T' s = T s

/-- What an insertion leaves: it says that something changed, the node represents the new tree,
and the nodes it changed are marked. -/
def Inserted (H : List Fr → Fr) (T' : ℕ → Element) (k i : ℕ)
    (result : Node × Outcome Collision Bool) : Prop :=
  result.2 = .ok true ∧ Shape T' result.1 k i ∧ result.1.MaybeDirty H

namespace Insertable

variable {elements : List Element}

/-- The first part of the split goes to the left child. -/
lemma left (h : Insertable T T' n (k + 1) i elements) (hn : n ≤ 256) (hp : p + (k + 1) = n) :
    Insertable T T' n k (2 * i) (elements.take (splitAt n p elements)) where
  toPlaced := h.toPlaced.left hn hp
  ne_null e he := h.ne_null e (List.mem_of_mem_take he)
  free e he := h.free e (List.mem_of_mem_take he)
  filled e he := h.filled e (List.mem_of_mem_take he)
  kept s hs hne := by
    refine h.kept s (by rw [div_two_pow_succ]; omega) fun e he => ?_
    rw [← List.take_append_drop (splitAt n p elements) elements] at he
    rcases List.mem_append.1 he with he | he
    · exact hne e he
    · have := (h.toPlaced.right hn hp).place e he
      rintro rfl
      omega

/-- The second part of the split goes to the right child. -/
lemma right (h : Insertable T T' n (k + 1) i elements) (hn : n ≤ 256) (hp : p + (k + 1) = n) :
    Insertable T T' n k (2 * i + 1) (elements.drop (splitAt n p elements)) where
  toPlaced := h.toPlaced.right hn hp
  ne_null e he := h.ne_null e (List.mem_of_mem_drop he)
  free e he := h.free e (List.mem_of_mem_drop he)
  filled e he := h.filled e (List.mem_of_mem_drop he)
  kept s hs hne := by
    refine h.kept s (by rw [div_two_pow_succ]; omega) fun e he => ?_
    rw [← List.take_append_drop (splitAt n p elements) elements] at he
    rcases List.mem_append.1 he with he | he
    · have := (h.toPlaced.left hn hp).place e he
      rintro rfl
      omega
    · exact hne e he

/-- Nothing is inserted below a place without elements. -/
lemma shape_of_nil (h : Insertable T T' n k i []) (hshape : Shape T node k i) :
    Shape T' node k i :=
  hshape.congr fun s hs => h.kept s hs (by simp)

/-- One element at most is inserted in a leaf. -/
lemma eq_singleton (h : Insertable T T' n 0 i elements) (hne : elements ≠ []) :
    ∃ e, elements = [e] := by
  have hlen := h.toPlaced.length_le_one
  have hpos := List.length_pos_iff.2 hne
  exact List.length_eq_one_iff.1 (by omega)

/-- At height 0 one element is inserted, into a slot that is free. -/
lemma exists_leaf (h : Insertable T T' n 0 i elements) (hne : elements ≠ []) :
    ∃ e, elements = [e] ∧ e ≠ Element.NULL_HASH ∧ T i = Element.NULL_HASH ∧ T' i = e := by
  obtain ⟨e, rfl⟩ := h.eq_singleton hne
  have hslot : e.slot n = i := by simpa using h.place e (by simp)
  rw [← hslot]
  exact ⟨e, rfl, h.ne_null e (by simp), h.free e (by simp), h.filled e (by simp)⟩

end Insertable

/-- A parent whose children were inserted into is marked, and says so. -/
lemma finishParent_of_ok (l r : Node) (hash : Element) (hashDirty : Bool)
    {first second : Outcome Collision Bool}
    (hfirst : first = .ok true ∨ first = .ok false)
    (hsecond : second = .ok true ∨ second = .ok false)
    (hsome : first = .ok true ∨ second = .ok true) :
    Node.finishParent l r hash hashDirty first second = (.parent l r hash true, .ok true) := by
  rcases hfirst with rfl | rfl <;> rcases hsecond with rfl | rfl
  · rfl
  · rfl
  · rfl
  · rcases hsome with h | h <;> cases h

/-- **The rule of the parent's branch**: what the calls for the children make true of them, and what
holds of a child that gets no elements, makes the new parent what it shall be.

**Proof sketch.** By which of the two sides get elements: a side without elements is kept, and the
branch calls itself for a side with some. -/
theorem insertParent_rule (Left Right Parent : Node → Prop) (hn : n ≤ 256)
    (hp : p + (k + 1) = n) {l r : Node} {hash : Element} {hashDirty : Bool}
    {insertLeft insertRight :
      List Element → List (List Bool) → ℕ → Node × Outcome Collision Bool}
    (hleft : ∀ elements, elements ≠ [] → Insertable T T' n k (2 * i) elements →
      (insertLeft elements (elements.map fun e => e.lsb n) (p + 1)).2 = .ok true ∧
        Left (insertLeft elements (elements.map fun e => e.lsb n) (p + 1)).1)
    (hright : ∀ elements, elements ≠ [] → Insertable T T' n k (2 * i + 1) elements →
      (insertRight elements (elements.map fun e => e.lsb n) (p + 1)).2 = .ok true ∧
        Right (insertRight elements (elements.map fun e => e.lsb n) (p + 1)).1)
    (hkeepl : Insertable T T' n k (2 * i) [] → Left l)
    (hkeepr : Insertable T T' n k (2 * i + 1) [] → Right r)
    (hparent : ∀ l r, Left l → Right r → Parent (.parent l r hash true))
    (elements : List Element) (hne : elements ≠ [])
    (h : Insertable T T' n (k + 1) i elements) :
    (Node.insertParent insertLeft insertRight l r hash hashDirty elements
        (elements.map fun e => e.lsb n) p).2 = .ok true ∧
      Parent (Node.insertParent insertLeft insertRight l r hash hashDirty elements
        (elements.map fun e => e.lsb n) p).1 := by
  have hL := h.left hn hp
  have hR := h.right hn hp
  have happ := List.take_append_drop (splitAt n p elements) elements
  unfold Node.insertParent
  simp only [← List.map_take, ← List.map_drop]
  rw [show Node.rightsStart (elements.map fun e => e.lsb n) p = splitAt n p elements from rfl]
  generalize elements.take (splitAt n p elements) = lefts at hL happ ⊢
  generalize elements.drop (splitAt n p elements) = rights at hR happ ⊢
  -- which of the two children have elements
  cases lefts with
  | nil =>
    cases rights with
    | nil => exact absurd happ.symm hne
    | cons b rights =>
      obtain ⟨hok, hnode⟩ := hright _ (List.cons_ne_nil b rights) hR
      simp only [List.map_nil, List.isEmpty_nil, List.map_cons, List.isEmpty_cons] at hok hnode ⊢
      rw [finishParent_of_ok _ _ _ _ (.inl hok) (.inr rfl) (.inl hok)]
      exact ⟨rfl, hparent _ _ (hkeepl hL) hnode⟩
  | cons a lefts =>
    obtain ⟨hokl, hnodel⟩ := hleft _ (List.cons_ne_nil a lefts) hL
    cases rights with
    | nil =>
      simp only [List.map_nil, List.isEmpty_nil, List.map_cons, List.isEmpty_cons] at hokl hnodel ⊢
      rw [finishParent_of_ok _ _ _ _ (.inr rfl) (.inl hokl) (.inr hokl)]
      exact ⟨rfl, hparent _ _ hnodel (hkeepr hR)⟩
    | cons b rights =>
      obtain ⟨hokr, hnoder⟩ := hright _ (List.cons_ne_nil b rights) hR
      simp only [List.map_cons, List.isEmpty_cons] at hokl hnodel hokr hnoder ⊢
      rw [finishParent_of_ok _ _ _ _ (.inl hokl) (.inl hokr) (.inl hokl)]
      exact ⟨rfl, hparent _ _ hnodel hnoder⟩

/-- The parent's branch inserts, when the calls for the children do. -/
lemma insertParent_spec (hn : n ≤ 256) (hp : p + (k + 1) = n) {l r : Node} {hash : Element}
    {hashDirty : Bool} (hl : Shape T l k (2 * i)) (hr : Shape T r k (2 * i + 1))
    (hcl : l.Clean H) (hcr : r.Clean H)
    {insertLeft insertRight :
      List Element → List (List Bool) → ℕ → Node × Outcome Collision Bool}
    (hleft : ∀ elements, elements ≠ [] → Insertable T T' n k (2 * i) elements →
      Inserted H T' k (2 * i) (insertLeft elements (elements.map fun e => e.lsb n) (p + 1)))
    (hright : ∀ elements, elements ≠ [] → Insertable T T' n k (2 * i + 1) elements →
      Inserted H T' k (2 * i + 1)
        (insertRight elements (elements.map fun e => e.lsb n) (p + 1)))
    (elements : List Element) (hne : elements ≠ [])
    (h : Insertable T T' n (k + 1) i elements) :
    Inserted H T' (k + 1) i
      (Node.insertParent insertLeft insertRight l r hash hashDirty elements
        (elements.map fun e => e.lsb n) p) := by
  refine insertParent_rule (fun l => Shape T' l k (2 * i) ∧ l.MaybeDirty H)
    (fun r => Shape T' r k (2 * i + 1) ∧ r.MaybeDirty H)
    (fun node => Shape T' node (k + 1) i ∧ node.MaybeDirty H) hn hp hleft hright
    (fun h => ⟨h.shape_of_nil hl, hcl.maybeDirty⟩) (fun h => ⟨h.shape_of_nil hr, hcr.maybeDirty⟩)
    ?_ elements hne h
  rintro l r ⟨hl, hdl⟩ ⟨hr, hdr⟩
  exact ⟨.parent hl hr, fun hfalse => absurd hfalse (by simp), hdl, hdr⟩

/-- **Insertion into an empty node.** -/
lemma insertEmpty_spec (hn : n ≤ 256) (hp : p + k = n)
    (hnull : ∀ s, s / 2 ^ k = i → T s = Element.NULL_HASH) (elements : List Element)
    (hne : elements ≠ []) (h : Insertable T T' n k i elements) :
    Inserted H T' k i
      (Node.insertEmpty H (k + 1) elements (elements.map fun e => e.lsb n) p) := by
  induction k generalizing i p elements with
  | zero =>
    obtain ⟨e, rfl, hnull, -, hfilled⟩ := h.exists_leaf hne
    exact ⟨rfl, .leaf hfilled hnull, trivial⟩
  | succ k ih =>
    obtain ⟨hnl, hnr⟩ := forall_halves hnull
    unfold Node.insertEmpty
    apply insertParent_spec hn hp (.empty hnl) (.empty hnr) trivial trivial
    · intro elements hne h
      exact ih (by omega) hnl elements hne h
    · intro elements hne h
      exact ih (by omega) hnr elements hne h
    · exact hne
    · exact h

/-- **Insertion without hashing.** Sorted new elements with free slots are inserted below a
clean node, and the call says that the node changed. -/
theorem Node.insertWithoutHashing_spec (hn : n ≤ 256) (hp : p + k = n)
    (hshape : Shape T node k i) (hclean : node.Clean H) (elements : List Element)
    (hne : elements ≠ []) (h : Insertable T T' n k i elements) :
    Inserted H T' k i
      (node.insertWithoutHashing H (n + 1) elements (elements.map fun e => e.lsb n) p) := by
  induction hshape generalizing p elements with
  | leaf he hne' =>
    -- the slot of the leaf is not free
    obtain ⟨-, -, -, hfree, -⟩ := h.exists_leaf hne
    exact absurd (he.symm.trans hfree) hne'
  | empty hnull => exact insertEmpty_spec hn hp hnull elements hne h
  | parent hl hr ihl ihr =>
    obtain ⟨-, -, hcl, hcr⟩ := hclean
    unfold Node.insertWithoutHashing
    apply insertParent_spec hn hp hl hr hcl hcr
    · intro elements hne h
      exact ihl (by omega) hcl elements hne h
    · intro elements hne h
      exact ihr (by omega) hcr elements hne h
    · exact hne
    · exact h

/-- The second pass leaves the shape as it is. -/
lemma Shape.recalculateHashes (h : Shape T node k i) :
    Shape T (node.recalculateHashes H) k i := by
  induction h with
  | leaf he hne => exact .leaf he hne
  | empty hnull => exact .empty hnull
  | parent hl hr ihl ihr =>
    unfold Node.recalculateHashes
    split
    · exact .parent ihl ihr
    · exact .parent hl hr

/-- **Recalculation.** The second pass makes every node clean. -/
theorem Node.recalculateHashes_spec (h : node.MaybeDirty H) :
    (node.recalculateHashes H).Clean H := by
  induction node with
  | leaf => trivial
  | empty => trivial
  | parent l r hash hashDirty ihl ihr =>
    obtain ⟨hcl, hdl, hdr⟩ := h
    unfold Node.recalculateHashes
    cases hashDirty with
    | false => exact hcl rfl
    | true => exact ⟨rfl, rfl, ihl hdl, ihr hdr⟩

end Insert

/-! ## Hashing with extra elements -/

section HashWith

variable {H : List Fr → Fr} {T T' : ℕ → Element} {node : Node} {n k i p : ℕ}

/-- The parent's branch gives the hash of the new tree, when the calls for the children do. -/
lemma hashWithParent_spec (hn : n ≤ 256) (hp : p + (k + 1) = n) {left right : Element}
    (hl : (∀ s, s / 2 ^ k = 2 * i → T' s = T s) →
      left = SparseMerkle.node (merge H) T' k (2 * i))
    (hr : (∀ s, s / 2 ^ k = 2 * i + 1 → T' s = T s) →
      right = SparseMerkle.node (merge H) T' k (2 * i + 1))
    {hashLeft hashRight : List Element → List (List Bool) → ℕ → Outcome Empty Element}
    (hleft : ∀ elements, Insertable T T' n k (2 * i) elements →
      hashLeft elements (elements.map fun e => e.lsb n) (p + 1) =
        .ok (SparseMerkle.node (merge H) T' k (2 * i)))
    (hright : ∀ elements, Insertable T T' n k (2 * i + 1) elements →
      hashRight elements (elements.map fun e => e.lsb n) (p + 1) =
        .ok (SparseMerkle.node (merge H) T' k (2 * i + 1)))
    (elements : List Element) (h : Insertable T T' n (k + 1) i elements) :
    Node.hashWithParent H hashLeft hashRight left right elements
        (elements.map fun e => e.lsb n) p =
      .ok (SparseMerkle.node (merge H) T' (k + 1) i) := by
  have hL := h.left hn hp
  have hR := h.right hn hp
  unfold Node.hashWithParent
  simp only [← List.map_take, ← List.map_drop]
  rw [show Node.rightsStart (elements.map fun e => e.lsb n) p = splitAt n p elements from rfl,
    hleft _ hL, hright _ hR]
  generalize elements.take (splitAt n p elements) = lefts at hL ⊢
  generalize elements.drop (splitAt n p elements) = rights at hR ⊢
  -- a child without new elements keeps its hash
  have hkeepl : lefts = [] → left = SparseMerkle.node (merge H) T' k (2 * i) := by
    rintro rfl
    exact hl fun s hs => hL.kept s hs (by simp)
  have hkeepr : rights = [] → right = SparseMerkle.node (merge H) T' k (2 * i + 1) := by
    rintro rfl
    exact hr fun s hs => hR.kept s hs (by simp)
  cases lefts with
  | nil =>
    cases rights with
    | nil =>
      rw [hkeepl rfl, hkeepr rfl]
      rfl
    | cons b rights =>
      rw [hkeepl rfl]
      rfl
  | cons a lefts =>
    cases rights with
    | nil =>
      rw [hkeepr rfl]
      rfl
    | cons b rights => rfl

/-- **Hashing an empty node with extra elements.** -/
lemma hashWithEmpty_spec (hn : n ≤ 256) (hp : p + k = n)
    (hnull : ∀ s, s / 2 ^ k = i → T s = Element.NULL_HASH) (elements : List Element)
    (h : Insertable T T' n k i elements) :
    Node.hashWithEmpty H (k + 1) elements (elements.map fun e => e.lsb n) p =
      .ok (SparseMerkle.node (merge H) T' k i) := by
  induction k generalizing i p elements with
  | zero =>
    match elements, h.toPlaced.length_le_one with
    | [], _ =>
      have hkept : T' i = T i := h.kept i (by simp) (by simp)
      rw [SparseMerkle.node, hkept, hnull i (by simp)]
      rfl
    | [e], _ =>
      have hslot : e.slot n = i := by simpa using h.place e (by simp)
      rw [SparseMerkle.node, ← hslot, h.filled e (by simp)]
      rfl
  | succ k ih =>
    obtain ⟨hnl, hnr⟩ := forall_halves hnull
    unfold Node.hashWithEmpty
    apply hashWithParent_spec (T := T) hn hp
    · intro hkept
      exact (node_eq_emptyTreeHash fun s hs => by rw [hkept s hs, hnl s hs]).symm
    · intro hkept
      exact (node_eq_emptyTreeHash fun s hs => by rw [hkept s hs, hnr s hs]).symm
    · intro elements h
      exact ih (by omega) hnl elements h
    · intro elements h
      exact ih (by omega) hnr elements h
    · exact h

/-- **Hashing with extra elements.** With sorted new elements whose slots are free, the result
is the hash of the tree that has them. -/
lemma Node.hashWithInner_spec (hn : n ≤ 256) (hp : p + k = n) (hshape : Shape T node k i)
    (hclean : node.Clean H) (elements : List Element) (h : Insertable T T' n k i elements) :
    node.hashWithInner H elements (elements.map fun e => e.lsb n) p =
      .ok (SparseMerkle.node (merge H) T' k i) := by
  induction hshape generalizing p elements with
  | @leaf e i he hne =>
    cases elements with
    | nil =>
      have hkept : T' i = T i := h.kept i (by simp) (by simp)
      rw [SparseMerkle.node, hkept, he]
      rfl
    | cons a elements =>
      -- the slot of the leaf is not free
      have hslot := h.place a (by simp)
      have hfree := h.free a (by simp)
      rw [pow_zero, Nat.div_one] at hslot
      rw [hslot, he] at hfree
      exact absurd hfree hne
  | empty hnull => exact hashWithEmpty_spec hn hp hnull elements h
  | parent hl hr ihl ihr =>
    obtain ⟨-, -, hcl, hcr⟩ := hclean
    unfold Node.hashWithInner
    apply hashWithParent_spec (T := T) hn hp
    · intro hkept
      exact (hl.congr hkept).hash_eq hcl
    · intro hkept
      exact (hr.congr hkept).hash_eq hcr
    · intro elements h
      exact ihl (by omega) hcl elements h
    · intro elements h
      exact ihr (by omega) hcr elements h
    · exact h

/-- The parent's branch returns exactly when the calls for the children that have elements do. -/
lemma hashWithParent_returns_iff {left right : Element}
    {hashLeft hashRight : List Element → List (List Bool) → ℕ → Outcome Empty Element}
    {elements : List Element} :
    (∃ root, Node.hashWithParent H hashLeft hashRight left right elements
        (elements.map fun e => e.lsb n) p = .ok root) ↔
      (elements.take (splitAt n p elements) = [] ∨
        ∃ l, hashLeft (elements.take (splitAt n p elements))
          ((elements.take (splitAt n p elements)).map fun e => e.lsb n) (p + 1) = .ok l) ∧
      (elements.drop (splitAt n p elements) = [] ∨
        ∃ r, hashRight (elements.drop (splitAt n p elements))
          ((elements.drop (splitAt n p elements)).map fun e => e.lsb n) (p + 1) = .ok r) := by
  unfold Node.hashWithParent
  simp only [← List.map_take, ← List.map_drop]
  rw [show Node.rightsStart (elements.map fun e => e.lsb n) p = splitAt n p elements from rfl]
  generalize elements.take (splitAt n p elements) = lefts
  generalize elements.drop (splitAt n p elements) = rights
  cases lefts with
  | nil =>
    cases rights with
    | nil => simp [pure]
    | cons b rights =>
      simp [pure, Outcome.bind_eq_ok]
  | cons a lefts =>
    cases rights with
    | nil => simp [pure, Outcome.bind_eq_ok]
    | cons b rights => simp [pure, Outcome.bind_eq_ok]

/-- Elements for the two children of a place have different slots: what holds of elements with
different slots holds pairwise, if it does for each child. -/
lemma Gathered.pairwise_iff {elements : List Element} (h : Gathered n (k + 1) i elements)
    (hn : n ≤ 256) (hp : p + (k + 1) = n) {R : Element → Element → Prop}
    (hR : ∀ a b, a.slot n ≠ b.slot n → R a b) :
    elements.Pairwise R ↔ (elements.take (splitAt n p elements)).Pairwise R ∧
      (elements.drop (splitAt n p elements)).Pairwise R := by
  conv_lhs => rw [← List.take_append_drop (splitAt n p elements) elements]
  rw [List.pairwise_append]
  refine and_congr_right fun _ => and_iff_left fun a ha b hb => hR a b fun heq => ?_
  have hla := (h.left hn hp).place a ha
  have hrb := (h.right hn hp).place b hb
  rw [heq] at hla
  omega

/-- **When hashing an empty node returns**: exactly for elements with different slots. The source
asserts that at most one is left at the greatest depth. -/
lemma hashWithEmpty_returns_iff (hn : n ≤ 256) (hp : p + k = n) {elements : List Element}
    (h : Gathered n k i elements) :
    (∃ root, Node.hashWithEmpty H (k + 1) elements (elements.map fun e => e.lsb n) p = .ok root) ↔
      elements.Pairwise fun a b => a.slot n ≠ b.slot n := by
  induction k generalizing i p elements with
  | zero =>
    match elements with
    | [] => simp [Node.hashWithEmpty]
    | [e] => simp [Node.hashWithEmpty]
    | a :: b :: rest =>
      have ha := h.place a (by simp)
      have hb := h.place b (by simp)
      rw [pow_zero, Nat.div_one] at ha hb
      simp [Node.hashWithEmpty, ha, hb]
  | succ k ih =>
    unfold Node.hashWithEmpty
    rw [hashWithParent_returns_iff, h.pairwise_iff hn hp fun _ _ hne => hne,
      ih (by omega) (h.left hn hp), ih (by omega) (h.right hn hp)]
    refine and_congr (or_iff_right_of_imp ?_) (or_iff_right_of_imp ?_)
    · intro hnil
      rw [hnil]
      exact List.Pairwise.nil
    · intro hnil
      rw [hnil]
      exact List.Pairwise.nil

/-- **When hashing with extra elements returns**: exactly when no two of them have the same free
slot. A leaf answers for itself, however many are put in its place. -/
lemma Node.hashWithInner_returns_iff (hn : n ≤ 256) (hp : p + k = n)
    (hshape : Shape T node k i) {elements : List Element} (h : Gathered n k i elements) :
    (∃ root, node.hashWithInner H elements (elements.map fun e => e.lsb n) p = .ok root) ↔
      elements.Pairwise fun a b => a.slot n = b.slot n → T (a.slot n) ≠ Element.NULL_HASH := by
  induction hshape generalizing p elements with
  | @leaf e i he hne =>
    refine iff_of_true ⟨e, rfl⟩ (List.pairwise_of_forall_mem_list fun a ha b _ _ => ?_)
    have hslot := h.place a ha
    rw [pow_zero, Nat.div_one] at hslot
    rw [hslot, he]
    exact hne
  | empty hnull =>
    unfold Node.hashWithInner
    rw [hashWithEmpty_returns_iff hn hp h]
    refine List.Pairwise.iff_of_mem fun {a b} ha _ => ?_
    rw [hnull _ (h.place a ha)]
    simp
  | parent hl hr ihl ihr =>
    unfold Node.hashWithInner
    rw [hashWithParent_returns_iff, h.pairwise_iff hn hp fun a b hne heq => absurd heq hne,
      ihl (by omega) (h.left hn hp), ihr (by omega) (h.right hn hp)]
    refine and_congr (or_iff_right_of_imp ?_) (or_iff_right_of_imp ?_)
    · intro hnil
      rw [hnil]
      exact List.Pairwise.nil
    · intro hnil
      rw [hnil]
      exact List.Pairwise.nil

/-- **Hashing with an extra element whose slot is taken** gives the hash without it: a leaf
answers for itself, whatever is put in its place. -/
lemma Node.hashWithInner_of_taken (hn : n ≤ 256) (hp : p + k = n) (hshape : Shape T node k i)
    (hclean : node.Clean H) {e : Element} (hplace : e.slot n / 2 ^ k = i)
    (htaken : T (e.slot n) ≠ Element.NULL_HASH) :
    node.hashWithInner H [e] [e.lsb n] p = .ok (node.hash H) := by
  induction hshape generalizing p with
  | leaf he hne => rfl
  | empty hnull => exact absurd (hnull _ hplace) htaken
  | @parent l r hash hashDirty k i hl hr ihl ihr =>
    obtain ⟨-, hhash, hcl, hcr⟩ := hclean
    have hstep := slot_div_two_pow e hn hp hplace
    unfold Node.hashWithInner Node.hashWithParent Node.rightsStart
    cases hbit : (e.lsb n).getD p false with
    | false =>
      rw [hbit] at hstep
      rw [List.findIdx_cons, hbit, Node.hash, hhash]
      simp only [List.findIdx_nil, cond_false, Nat.zero_add, List.take_one, List.drop_one,
        List.head?_cons, Option.toList_some, List.tail_cons, List.isEmpty_cons, List.isEmpty_nil,
        Bool.false_eq_true, if_false, if_true]
      rw [ihl (by omega) hcl hstep]
      rfl
    | true =>
      rw [hbit] at hstep
      rw [List.findIdx_cons, hbit, Node.hash, hhash]
      simp only [cond_true, List.take_zero, List.drop_zero, List.isEmpty_cons, List.isEmpty_nil,
        Bool.false_eq_true, if_false, if_true]
      rw [ihr (by omega) hcr hstep]
      rfl

end HashWith

/-! ## Sorting by bits -/

section Sorting

/-- The order of bits is transitive. -/
lemma bitsLe_trans (a b c : List Bool) (hab : bitsLe a b = true) (hbc : bitsLe b c = true) :
    bitsLe a c = true := by
  induction a generalizing b c with
  | nil => rfl
  | cons x a ih =>
    cases b with
    | nil => exact absurd hab (by simp [bitsLe])
    | cons y b =>
      cases c with
      | nil => exact absurd hbc (by simp [bitsLe])
      | cons z c =>
        simp only [bitsLe] at hab hbc ⊢
        cases x <;> cases y <;> cases z <;> simp_all <;> exact ih b c hab hbc

/-- The order of bits is total. -/
lemma bitsLe_total (a b : List Bool) : (bitsLe a b || bitsLe b a) = true := by
  induction a generalizing b with
  | nil => rfl
  | cons x a ih =>
    cases b with
    | nil => rfl
    | cons y b => cases x <;> cases y <;> simp [bitsLe] <;> simpa using ih b

/-- On bit strings of one length, the order is that of the numbers they spell. -/
lemma bitsLe_iff {a b : List Bool} (hlen : a.length = b.length) :
    bitsLe a b = true ↔ Bits.ofBE a ≤ Bits.ofBE b := by
  induction a generalizing b with
  | nil => simp [bitsLe, Bits.ofBE]
  | cons x a ih =>
    cases b with
    | nil => simp at hlen
    | cons y b =>
      have hlen' : a.length = b.length := by simpa using hlen
      have ha := Bits.ofBE_lt a
      have hb := Bits.ofBE_lt b
      simp only [bitsLe, Bits.ofBE]
      cases x <;> cases y <;> simp [ih hlen', hlen'] at * <;> omega

/-- The low bits, most significant first, spell the slot. -/
lemma ofBE_lsb (e : Element) {n : ℕ} (hn : n ≤ 256) : Bits.ofBE (e.lsb n) = e.slot n := by
  rw [← Bits.ofLE_reverse, e.reverse_lsb hn, Bits.ofLE_toLE, Element.slot]

variable {depth : ℕ} {elements : List Element}

/-- Sorting permutes the elements. -/
lemma sortByBits_perm (depth : ℕ) (elements : List Element) :
    ((sortByBits depth elements).map Prod.fst).Perm elements := by
  have h := (List.mergeSort_perm (elements.map fun e => (e, e.lsb (depth - 1)))
    fun a b => bitsLe a.2 b.2).map Prod.fst
  simpa [sortByBits, Function.comp_def] using h

/-- Each element keeps its bits. -/
lemma sortByBits_snd (depth : ℕ) (elements : List Element) :
    (sortByBits depth elements).map Prod.snd =
      ((sortByBits depth elements).map Prod.fst).map fun e => e.lsb (depth - 1) := by
  rw [List.map_map]
  apply List.map_congr_left
  intro x hx
  rw [sortByBits, List.mem_mergeSort] at hx
  obtain ⟨e, -, rfl⟩ := List.mem_map.1 hx
  rfl

/-- **Sorted elements are gathered at the root.** -/
lemma gathered_sortByBits (hdepth : depth - 1 ≤ 256) :
    Gathered (depth - 1) (depth - 1) 0 ((sortByBits depth elements).map Prod.fst) := by
  refine ⟨?_, fun e _ => Nat.div_eq_of_lt (e.slot_lt _)⟩
  rw [List.pairwise_map]
  have hsorted := @List.pairwise_mergeSort _ (fun a b : Element × List Bool => bitsLe a.2 b.2)
    (fun a b c => bitsLe_trans a.2 b.2 c.2) (fun a b => bitsLe_total a.2 b.2)
    (elements.map fun e => (e, e.lsb (depth - 1)))
  refine hsorted.imp_of_mem ?_
  intro a b ha hb hab
  rw [List.mem_mergeSort] at ha hb
  obtain ⟨a, -, rfl⟩ := List.mem_map.1 ha
  obtain ⟨b, -, rfl⟩ := List.mem_map.1 hb
  have hlen : (a.lsb (depth - 1)).length = (b.lsb (depth - 1)).length := by
    rw [a.length_lsb hdepth, b.length_lsb hdepth]
  rw [bitsLe_iff hlen, ofBE_lsb a hdepth, ofBE_lsb b hdepth] at hab
  exact hab

/-- **Sorted elements are placed at the root**, when no two of them have the same slot. -/
lemma placed_sortByBits (hdepth : depth - 1 ≤ 256)
    (hdistinct : elements.Pairwise fun a b => a.slot (depth - 1) ≠ b.slot (depth - 1)) :
    Placed (depth - 1) (depth - 1) 0 ((sortByBits depth elements).map Prod.fst) := by
  have hperm := sortByBits_perm depth elements
  have hne := (hperm.symm.pairwise_iff fun h => Ne.symm h).1 hdistinct
  have hgathered := @gathered_sortByBits depth elements hdepth
  refine ⟨?_, hgathered.place⟩
  exact (hgathered.sorted.and hne).imp fun h => lt_of_le_of_ne h.1 h.2

end Sorting

end TempoRollup.Smirk
