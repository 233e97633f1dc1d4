import TempoRollup.Smirk.Callbacks
import TempoRollup.Smirk.Records

set_option relaxedAutoImplicit false
set_option autoImplicit false

/-!
# The nodes between the two passes of an insertion

`tree_repr.rs` inserts without hashing first and marks the nodes above the new elements; the second
pass reads the hash that a marked node had and gives it a new one. This module says which pairs of
hashes the callbacks of the second pass get, by the places of the nodes, and which pairs the tree
has afterwards.

## Main definitions

* `Changed`, `Grows` — a tree before and after an insertion.
* `Marked` — a node between the two passes, with the hashes it had before.
* `pairAt`, `Live` — the pair hashed at a place, and the pairs of the occupied places.
* `Beside` — a lowest node gets a second leaf.

## Main results

* `Node.insertWithoutHashing_marked` — what the first pass leaves.
* `Marked.mem_removes`, `Marked.mem_sets`, `mem_knownHashes` — the pairs of the callbacks and of
  `known_hashes`.
* `Marked.separate` — the order of the callbacks does not matter.
* `live_step`, `stale_of_beside` — the live pairs after an insertion, and the pair that is left over
  when a leaf is put beside another.

## Design

A place is a height and an index. The pair that a lowest node had is read when the new leaf already
stands below it: `hashBefore` has the hash of the old tree everywhere but at the leaves.
-/

open Exec

namespace TempoRollup.Smirk

open SparseMerkle (Occupied Apart)

/-! ## Places -/

/-- The places below a place are the place itself, those below its left child and those below its
right child. A place `(j, I)` stands for the node at height `j + 1`. -/
lemma exists_place_succ {P : ℕ → ℕ → Prop} {k i : ℕ} :
    (∃ j I, j < k + 1 ∧ I / 2 ^ (k - j) = i ∧ P j I) ↔
      P k i ∨ (∃ j I, j < k ∧ I / 2 ^ (k - (j + 1)) = 2 * i ∧ P j I) ∨
        ∃ j I, j < k ∧ I / 2 ^ (k - (j + 1)) = 2 * i + 1 ∧ P j I := by
  have hhalf : ∀ {j I}, j < k → I / 2 ^ (k - j) = I / 2 ^ (k - (j + 1)) / 2 := by
    intro j I hj
    rw [Nat.div_div_eq_div_mul, ← pow_succ, show k - (j + 1) + 1 = k - j by omega]
  constructor
  · rintro ⟨j, I, hj, hI, hP⟩
    rcases Nat.lt_or_ge j k with hlt | hge
    · rw [hhalf hlt] at hI
      rcases Nat.mod_two_eq_zero_or_one (I / 2 ^ (k - (j + 1))) with h2 | h2
      · exact .inr (.inl ⟨j, I, hlt, by omega, hP⟩)
      · exact .inr (.inr ⟨j, I, hlt, by omega, hP⟩)
    · obtain rfl : j = k := by omega
      rw [Nat.sub_self, pow_zero, Nat.div_one] at hI
      exact .inl (hI ▸ hP)
  · rintro (hP | ⟨j, I, hj, hI, hP⟩ | ⟨j, I, hj, hI, hP⟩)
    · exact ⟨k, i, by omega, by simp, hP⟩
    · exact ⟨j, I, by omega, by rw [hhalf hj]; omega, hP⟩
    · exact ⟨j, I, by omega, by rw [hhalf hj]; omega, hP⟩

/-- A slot below a place that is below another one. -/
lemma slot_below {k i j I s : ℕ} (hj : j < k) (hI : I / 2 ^ (k - (j + 1)) = i)
    (hs : s / 2 ^ (j + 1) = I) : s / 2 ^ k = i := by
  rw [← hI, ← hs, Nat.div_div_eq_div_mul, ← pow_add, show j + 1 + (k - (j + 1)) = k by omega]

/-! ## Trees that grow -/

/-- Some slot below a place has changed. -/
def Changed (T T' : ℕ → Element) (k i : ℕ) : Prop := ∃ s, s / 2 ^ k = i ∧ T' s ≠ T s

/-- Nothing that is stored changes. -/
def Grows (T T' : ℕ → Element) : Prop := ∀ s, T s ≠ Element.NULL_HASH → T' s = T s

section Grows

variable {T T' : ℕ → Element} {k i : ℕ}

/-- A node above a change is occupied afterwards. -/
lemma Grows.occupied_of_changed (hg : Grows T T') (h : Changed T T' k i) :
    Occupied Element.NULL_HASH T' k i := by
  obtain ⟨s, hs, hne⟩ := h
  refine ⟨s, hs, fun hnull => hne ?_⟩
  by_contra hstored
  exact hne (hg s fun hT => hstored (hnull.trans hT.symm))

/-- A node that was occupied stays occupied. -/
lemma Grows.occupied (hg : Grows T T') (h : Occupied Element.NULL_HASH T k i) :
    Occupied Element.NULL_HASH T' k i := by
  obtain ⟨s, hs, hne⟩ := h
  exact ⟨s, hs, by rwa [hg s hne]⟩

/-- Below a place where nothing changed, the nodes are those of the tree before. -/
lemma node_eq_of_not_changed {H : List Fr → Fr} (h : ¬ Changed T T' k i) :
    SparseMerkle.node (merge H) T' k i = SparseMerkle.node (merge H) T k i := by
  induction k generalizing i with
  | zero =>
    by_contra hne
    exact h ⟨i, by simp, hne⟩
  | succ k ih =>
    have hchild : ∀ i', i' / 2 = i → ¬ Changed T T' k i' := by
      rintro i' hi' ⟨s, hs, hne⟩
      exact h ⟨s, by rw [div_two_pow_succ, hs, hi'], hne⟩
    rw [SparseMerkle.node, SparseMerkle.node, ih (hchild _ (by omega)), ih (hchild _ (by omega))]

end Grows

/-! ## Nodes between the two passes -/

/-- Every parent has a leaf below it. -/
def Node.Full : Node → Prop
  | parent l r _ _ => (l.leaves ≠ [] ∨ r.leaves ≠ []) ∧ Full l ∧ Full r
  | _ => True

/-- A node has leaves where the tree is occupied. -/
lemma Shape.leaves_ne_nil_iff {T : ℕ → Element} {node : Node} {k i : ℕ} (h : Shape T node k i) :
    node.leaves ≠ [] ↔ Occupied Element.NULL_HASH T k i := by
  constructor
  · intro hne
    obtain ⟨e, he⟩ := List.exists_mem_of_ne_nil _ hne
    obtain ⟨hnull, s, hs, rfl⟩ := (h.mem_leaves e).1 he
    exact ⟨s, hs, hnull⟩
  · rintro ⟨s, hs, hne⟩
    exact List.ne_nil_of_mem ((h.mem_leaves (T s)).2 ⟨hne, s, hs, rfl⟩)

/-- The children of an occupied place. -/
lemma occupied_succ_iff {T : ℕ → Element} {k i : ℕ} :
    Occupied Element.NULL_HASH T (k + 1) i ↔
      Occupied Element.NULL_HASH T k (2 * i) ∨ Occupied Element.NULL_HASH T k (2 * i + 1) := by
  constructor
  · rintro ⟨s, hs, hne⟩
    rw [div_two_pow_succ] at hs
    rcases Nat.mod_two_eq_zero_or_one (s / 2 ^ k) with h2 | h2
    · exact .inl ⟨s, by omega, hne⟩
    · exact .inr ⟨s, by omega, hne⟩
  · rintro (⟨s, hs, hne⟩ | ⟨s, hs, hne⟩)
    · exact ⟨s, by rw [div_two_pow_succ]; omega, hne⟩
    · exact ⟨s, by rw [div_two_pow_succ]; omega, hne⟩

/-- `Marked H T T' node k i`: the node at a place after the first pass of an insertion that takes
the tree `T` to `T'`. A parent above a change is marked, and has the hash of its place in `T`; a
new leaf has no such hash. -/
inductive Marked (H : List Fr → Fr) (T T' : ℕ → Element) : Node → ℕ → ℕ → Prop
  | kept {node : Node} {k i : ℕ} (hshape : Shape T' node k i) (hclean : node.Clean H)
    (hfull : node.Full) (hsame : ¬ Changed T T' k i) : Marked H T T' node k i
  | leaf {e : Element} {i : ℕ} (he : T' i = e) (hne : e ≠ Element.NULL_HASH) :
    Marked H T T' (.leaf e) 0 i
  | parent {l r : Node} {hash : Element} {k i : ℕ} (hl : Marked H T T' l k (2 * i))
    (hr : Marked H T T' r k (2 * i + 1)) (hchanged : Changed T T' (k + 1) i)
    (hhash : hash = SparseMerkle.node (merge H) T (k + 1) i) :
    Marked H T T' (.parent l r hash true) (k + 1) i

section Insert

variable {H : List Fr → Fr} {T T' : ℕ → Element} {node : Node} {n k i p : ℕ}
  {elements : List Element}

/-- There is a change above inserted elements. -/
lemma Insertable.changed (h : Insertable T T' n k i elements) (hne : elements ≠ []) :
    Changed T T' k i := by
  obtain ⟨e, he⟩ := List.exists_mem_of_ne_nil _ hne
  refine ⟨e.slot n, h.place e he, ?_⟩
  rw [h.filled e he, h.free e he]
  exact h.ne_null e he

/-- There is no change where nothing is inserted. -/
lemma Insertable.not_changed (h : Insertable T T' n k i []) : ¬ Changed T T' k i := by
  rintro ⟨s, hs, hne⟩
  exact hne (h.kept s hs (by simp))

/-- A child that gets no elements. -/
lemma Insertable.marked_of_nil (h : Insertable T T' n k i []) (hshape : Shape T node k i)
    (hclean : node.Clean H) (hfull : node.Full) : Marked H T T' node k i :=
  .kept (h.shape_of_nil hshape) hclean hfull h.not_changed

/-- **Insertion into an empty node**, by induction on the height of its place. -/
lemma insertEmpty_marked (hn : n ≤ 256) (hp : p + k = n)
    (hnull : ∀ s, s / 2 ^ k = i → T s = Element.NULL_HASH) (elements : List Element)
    (hne : elements ≠ []) (h : Insertable T T' n k i elements) :
    (Node.insertEmpty H (k + 1) elements (elements.map fun e => e.lsb n) p).2 = .ok true ∧
      Marked H T T' (Node.insertEmpty H (k + 1) elements (elements.map fun e => e.lsb n) p).1
        k i := by
  induction k generalizing i p elements with
  | zero =>
    obtain ⟨e, rfl, hnull, -, hfilled⟩ := h.exists_leaf hne
    exact ⟨rfl, .leaf hfilled hnull⟩
  | succ k ih =>
    obtain ⟨hnl, hnr⟩ := forall_halves hnull
    unfold Node.insertEmpty
    refine insertParent_rule (fun l => Marked H T T' l k (2 * i))
      (fun r => Marked H T T' r k (2 * i + 1)) (fun node => Marked H T T' node (k + 1) i) hn hp
      ?_ ?_ ?_ ?_ ?_ elements hne h
    · intro elements hne h
      exact ih (by omega) hnl elements hne h
    · intro elements hne h
      exact ih (by omega) hnr elements hne h
    · exact fun h => h.marked_of_nil (.empty hnl) trivial trivial
    · exact fun h => h.marked_of_nil (.empty hnr) trivial trivial
    · exact fun l r hl hr => .parent hl hr (h.changed hne) (node_eq_emptyTreeHash hnull).symm

/-- **The first pass of an insertion** marks the nodes above the new elements, and leaves them
their hashes. By induction on the shape. -/
theorem Node.insertWithoutHashing_marked (hn : n ≤ 256) (hp : p + k = n)
    (hshape : Shape T node k i) (hclean : node.Clean H) (hfull : node.Full)
    (elements : List Element) (hne : elements ≠ []) (h : Insertable T T' n k i elements) :
    (node.insertWithoutHashing H (n + 1) elements (elements.map fun e => e.lsb n) p).2 = .ok true ∧
      Marked H T T'
        (node.insertWithoutHashing H (n + 1) elements (elements.map fun e => e.lsb n) p).1 k i := by
  induction hshape generalizing p elements with
  | leaf he hne' =>
    -- the slot of the leaf is not free
    obtain ⟨-, -, -, hfree, -⟩ := h.exists_leaf hne
    exact absurd (he.symm.trans hfree) hne'
  | empty hnull => exact insertEmpty_marked hn hp hnull elements hne h
  | @parent l r hash dirty k i hl hr ihl ihr =>
    have hhash : hash = SparseMerkle.node (merge H) T (k + 1) i :=
      (Shape.parent hl hr : Shape T (.parent l r hash dirty) (k + 1) i).hash_eq hclean
    obtain ⟨-, -, hcl, hcr⟩ := hclean
    obtain ⟨-, hfl, hfr⟩ := hfull
    unfold Node.insertWithoutHashing
    refine insertParent_rule (fun l => Marked H T T' l k (2 * i))
      (fun r => Marked H T T' r k (2 * i + 1)) (fun node => Marked H T T' node (k + 1) i) hn hp
      ?_ ?_ ?_ ?_ ?_ elements hne h
    · intro elements hne h
      exact ihl (by omega) hcl hfl elements hne h
    · intro elements hne h
      exact ihr (by omega) hcr hfr elements hne h
    · exact fun h => h.marked_of_nil hl hcl hfl
    · exact fun h => h.marked_of_nil hr hcr hfr
    · exact fun l r hl hr => .parent hl hr (h.changed hne) hhash

end Insert

/-! ## The pairs of the callbacks -/

/-- The hash that a node at a place has when the callback for a removal reads it: that of the tree
before, but for a leaf, which is the new one already. -/
def hashBefore (H : List Fr → Fr) (T T' : ℕ → Element) (k i : ℕ) : Element :=
  if k = 0 then T' i else SparseMerkle.node (merge H) T k i

section Marked

variable {H : List Fr → Fr} {T T' : ℕ → Element} {node : Node} {k i : ℕ}

/-- A marked node has the shape of the tree. -/
lemma Marked.shape (h : Marked H T T' node k i) : Shape T' node k i := by
  induction h with
  | kept hshape => exact hshape
  | leaf he hne => exact .leaf he hne
  | parent hl hr hchanged hhash ihl ihr => exact .parent ihl ihr

/-- A marked node has right hashes but where it is dirty. -/
lemma Marked.maybeDirty (h : Marked H T T' node k i) : node.MaybeDirty H := by
  induction h with
  | kept hshape hclean => exact hclean.maybeDirty
  | leaf he hne => trivial
  | parent hl hr hchanged hhash ihl ihr => exact ⟨fun hfalse => absurd hfalse (by simp), ihl, ihr⟩

/-- After the second pass the node has the hash of its place in the new tree. -/
lemma Marked.hash_recalculateHashes (h : Marked H T T' node k i) :
    (node.recalculateHashes H).hash H = SparseMerkle.node (merge H) T' k i :=
  h.shape.recalculateHashes.hash_eq (Node.recalculateHashes_spec h.maybeDirty)

/-- Before the second pass the node has the hash of its place in the old tree, or is a leaf. -/
lemma Marked.hash_eq (h : Marked H T T' node k i) : node.hash H = hashBefore H T T' k i := by
  cases h with
  | kept hshape hclean hfull hsame =>
    rw [hshape.hash_eq hclean, hashBefore]
    split_ifs with hk
    · subst hk
      rfl
    · exact node_eq_of_not_changed hsame
  | leaf he hne => exact he.symm
  | parent hl hr hchanged hhash => exact hhash

/-- The second pass leaves the parents with leaves below them. -/
lemma Marked.full (h : Marked H T T' node k i) (hg : Grows T T') :
    (node.recalculateHashes H).Full := by
  induction h with
  | @kept node k i hshape hclean hfull hsame =>
    have hsame : node.recalculateHashes H = node := by
      cases node with
      | leaf e => rfl
      | empty depth => rfl
      | parent l r hash dirty =>
        rw [Node.recalculateHashes, hclean.1]
        rfl
    rwa [hsame]
  | leaf he hne => trivial
  | @parent l r hash k i hl hr hchanged hhash ihl ihr =>
    refine ⟨?_, ihl, ihr⟩
    have hocc := occupied_succ_iff.1 (hg.occupied_of_changed hchanged)
    rwa [← (hl.shape.recalculateHashes (H := H)).leaves_ne_nil_iff,
      ← (hr.shape.recalculateHashes (H := H)).leaves_ne_nil_iff] at hocc

/-- No callback below a place where nothing changed. -/
lemma Node.Clean.no_callbacks (h : node.Clean H) : node.removes H = [] ∧ node.sets H = [] := by
  cases node with
  | leaf e => exact ⟨rfl, rfl⟩
  | empty depth => exact ⟨rfl, rfl⟩
  | parent l r hash dirty =>
    obtain rfl : dirty = false := h.1
    exact ⟨rfl, rfl⟩

/-- There is no change below a node without one. -/
lemma not_changed_below (h : ¬ Changed T T' k i) {j I : ℕ} (hj : j < k)
    (hI : I / 2 ^ (k - (j + 1)) = i) : ¬ Changed T T' (j + 1) I := by
  rintro ⟨s, hs, hne⟩
  exact h ⟨s, slot_below hj hI hs, hne⟩

/-- **The removals** are those of the changed places, with the hashes as the callback reads them. By
induction on the marked node. -/
theorem Marked.mem_removes (h : Marked H T T' node k i) (q : HashPair) :
    q ∈ node.removes H ↔ ∃ j I, j < k ∧ I / 2 ^ (k - (j + 1)) = i ∧ Changed T T' (j + 1) I ∧
      q = (hashBefore H T T' j (2 * I), hashBefore H T T' j (2 * I + 1)) := by
  induction h with
  | kept hshape hclean hfull hsame =>
    rw [hclean.no_callbacks.1]
    simp only [List.not_mem_nil, false_iff]
    rintro ⟨j, I, hj, hI, hchanged, -⟩
    exact not_changed_below hsame hj hI hchanged
  | leaf he hne =>
    simp only [Node.removes, List.not_mem_nil, false_iff]
    rintro ⟨j, I, hj, -⟩
    omega
  | @parent l r hash k i hl hr hchanged hhash ihl ihr =>
    simp only [Nat.add_sub_add_right]
    rw [exists_place_succ, ← ihl, ← ihr, Node.removes, List.mem_cons, List.mem_append, hl.hash_eq,
      hr.hash_eq]
    simp only [hchanged, true_and]

/-- **The additions** are those of the changed places, with the hashes of the new tree. By induction
on the marked node. -/
theorem Marked.mem_sets (h : Marked H T T' node k i) (q : HashPair) :
    q ∈ node.sets H ↔ ∃ j I, j < k ∧ I / 2 ^ (k - (j + 1)) = i ∧ Changed T T' (j + 1) I ∧
      q = (SparseMerkle.node (merge H) T' j (2 * I),
        SparseMerkle.node (merge H) T' j (2 * I + 1)) := by
  induction h with
  | kept hshape hclean hfull hsame =>
    rw [hclean.no_callbacks.2]
    simp only [List.not_mem_nil, false_iff]
    rintro ⟨j, I, hj, hI, hchanged, -⟩
    exact not_changed_below hsame hj hI hchanged
  | leaf he hne =>
    simp only [Node.sets, List.not_mem_nil, false_iff]
    rintro ⟨j, I, hj, -⟩
    omega
  | @parent l r hash k i hl hr hchanged hhash ihl ihr =>
    simp only [Nat.add_sub_add_right]
    rw [exists_place_succ, ← ihl, ← ihr, Node.sets, List.mem_cons, List.mem_append,
      hl.hash_recalculateHashes, hr.hash_recalculateHashes]
    simp only [hchanged, true_and]

/-- **The known hashes** of a tree are those of its occupied places. By induction on the shape.

**Proof sketch.** A parent is an occupied place, with its own hash, and the others are below its two
sides. -/
theorem mem_knownHashes {ε : Type} (hshape : Shape T node k i) (hclean : node.Clean H)
    (hfull : node.Full) :
    ∃ hashes, (node.knownHashes H : Outcome ε (List KnownHash)) = .ok hashes ∧
      ∀ known, known ∈ hashes ↔ ∃ j I, j < k ∧ I / 2 ^ (k - (j + 1)) = i ∧
        Occupied Element.NULL_HASH T (j + 1) I ∧
        known = ⟨SparseMerkle.node (merge H) T j (2 * I),
          SparseMerkle.node (merge H) T j (2 * I + 1),
          SparseMerkle.node (merge H) T (j + 1) I⟩ := by
  induction hshape with
  | leaf he hne =>
    refine ⟨[], rfl, fun known => ?_⟩
    simp only [List.not_mem_nil, false_iff]
    rintro ⟨j, I, hj, -⟩
    omega
  | @empty k i hnull =>
    refine ⟨[], rfl, fun known => ?_⟩
    simp only [List.not_mem_nil, false_iff]
    rintro ⟨j, I, hj, hI, ⟨s, hs, hne⟩, -⟩
    exact hne (hnull s (slot_below hj hI hs))
  | @parent l r hash dirty k i hl hr ihl ihr =>
    have hhash : hash = SparseMerkle.node (merge H) T (k + 1) i :=
      (Shape.parent hl hr : Shape T (.parent l r hash dirty) (k + 1) i).hash_eq hclean
    obtain ⟨hdirty, -, hcl, hcr⟩ := hclean
    obtain ⟨hleaves, hfl, hfr⟩ := hfull
    obtain ⟨lefts, hlefts, hmeml⟩ := ihl hcl hfl
    obtain ⟨rights, hrights, hmemr⟩ := ihr hcr hfr
    have hocc : Occupied Element.NULL_HASH T (k + 1) i := by
      rw [occupied_succ_iff, ← hl.leaves_ne_nil_iff, ← hr.leaves_ne_nil_iff]
      exact hleaves
    refine ⟨⟨l.hash H, r.hash H, hash⟩ :: lefts ++ rights, ?_, fun known => ?_⟩
    · rw [Node.knownHashes, hdirty, hlefts, hrights]
      rfl
    · simp only [Nat.add_sub_add_right]
      rw [exists_place_succ, ← hmeml, ← hmemr, List.cons_append, List.mem_cons, List.mem_append,
        hl.hash_eq hcl, hr.hash_eq hcr, hhash]
      simp only [hocc, true_and]

end Marked

/-! ## Pairs and places -/

/-- The pair hashed at the place `(j, I)`. -/
def pairAt (H : List Fr → Fr) (T : ℕ → Element) (j I : ℕ) : HashPair :=
  (SparseMerkle.node (merge H) T j (2 * I), SparseMerkle.node (merge H) T j (2 * I + 1))

/-- The pairs of the occupied places of a tree of height `n`. -/
def Live (H : List Fr → Fr) (T : ℕ → Element) (n : ℕ) (q : HashPair) : Prop :=
  ∃ j I, j < n ∧ I / 2 ^ (n - (j + 1)) = 0 ∧ Occupied Element.NULL_HASH T (j + 1) I ∧
    q = pairAt H T j I

/-- Some lowest node gets a second leaf. -/
def Beside (T T' : ℕ → Element) (n : ℕ) : Prop :=
  ∃ I, 0 < n ∧ I / 2 ^ (n - 1) = 0 ∧ Changed T T' 1 I ∧ Occupied Element.NULL_HASH T 1 I

/-- A place below one of the tree is one of the tree. -/
lemma place_lt {n k i j I : ℕ} (hk : k ≤ n) (hi : i < 2 ^ (n - k)) (hj : j < k)
    (hI : I / 2 ^ (k - (j + 1)) = i) : I < 2 ^ (n - (j + 1)) := by
  have hlt : I < 2 ^ (k - (j + 1)) * (i + 1) := by
    rw [← hI]
    exact Nat.lt_mul_div_succ I (by positivity)
  calc I < 2 ^ (k - (j + 1)) * (i + 1) := hlt
    _ ≤ 2 ^ (k - (j + 1)) * 2 ^ (n - k) := Nat.mul_le_mul_left _ hi
    _ = 2 ^ (n - (j + 1)) := by
      rw [← pow_add, show k - (j + 1) + (n - k) = n - (j + 1) by omega]

/-- A place below which nothing changed keeps its pair. -/
lemma pairAt_eq_of_not_changed {H : List Fr → Fr} {T T' : ℕ → Element} {j I : ℕ}
    (h : ¬ Changed T T' (j + 1) I) : pairAt H T' j I = pairAt H T j I := by
  have hchild : ∀ i', i' / 2 = I → ¬ Changed T T' j i' := by
    rintro i' hi' ⟨s, hs, hne⟩
    exact h ⟨s, by rw [div_two_pow_succ, hs, hi'], hne⟩
  rw [pairAt, pairAt, node_eq_of_not_changed (hchild _ (by omega)),
    node_eq_of_not_changed (hchild _ (by omega))]

/-- The hashes that a removal reads. -/
lemma hashBefore_pair (H : List Fr → Fr) (T T' : ℕ → Element) (j I : ℕ) :
    (hashBefore H T T' j (2 * I), hashBefore H T T' j (2 * I + 1)) =
      if j = 0 then pairAt H T' j I else pairAt H T j I := by
  unfold hashBefore
  split_ifs with hj
  · subst hj
    rfl
  · rfl

section Pairs

variable {H : List Fr → Fr} {n : ℕ} {trees : Set (ℕ → Element)} {T T' : ℕ → Element}
  {j I j' I' : ℕ}

/-- Occupied places with the same pair are the same. -/
lemma place_eq (ha : Apart (merge H) Element.NULL_HASH n trees) (hT : T ∈ trees)
    (hT' : T' ∈ trees) (hj : j < n) (hj' : j' < n) (hI : I < 2 ^ (n - (j + 1)))
    (hI' : I' < 2 ^ (n - (j' + 1))) (hocc : Occupied Element.NULL_HASH T (j + 1) I)
    (hocc' : Occupied Element.NULL_HASH T' (j' + 1) I') (heq : pairAt H T j I = pairAt H T' j' I') :
    j = j' ∧ I = I' := by
  have hnode : SparseMerkle.node (merge H) T (j + 1) I =
      SparseMerkle.node (merge H) T' (j' + 1) I' := congrArg (Function.uncurry (merge H)) heq
  obtain ⟨hjj, hII⟩ := ha.eq_of_node_eq hT hT' hj hj' hI hI' hocc hocc' hnode
  exact ⟨by omega, hII⟩

/-- A place above a change does not keep its pair. -/
lemma pairAt_ne_of_changed (ha : Apart (merge H) Element.NULL_HASH n trees) (hT : T ∈ trees)
    (hT' : T' ∈ trees) (hj : j < n) (hI : I < 2 ^ (n - (j + 1)))
    (hchanged : Changed T T' (j + 1) I) : pairAt H T j I ≠ pairAt H T' j I := by
  intro heq
  obtain ⟨s, hs, hne⟩ := hchanged
  have hnode : SparseMerkle.node (merge H) T (j + 1) I = SparseMerkle.node (merge H) T' (j + 1) I :=
    congrArg (Function.uncurry (merge H)) heq
  have hleaf := ha.leaf_eq hT hT' le_rfl hj hI hI hnode hs
  rw [Nat.sub_self, SparseMerkle.node] at hleaf
  apply hne
  rw [hleaf, ← hs, Nat.div_add_mod']

/-- The pair that a changed place had is no pair of an occupied place of the new tree. -/
lemma pairAt_ne_live (ha : Apart (merge H) Element.NULL_HASH n trees) (hT : T ∈ trees)
    (hT' : T' ∈ trees) (hj : j < n) (hj' : j' < n) (hI : I < 2 ^ (n - (j + 1)))
    (hI' : I' < 2 ^ (n - (j' + 1))) (hchanged : Changed T T' (j + 1) I)
    (hocc' : Occupied Element.NULL_HASH T' (j' + 1) I') : pairAt H T j I ≠ pairAt H T' j' I' := by
  intro heq
  by_cases hocc : Occupied Element.NULL_HASH T (j + 1) I
  · obtain ⟨rfl, rfl⟩ := place_eq ha hT hT' hj hj' hI hI' hocc hocc' heq
    exact pairAt_ne_of_changed ha hT hT' hj hI hchanged heq
  · exact ha.node_ne_of_empty hT hT' (Nat.succ_pos j) hj hj' hI hI' hocc hocc'
      (congrArg (Function.uncurry (merge H)) heq)

/-- **A pair that is both removed and set** is that of one lowest node. -/
lemma removed_and_set (ha : Apart (merge H) Element.NULL_HASH n trees) (hT : T ∈ trees)
    (hT' : T' ∈ trees) (hg : Grows T T') (hj : j < n) (hj' : j' < n) (hI : I < 2 ^ (n - (j + 1)))
    (hI' : I' < 2 ^ (n - (j' + 1))) (hchanged : Changed T T' (j + 1) I)
    (hocc' : Occupied Element.NULL_HASH T' (j' + 1) I')
    (heq : (hashBefore H T T' j (2 * I), hashBefore H T T' j (2 * I + 1)) = pairAt H T' j' I') :
    j = 0 ∧ j' = 0 ∧ I = I' := by
  rw [hashBefore_pair] at heq
  split_ifs at heq with hzero
  · obtain ⟨rfl, rfl⟩ := place_eq ha hT' hT' hj hj' hI hI' (hg.occupied_of_changed hchanged) hocc'
      heq
    exact ⟨hzero, hzero, rfl⟩
  · exact absurd heq (pairAt_ne_live ha hT hT' hj hj' hI hI' hchanged hocc')

/-- **The nodes of an insertion are separate**: the callbacks may come in any order. By induction on
the marked node. -/
theorem Marked.separate {node : Node} {k i : ℕ}
    (ha : Apart (merge H) Element.NULL_HASH n trees) (hT : T ∈ trees) (hT' : T' ∈ trees)
    (hg : Grows T T') (h : Marked H T T' node k i) (hk : k ≤ n) (hi : i < 2 ^ (n - k)) :
    node.Separate H := by
  induction h with
  | @kept node k i hshape hclean hfull hsame =>
    cases node with
    | leaf e => trivial
    | empty depth => trivial
    | parent l r hash dirty =>
      obtain rfl : dirty = false := hclean.1
      trivial
  | leaf he hne => trivial
  | @parent l r hash k i hl hr hchanged hhash ihl ihr =>
    have hpow : 2 ^ (n - k) = 2 * 2 ^ (n - (k + 1)) := by
      rw [← pow_succ', show n - (k + 1) + 1 = n - k by omega]
    -- a pair that is removed below one place and set below the other
    have hcross : ∀ {a b : Node} {x y : ℕ}, Marked H T T' a k x → Marked H T T' b k y → x ≠ y →
        x < 2 ^ (n - k) → y < 2 ^ (n - k) → ∀ q ∈ a.removes H, q ∉ b.sets H := by
      intro a b x y ha' hb' hne hx hy q hremoved hset
      obtain ⟨j, I, hj, hI, hchanged, rfl⟩ := (ha'.mem_removes q).1 hremoved
      obtain ⟨j', I', hj', hI', hchanged', heq⟩ := (hb'.mem_sets _).1 hset
      obtain ⟨rfl, rfl, rfl⟩ := removed_and_set ha hT hT' hg (by omega) (by omega)
        (place_lt (by omega) hx hj hI) (place_lt (by omega) hy hj' hI') hchanged
        (hg.occupied_of_changed hchanged') heq
      exact hne (hI.symm.trans hI')
    exact ⟨hcross hl hr (by omega) (by omega) (by omega),
      hcross hr hl (by omega) (by omega) (by omega), ihl (by omega) (by omega),
      ihr (by omega) (by omega)⟩

/-- **The live pairs after an insertion** that puts no leaf beside another: those that were set, and
those that were live before and not removed.

**Proof sketch.** A live pair of a place with a change is set. One of a place without a change was
live before, and it was not removed, since pairs of different places are different
(`removed_and_set`). -/
theorem live_step {node : Node} (ha : Apart (merge H) Element.NULL_HASH n trees) (hT : T ∈ trees)
    (hT' : T' ∈ trees) (hg : Grows T T') (h : Marked H T T' node n 0) (hbeside : ¬ Beside T T' n)
    (q : HashPair) :
    q ∈ node.sets H ∨ (q ∉ node.removes H ∧ Live H T n q) ↔ Live H T' n q := by
  rw [h.mem_sets, h.mem_removes]
  have hlt : ∀ {j I}, j < n → I / 2 ^ (n - (j + 1)) = 0 → I < 2 ^ (n - (j + 1)) :=
    fun hj hI => place_lt le_rfl (by simp) hj hI
  constructor
  · rintro (⟨j, I, hj, hI, hchanged, rfl⟩ | ⟨hnot, j, I, hj, hI, hocc, rfl⟩)
    · exact ⟨j, I, hj, hI, hg.occupied_of_changed hchanged, rfl⟩
    · -- a place that was not removed has not changed
      have hsame : ¬ Changed T T' (j + 1) I := by
        intro hchanged
        by_cases hzero : j = 0
        · subst hzero
          exact hbeside ⟨I, hj, hI, hchanged, hocc⟩
        · refine hnot ⟨j, I, hj, hI, hchanged, ?_⟩
          rw [hashBefore_pair, if_neg hzero]
      exact ⟨j, I, hj, hI, hg.occupied hocc, (pairAt_eq_of_not_changed hsame).symm⟩
  · rintro ⟨j, I, hj, hI, hocc, rfl⟩
    by_cases hchanged : Changed T T' (j + 1) I
    · exact .inl ⟨j, I, hj, hI, hchanged, rfl⟩
    · right
      refine ⟨?_, j, I, hj, hI, ?_, pairAt_eq_of_not_changed hchanged⟩
      · rintro ⟨j', I', hj', hI', hchanged', heq⟩
        obtain ⟨rfl, rfl, rfl⟩ := removed_and_set ha hT hT' hg hj' hj (hlt hj' hI') (hlt hj hI)
          hchanged' hocc heq.symm
        exact hchanged hchanged'
      · obtain ⟨s, hs, hne⟩ := hocc
        refine ⟨s, hs, fun hnull => hchanged ⟨s, hs, ?_⟩⟩
        rwa [hnull]

/-- **A leaf beside another** leaves the pair that their node had: it is not removed, and it is not
live any more. -/
theorem stale_of_beside {node : Node} (ha : Apart (merge H) Element.NULL_HASH n trees)
    (hT : T ∈ trees) (hT' : T' ∈ trees) (hg : Grows T T') (h : Marked H T T' node n 0)
    (hbeside : Beside T T' n) :
    ∃ q, q ∉ node.sets H ∧ q ∉ node.removes H ∧ Live H T n q ∧ ¬ Live H T' n q := by
  have hlt : ∀ {j I}, j < n → I / 2 ^ (n - (j + 1)) = 0 → I < 2 ^ (n - (j + 1)) :=
    fun hj hI => place_lt le_rfl (by simp) hj hI
  obtain ⟨I, hn, hI, hchanged, hocc⟩ := hbeside
  have hlive : ¬ Live H T' n (pairAt H T 0 I) := by
    rintro ⟨j, I', hj, hI', hocc', heq⟩
    exact pairAt_ne_live ha hT hT' hn hj (hlt hn hI) (hlt hj hI') hchanged hocc' heq
  refine ⟨pairAt H T 0 I, ?_, ?_, ⟨0, I, hn, hI, hocc, rfl⟩, hlive⟩
  · rw [h.mem_sets]
    rintro ⟨j, I', hj, hI', hchanged', heq⟩
    exact hlive ⟨j, I', hj, hI', hg.occupied_of_changed hchanged', heq⟩
  · rw [h.mem_removes]
    rintro ⟨j, I', hj, hI', hchanged', heq⟩
    rw [hashBefore_pair] at heq
    split_ifs at heq with hzero
    · exact hlive ⟨j, I', hj, hI', hg.occupied_of_changed hchanged', heq⟩
    · by_cases hocc' : Occupied Element.NULL_HASH T (j + 1) I'
      · have := place_eq ha hT hT hn hj (hlt hn hI) (hlt hj hI') hocc hocc' heq
        omega
      · exact ha.node_ne_of_empty hT hT (Nat.succ_pos j) hj hn (hlt hj hI') (hlt hn hI) hocc' hocc
          (congrArg (Function.uncurry (merge H)) heq.symm)

/-- A tree that has changed has a pair that the tree before had not. -/
lemma live_ne_of_changed (ha : Apart (merge H) Element.NULL_HASH n trees) (hT : T ∈ trees)
    (hT' : T' ∈ trees) (hg : Grows T T') (hn : 0 < n) (hchanged : Changed T T' n 0) :
    ∃ q, Live H T' n q ∧ ¬ Live H T n q := by
  obtain ⟨j, rfl⟩ : ∃ j, n = j + 1 := ⟨n - 1, by omega⟩
  have hocc := hg.occupied_of_changed hchanged
  refine ⟨pairAt H T' j 0, ⟨j, 0, by omega, by simp, hocc, rfl⟩, ?_⟩
  rintro ⟨j', I', hj', hI', hocc', heq⟩
  have hI'' : I' < 2 ^ (j + 1 - (j' + 1)) := place_lt le_rfl (by simp) hj' hI'
  obtain ⟨rfl, rfl⟩ := place_eq ha hT' hT (by omega) hj' (by simp) hI'' hocc hocc' heq
  exact pairAt_ne_of_changed ha hT hT' (by omega) (by simp) hchanged heq.symm

end Pairs

end TempoRollup.Smirk
