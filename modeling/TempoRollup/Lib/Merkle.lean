import Mathlib.Data.Set.Function
import Mathlib.Logic.Function.Basic
import Mathlib.Tactic.Ring
import TempoRollup.Lib.Bits

set_option relaxedAutoImplicit false
set_option autoImplicit false

/-!
# Sparse Merkle trees

A sparse Merkle tree of height `n` has `2 ^ n` slots; it is given by the function `T` from
slots to values, with a null value in the empty ones. The hash of the node at height `k` and
index `i` covers the slots `i · 2 ^ k, …, (i + 1) · 2 ^ k - 1`, and a Merkle path of a slot
lists the siblings met on the way from the slot to the root, deepest first, each with the
side it stands on.

## Main definitions

* `SparseMerkle.node`, `SparseMerkle.root` — the hashes of the tree.
* `SparseMerkle.foldPath` — the root a path gives to a value.
* `SparseMerkle.path` — the path of a slot in a tree.
* `SparseMerkle.nodePairs`, `SparseMerkle.pathPairs` — the pairs hashed in a tree, and along
  a path.
* `SparseMerkle.Occupied`, `SparseMerkle.Apart` — places with a value below them, and what tells
  the nodes of some trees apart.

## Main results

* `SparseMerkle.foldPath_path` — the path of a slot takes its value to the root.
* `SparseMerkle.foldPath_path_update` — it takes any other value to the root of the tree
  with that value in the slot.
* `SparseMerkle.eq_path_of_foldPath_eq_root` — without collisions, a path that reaches the
  root is the path of the slot its sides spell, and starts at that slot's value.
* `SparseMerkle.nodePairs_update_subset` — filling a slot hashes only the pairs on its path
  anew.
* `SparseMerkle.eq_of_root_eq` — without collisions, the root determines the tree.
* `SparseMerkle.Apart.eq_of_node_eq` — without collisions, equal nodes stand at the same place.
* `SparseMerkle.root_map` — a function that respects the hashes takes roots to roots.
-/

namespace SparseMerkle

variable {α : Type} (h : α → α → α)

/-! ## Hashes -/

/-- The hash of the node at height `k` with index `i`. -/
def node (T : ℕ → α) : ℕ → ℕ → α
  | 0, i => T i
  | k + 1, i => h (node T k (2 * i)) (node T k (2 * i + 1))

/-- The root of the tree of height `n`. -/
def root (T : ℕ → α) (n : ℕ) : α := node h T n 0

/-- Fold a value up along a path: each entry is a sibling, and whether the value stands on
the right of it. -/
def foldPath (x : α) : List (α × Bool) → α
  | [] => x
  | (s, false) :: p => foldPath (h x s) p
  | (s, true) :: p => foldPath (h s x) p

/-- The index of the sibling of the node with index `i`. -/
def sibling (i : ℕ) : ℕ := if i % 2 = 1 then i - 1 else i + 1

/-- The path of length `n` from the node at height `k` with index `i`. -/
def path (T : ℕ → α) : ℕ → ℕ → ℕ → List (α × Bool)
  | _, _, 0 => []
  | k, i, n + 1 => (node h T k (sibling i), decide (i % 2 = 1)) :: path T (k + 1) (i / 2) n

/-- The pairs hashed when `x` is folded up along a path. -/
def pathPairs (x : α) : List (α × Bool) → List (α × α)
  | [] => []
  | (s, false) :: p => (x, s) :: pathPairs (h x s) p
  | (s, true) :: p => (s, x) :: pathPairs (h s x) p

/-- The pairs hashed in the tree of height `n`. -/
def nodePairs (T : ℕ → α) (n : ℕ) : Set (α × α) :=
  {q | ∃ k i, k < n ∧ i < 2 ^ (n - 1 - k) ∧ q = (node h T k (2 * i), node h T k (2 * i + 1))}

/-- A path has the length that is asked for. -/
@[simp] lemma length_path (T : ℕ → α) (k i n : ℕ) : (path h T k i n).length = n := by
  induction n generalizing k i with
  | zero => rfl
  | succ n ih => simp [path, ih]

/-- The sides of a slot's path are the sides of the slot. -/
lemma map_snd_path (T : ℕ → α) (k i n : ℕ) : (path h T k i n).map Prod.snd = Bits.toLE n i := by
  induction n generalizing k i with
  | zero => rfl
  | succ n ih => simp [path, Bits.toLE, ih]

/-- A longer path ends with the sibling at its top. -/
lemma path_succ (T : ℕ → α) (k i n : ℕ) :
    path h T k i (n + 1) = path h T k i n ++
      [(node h T (k + n) (sibling (i / 2 ^ n)), decide (i / 2 ^ n % 2 = 1))] := by
  induction n generalizing k i with
  | zero => simp [path]
  | succ n ih =>
    rw [path, ih, path, List.cons_append, Nat.div_div_eq_div_mul, ← pow_succ',
      show k + 1 + n = k + (n + 1) by omega]

section Values

variable {h} {T : ℕ → α} {P : α → Prop}

/-- What holds of the values and of every digest holds of every node. -/
lemma node_of_forall (hT : ∀ i, P (T i)) (hh : ∀ a b, P (h a b)) (k i : ℕ) :
    P (node h T k i) := by
  cases k with
  | zero => exact hT i
  | succ k => exact hh _ _

/-- What holds of leaves and digests holds of all pairs of nodes. -/
lemma of_mem_nodePairs (hT : ∀ i, P (T i)) (hh : ∀ a b, P (h a b)) {n : ℕ} {q : α × α}
    (hq : q ∈ nodePairs h T n) : P q.1 ∧ P q.2 := by
  obtain ⟨k, i, -, -, rfl⟩ := hq
  exact ⟨node_of_forall hT hh k _, node_of_forall hT hh k _⟩

/-- What holds of a leaf, its siblings and digests holds of all pairs on the path. -/
lemma of_mem_pathPairs (hh : ∀ a b, P (h a b)) {x : α} (hx : P x) {p : List (α × Bool)}
    (hp : ∀ e ∈ p, P e.1) {q : α × α} (hq : q ∈ pathPairs h x p) : P q.1 ∧ P q.2 := by
  induction p generalizing x with
  | nil => simp [pathPairs] at hq
  | cons e p ih =>
    obtain ⟨s, b⟩ := e
    have hs : P s := hp (s, b) List.mem_cons_self
    have hrest : ∀ e ∈ p, P e.1 := fun e he => hp e (List.mem_cons_of_mem _ he)
    cases b with
    | false =>
      rcases List.mem_cons.1 hq with rfl | hq
      · exact ⟨hx, hs⟩
      · exact ih (hh _ _) hrest hq
    | true =>
      rcases List.mem_cons.1 hq with rfl | hq
      · exact ⟨hs, hx⟩
      · exact ih (hh _ _) hrest hq

/-- What holds of leaves and digests holds of all siblings. -/
lemma of_mem_path (hT : ∀ i, P (T i)) (hh : ∀ a b, P (h a b)) (k i n : ℕ) :
    ∀ e ∈ path h T k i n, P e.1 := by
  induction n generalizing k i with
  | zero => simp [path]
  | succ n ih =>
    intro e he
    rcases List.mem_cons.1 he with rfl | he
    · exact node_of_forall hT hh k _
    · exact ih _ _ e he

end Values

/-! ## Trees of images -/

section Map

variable {h} {β : Type} (h' : β → β → β) (f : α → β) (hf : ∀ a b, f (h a b) = h' (f a) (f b))
include hf

/-- A function that respects the hashes takes the nodes of a tree to those of the tree of
images. -/
lemma node_map (T : ℕ → α) (k i : ℕ) : node h' (fun s => f (T s)) k i = f (node h T k i) := by
  induction k generalizing i with
  | zero => rfl
  | succ k ih => rw [node, ih, ih, node, hf]

/-- A map that commutes with the hash commutes with the root. -/
theorem root_map (T : ℕ → α) (n : ℕ) : root h' (fun s => f (T s)) n = f (root h T n) :=
  node_map h' f hf T n 0

/-- The siblings on a path in the tree of images are the images of the siblings. -/
lemma map_fst_path_map (T : ℕ → α) (k i n : ℕ) :
    (path h' (fun s => f (T s)) k i n).map Prod.fst = ((path h T k i n).map Prod.fst).map f := by
  induction n generalizing k i with
  | zero => rfl
  | succ n ih => simp only [path, List.map_cons, ih, node_map h' f hf]

end Map

/-! ## Trees that differ in one slot -/

section Update

variable {h}
variable {T T' : ℕ → α} (s : ℕ)

/-- A value in slot `s` matters only for the nodes above that slot. -/
lemma node_eq_of_ne {s : ℕ} (hT : ∀ i, i ≠ s → T' i = T i) (k i : ℕ) (hi : i ≠ s / 2 ^ k) :
    node h T' k i = node h T k i := by
  induction k generalizing i with
  | zero => exact hT i (by simpa using hi)
  | succ k ih =>
    have hdiv : s / 2 ^ (k + 1) = s / 2 ^ k / 2 := by rw [pow_succ, Nat.div_div_eq_div_mul]
    rw [node, node, ih _ (by omega), ih _ (by omega)]

/-- The siblings along the path of slot `s` do not see the value in that slot. -/
lemma node_sibling_eq_of_ne {s : ℕ} (hT : ∀ i, i ≠ s → T' i = T i) (k : ℕ) :
    node h T' k (sibling (s / 2 ^ k)) = node h T k (sibling (s / 2 ^ k)) := by
  apply node_eq_of_ne hT
  rw [sibling]
  split_ifs <;> omega

/-- One level of the path: the two children below the parent of node `i` are node `i` and its
sibling, in the order the side of `i` says. -/
lemma node_parent (T' : ℕ → α) (k i : ℕ) :
    node h T' (k + 1) (i / 2) =
      if i % 2 = 1 then h (node h T' k (sibling i)) (node h T' k i)
      else h (node h T' k i) (node h T' k (sibling i)) := by
  rw [node]
  split_ifs with hi
  · rw [sibling, if_pos hi, show 2 * (i / 2) = i - 1 by omega, show i - 1 + 1 = i by omega]
  · rw [sibling, if_neg hi, show 2 * (i / 2) = i by omega]

/-- The siblings of slot `s` do not depend on what is in the slot. -/
lemma path_of_eq (hT : ∀ i, i ≠ s → T' i = T i) (n k : ℕ) :
    path h T' k (s / 2 ^ k) n = path h T k (s / 2 ^ k) n := by
  induction n generalizing k with
  | zero => rfl
  | succ n ih =>
    rw [path, path, Nat.div_div_eq_div_mul, ← pow_succ, ih, node_sibling_eq_of_ne hT k]

/-- Along the path of slot `s` in `T`, the value that `T'` has at the bottom is folded up to
the value that `T'` has at the top, as `T` and `T'` agree on the siblings. -/
lemma foldPath_path_of_eq (hT : ∀ i, i ≠ s → T' i = T i) (n k : ℕ) :
    foldPath h (node h T' k (s / 2 ^ k)) (path h T k (s / 2 ^ k) n) =
      node h T' (k + n) (s / 2 ^ (k + n)) := by
  induction n generalizing k with
  | zero => rfl
  | succ n ih =>
    set i := s / 2 ^ k with hi
    have hup : i / 2 = s / 2 ^ (k + 1) := by rw [hi, pow_succ, Nat.div_div_eq_div_mul]
    have hsib : node h T k (sibling i) = node h T' k (sibling i) :=
      (node_sibling_eq_of_ne hT k).symm
    have hpar := node_parent (h := h) T' k i
    rw [show k + (n + 1) = (k + 1) + n by omega, ← ih (k + 1), ← hup, path, hsib, hpar]
    split_ifs with hodd <;> simp [hodd, foldPath]

/-- The pairs hashed along that folding are the pairs of children above slot `s` in `T'`. -/
lemma mem_pathPairs_path_of_eq (hT : ∀ i, i ≠ s → T' i = T i) (n k m : ℕ) (hm : m < n) :
    (node h T' (k + m) (2 * (s / 2 ^ (k + m + 1))),
        node h T' (k + m) (2 * (s / 2 ^ (k + m + 1)) + 1)) ∈
      pathPairs h (node h T' k (s / 2 ^ k)) (path h T k (s / 2 ^ k) n) := by
  induction n generalizing k m with
  | zero => omega
  | succ n ih =>
    set i := s / 2 ^ k with hi
    have hup : i / 2 = s / 2 ^ (k + 1) := by rw [hi, pow_succ, Nat.div_div_eq_div_mul]
    have hsib : node h T k (sibling i) = node h T' k (sibling i) :=
      (node_sibling_eq_of_ne hT k).symm
    have hpar := node_parent (h := h) T' k i
    -- the first pair is that of node `i` and its sibling, the others are higher up
    rcases m with _ | m
    · rw [Nat.add_zero, ← hup, path, hsib]
      by_cases hodd : i % 2 = 1
      · have hsibi : sibling i = i - 1 := if_pos hodd
        have hleft : 2 * (i / 2) = i - 1 := by omega
        have hright : i - 1 + 1 = i := by omega
        rw [hsibi, hleft, hright]
        simp [hodd, pathPairs]
      · have hsibi : sibling i = i + 1 := if_neg hodd
        have hleft : 2 * (i / 2) = i := by omega
        rw [hsibi, hleft]
        simp [hodd, pathPairs]
    · have hstep := ih (k + 1) m (by omega)
      rw [show k + (m + 1) = k + 1 + m by omega, path, hsib]
      rw [← hup, hpar] at hstep
      by_cases hodd : i % 2 = 1
      · rw [if_pos hodd] at hstep
        simpa [hodd, pathPairs] using Or.inr hstep
      · rw [if_neg hodd] at hstep
        simpa [hodd, pathPairs] using Or.inr hstep

end Update

/-- **Completeness of paths**: the path of a slot takes the slot's value to the root. -/
theorem foldPath_path (T : ℕ → α) (n s : ℕ) (hs : s < 2 ^ n) :
    foldPath h (T s) (path h T 0 s n) = root h T n := by
  have := foldPath_path_of_eq (h := h) s (fun i (_ : i ≠ s) => (rfl : T i = T i)) n 0
  simpa [node, root, Nat.div_eq_of_lt hs] using this

/-- The pairs hashed along the path of a node are pairs of the tree. By induction on the length of
the path. -/
lemma mem_nodePairs_of_mem_pathPairs (T : ℕ → α) (n k i : ℕ) (hi : i < 2 ^ n) :
    ∀ q ∈ pathPairs h (node h T k i) (path h T k i n), q ∈ nodePairs h T (k + n) := by
  induction n generalizing k i with
  | zero => simp [path, pathPairs]
  | succ n ih =>
    intro q hq
    have hup : i / 2 < 2 ^ n := by
      rw [pow_succ] at hi
      omega
    have hrest := ih (k + 1) (i / 2) hup
    rw [show k + 1 + n = k + (n + 1) by omega, node_parent] at hrest
    -- the first pair is that of the node and its sibling
    have hfirst : (node h T k (2 * (i / 2)), node h T k (2 * (i / 2) + 1)) ∈
        nodePairs h T (k + (n + 1)) :=
      ⟨k, i / 2, by omega, by rwa [show k + (n + 1) - 1 - k = n by omega], rfl⟩
    rw [path] at hq
    by_cases hodd : i % 2 = 1
    · have hsib : sibling i = i - 1 := if_pos hodd
      rw [show 2 * (i / 2) = i - 1 by omega, show i - 1 + 1 = i by omega] at hfirst
      simp only [hodd, decide_true, pathPairs, List.mem_cons] at hq
      rcases hq with rfl | hq
      · rwa [hsib]
      · exact hrest q (by rwa [if_pos hodd])
    · have hsib : sibling i = i + 1 := if_neg hodd
      rw [show 2 * (i / 2) = i by omega] at hfirst
      simp only [hodd, decide_false, pathPairs, List.mem_cons] at hq
      rcases hq with rfl | hq
      · rwa [hsib]
      · exact hrest q (by rwa [if_neg hodd])

/-- The path of a slot takes any value to the root of the tree with that value in the
slot. -/
theorem foldPath_path_update (T : ℕ → α) (n s : ℕ) (hs : s < 2 ^ n) (x : α) :
    foldPath h x (path h T 0 s n) = root h (Function.update T s x) n := by
  have := foldPath_path_of_eq (h := h) s
    (fun i (hi : i ≠ s) => Function.update_of_ne hi x T) n 0
  simpa [node, root, Nat.div_eq_of_lt hs] using this

/-- The pairs that are hashed along the path of a slot with any value are those of the tree with
that value in the slot. -/
lemma mem_nodePairs_update_of_mem_pathPairs (T : ℕ → α) (n s : ℕ) (hs : s < 2 ^ n) (x : α)
    {q : α × α} (hq : q ∈ pathPairs h x (path h T 0 s n)) :
    q ∈ nodePairs h (Function.update T s x) n := by
  have hpath := path_of_eq (h := h) (s := s)
    (fun i (hi : i ≠ s) => Function.update_of_ne hi x T) n 0
  rw [pow_zero, Nat.div_one] at hpath
  rw [← hpath] at hq
  have hmem := mem_nodePairs_of_mem_pathPairs (h := h) (Function.update T s x) n 0 s hs q
  rw [node, Function.update_self, Nat.zero_add] at hmem
  exact hmem hq

/-- Filling a slot hashes only the pairs on its path anew. -/
theorem nodePairs_update_subset (T : ℕ → α) (n s : ℕ) (x : α) :
    nodePairs h (Function.update T s x) n ⊆
      nodePairs h T n ∪ {q | q ∈ pathPairs h x (path h T 0 s n)} := by
  have hT : ∀ i, i ≠ s → Function.update T s x i = T i :=
    fun i hi => Function.update_of_ne hi _ _
  rintro q ⟨k, i, hk, hi, rfl⟩
  have hdiv : s / 2 ^ (k + 1) = s / 2 ^ k / 2 := by rw [pow_succ, Nat.div_div_eq_div_mul]
  by_cases hanc : i = s / 2 ^ (k + 1)
  · right
    have := mem_pathPairs_path_of_eq (h := h) s hT n 0 k hk
    simpa [node, hanc] using this
  · left
    refine ⟨k, i, hk, hi, ?_⟩
    rw [node_eq_of_ne hT k _ (by omega), node_eq_of_ne hT k _ (by omega)]

/-! ## Soundness of paths -/

/-- **Soundness of paths**: when no two of the hashed pairs collide, a path that takes `x` to
the root of `T` is the path of the slot its sides spell, and `x` is that slot's value.

**Proof sketch.** Induction on the path, from height `k` on. The rest of the path reaches the
root from the pair of `x` and its first sibling; by induction that pair hashes to a node of
`T` one level up, which is itself the hash of two nodes of `T`, so the two pairs agree. -/
theorem eq_path_of_foldPath_eq_root {S : Set (α × α)} (hS : Set.InjOn (Function.uncurry h) S)
    (T : ℕ → α) (n : ℕ) (hT : nodePairs h T n ⊆ S) (p : List (α × Bool)) (k : ℕ)
    (hk : k + p.length = n) (x : α) (hp : ∀ q ∈ pathPairs h x p, q ∈ S)
    (hroot : foldPath h x p = root h T n) :
    x = node h T k (Bits.ofLE (p.map Prod.snd)) ∧
      p = path h T k (Bits.ofLE (p.map Prod.snd)) p.length := by
  induction p generalizing k x with
  | nil =>
    obtain rfl : k = n := by simpa using hk
    exact ⟨hroot, rfl⟩
  | cons e p ih =>
    obtain ⟨s, b⟩ := e
    set i := Bits.ofLE (p.map Prod.snd) with hi
    have hilt : i < 2 ^ p.length := by simpa using Bits.ofLE_lt (p.map Prod.snd)
    -- the pair of children above which the rest of the path starts
    have hpair : (node h T k (2 * i), node h T k (2 * i + 1)) ∈ S := by
      refine hT ⟨k, i, ?_, ?_, rfl⟩
      · simp only [List.length_cons] at hk; omega
      · simp only [List.length_cons] at hk
        rwa [show n - 1 - k = p.length by omega]
    have hk' : k + 1 + p.length = n := by simp only [List.length_cons] at hk; omega
    cases b with
    | false =>
      simp only [pathPairs, List.forall_mem_cons] at hp
      obtain ⟨hx, hrest⟩ := ih (k + 1) hk' (h x s) hp.2 hroot
      obtain ⟨rfl, rfl⟩ := Prod.ext_iff.1 (hS hp.1 hpair hx)
      have hslot : Bits.ofLE (((node h T k (2 * i + 1), false) :: p).map Prod.snd) = 2 * i := by
        simp [Bits.ofLE, hi]
      refine ⟨by rw [hslot], ?_⟩
      rw [hslot, List.length_cons, path, show 2 * i / 2 = i by omega, ← hrest]
      simp [sibling]
    | true =>
      simp only [pathPairs, List.forall_mem_cons] at hp
      obtain ⟨hx, hrest⟩ := ih (k + 1) hk' (h s x) hp.2 hroot
      obtain ⟨rfl, rfl⟩ := Prod.ext_iff.1 (hS hp.1 hpair hx)
      have hslot : Bits.ofLE (((node h T k (2 * i), true) :: p).map Prod.snd) = 2 * i + 1 := by
        simp [Bits.ofLE, hi]; omega
      refine ⟨by rw [hslot], ?_⟩
      rw [hslot, List.length_cons, path, show (2 * i + 1) / 2 = i by omega, ← hrest]
      simp [sibling, Nat.add_mod]

/-! ## Equal nodes -/

section Equal

variable {h} {T T' : ℕ → α} {n : ℕ}

/-- **Equal nodes have equal nodes below them**, at the same distance and in the same order, whether
or not they stand at the same height. By induction on the distance `j`: equal nodes that are not
leaves are digests of equal pairs. -/
lemma node_descend {S : Set (α × α)} (hS : Set.InjOn (Function.uncurry h) S)
    (hT : nodePairs h T n ⊆ S) (hT' : nodePairs h T' n ⊆ S) (j a a' : ℕ) {i i' : ℕ}
    (ha : j + a ≤ n) (ha' : j + a' ≤ n) (hi : i < 2 ^ (n - (j + a))) (hi' : i' < 2 ^ (n - (j + a')))
    (heq : node h T (j + a) i = node h T' (j + a') i') {t : ℕ} (ht : t < 2 ^ j) :
    node h T a (i * 2 ^ j + t) = node h T' a' (i' * 2 ^ j + t) := by
  induction j generalizing i i' t with
  | zero =>
    obtain rfl : t = 0 := by simpa using ht
    simpa using heq
  | succ j ih =>
    have hlevel : ∀ {b i : ℕ}, j + 1 + b ≤ n → i < 2 ^ (n - (j + 1 + b)) →
        j + b < n ∧ i < 2 ^ (n - 1 - (j + b)) ∧ 2 * i + 1 < 2 ^ (n - (j + b)) := by
      intro b i hb hi
      have hpow : 2 ^ (n - (j + b)) = 2 * 2 ^ (n - (j + 1 + b)) := by
        rw [← pow_succ', show n - (j + 1 + b) + 1 = n - (j + b) by omega]
      refine ⟨by omega, ?_, by omega⟩
      rwa [show n - 1 - (j + b) = n - (j + 1 + b) by omega]
    obtain ⟨hk, hpair, hchild⟩ := hlevel ha hi
    obtain ⟨hk', hpair', hchild'⟩ := hlevel ha' hi'
    rw [show j + 1 + a = j + a + 1 by omega, show j + 1 + a' = j + a' + 1 by omega, node, node]
      at heq
    obtain ⟨hleft, hright⟩ := Prod.ext_iff.1
      (hS (hT ⟨_, i, hk, hpair, rfl⟩) (hT' ⟨_, i', hk', hpair', rfl⟩) heq)
    -- the first bit of `t` says below which of the two children the node is
    rw [pow_succ] at ht ⊢
    by_cases hside : t < 2 ^ j
    · have := ih (by omega) (by omega) (by omega) (by omega) hleft hside
      rwa [show 2 * i * 2 ^ j + t = i * (2 ^ j * 2) + t by ring,
        show 2 * i' * 2 ^ j + t = i' * (2 ^ j * 2) + t by ring] at this
    · have := ih (by omega) (by omega) hchild hchild' hright
        (show t - 2 ^ j < 2 ^ j by omega)
      have hshift : ∀ i, (2 * i + 1) * 2 ^ j + (t - 2 ^ j) = i * (2 ^ j * 2) + t := by
        intro i
        have : (2 * i + 1) * 2 ^ j = i * (2 ^ j * 2) + 2 ^ j := by ring
        omega
      rwa [hshift, hshift] at this

/-- **Roots bind trees**: when no two of the hashed pairs collide, two trees with the same root
have the same value in every slot. -/
theorem eq_of_root_eq {S : Set (α × α)} (hS : Set.InjOn (Function.uncurry h) S)
    (hT : nodePairs h T n ⊆ S) (hT' : nodePairs h T' n ⊆ S)
    (hroot : root h T n = root h T' n) (i : ℕ) (hi : i < 2 ^ n) : T i = T' i := by
  have hleaf := node_descend hS hT hT' n 0 0 le_rfl le_rfl (by simp) (by simp) hroot hi
  simpa [node] using hleaf

/-- Some slot below a place is not null. -/
def Occupied (null : α) (T : ℕ → α) (k i : ℕ) : Prop := ∃ s, s / 2 ^ k = i ∧ T s ≠ null

/-- What tells the nodes of some trees of height `n` apart: the hashed pairs do not collide, no
value is a digest of one of them, and every value has its own slot. -/
structure Apart (h : α → α → α) (null : α) (n : ℕ) (trees : Set (ℕ → α)) : Prop where
  inj : Set.InjOn (Function.uncurry h) {q | ∃ T ∈ trees, q ∈ nodePairs h T n}
  leaf : ∀ T ∈ trees, ∀ s, T s ≠ null → ∀ T' ∈ trees, ∀ q ∈ nodePairs h T' n,
    Function.uncurry h q ≠ T s
  slot : ∀ T ∈ trees, ∀ T' ∈ trees, ∀ s s', T s ≠ null → T s = T' s' → s = s'

variable {null : α} {trees : Set (ℕ → α)} {k k' i i' : ℕ}

/-- The values below equal nodes, of which the first is not the higher one. -/
lemma Apart.leaf_eq (ha : Apart h null n trees) (hT : T ∈ trees) (hT' : T' ∈ trees) (hk : k ≤ k')
    (hk' : k' ≤ n) (hi : i < 2 ^ (n - k)) (hi' : i' < 2 ^ (n - k'))
    (heq : node h T k i = node h T' k' i') {s : ℕ} (hs : s / 2 ^ k = i) :
    T s = node h T' (k' - k) (i' * 2 ^ k + s % 2 ^ k) := by
  have hdown := node_descend ha.inj (fun q hq => ⟨T, hT, hq⟩) (fun q hq => ⟨T', hT', hq⟩) k 0
    (k' - k) (by omega) (by omega) (by simpa using hi) (by rwa [show k + (k' - k) = k' by omega])
    (by rwa [show k + (k' - k) = k' by omega]) (Nat.mod_lt s (by positivity))
  rwa [← hs, Nat.div_add_mod'] at hdown

/-- A node above the leaves is a digest of one of the pairs. -/
lemma node_mem_digests (hk : 0 < k) (hkn : k ≤ n) (hi : i < 2 ^ (n - k)) :
    ∃ q ∈ nodePairs h T n, Function.uncurry h q = node h T k i := by
  obtain ⟨k, rfl⟩ : ∃ k', k = k' + 1 := ⟨k - 1, by omega⟩
  refine ⟨(node h T k (2 * i), node h T k (2 * i + 1)), ⟨k, i, by omega, ?_, rfl⟩, rfl⟩
  rwa [show n - 1 - k = n - (k + 1) by omega]

/-- The place of a node below another one. -/
lemma below_lt (hk : k ≤ k') (hk' : k' ≤ n) (hi' : i' < 2 ^ (n - k')) {t : ℕ} (ht : t < 2 ^ k) :
    i' * 2 ^ k + t < 2 ^ (n - (k' - k)) := by
  have hpow : 2 ^ (n - (k' - k)) = 2 ^ (n - k') * 2 ^ k := by
    rw [← pow_add, show n - k' + k = n - (k' - k) by omega]
  calc i' * 2 ^ k + t < i' * 2 ^ k + 2 ^ k := by omega
    _ = (i' + 1) * 2 ^ k := by ring
    _ ≤ 2 ^ (n - k') * 2 ^ k := Nat.mul_le_mul_right _ hi'
    _ = 2 ^ (n - (k' - k)) := hpow.symm

/-- **Occupied places with equal nodes are the same**, when the first is not the higher one: a value
below the first would be the digest of a pair, or stand in two slots. -/
lemma Apart.eq_of_le (ha : Apart h null n trees) (hT : T ∈ trees) (hT' : T' ∈ trees)
    (hk : k ≤ k') (hk' : k' ≤ n) (hi : i < 2 ^ (n - k)) (hi' : i' < 2 ^ (n - k'))
    (hocc : Occupied null T k i) (heq : node h T k i = node h T' k' i') : k = k' ∧ i = i' := by
  obtain ⟨s, hs, hne⟩ := hocc
  have hleaf := ha.leaf_eq hT hT' hk hk' hi hi' heq hs
  have hmod : s % 2 ^ k < 2 ^ k := Nat.mod_lt _ (by positivity)
  rcases hk.eq_or_lt with rfl | hlt
  · refine ⟨rfl, ?_⟩
    rw [Nat.sub_self] at hleaf
    have hslot := ha.slot T hT T' hT' s _ hne hleaf
    have hdiv : (i' * 2 ^ k + s % 2 ^ k) / 2 ^ k = i' := by
      rw [Nat.mul_comm, Nat.mul_add_div (by positivity), Nat.div_eq_of_lt hmod, Nat.add_zero]
    rw [← hs, hslot, hdiv]
  · obtain ⟨q, hq, hdigest⟩ := node_mem_digests (h := h) (T := T') (n := n) (k := k' - k)
      (by omega) (by omega) (below_lt hk hk' hi' hmod)
    exact absurd (hdigest.trans hleaf.symm) (ha.leaf T hT s hne T' hT' q hq)

/-- **Occupied places with equal nodes are the same.** -/
theorem Apart.eq_of_node_eq (ha : Apart h null n trees) (hT : T ∈ trees) (hT' : T' ∈ trees)
    (hk : k ≤ n) (hk' : k' ≤ n) (hi : i < 2 ^ (n - k)) (hi' : i' < 2 ^ (n - k'))
    (hocc : Occupied null T k i) (hocc' : Occupied null T' k' i')
    (heq : node h T k i = node h T' k' i') : k = k' ∧ i = i' := by
  rcases Nat.le_total k k' with hle | hle
  · exact ha.eq_of_le hT hT' hle hk' hi hi' hocc heq
  · obtain ⟨hkk, hii⟩ := ha.eq_of_le hT' hT hle hk hi' hi hocc' heq.symm
    exact ⟨hkk.symm, hii.symm⟩

/-- **The node of an empty place above the leaves is not that of an occupied one.** If the occupied
place is higher, all nodes at one height below it are null, and a value stands below two of
them. -/
lemma Apart.node_ne_of_empty (ha : Apart h null n trees) (hT : T ∈ trees) (hT' : T' ∈ trees)
    (hpos : 0 < k) (hk : k ≤ n) (hk' : k' ≤ n) (hi : i < 2 ^ (n - k)) (hi' : i' < 2 ^ (n - k'))
    (hempty : ¬ Occupied null T k i) (hocc : Occupied null T' k' i') :
    node h T k i ≠ node h T' k' i' := by
  intro heq
  have hnull : ∀ t < 2 ^ k, T (i * 2 ^ k + t) = null := by
    intro t ht
    by_contra hne
    refine hempty ⟨i * 2 ^ k + t, ?_, hne⟩
    rw [Nat.mul_comm, Nat.mul_add_div (by positivity), Nat.div_eq_of_lt ht, Nat.add_zero]
  rcases Nat.lt_or_ge k k' with hlt | hle
  · obtain ⟨s, hs, hne⟩ := hocc
    -- the node above the value at the height that is left, and another one
    have hdiv : s / 2 ^ (k' - k) / 2 ^ k = i' := by
      rw [Nat.div_div_eq_div_mul, ← pow_add, show k' - k + k = k' by omega, hs]
    have htwo : 2 ≤ 2 ^ k := Nat.le_self_pow (by omega) 2
    obtain ⟨t, ht, hother⟩ : ∃ t < 2 ^ k, t ≠ s / 2 ^ (k' - k) % 2 ^ k := by
      by_cases hzero : s / 2 ^ (k' - k) % 2 ^ k = 0
      · exact ⟨1, by omega, by omega⟩
      · exact ⟨0, by omega, fun h => hzero h.symm⟩
    have hdown : ∀ t < 2 ^ k, node h T' (k' - k) (i' * 2 ^ k + t) = null := by
      intro t ht
      have := node_descend ha.inj (fun q hq => ⟨T, hT, hq⟩) (fun q hq => ⟨T', hT', hq⟩) k 0
        (k' - k) (by omega) (by omega) (by simpa using hi)
        (by rwa [show k + (k' - k) = k' by omega])
        (by rwa [show k + (k' - k) = k' by omega]) ht
      rw [← this]
      exact hnull t ht
    have hmod : s / 2 ^ (k' - k) % 2 ^ k < 2 ^ k := Nat.mod_lt _ (by positivity)
    have hsame := (hdown _ hmod).trans (hdown t ht).symm
    have hplace : i' * 2 ^ k + s / 2 ^ (k' - k) % 2 ^ k = s / 2 ^ (k' - k) := by
      rw [← hdiv, Nat.div_add_mod']
    have hplaces := ha.eq_of_le hT' hT' le_rfl (by omega) (below_lt hlt.le hk' hi' hmod)
      (below_lt hlt.le hk' hi' ht) ⟨s, hplace.symm, hne⟩ hsame
    omega
  · obtain ⟨s, hs, hne⟩ := hocc
    have hleaf := ha.leaf_eq hT' hT hle hk hi' hi heq.symm hs
    have hmod : s % 2 ^ k' < 2 ^ k' := Nat.mod_lt _ (by positivity)
    rcases hle.eq_or_lt with rfl | hlt
    · rw [Nat.sub_self, node, hnull _ hmod] at hleaf
      exact hne hleaf
    · obtain ⟨q, hq, hdigest⟩ := node_mem_digests (h := h) (T := T) (n := n) (k := k - k')
        (by omega) (by omega) (below_lt hle hk hi hmod)
      exact ha.leaf T' hT' s hne T hT q hq (hdigest.trans hleaf.symm)

end Equal

end SparseMerkle
