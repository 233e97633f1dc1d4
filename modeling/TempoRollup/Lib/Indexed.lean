import Mathlib.Combinatorics.Enumerative.DoubleCounting
import Mathlib.Tactic.Linarith

set_option relaxedAutoImplicit false
set_option autoImplicit false

/-!
# Values with an index

A map of values by an identifier, and a second map from a key of the values to their
identifiers.

## Main definitions

* `Indexed.Found` — every entry of the index leads to a value with that key.
* `Indexed.InBijection` — and every value is found through the index.

## Main results

* `Indexed.maxEntry?_eq_getLast?` — the greatest entry of a map is the last of its list.
* `InBijection.erase`, `InBijection.insert` — what keeps the two maps in bijection.
* `InBijection.eq_of_insert` — an insertion over the entry of another value does not.
* `InBijection.size_eq` — maps in bijection are of the same size.
-/

namespace Indexed

open Std

/-! ## The greatest entry of a map -/

section MaxEntry

variable {α β : Type}

/-- The greatest entry of a search tree is the last of its list. -/
lemma impl_maxEntry?_eq_getLast? (t : DTreeMap.Internal.Impl α fun _ => β) :
    DTreeMap.Internal.Impl.Const.maxEntry? t =
      (t.toListModel.map fun entry => (entry.1, entry.2)).getLast? := by
  induction t with
  | leaf =>
    rw [DTreeMap.Internal.Impl.Const.maxEntry?, DTreeMap.Internal.Impl.toListModel_leaf]
    rfl
  | inner size k v l r ihl ihr =>
    rw [DTreeMap.Internal.Impl.toListModel_inner]
    cases r with
    | leaf =>
      rw [DTreeMap.Internal.Impl.Const.maxEntry?, DTreeMap.Internal.Impl.toListModel_leaf]
      simp
    | inner size' k' v' l' r' =>
      rw [DTreeMap.Internal.Impl.Const.maxEntry?, ihr, DTreeMap.Internal.Impl.toListModel_inner]
      simp [List.getLast?_append, List.getLast?_cons]

/-- The greatest entry is the last one. -/
theorem maxEntry?_eq_getLast? {cmp : α → α → Ordering} (t : TreeMap α β cmp) :
    t.maxEntry? = t.toList.getLast? := by
  change DTreeMap.Internal.Impl.Const.maxEntry? t.inner.inner =
    (DTreeMap.Internal.Impl.Const.toList t.inner.inner).getLast?
  rw [impl_maxEntry?_eq_getLast?, DTreeMap.Internal.Impl.Const.toList_eq_toListModel_map]

variable {cmp : α → α → Ordering} [TransCmp cmp] [LawfulEqCmp cmp] {t : TreeMap α β cmp}

/-- The greatest entry is an entry, and no key is greater. -/
lemma of_maxEntry?_eq_some {k : α} {v : β} (h : t.maxEntry? = some (k, v)) :
    t[k]? = some v ∧ ∀ k' v', t[k']? = some v' → k' = k ∨ cmp k' k = .lt := by
  rw [maxEntry?_eq_getLast?] at h
  refine ⟨TreeMap.mem_toList_iff_getElem?_eq_some.1 (List.mem_of_getLast? h), fun k' v' hk' => ?_⟩
  have hmem := TreeMap.mem_toList_iff_getElem?_eq_some.2 hk'
  have hordered := TreeMap.ordered_keys_toList (t := t)
  obtain ⟨init, hinit⟩ := List.getLast?_eq_some_iff.1 h
  rw [hinit, List.pairwise_append] at hordered
  rw [hinit, List.mem_append, List.mem_singleton] at hmem
  rcases hmem with hmem | hmem
  · exact .inr (hordered.2.2 _ hmem _ List.mem_cons_self)
  · exact .inl (congrArg Prod.fst hmem)

/-- A map without a greatest entry has no entries. -/
lemma getElem?_of_maxEntry?_eq_none (h : t.maxEntry? = none) (k : α) : t[k]? = none := by
  rw [maxEntry?_eq_getLast?, List.getLast?_eq_none_iff] at h
  rcases hk : t[k]? with _ | v
  · rfl
  · have := TreeMap.mem_toList_iff_getElem?_eq_some.2 hk
    rw [h] at this
    cases this

end MaxEntry

/-! ## The keys of a map -/

section Keys

variable {α β : Type} [DecidableEq α] {cmp : α → α → Ordering} [TransCmp cmp]
  {t : TreeMap α β cmp}

/-- A key is one with a value. -/
lemma mem_keys_iff [LawfulEqCmp cmp] {k : α} : k ∈ t.keys.toFinset ↔ ∃ v, t[k]? = some v := by
  rw [List.mem_toFinset, TreeMap.mem_keys, TreeMap.mem_iff_isSome_getElem?,
    Option.isSome_iff_exists]

/-- The size of a map is the number of its keys. -/
lemma card_keys : t.keys.toFinset.card = t.size := by
  rw [List.toFinset_card_of_nodup TreeMap.nodup_keys, TreeMap.length_keys]

end Keys

/-! ## Two maps in bijection -/

section InBijection

variable {K V I : Type} [Ord K] [TransOrd K] [LawfulEqOrd K] [Ord I] [TransOrd I] [LawfulEqOrd I]

/-- Every entry of the index leads to a value with that key. -/
def Found (key : V → I) (store : TreeMap K V) (index : TreeMap I K) : Prop :=
  ∀ i k, index[i]? = some k → ∃ v, store[k]? = some v ∧ key v = i

/-- Every value is stored under its identifier and found through the index by its key, and every
entry of the index leads to a value with that key. -/
structure InBijection (ident : V → K) (key : V → I) (store : TreeMap K V) (index : TreeMap I K) :
    Prop where
  indexed : ∀ k v, store[k]? = some v → ident v = k ∧ index[key v]? = some k
  found : Found key store index

variable {ident : V → K} {key : V → I} {store : TreeMap K V} {index : TreeMap I K}

omit [LawfulEqOrd K] [LawfulEqOrd I] in
/-- Empty maps are in bijection. -/
lemma inBijection_empty : InBijection ident key (∅ : TreeMap K V) (∅ : TreeMap I K) := by
  constructor
  · intro k v h
    simp at h
  · intro i k h
    simp at h

/-- A value is removed with the entry of its key: no other entry leads to it. -/
lemma Found.erase (h : Found key store index) {k : K} {v : V} (hv : store[k]? = some v) :
    Found key (store.erase k) (index.erase (key v)) := by
  intro i k' hi
  rw [TreeMap.getElem?_erase] at hi
  split_ifs at hi with hkey
  obtain ⟨v', hv', rfl⟩ := h i k' hi
  refine ⟨v', ?_, rfl⟩
  rw [TreeMap.getElem?_erase, if_neg]
  · exact hv'
  · intro hk
    rw [LawfulEqCmp.compare_eq_iff_eq] at hkey hk
    subst hk
    rw [hv] at hv'
    exact hkey (congrArg key (Option.some.inj hv'))

/-- A value can be inserted when what is stored under its identifier has the same key. -/
lemma Found.insert (h : Found key store index) {v : V}
    (hstore : ∀ v', store[ident v]? = some v' → key v' = key v) :
    Found key (store.insert (ident v) v) (index.insert (key v) (ident v)) := by
  intro i k' hi
  rw [TreeMap.getElem?_insert] at hi
  split_ifs at hi with hkey
  · cases hi
    rw [LawfulEqCmp.compare_eq_iff_eq] at hkey
    exact ⟨v, TreeMap.getElem?_insert_self, hkey⟩
  · obtain ⟨v', hv', rfl⟩ := h i k' hi
    rw [TreeMap.getElem?_insert]
    split_ifs with hk
    · rw [LawfulEqCmp.compare_eq_iff_eq] at hkey hk
      subst hk
      exact absurd (hstore v' hv').symm hkey
    · exact ⟨v', hv', rfl⟩

/-- **Removal.** A value and its entry of the index are removed together. -/
theorem InBijection.erase (h : InBijection ident key store index) {k : K} {v : V}
    (hv : store[k]? = some v) : InBijection ident key (store.erase k) (index.erase (key v)) := by
  refine ⟨?_, h.found.erase hv⟩
  intro k' v' hv'
  rw [TreeMap.getElem?_erase] at hv'
  split_ifs at hv' with hk
  obtain ⟨hident, hindex⟩ := h.indexed k' v' hv'
  refine ⟨hident, ?_⟩
  rw [TreeMap.getElem?_erase, if_neg]
  · exact hindex
  · -- the two values have different keys, since the index leads to both
    intro hkey
    rw [LawfulEqCmp.compare_eq_iff_eq] at hkey hk
    rw [← hkey, (h.indexed k v hv).2] at hindex
    exact hk (Option.some.inj hindex)

/-- **Insertion.** A value can be inserted when its key is free or leads to its identifier
already, and what is stored under its identifier has the same key. -/
theorem InBijection.insert (h : InBijection ident key store index) {v : V}
    (hindex : ∀ k, index[key v]? = some k → k = ident v)
    (hstore : ∀ v', store[ident v]? = some v' → key v' = key v) :
    InBijection ident key (store.insert (ident v) v) (index.insert (key v) (ident v)) := by
  refine ⟨?_, h.found.insert hstore⟩
  intro k' v' hv'
  rw [TreeMap.getElem?_insert] at hv'
  rw [TreeMap.getElem?_insert]
  split_ifs at hv' with hk
  · cases hv'
    rw [LawfulEqCmp.compare_eq_iff_eq] at hk
    rw [if_pos (LawfulEqCmp.compare_eq_iff_eq.2 rfl)]
    exact ⟨hk, congrArg some hk⟩
  · obtain ⟨hident, hfound⟩ := h.indexed k' v' hv'
    refine ⟨hident, ?_⟩
    rw [if_neg]
    · exact hfound
    · intro hkey
      rw [LawfulEqCmp.compare_eq_iff_eq] at hkey hk
      rw [← hkey] at hfound
      exact hk (hindex k' hfound).symm

omit [LawfulEqOrd I] in
/-- **Orphans.** After an insertion that leaves the maps in bijection, the key did not lead to
another value. -/
theorem InBijection.eq_of_insert (h : InBijection ident key store index) {v : V}
    (hafter : InBijection ident key (store.insert (ident v) v) (index.insert (key v) (ident v)))
    {k : K} (hk : index[key v]? = some k) : k = ident v := by
  by_contra hne
  obtain ⟨v', hv', hkey⟩ := h.found _ k hk
  have hkept : (store.insert (ident v) v)[k]? = some v' := by
    rw [TreeMap.getElem?_insert, if_neg]
    · exact hv'
    · rw [LawfulEqCmp.compare_eq_iff_eq]
      exact fun heq => hne heq.symm
  have hfound := (hafter.indexed k v' hkept).2
  rw [hkey, TreeMap.getElem?_insert_self] at hfound
  exact hne (Option.some.inj hfound).symm

/-- **Sizes.** Maps in bijection are of the same size: each entry of one leads to one of the
other, and no two to the same. -/
theorem InBijection.size_eq (h : InBijection ident key store index) :
    store.size = index.size := by
  classical
  rw [← card_keys, ← card_keys]
  refine Nat.le_antisymm ?_ ?_
  · refine Finset.card_le_card_of_forall_subsingleton (fun k i => index[i]? = some k) ?_ ?_
    · intro k hk
      obtain ⟨v, hv⟩ := mem_keys_iff.1 hk
      have hindex := (h.indexed k v hv).2
      exact ⟨key v, mem_keys_iff.2 ⟨k, hindex⟩, hindex⟩
    · rintro i - k ⟨-, hk⟩ k' ⟨-, hk'⟩
      exact Option.some.inj (hk.symm.trans hk')
  · refine Finset.card_le_card_of_forall_subsingleton (fun i k => index[i]? = some k) ?_ ?_
    · intro i hi
      obtain ⟨k, hk⟩ := mem_keys_iff.1 hi
      obtain ⟨v, hv, -⟩ := h.found i k hk
      exact ⟨k, mem_keys_iff.2 ⟨v, hv⟩, hk⟩
    · rintro k - i ⟨-, hi⟩ i' ⟨-, hi'⟩
      obtain ⟨v, hv, rfl⟩ := h.found i k hi
      obtain ⟨v', hv', rfl⟩ := h.found i' k hi'
      exact congrArg key (Option.some.inj (hv.symm.trans hv'))

end InBijection

end Indexed
