import Mathlib.Algebra.BigOperators.Group.Finset.Basic
import Mathlib.Algebra.GroupWithZero.Nat
import Mathlib.Algebra.Order.BigOperators.Group.Finset
import Std.Data.TreeMap.Lemmas

set_option relaxedAutoImplicit false
set_option autoImplicit false

/-!
# Tallies

The sum of the weights of the keys of a map, and a counter of fixed width that keeps it while
keys come and go.

## Main definitions

* `Tally.tally` — the sum of the weights of the keys.

## Main results

* `Tally.tally_insert`, `tally_erase` — a key that comes or goes.
* `Tally.tally_le`, `tally_eq_ite` — keys that weigh nothing do not count.
* `Tally.sum_values` — the sum of the values of a map is a tally.
* `Tally.wrap_sub` — a counter that wraps around follows the tally.
-/

namespace Tally

open Std

section Tally

variable {K V V' : Type} [DecidableEq K] {cmp : K → K → Ordering} {t : TreeMap K V cmp}
  {t' : TreeMap K V' cmp} {weight : K → ℕ} {k : K}

/-- The sum of the weights of the keys. -/
def tally (weight : K → ℕ) (t : TreeMap K V cmp) : ℕ := ∑ k ∈ t.keys.toFinset, weight k

variable [TransCmp cmp] [LawfulEqCmp cmp]

/-- The keys as a finite set. -/
lemma mem_keys : k ∈ t.keys.toFinset ↔ k ∈ t := by
  rw [List.mem_toFinset, TreeMap.mem_keys]

/-- The tally is the sum over any list of the keys. -/
lemma tally_eq_sum {keys : List K} (hnodup : keys.Nodup) (hmem : ∀ k, k ∈ t ↔ k ∈ keys) :
    tally weight t = (keys.map weight).sum := by
  have hkeys : t.keys.toFinset = keys.toFinset := by
    ext k
    rw [mem_keys, hmem, List.mem_toFinset]
  rw [tally, hkeys, List.sum_toFinset weight hnodup]

/-- A tally depends on the weights of its keys only. -/
lemma tally_congr {weight' : K → ℕ} (h : ∀ k ∈ t, weight k = weight' k) :
    tally weight t = tally weight' t :=
  Finset.sum_congr rfl fun k hk => h k (mem_keys.1 hk)

/-- The tally of nothing is zero. -/
lemma tally_empty : tally weight (∅ : TreeMap K V cmp) = 0 :=
  tally_eq_sum List.nodup_nil fun _ => by simp

/-- No key weighs more than all of them. -/
lemma le_tally (h : k ∈ t) : weight k ≤ tally weight t :=
  Finset.single_le_sum_of_canonicallyOrdered (mem_keys.2 h)

/-- **Keys that weigh nothing do not count.** -/
theorem tally_le (h : ∀ k ∈ t, weight k ≠ 0 → k ∈ t') : tally weight t ≤ tally weight t' :=
  Finset.sum_le_sum_of_ne_zero fun k hk hne => mem_keys.2 (h k (mem_keys.1 hk) hne)

/-- **A tally inside another map**, in which all keys of some weight are. -/
theorem tally_eq_ite (h : ∀ k ∈ t, weight k ≠ 0 → k ∈ t') :
    tally weight t = tally (fun k => if k ∈ t then weight k else 0) t' := by
  rw [tally, tally, ← Finset.sum_filter]
  refine (Finset.sum_subset (fun k hk => ?_) fun k hk hnot => ?_).symm
  · exact mem_keys.2 (Finset.mem_filter.1 hk).2
  · rw [mem_keys] at hk
    by_contra hne
    exact hnot (Finset.mem_filter.2 ⟨mem_keys.2 (h k hk hne), hk⟩)

/-- A new key adds its weight. -/
theorem tally_insert {v : V} (h : k ∉ t) :
    tally weight (t.insert k v) = tally weight t + weight k := by
  have hkeys : (t.insert k v).keys.toFinset = insert k t.keys.toFinset := by
    ext a
    rw [mem_keys, TreeMap.mem_insert, LawfulEqCmp.compare_eq_iff_eq, Finset.mem_insert, mem_keys,
      eq_comm]
  rw [tally, hkeys, Finset.sum_insert (mem_keys.not.2 h), add_comm, tally]

/-- A key that goes takes its weight with it. -/
theorem tally_erase (h : k ∈ t) : tally weight (t.erase k) + weight k = tally weight t := by
  have hkeys : (t.erase k).keys.toFinset = t.keys.toFinset.erase k := by
    ext a
    rw [mem_keys, TreeMap.mem_erase, ne_eq, LawfulEqCmp.compare_eq_iff_eq, Finset.mem_erase,
      mem_keys, ne_eq, eq_comm]
  rw [tally, hkeys, add_comm, Finset.add_sum_erase _ _ (mem_keys.2 h), tally]

/-- **The sum of the values of a map** is the tally that weighs each key by its value. -/
theorem sum_values (f : V → ℕ) :
    (t.values.map f).sum = tally (fun k => (t[k]?.map f).getD 0) t := by
  have hvalues : t.values = t.toList.map Prod.snd := by
    change t.inner.inner.values = (DTreeMap.Internal.Impl.Const.toList t.inner.inner).map Prod.snd
    rw [DTreeMap.Internal.Impl.values_eq_map_snd,
      DTreeMap.Internal.Impl.Const.toList_eq_toListModel_map, List.map_map]
    rfl
  rw [tally, List.sum_toFinset _ TreeMap.nodup_keys, ← TreeMap.map_fst_toList_eq_keys, hvalues,
    List.map_map, List.map_map]
  congr 1
  refine List.map_congr_left fun entry hentry => ?_
  have hget := TreeMap.mem_toList_iff_getElem?_eq_some.1 hentry
  simp only [Function.comp_apply, hget, Option.map_some, Option.getD_some]

end Tally

/-! ## Counters that wrap around -/

/-- The counter after a weight went, which is not above the width. A weight that comes is
`Nat.mod_add_mod`. -/
theorem wrap_sub {m total weight : ℕ} (h : weight ≤ m) :
    ((total + weight) % m + m - weight) % m = total % m := by
  have hsum : total + weight + (m - weight) = total + m := by omega
  rw [Nat.add_sub_assoc h, Nat.mod_add_mod, hsum, Nat.add_mod_right]

end Tally
