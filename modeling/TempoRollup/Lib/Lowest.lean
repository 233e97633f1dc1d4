import Mathlib.Data.Finset.Card
import Mathlib.Order.Lattice

set_option relaxedAutoImplicit false
set_option autoImplicit false

/-!
# The lowest elements of a set

A set that keeps the lowest elements of a growing set, as many as it has room for, and what may
happen to it when an element is added.

## Main definitions

* `IsLowest` — the kept elements are the lowest ones, as many as there is room for.

## Main results

* `IsLowest.unique` — they are determined by the set.
* `IsLowest.insert_of_lt`, `IsLowest.insert_beyond`, `IsLowest.insert_erase_iff` — an element is
  added where there is room, beyond all kept ones, and in the place of the last kept one.
-/

namespace Lowest

variable {α : Type} [LinearOrder α]

/-- The kept elements are the lowest of all, as many as there is room for. -/
structure IsLowest (room : ℕ) (all kept : Finset α) : Prop where
  subset : kept ⊆ all
  card_eq : kept.card = min room all.card
  below : ∀ x ∈ kept, ∀ y ∈ all, y ∉ kept → x < y

variable {room : ℕ} {all kept kept' : Finset α} {x last : α}

/-- Nothing is kept where there is no room. -/
lemma isLowest_zero (all : Finset α) : IsLowest 0 all ∅ :=
  ⟨Finset.empty_subset all, by simp, by simp⟩

/-- One element, with room for it. -/
lemma isLowest_singleton (hroom : 0 < room) (x : α) : IsLowest room {x} {x} := by
  refine ⟨Finset.Subset.refl _, ?_, fun y _ z hz hnot => absurd hz hnot⟩
  rw [Finset.card_singleton, Nat.min_eq_right hroom]

/-- Of two choices of the lowest elements, neither keeps one that the other does not. -/
lemma IsLowest.subset_of_card_le (h : IsLowest room all kept) (h' : IsLowest room all kept') :
    kept ⊆ kept' := by
  intro x hx
  by_contra hnot
  -- all that the other keeps is lower, and so kept by this one
  have hlower : kept' ⊆ kept := by
    intro y hy
    by_contra hy'
    exact absurd (h.below x hx y (h'.subset hy) hy') (h'.below y hy x (h.subset hx) hnot).asymm
  have hcard : kept.card ≤ kept'.card := by rw [h.card_eq, h'.card_eq]
  rw [Finset.eq_of_subset_of_card_le hlower hcard] at hnot
  exact hnot hx

/-- **The lowest elements are determined** by the set and the room. -/
theorem IsLowest.unique (h : IsLowest room all kept) (h' : IsLowest room all kept') :
    kept = kept' :=
  Finset.Subset.antisymm (h.subset_of_card_le h') (h'.subset_of_card_le h)

/-- Where there is room left, all elements are kept. -/
lemma IsLowest.eq_of_lt (h : IsLowest room all kept) (hroom : kept.card < room) : kept = all := by
  refine Finset.eq_of_subset_of_card_le h.subset ?_
  have hcard := h.card_eq
  omega

/-- **An element is added** where there is room for it. -/
theorem IsLowest.insert_of_lt (h : IsLowest room all kept) (hroom : kept.card < room) (x : α) :
    IsLowest room (insert x all) (insert x kept) := by
  have hcard := congrArg Finset.card (h.eq_of_lt hroom)
  rw [h.eq_of_lt hroom]
  refine ⟨Finset.Subset.refl _, ?_, fun y _ z hz hnot => absurd hz hnot⟩
  have hle := Finset.card_insert_le x all
  omega

/-- **An element beyond all kept ones** is not needed when there is no room for it. -/
theorem IsLowest.insert_beyond (h : IsLowest room all kept) (hroom : room ≤ kept.card)
    (hbeyond : ∀ y ∈ kept, y < x) : IsLowest room (insert x all) kept := by
  refine ⟨h.subset.trans (Finset.subset_insert _ _), ?_, fun y hy z hz hnot => ?_⟩
  · have hcard := h.card_eq
    have hle := Finset.card_le_card (Finset.subset_insert x all)
    omega
  · rcases Finset.mem_insert.1 hz with rfl | hz
    · exact hbeyond y hy
    · exact h.below y hy z hz hnot

/-- **An element takes the place of the last kept one.** The lowest elements are kept exactly if it
is new or is that last one.

**Proof sketch.** An element that was kept, other than the last one, leaves one element less than
before. A new one is below the last one, which then is the greatest of what is not kept. -/
theorem IsLowest.insert_erase_iff (h : IsLowest room all kept) (hroom : room ≤ kept.card)
    (hlast : last ∈ kept) (hmax : ∀ y ∈ kept, y ≤ last) (hx : x ≤ last) :
    IsLowest room (insert x all) (insert x (kept.erase last)) ↔ (x ∈ kept → x = last) := by
  have hcard := h.card_eq
  have hpos := Finset.card_pos.2 ⟨last, hlast⟩
  have herase := Finset.card_erase_of_mem hlast
  constructor
  · intro h' hmem
    by_contra hne
    -- one element less is kept than before
    rw [Finset.insert_eq_of_mem (h.subset hmem),
      Finset.insert_eq_of_mem (Finset.mem_erase.2 ⟨hne, hmem⟩)] at h'
    have hcard' := h'.card_eq
    omega
  · intro hnew
    by_cases hmem : x ∈ kept
    · rw [hnew hmem, Finset.insert_erase hlast, Finset.insert_eq_of_mem (h.subset hlast)]
      exact h
    have hlt : x < last := lt_of_le_of_ne hx fun heq => hmem (heq ▸ hlast)
    have hx' : x ∉ all := fun hall => absurd (h.below last hlast x hall hmem) hlt.asymm
    refine ⟨Finset.insert_subset_insert x ((Finset.erase_subset _ _).trans h.subset), ?_, ?_⟩
    · rw [Finset.card_insert_of_notMem fun hin => hmem (Finset.mem_of_mem_erase hin),
        Finset.card_insert_of_notMem hx']
      omega
    · -- what is not kept is the last one, or was not kept before
      intro y hy z hz hnot
      rw [Finset.mem_insert, not_or, Finset.mem_erase, not_and] at hnot
      have hz' : z ∈ all := (Finset.mem_insert.1 hz).resolve_left hnot.1
      have hle : last ≤ z := by
        by_cases heq : z = last
        · exact heq.ge
        · exact (h.below last hlast z hz' (hnot.2 heq)).le
      rcases Finset.mem_insert.1 hy with rfl | hy
      · exact hlt.trans_le hle
      · obtain ⟨hne, hkept⟩ := Finset.mem_erase.1 hy
        exact (lt_of_le_of_ne (hmax y hkept) hne).trans_le hle

end Lowest
