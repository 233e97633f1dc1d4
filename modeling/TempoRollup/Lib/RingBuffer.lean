import Mathlib.Data.Fin.Basic
import Mathlib.Data.List.GetD
import Mathlib.Data.ZMod.Defs
import Mathlib.Logic.Function.Basic
import Mathlib.Tactic.Abel

set_option relaxedAutoImplicit false
set_option autoImplicit false

/-!
# Ring buffers

A buffer with a fixed number of slots that are written one after the other, again from the first
one when all are used.

## Main definitions

* `RingBuffer` — the slots, and which of them is written next.
* `RingBuffer.push` — one write.
* `RingBuffer.Recent` — the slots hold the last values of a list, the newest first.
* `RingBuffer.Holds` — the same for a ring that started with null values.

## Main results

* `RingBuffer.Recent.push` — a write puts a value in front of the recent ones.
* `RingBuffer.Recent.exists_slot` — as many recent values as there are slots are found.
* `RingBuffer.Holds.exists_slot_iff` — and nothing else.
-/

/-- The slots of a ring buffer, and the one that is written next. -/
structure RingBuffer (α : Type) (n : ℕ) where
  slots : Fin n → α
  next : Fin n

namespace RingBuffer

variable {α : Type} {n : ℕ} [NeZero n]

/-- Write the next slot. -/
def push (r : RingBuffer α n) (x : α) : RingBuffer α n :=
  ⟨Function.update r.slots r.next x, r.next + 1⟩

/-- The ring holds the values of a list, the newest first, as far as they fit. -/
def Recent (r : RingBuffer α n) (xs : List α) : Prop :=
  ∀ k x, k < n → xs[k]? = some x → r.slots (r.next - Fin.ofNat n (k + 1)) = x

/-- Nothing was pushed recently. -/
lemma recent_nil (r : RingBuffer α n) : r.Recent [] := by
  intro k x _ hx
  simp at hx

/-- Slots that were written at most `n - 1` writes before are not overwritten. -/
lemma sub_ofNat_succ_ne (i : Fin n) {k : ℕ} (hk : k + 1 < n) : i - Fin.ofNat n (k + 1) ≠ i := by
  intro h
  have hzero : Fin.ofNat n (k + 1) = 0 := by
    rwa [sub_eq_self] at h
  have hval := congrArg Fin.val hzero
  rw [Fin.val_ofNat, Nat.mod_eq_of_lt hk] at hval
  exact absurd hval (by simp)

/-- The slot that was written last holds the value. -/
lemma slots_push_last (r : RingBuffer α n) (x : α) :
    (r.push x).slots ((r.push x).next - Fin.ofNat n (0 + 1)) = x := by
  have hone : r.next + 1 - Fin.ofNat n (0 + 1) = r.next := by
    change r.next + 1 - 1 = r.next
    abel
  simp only [push]
  rw [hone, Function.update_self]

/-- The slots that were written before are one write older. -/
lemma slots_push_before (r : RingBuffer α n) (x : α) {k : ℕ} (hk : k + 1 < n) :
    (r.push x).slots ((r.push x).next - Fin.ofNat n (k + 1 + 1)) =
      r.slots (r.next - Fin.ofNat n (k + 1)) := by
  have hsub : r.next + 1 - Fin.ofNat n (k + 1 + 1) = r.next - Fin.ofNat n (k + 1) := by
    have hsucc : Fin.ofNat n (k + 1 + 1) = Fin.ofNat n (k + 1) + 1 := by
      ext
      simp [Fin.val_add]
    rw [hsucc]
    abel
  simp only [push]
  rw [hsub, Function.update_of_ne (sub_ofNat_succ_ne r.next hk)]

/-- **A write** puts a value in front of the recent ones. -/
theorem Recent.push {r : RingBuffer α n} {xs : List α} (h : r.Recent xs) (x : α) :
    (r.push x).Recent (x :: xs) := by
  intro k y hk hy
  cases k with
  | zero =>
    rw [slots_push_last]
    simpa using hy
  | succ k =>
    rw [slots_push_before r x hk]
    exact h k y (by omega) (by simpa using hy)

/-- A recent value is in some slot. -/
theorem Recent.exists_slot {r : RingBuffer α n} {xs : List α} (h : r.Recent xs) {k : ℕ} {x : α}
    (hk : k < n) (hx : xs[k]? = some x) : ∃ j, r.slots j = x :=
  ⟨_, h k x hk hx⟩

/-! ## A ring that started empty -/

/-- The ring holds the values of a list, the newest first, as far as they fit, and a null value in
the slots that are left. -/
def Holds (r : RingBuffer α n) (null : α) (xs : List α) : Prop :=
  ∀ k < n, r.slots (r.next - Fin.ofNat n (k + 1)) = xs.getD k null

/-- A ring whose slots are all null holds nothing. -/
lemma holds_nil {r : RingBuffer α n} {null : α} (h : ∀ j, r.slots j = null) : r.Holds null [] := by
  intro k _
  rw [h]
  rfl

/-- **A write** puts a value in front of the others. -/
lemma Holds.push {r : RingBuffer α n} {null : α} {xs : List α} (h : r.Holds null xs) (x : α) :
    (r.push x).Holds null (x :: xs) := by
  intro k hk
  cases k with
  | zero =>
    rw [slots_push_last]
    rfl
  | succ k =>
    rw [slots_push_before r x hk, h k (by omega)]
    rfl

/-- Writes put their values in front of the others, the last one first. By induction on the
writes. -/
lemma Holds.foldl_push {r : RingBuffer α n} {null : α} {xs : List α} (h : r.Holds null xs)
    (ys : List α) : (ys.foldl RingBuffer.push r).Holds null (ys.reverse ++ xs) := by
  induction ys generalizing r xs with
  | nil => exact h
  | cons y ys ih =>
    rw [List.foldl_cons, List.reverse_cons, List.append_assoc]
    exact ih (h.push y)

/-- Every slot was written some number of writes before. -/
lemma exists_eq_sub_ofNat (i j : Fin n) : ∃ k < n, j = i - Fin.ofNat n (k + 1) := by
  refine ⟨(i - j - 1).val, (i - j - 1).isLt, ?_⟩
  have hsucc : ∀ a : Fin n, Fin.ofNat n (a.val + 1) = a + 1 := by
    intro a
    ext
    simp [Fin.val_add]
  rw [hsucc]
  abel

/-- **What is found in the ring**: a value other than the null value is in some slot exactly if it
is among as many of the newest values as there are slots. -/
theorem Holds.exists_slot_iff {r : RingBuffer α n} {null : α} {xs : List α} (h : r.Holds null xs)
    {x : α} (hx : x ≠ null) : (∃ j, r.slots j = x) ↔ x ∈ xs.take n := by
  constructor
  · rintro ⟨j, rfl⟩
    obtain ⟨k, hk, rfl⟩ := exists_eq_sub_ofNat r.next j
    rw [h k hk] at hx ⊢
    -- beyond the end of the list there are null values only
    by_cases hlen : k < xs.length
    · rw [List.getD_eq_getElem _ _ hlen]
      exact List.mem_take_iff_getElem.2 ⟨k, by omega, rfl⟩
    · rw [List.getD_eq_default _ _ (not_lt.1 hlen)] at hx
      exact absurd rfl hx
  · intro hmem
    obtain ⟨k, hk, rfl⟩ := List.mem_take_iff_getElem.1 hmem
    refine ⟨_, (h k (by omega)).trans ?_⟩
    exact List.getD_eq_getElem _ _ (by omega)

end RingBuffer
