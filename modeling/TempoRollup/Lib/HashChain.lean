import Mathlib.Data.List.Induction
import Mathlib.Data.Set.Function
import Mathlib.Tactic.Ring

set_option relaxedAutoImplicit false
set_option autoImplicit false

/-!
# Chained hashing

Hashing a string block by block: the string is cut into chunks of equal size, the last chunk is
padded, and a compression function folds the chunks into a running digest.

## Main definitions

* `HashChain.chunks` — the chunks of a list.
* `HashChain.padded` — the list, padded to a multiple of the chunk size.
* `HashChain.steps` — what the compression function is applied to.

## Main results

* `HashChain.map_rightpad_chunks_inj` — two lists have the same padded chunks exactly if they are
  the same list after the padding.
* `HashChain.foldl_eq_iff` — if the compression function has no collision among its arguments, and
  no value that is the start of a chain, then equal digests come from equal chunks.

## Design

A compression function has collisions, so it is asked to be injective on a set that has the
arguments of the two chains, and on no others.
-/

namespace HashChain

/-! ## Chunks -/

section Chunks

variable {α : Type} {n : ℕ}

/-- The chunks of `n` values each; the last one may be shorter. -/
def chunks (n : ℕ) (l : List α) : List (List α) :=
  (List.range ((l.length + n - 1) / n)).map fun i => (l.drop (i * n)).take n

/-- The list, padded to a multiple of the chunk size. -/
def padded (n : ℕ) (z : α) (l : List α) : List α := l.rightpad ((l.length + n - 1) / n * n) z

/-- Nothing has no chunks. -/
@[simp] lemma chunks_nil (hn : 0 < n) : chunks n ([] : List α) = [] := by
  have hzero : (n - 1) / n = 0 := Nat.div_eq_of_lt (by omega)
  simp [chunks, hzero]

/-- A list that is not empty has one chunk more than the rest of it. -/
lemma count_eq (hn : 0 < n) {l : List α} (hl : l ≠ []) :
    (l.length + n - 1) / n = ((l.drop n).length + n - 1) / n + 1 := by
  have hpos := List.length_pos_iff.2 hl
  rw [List.length_drop]
  rcases Nat.lt_or_ge n l.length with hlt | hge
  · rw [← Nat.add_div_right _ hn]
    congr 1
    omega
  · have hnone : (l.length - n + n - 1) / n = 0 := Nat.div_eq_of_lt (by omega)
    rw [hnone]
    exact Nat.div_eq_of_lt_le (by omega) (by omega)

/-- The first chunk, and those of the rest. -/
lemma chunks_of_ne_nil (hn : 0 < n) {l : List α} (hl : l ≠ []) :
    chunks n l = l.take n :: chunks n (l.drop n) := by
  rw [chunks, count_eq hn hl, List.range_succ_eq_map, List.map_cons, List.map_map, chunks,
    Nat.zero_mul, List.drop_zero]
  congr 1
  apply List.map_congr_left
  intro i _
  rw [Function.comp_apply, List.drop_drop, Nat.succ_mul, Nat.add_comm]

/-- The padding of a list that is not empty is that of the rest of it. -/
lemma padded_of_ne_nil (hn : 0 < n) (z : α) {l : List α} (hl : l ≠ []) :
    padded n z l = (l.take n).rightpad n z ++ padded n z (l.drop n) := by
  have hpos := List.length_pos_iff.2 hl
  rw [padded, padded, count_eq hn hl]
  rcases Nat.lt_or_ge n l.length with hlt | hge
  · have htake : (l.take n).rightpad n z = l.take n := by
      rw [List.rightpad, List.length_take_of_le hlt.le, Nat.sub_self, List.replicate_zero,
        List.append_nil]
    rw [htake, List.rightpad, List.rightpad, ← List.append_assoc, List.take_append_drop,
      List.length_drop, Nat.succ_mul]
    congr 2
    omega
  · have hdrop : l.drop n = [] := List.drop_eq_nil_of_le hge
    have hzero : (n - 1) / n = 0 := Nat.div_eq_of_lt (by omega)
    rw [hdrop, List.take_of_length_le hge]
    simp [List.rightpad, hzero]

/-- **The padded chunks** joined are the padded list. By induction on the length. -/
lemma flatten_map_rightpad (hn : 0 < n) (z : α) (l : List α) :
    ((chunks n l).map (List.rightpad n z)).flatten = padded n z l := by
  induction hlen : l.length using Nat.strong_induction_on generalizing l with
  | _ length ih =>
    by_cases hl : l = []
    · have hzero : (n - 1) / n = 0 := Nat.div_eq_of_lt (by omega)
      simp [hl, chunks_nil hn, padded, List.rightpad, hzero]
    · have hpos := List.length_pos_iff.2 hl
      rw [chunks_of_ne_nil hn hl, List.map_cons, List.flatten_cons, padded_of_ne_nil hn z hl,
        ih (l.drop n).length (by rw [List.length_drop]; omega) (l.drop n) rfl]

/-- A padded chunk is full. -/
lemma length_rightpad_of_mem_chunks (z : α) {l : List α} {chunk : List α}
    (h : chunk ∈ chunks n l) : (chunk.rightpad n z).length = n := by
  obtain ⟨i, -, rfl⟩ := List.mem_map.1 h
  rw [List.length_rightpad]
  exact Nat.max_eq_left (List.length_take_le _ _)

/-- Lists of blocks of one length are equal if they are equal when joined. -/
lemma eq_of_flatten_eq {as bs : List (List α)} (hn : 0 < n) (ha : ∀ a ∈ as, a.length = n)
    (hb : ∀ b ∈ bs, b.length = n) (h : as.flatten = bs.flatten) : as = bs := by
  induction as generalizing bs with
  | nil =>
    cases bs with
    | nil => rfl
    | cons b bs =>
      have hempty : b = [] := (List.append_eq_nil_iff.1 h.symm).1
      have hb' := hb b List.mem_cons_self
      rw [hempty, List.length_nil] at hb'
      omega
  | cons a as ih =>
    have ha' := ha a List.mem_cons_self
    cases bs with
    | nil =>
      rw [(List.append_eq_nil_iff.1 h).1, List.length_nil] at ha'
      omega
    | cons b bs =>
      obtain ⟨rfl, hrest⟩ := List.append_inj h (by rw [ha', hb b List.mem_cons_self])
      rw [ih (fun c hc => ha c (List.mem_cons_of_mem _ hc))
        (fun c hc => hb c (List.mem_cons_of_mem _ hc)) hrest]

/-- **What padding forgets.** Two lists have the same padded chunks exactly if they are the same
list after the padding. -/
theorem map_rightpad_chunks_inj (hn : 0 < n) (z : α) (as bs : List α) :
    (chunks n as).map (List.rightpad n z) = (chunks n bs).map (List.rightpad n z) ↔
      padded n z as = padded n z bs := by
  rw [← flatten_map_rightpad hn, ← flatten_map_rightpad hn]
  constructor
  · intro h
    rw [h]
  · intro h
    apply eq_of_flatten_eq hn _ _ h
    · intro block hblock
      obtain ⟨chunk, hchunk, rfl⟩ := List.mem_map.1 hblock
      exact length_rightpad_of_mem_chunks z hchunk
    · intro block hblock
      obtain ⟨chunk, hchunk, rfl⟩ := List.mem_map.1 hblock
      exact length_rightpad_of_mem_chunks z hchunk

end Chunks

/-! ## Chains -/

section Chains

variable {D B : Type} (f : D → B → D)

/-- What the compression function is applied to along a chain. -/
def steps : D → List B → List (D × B)
  | _, [] => []
  | digest, block :: blocks => (digest, block) :: steps (f digest block) blocks

/-- One more block is one more step. -/
lemma steps_concat (iv : D) (blocks : List B) (block : B) :
    steps f iv (blocks ++ [block]) = steps f iv blocks ++ [(blocks.foldl f iv, block)] := by
  induction blocks generalizing iv with
  | nil => rfl
  | cons first blocks ih =>
    rw [List.cons_append, steps, ih, steps, List.foldl_cons, List.cons_append]

variable {f} {iv : D} {S : Set (D × B)}

/-- **Equal digests come from equal blocks**, if the compression function is injective on a set
that has the arguments of both chains, and has no value there that is the start of a chain. By
induction from the last block on: the digests before it are equal, too. -/
theorem foldl_eq_iff (hinj : S.InjOn fun p => f p.1 p.2) (hiv : ∀ p ∈ S, f p.1 p.2 ≠ iv)
    {as bs : List B} (ha : ∀ p ∈ steps f iv as, p ∈ S) (hb : ∀ p ∈ steps f iv bs, p ∈ S) :
    as.foldl f iv = bs.foldl f iv ↔ as = bs := by
  constructor
  · intro h
    induction as using List.reverseRecOn generalizing bs with
    | nil =>
      rcases List.eq_nil_or_concat bs with rfl | ⟨bs, b, rfl⟩
      · rfl
      · rw [List.concat_eq_append] at h hb
        rw [steps_concat, List.forall_mem_append, List.forall_mem_singleton] at hb
        rw [List.foldl_append, List.foldl_cons, List.foldl_nil] at h
        exact absurd h.symm (hiv _ hb.2)
    | append_singleton as a ih =>
      rw [steps_concat, List.forall_mem_append, List.forall_mem_singleton] at ha
      rw [List.foldl_append, List.foldl_cons, List.foldl_nil] at h
      rcases List.eq_nil_or_concat bs with rfl | ⟨bs, b, rfl⟩
      · exact absurd h (hiv _ ha.2)
      · rw [List.concat_eq_append] at h hb ⊢
        rw [steps_concat, List.forall_mem_append, List.forall_mem_singleton] at hb
        rw [List.foldl_append, List.foldl_cons, List.foldl_nil] at h
        obtain ⟨hdigest, rfl⟩ := Prod.mk.inj (hinj ha.2 hb.2 h)
        rw [ih ha.1 hb.1 hdigest]
  · rintro rfl
    rfl

end Chains

end HashChain
