import Mathlib.Data.List.Induction

set_option relaxedAutoImplicit false
set_option autoImplicit false

/-!
# High-water marks

A sender that numbers what it sends, and keeps the greatest number that it used. Some of what it
sends must have a number of its own: above a floor, and above every number that was used before.

## Main definitions

* `HighWater.mark` — the greatest number so far.
* `HighWater.Above` — what counts in a trace is above the mark before it.

## Main results

* `HighWater.above_append` — a trace in two parts.
* `HighWater.above_iff` — what counts is above the floor and above everything before it.
* `HighWater.Above.pairwise` — no two of those have the same number.
-/

namespace HighWater

variable {E : Type} (number : E → ℕ) (counts : E → Prop)

/-- The greatest number of a floor and a trace. -/
def mark (floor : ℕ) : List E → ℕ
  | [] => floor
  | e :: trace => mark (max floor (number e)) trace

/-- **What counts is above the mark** that the floor and what was sent before leave. -/
def Above (floor : ℕ) : List E → Prop
  | [] => True
  | e :: trace => (counts e → floor < number e) ∧ Above (max floor (number e)) trace

variable {number counts} {floor : ℕ}

/-- The mark of two traces one after the other. -/
lemma mark_append (as bs : List E) :
    mark number floor (as ++ bs) = mark number (mark number floor as) bs := by
  induction as generalizing floor with
  | nil => rfl
  | cons a as ih => exact ih

/-- A trace in two parts: the second one starts from the mark of the first one. -/
theorem above_append (as bs : List E) :
    Above number counts floor (as ++ bs) ↔
      Above number counts floor as ∧ Above number counts (mark number floor as) bs := by
  induction as generalizing floor with
  | nil => simp [Above, mark]
  | cons a as ih => rw [List.cons_append, Above, ih, Above, mark, and_assoc]

/-- A mark below a number has the whole trace below it. -/
lemma lt_of_mark_lt {n : ℕ} {trace : List E} (h : mark number floor trace < n) :
    floor < n ∧ ∀ e ∈ trace, number e < n := by
  induction trace generalizing floor with
  | nil => exact ⟨h, by simp⟩
  | cons e trace ih =>
    obtain ⟨hmax, hrest⟩ := ih h
    rw [List.forall_mem_cons]
    exact ⟨by omega, by omega, hrest⟩

/-- A trace below a number has its mark there. -/
lemma mark_lt {n : ℕ} {trace : List E} (hfloor : floor < n) (h : ∀ e ∈ trace, number e < n) :
    mark number floor trace < n := by
  induction trace generalizing floor with
  | nil => exact hfloor
  | cons e trace ih =>
    rw [List.forall_mem_cons] at h
    exact ih (by omega) h.2

/-- What counts is above the floor and above everything before it. By induction on the trace. -/
theorem above_iff (trace : List E) :
    Above number counts floor trace ↔
      ∀ before e after, trace = before ++ e :: after → counts e →
        floor < number e ∧ ∀ earlier ∈ before, number earlier < number e := by
  constructor
  · rintro h before e after rfl hcounts
    exact lt_of_mark_lt (((above_append before (e :: after)).1 h).2.1 hcounts)
  · intro h
    induction trace using List.reverseRecOn with
    | nil => trivial
    | append_singleton trace e ih =>
      rw [above_append]
      refine ⟨ih fun before e' after heq => h before e' (after ++ [e]) ?_, fun hcounts => ?_,
        trivial⟩
      · rw [heq, List.append_assoc, List.cons_append]
      · obtain ⟨hfloor, hearlier⟩ := h trace e [] rfl hcounts
        exact mark_lt hfloor hearlier

/-- Everything that counts has a number of its own. -/
theorem Above.pairwise [DecidablePred counts] {trace : List E}
    (h : Above number counts floor trace) :
    (trace.filter counts).Pairwise fun a b => number a < number b := by
  induction trace using List.reverseRecOn with
  | nil => exact List.Pairwise.nil
  | append_singleton trace e ih =>
    rw [above_append] at h
    rw [List.filter_append, List.pairwise_append]
    refine ⟨ih h.1, List.Pairwise.filter _ (List.pairwise_singleton _ _), fun a ha b hb => ?_⟩
    rw [List.mem_filter, List.mem_singleton] at hb
    obtain ⟨rfl, hcounts⟩ := hb
    exact (lt_of_mark_lt (h.2.1 (of_decide_eq_true hcounts))).2 a (List.mem_filter.1 ha).1

end HighWater
