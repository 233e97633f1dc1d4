import Mathlib.Data.List.DropRight
import TempoRollup.Lib.Exec

set_option relaxedAutoImplicit false
set_option autoImplicit false

/-!
# Reading a list page by page

A list is read in pages: each call returns some items and, unless there are none, the cursor from
which the next call goes on.

## Main definitions

* `Pages.Walk` — the pages that are read from a cursor until there is no further cursor.

## Main results

* `Pages.Walk.unique` — a walk is determined by where it starts.
* `Pages.exists_walk` — pages that go on after their last item end, and have every item in turn.
* `Pages.filter_of_pairwise`, `filter_before_of_pairwise` — what comes after an item of a sorted
  list, and what comes before it.
* `Pages.rtake_flatMap_rtake` — a limit on groups is a limit on items, from the end.
* `Pages.take_append_eq_rtake_iff` — when the first items of a list are the last ones of its start.
-/

open Exec

namespace Pages

variable {ε α γ : Type}

/-- The pages from a cursor on, each from the cursor that came with the one before. -/
inductive Walk (fetch : Option γ → Outcome ε (List α × Option γ)) :
    Option γ → List (List α) → Prop
  | last {c : Option γ} {items : List α} (h : fetch c = .ok (items, none)) : Walk fetch c [items]
  | next {c : Option γ} {c' : γ} {items : List α} {pages : List (List α)}
      (h : fetch c = .ok (items, some c')) (hrest : Walk fetch (some c') pages) :
      Walk fetch c (items :: pages)

/-- A walk is determined by where it starts. By induction on the first one. -/
theorem Walk.unique {fetch : Option γ → Outcome ε (List α × Option γ)} {c : Option γ}
    {pages pages' : List (List α)} (h : Walk fetch c pages) (h' : Walk fetch c pages') :
    pages = pages' := by
  induction h generalizing pages' with
  | last h =>
    cases h' with
    | last h' =>
      rw [h] at h'
      cases h'
      rfl
    | next h' _ =>
      rw [h] at h'
      cases h'
  | next h _ ih =>
    cases h' with
    | last h' =>
      rw [h] at h'
      cases h'
    | next h' hrest' =>
      rw [h] at h'
      cases h'
      rw [ih hrest']

/-- **A walk ends and has every item in turn**, when each page has the next items that are left and
the cursor of its last item leaves what comes after that item. By induction on what is left.

**Proof sketch.** A page without items is the last one. Otherwise the cursor of its last item leaves
what comes after that item, which is less than before. -/
theorem exists_walk {fetch : Option γ → Outcome ε (List α × Option γ)} {valid : Option γ → Prop}
    {left : Option γ → List α} {cursor : α → γ} {limit : ℕ} (hlimit : 1 ≤ limit)
    (hfetch : ∀ c, valid c → fetch c =
      .ok ((left c).take limit, ((left c).take limit).getLast?.map cursor))
    (hvalid : ∀ c, valid c → ∀ a ∈ left c, valid (some (cursor a)))
    (hleft : ∀ c init a rest, left c = init ++ a :: rest → left (some (cursor a)) = rest)
    (c : Option γ) (hc : valid c) : ∃ pages, Walk fetch c pages ∧ pages.flatten = left c := by
  induction hn : (left c).length using Nat.strongRecOn generalizing c with
  | ind n ih =>
    rcases hlast : ((left c).take limit).getLast? with _ | a
    · -- an empty page is the last one
      have hnil : (left c).take limit = [] := List.getLast?_eq_none_iff.1 hlast
      have hempty : left c = [] := by
        rcases List.take_eq_nil_iff.1 hnil with hzero | hempty
        · omega
        · exact hempty
      refine ⟨[[]], .last ?_, hempty.symm⟩
      rw [hfetch c hc, hlast, hnil]
      rfl
    · obtain ⟨init, hinit⟩ : ∃ init, (left c).take limit = init ++ [a] :=
        ⟨_, (List.dropLast_append_getLast? a hlast).symm⟩
      have hsplit : left c = init ++ a :: (left c).drop limit := by
        conv_lhs => rw [← List.take_append_drop limit (left c), hinit, List.append_assoc]
        rfl
      have hnext := hleft c init a _ hsplit
      have hmem : a ∈ left c := List.mem_of_mem_take (List.mem_of_getLast? hlast)
      have hlt : (left (some (cursor a))).length < n := by
        rw [hnext, ← hn]
        conv_rhs => rw [hsplit]
        simp
        omega
      obtain ⟨pages, hwalk, hflat⟩ := ih _ hlt (some (cursor a)) (hvalid c hc a hmem) rfl
      refine ⟨(left c).take limit :: pages, .next ?_ hwalk, ?_⟩
      · rw [hfetch c hc, hlast]
        rfl
      · rw [List.flatten_cons, hflat, hnext, List.take_append_drop]

/-- What comes after an item of a sorted list. -/
theorem filter_of_pairwise {r : α → α → Bool} (hasymm : ∀ a b, r a b = true → r b a = false)
    {init rest : List α} {a : α} (h : (init ++ a :: rest).Pairwise fun x y => r x y = true) :
    (init ++ a :: rest).filter (r a) = rest := by
  obtain ⟨-, htail, hacross⟩ := List.pairwise_append.1 h
  have hinit : init.filter (r a) = [] := by
    refine List.filter_eq_nil_iff.2 fun x hx => ?_
    rw [hasymm x a (hacross x hx a List.mem_cons_self)]
    exact Bool.false_ne_true
  have ha : r a a = false := by
    rcases hr : r a a with _ | _
    · rfl
    · exact absurd (hasymm a a hr) (by rw [hr]; decide)
  have hrest : rest.filter (r a) = rest := List.filter_eq_self.2 (List.pairwise_cons.1 htail).1
  rw [List.filter_append, hinit, List.filter_cons, ha, hrest]
  rfl

/-- What comes before an item of a sorted list. -/
theorem filter_before_of_pairwise {r : α → α → Bool} (hasymm : ∀ a b, r a b = true → r b a = false)
    {init rest : List α} {a : α} (h : (init ++ a :: rest).Pairwise fun x y => r x y = true) :
    (init ++ a :: rest).filter (fun x => r x a) = init := by
  have hreverse : (rest.reverse ++ a :: init.reverse).Pairwise fun x y => r y x = true := by
    have hrev := List.pairwise_reverse.2 h
    rwa [List.reverse_append, List.reverse_cons, List.append_assoc] at hrev
  have hfilter := @filter_of_pairwise _ (fun x y => r y x) (fun x y => hasymm y x) _ _ _ hreverse
  have hback : (init ++ a :: rest).reverse = rest.reverse ++ a :: init.reverse := by
    rw [List.reverse_append, List.reverse_cons, List.append_assoc]
    rfl
  rw [← List.reverse_inj, ← List.filter_reverse, hback, hfilter]

/-- What a condition selects that is kept by what comes later is the end of a sorted list. By
induction on the list. -/
lemma exists_append_filter {r : α → α → Bool} {p : α → Bool}
    (hkeep : ∀ a b, p a = true → r a b = true → p b = true) {l : List α}
    (h : l.Pairwise fun x y => r x y = true) : ∃ init, l = init ++ l.filter p := by
  induction l with
  | nil => exact ⟨[], rfl⟩
  | cons a l ih =>
    obtain ⟨hhead, htail⟩ := List.pairwise_cons.1 h
    rcases hp : p a with _ | _
    · obtain ⟨init, hinit⟩ := ih htail
      refine ⟨a :: init, ?_⟩
      rw [List.filter_cons, hp, if_neg Bool.false_ne_true, List.cons_append, ← hinit]
    · refine ⟨[], ?_⟩
      have hall : (a :: l).filter p = a :: l := by
        refine List.filter_eq_self.2 fun x hx => ?_
        rcases List.mem_cons.1 hx with rfl | hx
        · exact hp
        · exact hkeep a x hp (hhead x hx)
      rw [hall]
      rfl

/-- **A limit on groups is a limit on items**, from the end, where no group is empty. By induction
on the groups, from the last one. -/
theorem rtake_flatMap_rtake {β : Type} {f : α → List β} {l : List α} (h : ∀ a ∈ l, f a ≠ [])
    {m n : ℕ} (hmn : m ≤ n) : ((l.rtake n).flatMap f).rtake m = (l.flatMap f).rtake m := by
  induction l using List.reverseRecOn generalizing m n with
  | nil => rw [List.rtake_nil]
  | append_singleton l a ih =>
    have hl : ∀ b ∈ l, f b ≠ [] := fun b hb => h b (List.mem_append_left _ hb)
    have hpos := List.length_pos_iff.2 (h a (List.mem_append_right _ List.mem_cons_self))
    -- the last items of two lists in a row
    have happend : ∀ (xs ys : List β) (k : ℕ), ys.length ≤ k →
        (xs ++ ys).rtake k = xs.rtake (k - ys.length) ++ ys := by
      intro xs ys k hk
      rw [List.rtake, List.rtake, List.length_append,
        show xs.length + ys.length - k = xs.length - (k - ys.length) by omega,
        List.drop_append_of_le_length (by omega)]
    cases n with
    | zero =>
      rw [Nat.le_zero.1 hmn, List.rtake_zero, List.rtake_zero]
    | succ n =>
      rw [List.rtake_concat_succ, List.flatMap_append, List.flatMap_append, List.flatMap_singleton]
      rcases Nat.lt_or_ge m (f a).length with hlt | hge
      · have hshort : ∀ xs : List β, (xs ++ f a).rtake m = (f a).rtake m := by
          intro xs
          rw [List.rtake, List.rtake, List.length_append,
            show xs.length + (f a).length - m = xs.length + ((f a).length - m) by omega,
            List.drop_length_add_append]
        rw [hshort, hshort]
      · rw [happend _ _ _ hge, happend _ _ _ hge, ih hl (by omega)]

/-- **When the first items of a list are the last ones of its start.** -/
theorem take_append_eq_rtake_iff {l rest : List α} (hnodup : l.Nodup) {n : ℕ} (hn : 1 ≤ n) :
    (l ++ rest).take n = l.rtake n ↔ l.length ≤ n ∧ (l.length = n ∨ rest = []) := by
  rcases Nat.lt_trichotomy l.length n with hlt | heq | hgt
  · have hall : l.rtake n = l := by
      rw [List.rtake, show l.length - n = 0 by omega, List.drop_zero]
    rw [hall, List.take_append, List.take_of_length_le hlt.le, List.append_right_eq_self,
      List.take_eq_nil_iff]
    constructor
    · rintro (hzero | hnil)
      · omega
      · exact ⟨hlt.le, .inr hnil⟩
    · rintro ⟨-, heq | hnil⟩
      · omega
      · exact .inr hnil
  · have hall : l.rtake n = l := by
      rw [List.rtake, show l.length - n = 0 by omega, List.drop_zero]
    rw [hall, List.take_append_of_le_length heq.ge, List.take_of_length_le heq.le]
    exact ⟨fun _ => ⟨heq.le, .inl heq⟩, fun _ => rfl⟩
  · -- the first item of the list is not the first one of its end
    refine iff_of_false (fun h => ?_) (by omega)
    rw [List.take_append_of_le_length hgt.le, List.rtake] at h
    have hfirst : (l.take n)[0]? = l[0]? := List.getElem?_take_of_lt (by omega)
    have hlast : (l.drop (l.length - n))[0]? = l[l.length - n]? := by
      rw [List.getElem?_drop, Nat.add_zero]
    rw [h, hlast] at hfirst
    have hidx := (List.getElem?_inj (by omega) hnodup).1 hfirst
    omega

end Pages
