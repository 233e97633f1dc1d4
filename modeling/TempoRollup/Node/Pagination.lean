import Mathlib.Data.List.DropRight

set_option relaxedAutoImplicit false
set_option autoImplicit false

/-!
# Cursors

`primitives/src/pagination.rs`, and the orders in which `block-store/src/keys.rs` lists blocks.

## Main definitions

* `Bound` — an end of a range.
* `CursorChoice`, `Cursor` — where a page starts, and where its neighbours do.
* `paginate` — the cursors of a page.
* `BlockListOrder` — the order of a list of blocks.
* `listRange`, `pageByRange` — how pages are cut out of a range of the keys.
* `pageOf` — what a page should be: the items next to the cursor, on the side that it asks for.

## Main results

* `pageByRange_listRange` — pages that are cut out of a range are what they should be.
-/

namespace TempoRollup.Node

/-! ## Cursors -/

/-- `Bound`. -/
inductive Bound (Pos : Type)
  | included (pos : Pos)
  | excluded (pos : Pos)
  | unbounded

/-- `CursorChoiceAfter`. -/
inductive CursorChoiceAfter (Pos : Type)
  | after (pos : Pos)
  | afterInclusive (pos : Pos)
  deriving DecidableEq, Repr

/-- `CursorChoiceBefore`. -/
inductive CursorChoiceBefore (Pos : Type)
  | before (pos : Pos)
  | beforeInclusive (pos : Pos)
  deriving DecidableEq, Repr

/-- `CursorChoice`. -/
inductive CursorChoice (Pos : Type)
  | after (choice : CursorChoiceAfter Pos)
  | before (choice : CursorChoiceBefore Pos)
  deriving DecidableEq, Repr

/-- `Cursor`. -/
structure Cursor (Pos : Type) where
  after : Option (CursorChoiceAfter Pos)
  before : Option (CursorChoiceBefore Pos)

section Cursors

variable {Pos NewPos : Type}

namespace CursorChoiceAfter

/-- `CursorChoiceAfter::inner`. -/
def inner : CursorChoiceAfter Pos → Pos
  | after pos => pos
  | afterInclusive pos => pos

/-- `CursorChoiceAfter::inclusive`. -/
def inclusive : CursorChoiceAfter Pos → CursorChoiceAfter Pos
  | after pos => afterInclusive pos
  | afterInclusive pos => afterInclusive pos

/-- `CursorChoiceAfter::to_bound`. -/
def toBound : CursorChoiceAfter Pos → Bound Pos
  | after pos => .excluded pos
  | afterInclusive pos => .included pos

/-- `CursorChoiceAfter::map_pos`. -/
def mapPos (f : Pos → NewPos) : CursorChoiceAfter Pos → CursorChoiceAfter NewPos
  | after pos => after (f pos)
  | afterInclusive pos => afterInclusive (f pos)

end CursorChoiceAfter

namespace CursorChoiceBefore

/-- `CursorChoiceBefore::inner`. -/
def inner : CursorChoiceBefore Pos → Pos
  | before pos => pos
  | beforeInclusive pos => pos

/-- `CursorChoiceBefore::inclusive`. -/
def inclusive : CursorChoiceBefore Pos → CursorChoiceBefore Pos
  | before pos => beforeInclusive pos
  | beforeInclusive pos => beforeInclusive pos

/-- `CursorChoiceBefore::to_bound`. -/
def toBound : CursorChoiceBefore Pos → Bound Pos
  | before pos => .excluded pos
  | beforeInclusive pos => .included pos

/-- `CursorChoiceBefore::map_pos`. -/
def mapPos (f : Pos → NewPos) : CursorChoiceBefore Pos → CursorChoiceBefore NewPos
  | before pos => before (f pos)
  | beforeInclusive pos => beforeInclusive (f pos)

end CursorChoiceBefore

namespace CursorChoice

/-- `CursorChoice::inner`. -/
def inner : CursorChoice Pos → Pos
  | after choice => choice.inner
  | before choice => choice.inner

/-- `CursorChoice::map_pos`. -/
def mapPos (f : Pos → NewPos) : CursorChoice Pos → CursorChoice NewPos
  | after choice => after (choice.mapPos f)
  | before choice => before (choice.mapPos f)

end CursorChoice

/-- `Paginator::collect`, for items that all have a position: the cursors of the first and the last
of them. -/
def paginate {Item : Type} (itemToPos : Item → Pos) (items : List Item) : Cursor Pos where
  after := items.getLast?.map fun item => .after (itemToPos item)
  before := items.head?.map fun item => .before (itemToPos item)

end Cursors

/-! ## Orders -/

/-- `BlockListOrder`. -/
inductive BlockListOrder
  | lowestToHighest
  | highestToLowest
  deriving DecidableEq, Repr

/-- `is_indexed_order`. -/
def BlockListOrder.isIndexedOrder : BlockListOrder → Bool
  | lowestToHighest => true
  | highestToLowest => false

/-- `reverse`. -/
def BlockListOrder.reverse : BlockListOrder → BlockListOrder
  | lowestToHighest => highestToLowest
  | highestToLowest => lowestToHighest

/-! ## Pages -/

section Pages

variable {H α : Type} [LT H] [LE H] [DecidableLT H] [DecidableLE H]

/-- A position is above a lower bound. -/
def Bound.startsBelow (pos : H) : Bound H → Bool
  | included start => start ≤ pos
  | excluded start => start < pos
  | unbounded => true

/-- A position is below an upper bound. -/
def Bound.endsAbove (pos : H) : Bound H → Bool
  | included last => pos ≤ last
  | excluded last => pos < last
  | unbounded => true

/-- The ends of the range of a cursor, as `list_paginated` finds them. -/
def cursorRange (cursor : Option (CursorChoice H)) (order : BlockListOrder) : Bound H × Bound H :=
  let range : Bound H × Bound H :=
    match cursor with
    | none => (.unbounded, .unbounded)
    | some (.before before) => (.unbounded, before.toBound)
    | some (.after after) => (after.toBound, .unbounded)
  if order.isIndexedOrder then range else range.swap

/-- The items of a range in an order, where the items are sorted. -/
def listRange (posOf : α → H) (items : List α) (range : Bound H × Bound H)
    (order : BlockListOrder) : List α :=
  let listed := items.filter fun item =>
    range.1.startsBelow (posOf item) && range.2.endsAbove (posOf item)
  if order.isIndexedOrder then listed else listed.reverse

/-- A page that is cut out of a range: from its far end, backwards, if the cursor asks for what is
before it. -/
def pageByRange (list : Bound H × Bound H → BlockListOrder → List α)
    (cursor : Option (CursorChoice H)) (order : BlockListOrder) (limit : ℕ) : List α :=
  match cursor with
  | some (.before _) => ((list (cursorRange cursor order) order.reverse).take limit).reverse
  | _ => (list (cursorRange cursor order) order).take limit

/-- One position comes before another one. -/
def BlockListOrder.before (a b : H) : BlockListOrder → Bool
  | lowestToHighest => a < b
  | highestToLowest => b < a

omit [DecidableLE H] in
/-- The order of a listing is transitive. -/
lemma BlockListOrder.before_trans [Std.IsPreorder H] [Std.LawfulOrderLT H]
    {order : BlockListOrder} {a b c : H} (hab : order.before a b = true)
    (hbc : order.before b c = true) : order.before a c = true := by
  cases order with
  | lowestToHighest =>
    exact decide_eq_true (Std.lt_trans (of_decide_eq_true hab) (of_decide_eq_true hbc))
  | highestToLowest =>
    exact decide_eq_true (Std.lt_trans (of_decide_eq_true hbc) (of_decide_eq_true hab))

omit [DecidableLE H] in
/-- Of two places only one is before the other. -/
lemma BlockListOrder.before_asymm [Std.LawfulOrderLT H] {order : BlockListOrder} {a b : H}
    (hab : order.before a b = true) : order.before b a = false := by
  cases order with
  | lowestToHighest => exact decide_eq_false (Std.not_gt_of_lt (of_decide_eq_true hab))
  | highestToLowest => exact decide_eq_false (Std.not_gt_of_lt (of_decide_eq_true hab))

/-- One position comes before another one, or is the same. -/
def BlockListOrder.beforeOrAt (a b : H) : BlockListOrder → Bool
  | lowestToHighest => a ≤ b
  | highestToLowest => b ≤ a

/-- A position is on the side of the cursor that it asks for. -/
def CursorChoice.selects (order : BlockListOrder) (pos : H) : CursorChoice H → Bool
  | after (.after start) => order.before start pos
  | after (.afterInclusive start) => order.beforeOrAt start pos
  | before (.before last) => order.before pos last
  | before (.beforeInclusive last) => order.beforeOrAt pos last

/-- All items in an order, where the items are sorted. -/
def BlockListOrder.listing (order : BlockListOrder) (items : List α) : List α :=
  if order.isIndexedOrder then items else items.reverse

omit [LE H] [DecidableLE H] in
/-- Items that are sorted by their positions are listed in the requested order. -/
lemma BlockListOrder.pairwise_listing {posOf : α → H} {items : List α}
    (hsorted : items.Pairwise fun a b => posOf a < posOf b) (order : BlockListOrder) :
    (order.listing items).Pairwise fun a b => order.before (posOf a) (posOf b) = true := by
  cases order with
  | lowestToHighest => exact hsorted.imp fun h => decide_eq_true h
  | highestToLowest => exact List.pairwise_reverse.2 (hsorted.imp fun h => decide_eq_true h)

/-- **What a page should be**: of the items on the requested side of the cursor those that are
nearest to it, in the requested order. -/
def pageOf (posOf : α → H) (items : List α) (cursor : Option (CursorChoice H))
    (order : BlockListOrder) (limit : ℕ) : List α :=
  match cursor with
  | none => (order.listing items).take limit
  | some (.after after) =>
    ((order.listing items).filter fun item =>
      (CursorChoice.after after).selects order (posOf item)).take limit
  | some (.before before) =>
    ((order.listing items).filter fun item =>
      (CursorChoice.before before).selects order (posOf item)).rtake limit

/-- The range of a cursor has the positions that it asks for. -/
lemma cursorRange_iff (choice : CursorChoice H) (order : BlockListOrder) (pos : H) :
    ((cursorRange (some choice) order).1.startsBelow pos &&
        (cursorRange (some choice) order).2.endsAbove pos) = choice.selects order pos := by
  rcases choice with (start | start) | (last | last) <;> cases order <;>
    first | exact Bool.and_true _ | exact Bool.true_and _

/-- **Pages that are cut out of a range** are what they should be. -/
theorem pageByRange_listRange (posOf : α → H) (items : List α) (cursor : Option (CursorChoice H))
    (order : BlockListOrder) (limit : ℕ) :
    pageByRange (listRange posOf items) cursor order limit =
      pageOf posOf items cursor order limit := by
  rcases cursor with _ | (after | before)
  · have hall : ∀ item, ((cursorRange (none : Option (CursorChoice H)) order).1.startsBelow
        (posOf item) && (cursorRange none order).2.endsAbove (posOf item)) = true := by
      intro item
      cases order <;> rfl
    simp only [pageByRange, pageOf, listRange, hall, List.filter_true, BlockListOrder.listing]
  · simp only [pageByRange, pageOf, listRange, cursorRange_iff, BlockListOrder.listing]
    cases order with
    | lowestToHighest => rfl
    | highestToLowest =>
      rw [if_neg (by decide), if_neg (by decide), List.filter_reverse]
  · simp only [pageByRange, pageOf, listRange, cursorRange_iff, BlockListOrder.listing,
      List.rtake_eq_reverse_take_reverse]
    cases order with
    | lowestToHighest => rfl
    | highestToLowest =>
      change ((items.filter _).take limit).reverse =
        ((items.reverse.filter _).reverse.take limit).reverse
      rw [List.filter_reverse, List.reverse_reverse]

/-- A range of images is the images of a range. -/
lemma listRange_map {β : Type} (posOf : α → H) (f : β → α) (items : List β)
    (range : Bound H × Bound H) (order : BlockListOrder) :
    listRange posOf (items.map f) range order =
      (listRange (fun b => posOf (f b)) items range order).map f := by
  unfold listRange
  rw [List.filter_map]
  cases order
  · rfl
  · exact List.map_reverse.symm

/-- What is in a range is one of the items. -/
lemma mem_of_mem_listRange {posOf : α → H} {items : List α} {range : Bound H × Bound H}
    {order : BlockListOrder} {item : α} (h : item ∈ listRange posOf items range order) :
    item ∈ items := by
  unfold listRange at h
  cases order
  · exact (List.mem_filter.1 h).1
  · exact (List.mem_filter.1 (List.mem_reverse.1 h)).1

/-- A page of images is the image of a page. -/
lemma pageOf_map {β : Type} (posOf : α → H) (f : β → α) (items : List β)
    (cursor : Option (CursorChoice H)) (order : BlockListOrder) (limit : ℕ) :
    pageOf posOf (items.map f) cursor order limit =
      (pageOf (fun b => posOf (f b)) items cursor order limit).map f := by
  rw [← pageByRange_listRange, ← pageByRange_listRange]
  rcases cursor with _ | (after | before)
  · exact (congrArg (List.take limit) (listRange_map _ _ _ _ _)).trans List.map_take.symm
  · exact (congrArg (List.take limit) (listRange_map _ _ _ _ _)).trans List.map_take.symm
  · change ((listRange posOf (items.map f) _ _).take limit).reverse =
      ((listRange _ items _ _).take limit).reverse.map f
    rw [listRange_map, List.map_reverse, List.map_take]

/-- What is on a page is one of the items. -/
lemma mem_of_mem_pageOf {posOf : α → H} {items : List α} {cursor : Option (CursorChoice H)}
    {order : BlockListOrder} {limit : ℕ} {item : α}
    (h : item ∈ pageOf posOf items cursor order limit) : item ∈ items := by
  rw [← pageByRange_listRange] at h
  rcases cursor with _ | (after | before)
  · exact mem_of_mem_listRange (List.mem_of_mem_take h)
  · exact mem_of_mem_listRange (List.mem_of_mem_take h)
  · exact mem_of_mem_listRange (List.mem_of_mem_take (List.mem_reverse.1 h))

end Pages

end TempoRollup.Node
