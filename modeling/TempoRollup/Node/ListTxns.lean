import TempoRollup.Node.Block
import TempoRollup.Node.Pagination

set_option relaxedAutoImplicit false
set_option autoImplicit false

/-!
# Pages of transactions

The listing of non-empty blocks in `block-store/src/keys.rs`, and `list_txns_inner` of
`node/src/rpc/routes/txn.rs`: the transactions of a node in pages, with cursors for the pages before
and after.

## Main definitions

* `listNonEmptyPaginated` — a page of blocks.
* `listTxnsOf`, `listTxnsInner` — a page of transactions, once its blocks are fetched and as a whole.
* `ListTxnOrder.listing` — all transactions in an order.
* `ListTxnOrder.left` — the transactions that are left after a cursor.
* `CursorChoiceAfter.Passed` — the transactions that a cursor leaves behind.

## Main results

* `listTxnsInner_left` — a page has the first transactions that are left after its cursor.
* `passed_next` — the cursor of the next page has passed these, and no other.

## Design

The blocks of the store are a list in the order of their heights. Reads of the store succeed. The
hash and the time of a transaction are left out.
-/

namespace TempoRollup.Node

/-! ## Blocks -/

/-- The blocks that have transactions. -/
def nonEmptyBlocks (blocks : List Block) : List Block :=
  blocks.filter fun block => !block.content.state.txns.isEmpty

/-- `list` of the keys of non-empty blocks. -/
def listNonEmpty (blocks : List Block) (range : Bound BlockHeight × Bound BlockHeight)
    (order : BlockListOrder) : List Block :=
  listRange Block.height (nonEmptyBlocks blocks) range order

/-- `list_paginated` of the keys of non-empty blocks. -/
def listNonEmptyPaginated (blocks : List Block) (cursor : Option (CursorChoice BlockHeight))
    (order : BlockListOrder) (limit : ℕ) : List Block :=
  pageByRange (listNonEmpty blocks) cursor order limit

/-- A page of non-empty blocks has those next to the cursor. -/
lemma listNonEmptyPaginated_eq (blocks : List Block) (cursor : Option (CursorChoice BlockHeight))
    (order : BlockListOrder) (limit : ℕ) :
    listNonEmptyPaginated blocks cursor order limit =
      pageOf Block.height (nonEmptyBlocks blocks) cursor order limit :=
  pageByRange_listRange Block.height (nonEmptyBlocks blocks) cursor order limit

/-! ## Transactions -/

/-- `ListTxnsPosition`. -/
structure ListTxnsPosition where
  block : BlockHeight
  txn : ℕ
  deriving DecidableEq, Repr

/-- `TxnWithInfo`. -/
structure TxnWithInfo where
  proof : UtxoProof
  indexInBlock : ℕ
  blockHeight : BlockHeight

/-- The position of a transaction. -/
def TxnWithInfo.position (self : TxnWithInfo) : ListTxnsPosition :=
  ⟨self.blockHeight, self.indexInBlock⟩

/-- `ListTxnOrder`. -/
inductive ListTxnOrder
  | newestToOldest
  | oldestToNewest
  deriving DecidableEq, Repr

/-- `to_block_list_order`. -/
def ListTxnOrder.toBlockListOrder : ListTxnOrder → BlockListOrder
  | newestToOldest => .highestToLowest
  | oldestToNewest => .lowestToHighest

/-- `ListTxnsQuery`, but for `poll`. -/
structure ListTxnsQuery where
  limit : Option ℕ
  cursor : Option (CursorChoice ListTxnsPosition)
  order : ListTxnOrder

/-- The transactions of a block. -/
def txnsOf (block : Block) : List TxnWithInfo :=
  block.content.state.txns.zipIdx.map fun (txn, i) => ⟨txn, i, block.content.header.height⟩

/-- The transactions that were returned on the previous page: `txns_to_skip` contains them. -/
def isToSkip (pos : ListTxnsPosition) (txn : TxnWithInfo) : Bool :=
  txn.blockHeight = pos.block ∧ txn.indexInBlock ≤ pos.txn

/-- The number of transactions on a page. -/
def ListTxnsQuery.txnLimit (query : ListTxnsQuery) : ℕ := min (query.limit.getD 10) 100

/-- `list_txns_inner`, once the blocks are fetched. -/
def listTxnsOf (listed : List Block) (query : ListTxnsQuery) :
    Cursor ListTxnsPosition × List TxnWithInfo :=
  let transactions := ((listed.flatMap txnsOf).filter fun txn =>
    match query.cursor with
    | some cursor => !isToSkip cursor.inner txn
    | none => true).take query.txnLimit
  let cursor := paginate TxnWithInfo.position transactions
  (⟨cursor.after.map CursorChoiceAfter.inclusive, cursor.before.map CursorChoiceBefore.inclusive⟩,
    transactions)

/-- `list_txns_inner`. -/
def listTxnsInner (blocks : List Block) (query : ListTxnsQuery) :
    Cursor ListTxnsPosition × List TxnWithInfo :=
  -- some of the transactions are filtered out, so that an extra block is fetched
  listTxnsOf (listNonEmptyPaginated blocks
    (query.cursor.map fun cursor => cursor.mapPos ListTxnsPosition.block)
    query.order.toBlockListOrder (query.txnLimit + 1)) query

/-! ## Lists of transactions -/

/-- A transaction has the height of its block. -/
lemma height_of_mem_txnsOf {block : Block} {txn : TxnWithInfo} (h : txn ∈ txnsOf block) :
    txn.blockHeight = block.height := by
  obtain ⟨entry, -, rfl⟩ := List.mem_map.1 h
  rfl

/-- A block lists no transactions when it has none. -/
lemma txnsOf_eq_nil_iff {block : Block} :
    txnsOf block = [] ↔ block.content.state.txns = [] := by
  rw [txnsOf, List.map_eq_nil_iff, List.zipIdx_eq_nil_iff]

/-- **A limit on blocks is a limit on items**, where every block has one. By induction on the
blocks. -/
lemma take_flatMap_take {α β : Type} {f : α → List β} {l : List α} (h : ∀ a ∈ l, f a ≠ [])
    {m n : ℕ} (hmn : m ≤ n) : ((l.take n).flatMap f).take m = (l.flatMap f).take m := by
  induction l generalizing m n with
  | nil => rw [List.take_nil]
  | cons a l ih =>
    obtain ⟨ha, hl⟩ := List.forall_mem_cons.1 h
    cases n with
    | zero =>
      rw [Nat.le_zero.1 hmn]
      rfl
    | succ n =>
      have hpos := List.length_pos_iff.2 ha
      rw [List.take_succ_cons, List.flatMap_cons, List.flatMap_cons, List.take_append,
        List.take_append, ih hl (by omega)]

/-- The same with one more block, if only the first may have no item. -/
lemma take_flatMap_take_succ {α β : Type} {f : α → List β} {l : List α}
    (h : ∀ a ∈ l.tail, f a ≠ []) (n : ℕ) :
    ((l.take (n + 1)).flatMap f).take n = (l.flatMap f).take n := by
  cases l with
  | nil => rfl
  | cons a l =>
    have hl : ∀ b ∈ l, f b ≠ [] := h
    rw [List.take_succ_cons, List.flatMap_cons, List.flatMap_cons, List.take_append,
      List.take_append, take_flatMap_take hl (Nat.sub_le _ _)]

/-- The entries of an enumeration are in the order of their indices. -/
lemma pairwise_zipIdx {α : Type} (txns : List α) :
    txns.zipIdx.Pairwise fun a b => a.2 < b.2 := by
  rw [List.pairwise_iff_getElem]
  intro i j hi hj hij
  simpa using hij

/-- One position comes before another one. -/
def ListTxnOrder.before (order : ListTxnOrder) (a b : ListTxnsPosition) : Bool :=
  order.toBlockListOrder.before a.block b.block || (a.block == b.block && decide (a.txn < b.txn))

/-- All transactions in an order: the blocks in this order, and the transactions of a block in
theirs. -/
def ListTxnOrder.listing (order : ListTxnOrder) (blocks : List Block) : List TxnWithInfo :=
  (order.toBlockListOrder.listing blocks).flatMap txnsOf

section Listing

variable {blocks : List Block} {order : ListTxnOrder}

/-- At or before is before or equal. -/
lemma beforeOrAt_iff {order : BlockListOrder} {a b : BlockHeight} :
    order.beforeOrAt a b = true ↔ order.before a b = true ∨ a = b := by
  cases order with
  | lowestToHighest =>
    simp only [BlockListOrder.beforeOrAt, BlockListOrder.before, decide_eq_true_eq]
    exact Nat.le_iff_lt_or_eq
  | highestToLowest =>
    simp only [BlockListOrder.beforeOrAt, BlockListOrder.before, decide_eq_true_eq]
    exact Nat.le_iff_lt_or_eq.trans (or_congr_right eq_comm)

/-- No height is before itself. -/
lemma before_irrefl {order : BlockListOrder} (a : BlockHeight) : order.before a a = false := by
  cases order <;> exact decide_eq_false (lt_irrefl a)

/-- Positions are ordered by block, and by place within a block. -/
lemma ListTxnOrder.before_iff {a b : ListTxnsPosition} :
    order.before a b = true ↔ order.toBlockListOrder.before a.block b.block = true ∨
      a.block = b.block ∧ a.txn < b.txn := by
  simp [ListTxnOrder.before]

/-- Of two positions only one is before the other. -/
lemma ListTxnOrder.before_asymm {a b : ListTxnsPosition} (h : order.before a b = true) :
    order.before b a = false := by
  rw [Bool.eq_false_iff, ne_eq, ListTxnOrder.before_iff]
  rw [ListTxnOrder.before_iff] at h
  rintro (h' | ⟨heq', hlt'⟩)
  · rcases h with h | ⟨heq, -⟩
    · rw [BlockListOrder.before_asymm h] at h'
      cases h'
    · rw [heq, before_irrefl] at h'
      cases h'
  · rcases h with h | ⟨-, hlt⟩
    · rw [heq', before_irrefl] at h
      cases h
    · exact lt_asymm hlt hlt'

/-- Blocks in an order. -/
abbrev InOrder (order : BlockListOrder) (listed : List Block) : Prop :=
  listed.Pairwise fun a b => order.before a.height b.height = true

/-- A listing of blocks in order of height is in the order asked for. -/
lemma inOrder_listing (hsorted : blocks.Pairwise fun a b => a.height < b.height)
    (order : BlockListOrder) : InOrder order (order.listing blocks) :=
  BlockListOrder.pairwise_listing hsorted order

/-- The transactions of blocks in an order are in the order of their positions. -/
lemma pairwise_flatMap_txnsOf {listed : List Block}
    (h : InOrder order.toBlockListOrder listed) :
    (listed.flatMap txnsOf).Pairwise fun a b => order.before a.position b.position = true := by
  rw [List.pairwise_flatMap]
  constructor
  · intro block _
    rw [txnsOf, List.pairwise_map]
    refine (pairwise_zipIdx _).imp fun {a b} hlt => ?_
    exact ListTxnOrder.before_iff.2 (.inr ⟨rfl, hlt⟩)
  · refine h.imp fun {a b} hlt x hx y hy => ListTxnOrder.before_iff.2 (.inl ?_)
    change order.toBlockListOrder.before x.blockHeight y.blockHeight = true
    rw [height_of_mem_txnsOf hx, height_of_mem_txnsOf hy]
    exact hlt

/-- Blocks without transactions add nothing. -/
lemma flatMap_nonEmptyBlocks (blocks : List Block) :
    (nonEmptyBlocks blocks).flatMap txnsOf = blocks.flatMap txnsOf := by
  induction blocks with
  | nil => rfl
  | cons block blocks ih =>
    rw [nonEmptyBlocks, List.filter_cons, List.flatMap_cons, ← ih]
    split_ifs with h
    · rfl
    · have hnil : block.content.state.txns = [] := by simpa using h
      rw [txnsOf_eq_nil_iff.2 hnil]
      rfl

/-- Blocks without transactions list nothing. -/
lemma listing_nonEmptyBlocks (order : ListTxnOrder) (blocks : List Block) :
    order.listing (nonEmptyBlocks blocks) = order.listing blocks := by
  have hcomm : order.toBlockListOrder.listing (nonEmptyBlocks blocks) =
      nonEmptyBlocks (order.toBlockListOrder.listing blocks) := by
    cases order with
    | oldestToNewest => rfl
    | newestToOldest => exact List.filter_reverse.symm
  rw [ListTxnOrder.listing, hcomm, flatMap_nonEmptyBlocks]
  rfl

end Listing

/-! ## Pages after a cursor -/

/-- A transaction comes after a cursor. -/
def CursorChoiceAfter.precedes (order : ListTxnOrder) (pos : ListTxnsPosition) :
    CursorChoiceAfter ListTxnsPosition → Bool
  | after start => order.toBlockListOrder.before start.block pos.block
  | afterInclusive last => order.before last pos

/-- The transactions that are left after a cursor. -/
def ListTxnOrder.left (order : ListTxnOrder) (blocks : List Block) :
    Option (CursorChoiceAfter ListTxnsPosition) → List TxnWithInfo
  | none => order.listing blocks
  | some c => (order.listing blocks).filter fun txn => c.precedes order txn.position

section PagesAfter

variable {blocks : List Block} {order : ListTxnOrder}

/-- Blocks that are selected, with some of their transactions, when the transactions of the others
are all left out. By induction on the blocks. -/
lemma flatMap_filter_eq {listed : List Block} {sel : Block → Bool} {q keep : TxnWithInfo → Bool}
    (h : ∀ block ∈ listed, (if sel block then (txnsOf block).filter q else []) =
      (txnsOf block).filter keep) :
    (listed.filter sel).flatMap (fun block => (txnsOf block).filter q) =
      (listed.flatMap txnsOf).filter keep := by
  induction listed with
  | nil => rfl
  | cons block listed ih =>
    obtain ⟨hblock, hlisted⟩ := List.forall_mem_cons.1 h
    rw [List.flatMap_cons, List.filter_append, ← hblock, ← ih hlisted, List.filter_cons]
    split_ifs
    · rw [List.flatMap_cons]
    · rfl

/-- A cursor selects the blocks of the transactions after it; of its own block those transactions
are skipped that it has passed.

**Proof sketch.** By the kind of the cursor: one after a block selects all of the later blocks, one
after a transaction its own block as well, without the transactions up to it. -/
lemma filter_txnsOf_after (c : CursorChoiceAfter ListTxnsPosition) (block : Block) :
    (if (CursorChoice.after (c.mapPos ListTxnsPosition.block)).selects order.toBlockListOrder
        block.height then (txnsOf block).filter fun txn => !isToSkip c.inner txn else []) =
      (txnsOf block).filter fun txn => c.precedes order txn.position := by
  have hpos : ∀ txn ∈ txnsOf block, txn.position = ⟨block.height, txn.indexInBlock⟩ := by
    intro txn htxn
    rw [TxnWithInfo.position, height_of_mem_txnsOf htxn]
  have hskip : ∀ (pos : ListTxnsPosition), ∀ txn ∈ txnsOf block,
      isToSkip pos txn = decide (block.height = pos.block ∧ txn.indexInBlock ≤ pos.txn) := by
    intro pos txn htxn
    rw [isToSkip, height_of_mem_txnsOf htxn]
  cases c with
  | after start =>
    change (if order.toBlockListOrder.before start.block block.height then
      (txnsOf block).filter fun txn => !isToSkip start txn else []) = (txnsOf block).filter
        fun txn => order.toBlockListOrder.before start.block txn.position.block
    by_cases hbefore : order.toBlockListOrder.before start.block block.height = true
    · rw [if_pos hbefore]
      refine List.filter_congr fun txn htxn => ?_
      have hne : block.height ≠ start.block := by
        intro heq
        rw [heq, before_irrefl] at hbefore
        cases hbefore
      rw [hskip start txn htxn, hpos txn htxn, hbefore]
      simp [hne]
    · rw [if_neg hbefore, eq_comm, List.filter_eq_nil_iff]
      intro txn htxn
      rw [hpos txn htxn]
      exact hbefore
  | afterInclusive last =>
    change (if order.toBlockListOrder.beforeOrAt last.block block.height then
      (txnsOf block).filter fun txn => !isToSkip last txn else []) = (txnsOf block).filter
        fun txn => order.before last txn.position
    by_cases hbefore : order.toBlockListOrder.beforeOrAt last.block block.height = true
    · rw [if_pos hbefore]
      refine List.filter_congr fun txn htxn => ?_
      rw [hskip last txn htxn, hpos txn htxn, ListTxnOrder.before]
      rcases beforeOrAt_iff.1 hbefore with hlt | heq
      · have hne : block.height ≠ last.block := by
          intro heq
          rw [heq, before_irrefl] at hlt
          cases hlt
        simp [hlt, hne]
      · rw [heq, before_irrefl]
        simp [← decide_not]
    · rw [if_neg hbefore, eq_comm, List.filter_eq_nil_iff]
      intro txn htxn
      rw [hpos txn htxn, ListTxnOrder.before_iff]
      rintro (hlt | ⟨heq, -⟩)
      · exact hbefore (beforeOrAt_iff.2 (.inl hlt))
      · exact hbefore (beforeOrAt_iff.2 (.inr heq))

/-- What is kept are the blocks with transactions. -/
lemma mem_nonEmptyBlocks {block : Block} :
    block ∈ nonEmptyBlocks blocks ↔ block ∈ blocks ∧ txnsOf block ≠ [] := by
  rw [nonEmptyBlocks, List.mem_filter, ne_eq, txnsOf_eq_nil_iff, Bool.not_eq_true',
    List.isEmpty_eq_false_iff]

/-- A listing has the blocks of the list. -/
lemma mem_blockListing {order : BlockListOrder} {block : Block} :
    block ∈ order.listing blocks ↔ block ∈ blocks := by
  cases order with
  | lowestToHighest => exact Iff.rfl
  | highestToLowest => exact List.mem_reverse

/-- Leaving blocks out keeps the order of heights. -/
lemma pairwise_nonEmptyBlocks (hsorted : blocks.Pairwise fun a b => a.height < b.height) :
    (nonEmptyBlocks blocks).Pairwise fun a b => a.height < b.height :=
  hsorted.sublist List.filter_sublist

/-- **A page after a cursor** has the first of the transactions that are left after it.

**Proof sketch.** The blocks are selected first, and then cut off. Of the selected blocks only the
first, that of the cursor, may have nothing but transactions to skip; every other gives one at
least. So as many blocks as transactions are asked for, and one more, give enough of them
(`take_flatMap_take`). -/
theorem listTxnsInner_left (hsorted : blocks.Pairwise fun a b => a.height < b.height)
    (limit : Option ℕ) (c : Option (CursorChoiceAfter ListTxnsPosition)) :
    (listTxnsInner blocks ⟨limit, c.map .after, order⟩).2 =
      (order.left blocks c).take (min (limit.getD 10) 100) := by
  let listed := order.toBlockListOrder.listing (nonEmptyBlocks blocks)
  have hne : ∀ block ∈ listed, txnsOf block ≠ [] := fun block hblock =>
    (mem_nonEmptyBlocks.1 (mem_blockListing.1 hblock)).2
  have hall : listed.flatMap txnsOf = order.listing blocks := listing_nonEmptyBlocks order blocks
  rw [listTxnsInner, listNonEmptyPaginated_eq]
  rcases c with _ | c
  · change ((((listed.take _).flatMap txnsOf).filter fun _ => true).take _) = _
    rw [List.filter_true, take_flatMap_take hne (Nat.le_succ _), hall]
    rfl
  · let sel : Block → Bool := fun block =>
      (CursorChoice.after (c.mapPos ListTxnsPosition.block)).selects order.toBlockListOrder
        block.height
    -- of the selected blocks, only the first may have nothing but transactions to skip
    have htail : ∀ block ∈ (listed.filter sel).tail,
        (txnsOf block).filter (fun txn => !isToSkip c.inner txn) ≠ [] := by
      have hinOrder : InOrder order.toBlockListOrder (listed.filter sel) :=
        (inOrder_listing (pairwise_nonEmptyBlocks hsorted) _).sublist List.filter_sublist
      intro block hblock
      rcases hL : listed.filter sel with _ | ⟨first, rest⟩
      · rw [hL] at hblock
        cases hblock
      · rw [hL] at hblock hinOrder
        have hfirst : sel first = true :=
          (List.mem_filter.1 (by rw [hL]; exact List.mem_cons_self)).2
        have hafter := (List.pairwise_cons.1 hinOrder).1 block hblock
        have hbefore : order.toBlockListOrder.before c.inner.block block.height = true := by
          cases c with
          | after start => exact BlockListOrder.before_trans hfirst hafter
          | afterInclusive last =>
            rcases beforeOrAt_iff.1 hfirst with hlt | heq
            · exact BlockListOrder.before_trans hlt hafter
            · change order.toBlockListOrder.before last.block _ = true
              rw [show last.block = first.height from heq]
              exact hafter
        have hheight : block.height ≠ c.inner.block := by
          intro heq
          rw [heq, before_irrefl] at hbefore
          cases hbefore
        have hkeep : (txnsOf block).filter (fun txn => !isToSkip c.inner txn) = txnsOf block := by
          rw [List.filter_eq_self]
          intro txn htxn
          rw [isToSkip, height_of_mem_txnsOf htxn]
          simp [hheight]
        have hmem : block ∈ listed := by
          have hmem' : block ∈ listed.filter sel := by
            rw [hL]
            exact List.mem_cons_of_mem _ hblock
          exact (List.mem_filter.1 hmem').1
        rw [hkeep]
        exact hne block hmem
    change ((((listed.filter sel).take _).flatMap txnsOf).filter
      fun txn => !isToSkip c.inner txn).take _ = _
    rw [List.filter_flatMap, take_flatMap_take_succ htail,
      flatMap_filter_eq fun block _ => filter_txnsOf_after c block, hall]
    rfl

/-- The order of positions is transitive. -/
lemma ListTxnOrder.before_trans {a b c : ListTxnsPosition} (hab : order.before a b = true)
    (hbc : order.before b c = true) : order.before a c = true := by
  rw [ListTxnOrder.before_iff] at hab hbc ⊢
  rcases hab with hab | ⟨hab, hlt⟩
  · rcases hbc with hbc | ⟨hbc, -⟩
    · exact .inl (BlockListOrder.before_trans hab hbc)
    · exact .inl (hbc ▸ hab)
  · rcases hbc with hbc | ⟨hbc, hlt'⟩
    · exact .inl (hab ▸ hbc)
    · exact .inr ⟨hab.trans hbc, hlt.trans hlt'⟩

/-- What comes after a transaction that comes after a cursor comes after the cursor too. -/
lemma CursorChoiceAfter.precedes_trans {c : CursorChoiceAfter ListTxnsPosition}
    {a b : ListTxnsPosition} (ha : c.precedes order a = true) (hab : order.before a b = true) :
    c.precedes order b = true := by
  cases c with
  | after start =>
    rcases ListTxnOrder.before_iff.1 hab with hlt | ⟨heq, -⟩
    · exact BlockListOrder.before_trans ha hlt
    · change order.toBlockListOrder.before start.block b.block = true
      rw [← heq]
      exact ha
  | afterInclusive last => exact ListTxnOrder.before_trans ha hab

/-- The listing is in the order of the positions. -/
lemma pairwise_txnListing (hsorted : blocks.Pairwise fun a b => a.height < b.height)
    (order : ListTxnOrder) :
    (order.listing blocks).Pairwise fun a b => order.before a.position b.position = true :=
  pairwise_flatMap_txnsOf (inOrder_listing hsorted _)

/-- The cursor of the page after is that of the last transaction. -/
lemma listTxnsInner_after (query : ListTxnsQuery) :
    (listTxnsInner blocks query).1.after =
      (listTxnsInner blocks query).2.getLast?.map fun txn => .afterInclusive txn.position := by
  change ((listTxnsInner blocks query).2.getLast?.map _).map _ = _
  rw [Option.map_map]
  rfl

end PagesAfter

/-! ## The oldest transactions first -/

/-- A position is before another one. -/
def ListTxnsPosition.Before (a b : ListTxnsPosition) : Prop :=
  a.block < b.block ∨ a.block = b.block ∧ a.txn < b.txn

/-- The order of positions is decidable. -/
instance (a b : ListTxnsPosition) : Decidable (a.Before b) := inferInstanceAs (Decidable (_ ∨ _))

/-- The positions that a cursor leaves behind. -/
def CursorChoiceAfter.Passed (pos : ListTxnsPosition) :
    CursorChoiceAfter ListTxnsPosition → Prop
  | after start => pos.block ≤ start.block
  | afterInclusive last => ¬ last.Before pos

/-- It is decidable whether a page passed a position. -/
instance (pos : ListTxnsPosition) (c : CursorChoiceAfter ListTxnsPosition) :
    Decidable (c.Passed pos) := by
  cases c
  · exact inferInstanceAs (Decidable (_ ≤ _))
  · exact inferInstanceAs (Decidable (¬ _))

/-- All transactions, oldest first. -/
def allTxns (blocks : List Block) : List TxnWithInfo := blocks.flatMap txnsOf

section OldestFirst

variable {blocks : List Block} {c : CursorChoiceAfter ListTxnsPosition}

/-- From old to new, positions come in their own order. -/
lemma before_oldestToNewest {a b : ListTxnsPosition} :
    ListTxnOrder.oldestToNewest.before a b = true ↔ a.Before b := by
  rw [ListTxnOrder.before_iff, ListTxnsPosition.Before]
  exact or_congr_left decide_eq_true_iff

/-- What comes after a cursor is what it has not passed. -/
lemma precedes_oldestToNewest {pos : ListTxnsPosition} :
    c.precedes .oldestToNewest pos = true ↔ ¬ c.Passed pos := by
  cases c with
  | after start => exact decide_eq_true_iff.trans not_le.symm
  | afterInclusive last => exact before_oldestToNewest.trans not_not.symm

/-- What is left after a cursor are the transactions that it has not passed. -/
lemma mem_left_oldestToNewest {txn : TxnWithInfo} :
    txn ∈ ListTxnOrder.oldestToNewest.left blocks (some c) ↔
      txn ∈ allTxns blocks ∧ ¬ c.Passed txn.position := by
  rw [← precedes_oldestToNewest]
  exact List.mem_filter

/-- The transactions that are left are in the order of their positions. -/
lemma pairwise_left_oldestToNewest (hsorted : blocks.Pairwise fun a b => a.height < b.height) :
    (ListTxnOrder.oldestToNewest.left blocks (some c)).Pairwise fun a b =>
      a.position.Before b.position :=
  ((pairwise_txnListing hsorted .oldestToNewest).sublist List.filter_sublist).imp
    before_oldestToNewest.1

/-- **The cursor of the next page** has passed the page, and no other transaction that the cursor
before has not passed. -/
theorem passed_next {page rest : List TxnWithInfo} {last txn : TxnWithInfo}
    (hsorted : (page ++ rest).Pairwise fun a b => a.position.Before b.position)
    (hlast : page.getLast? = some last) (htxn : txn ∈ page ++ rest) :
    (CursorChoiceAfter.afterInclusive last.position).Passed txn.position ↔ txn ∈ page := by
  obtain ⟨init, rfl⟩ : ∃ init, page = init ++ [last] :=
    ⟨page.dropLast, (List.dropLast_append_getLast? last hlast).symm⟩
  obtain ⟨hpage, -, hacross⟩ := List.pairwise_append.1 hsorted
  obtain ⟨-, -, hinit⟩ := List.pairwise_append.1 hpage
  have hirrefl : ∀ a b : ListTxnsPosition, a.Before b → ¬ b.Before a := by
    rintro a b (hlt | ⟨heq, hlt⟩) (hlt' | ⟨heq', hlt'⟩)
    · exact lt_asymm hlt hlt'
    · exact hlt.ne' heq'
    · exact hlt'.ne' heq
    · exact lt_asymm hlt hlt'
  constructor
  · intro hpassed
    rcases List.mem_append.1 htxn with hmem | hmem
    · exact hmem
    · exact absurd (hacross last (by simp) txn hmem) hpassed
  · intro hmem hbefore
    rcases List.mem_append.1 hmem with hmem | hmem
    · exact hirrefl _ _ (hinit txn hmem last (by simp)) hbefore
    · rw [List.mem_singleton.1 hmem] at hbefore
      exact hirrefl _ _ hbefore hbefore

/-- A cursor of a committed transaction has not passed the transactions of later blocks. -/
lemma not_passed_of_lt {last : ListTxnsPosition} {block : Block} {txn : TxnWithInfo}
    (h : last.block < block.content.header.height) (htxn : txn ∈ txnsOf block) :
    ¬ (CursorChoiceAfter.afterInclusive last).Passed txn.position := by
  refine not_not.2 (.inl ?_)
  change last.block < txn.blockHeight
  rw [height_of_mem_txnsOf htxn]
  exact h

end OldestFirst

end TempoRollup.Node
