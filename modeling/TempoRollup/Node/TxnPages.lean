import TempoRollup.Lib.Pages
import TempoRollup.Node.ListTxns
import TempoRollup.Store.Migration

set_option relaxedAutoImplicit false
set_option autoImplicit false
set_option maxRecDepth 20000

/-!
# The listing of transactions

`list_txns` of `node/src/rpc/routes/txn.rs`, on the store of blocks: what its pages have in either
order and with either kind of cursor, and what following the cursors gives.

## Main definitions

* `NodeFormat`, `fetchBlocksNonEmptyPaginated`, `listTxns` — the listing on the store.
* `WalksStored` — what following the cursors is to give.
* `ReachesBack` — when the page before a transaction is the right one.

## Main results

* `listTxns_eq` — the listing on the store is that of the blocks listed as non-empty.
* `listTxns_walk_iff` — when following the cursors gives every stored transaction once.
* `listTxns_back_iff` — when the page before a page is the right one.

## Design

Reads of the store succeed. The hash and the time of a transaction are left out, and so is `poll`.
-/

open Exec

namespace TempoRollup.Node

/-! ## Pages after a cursor -/

section PagesAfter

variable {blocks : List Block} {order : ListTxnOrder}

/-- **The cursor of a transaction that is left** leaves what comes after it. -/
lemma left_afterInclusive (hsorted : blocks.Pairwise fun a b => a.height < b.height)
    {c : Option (CursorChoiceAfter ListTxnsPosition)} {init rest : List TxnWithInfo}
    {txn : TxnWithInfo} (h : order.left blocks c = init ++ txn :: rest) :
    order.left blocks (some (.afterInclusive txn.position)) = rest := by
  have hlisting := pairwise_txnListing hsorted order
  have hafter : (order.left blocks c).filter (fun next => order.before txn.position next.position) =
      order.left blocks (some (.afterInclusive txn.position)) := by
    rcases c with _ | c
    · rfl
    · change ((order.listing blocks).filter _).filter _ = _
      rw [List.filter_filter]
      refine List.filter_congr fun next _ => ?_
      have htxn : txn ∈ order.left blocks (some c) := by
        rw [h]
        exact List.mem_append_right _ List.mem_cons_self
      have hprecedes : c.precedes order txn.position = true := (List.mem_filter.1 htxn).2
      change (order.before txn.position next.position && c.precedes order next.position) =
        order.before txn.position next.position
      rcases hnext : order.before txn.position next.position with _ | _
      · rfl
      · rw [CursorChoiceAfter.precedes_trans hprecedes hnext]
        rfl
  have hleft : (order.left blocks c).Pairwise fun a b =>
      order.before a.position b.position = true := by
    rcases c with _ | c
    · exact hlisting
    · exact hlisting.sublist List.filter_sublist
  rw [← hafter, h]
  rw [h] at hleft
  exact @Pages.filter_of_pairwise _
    (fun a b : TxnWithInfo => order.before a.position b.position)
    (fun _ _ => ListTxnOrder.before_asymm) _ _ _ hleft

end PagesAfter

/-! ## Pages before a cursor -/

/-- The transactions that come before a position. -/
def ListTxnOrder.preceding (order : ListTxnOrder) (blocks : List Block) (pos : ListTxnsPosition) :
    List TxnWithInfo :=
  (order.listing blocks).filter fun txn => order.before txn.position pos

/-- **When the page before a transaction is the right one.** The transaction is the first of its
block. The blocks before it, as many as transactions are asked for, have no more transactions than
these, and if they have fewer, then the block has no other transaction. -/
def ReachesBack (order : ListTxnOrder) (blocks : List Block) (limit : ℕ)
    (pos : ListTxnsPosition) : Prop :=
  let blocksBefore := (order.toBlockListOrder.listing (nonEmptyBlocks blocks)).filter fun block =>
    order.toBlockListOrder.before block.height pos.block
  let reached := (blocksBefore.rtake limit).flatMap txnsOf
  pos.txn = 0 ∧ reached.length ≤ limit ∧
    (reached.length = limit ∨ ∀ block ∈ blocks, block.height = pos.block →
      block.content.state.txns.length = 1)

section PagesBefore

variable {blocks : List Block} {order : ListTxnOrder}

/-- There is one block at a height. -/
lemma eq_of_height_eq (hsorted : blocks.Pairwise fun a b => a.height < b.height) {a b : Block}
    (ha : a ∈ blocks) (hb : b ∈ blocks) (heq : a.height = b.height) : a = b := by
  obtain ⟨i, hi, rfl⟩ := List.getElem_of_mem ha
  obtain ⟨j, hj, rfl⟩ := List.getElem_of_mem hb
  rw [List.pairwise_iff_getElem] at hsorted
  rcases Nat.lt_trichotomy i j with h | rfl | h
  · exact absurd heq (hsorted i j hi hj h).ne
  · rfl
  · exact absurd heq.symm (hsorted j i hj hi h).ne

/-- The transactions of a block from an index on, and those before it. -/
lemma filter_index (block : Block) (n : ℕ) :
    (txnsOf block).filter (fun txn => n ≤ txn.indexInBlock) = (txnsOf block).drop n ∧
      (txnsOf block).filter (fun txn => txn.indexInBlock < n) = (txnsOf block).take n := by
  let item : UtxoProof × ℕ → TxnWithInfo := fun e => ⟨e.1, e.2, block.content.header.height⟩
  have htxns : txnsOf block = block.content.state.txns.zipIdx.map item := rfl
  have hmap : ∀ (l : List (UtxoProof × ℕ)) (p : ℕ → Bool),
      (l.map item).filter (fun txn => p txn.indexInBlock) =
        (l.filter fun e => p e.2).map item := by
    intro l p
    rw [List.filter_map]
    rfl
  -- the indexes count from the first transaction on
  have hidx : ∀ (l : List UtxoProof) (k : ℕ),
      ((l.zipIdx k).filter fun e => decide (k + n ≤ e.2)) = (l.zipIdx k).drop n ∧
        ((l.zipIdx k).filter fun e => decide (e.2 < k + n)) = (l.zipIdx k).take n := by
    intro l k
    induction n generalizing l k with
    | zero =>
      have hge : ∀ e ∈ l.zipIdx k, k ≤ e.2 := fun e he => List.le_snd_of_mem_zipIdx he
      constructor
      · exact List.filter_eq_self.2 fun e he => decide_eq_true (hge e he)
      · rw [List.take_zero]
        exact List.filter_eq_nil_iff.2 fun e he => by simpa using hge e he
    | succ n ih =>
      cases l with
      | nil => simp
      | cons txn l =>
        obtain ⟨hdrop, htake⟩ := ih l (k + 1)
        rw [show k + 1 + n = k + (n + 1) by omega] at hdrop htake
        rw [List.zipIdx_cons, List.filter_cons, List.filter_cons, List.drop_succ_cons,
          List.take_succ_cons, hdrop, htake]
        simp
  obtain ⟨hdrop, htake⟩ := hidx block.content.state.txns 0
  rw [Nat.zero_add] at hdrop htake
  constructor
  · rw [htxns, hmap _ fun i => decide (n ≤ i), hdrop, List.map_drop]
  · rw [htxns, hmap _ fun i => decide (i < n), htake, List.map_take]

/-- **Where a transaction is in a listing**: in a block, with the blocks listed before it and those
listed after it. -/
structure Around (order : ListTxnOrder) (blocks : List Block) (txn : TxnWithInfo)
    (init : List Block) (block : Block) (rest : List Block) : Prop where
  listing : order.toBlockListOrder.listing (nonEmptyBlocks blocks) = init ++ block :: rest
  inOrder : InOrder order.toBlockListOrder (init ++ block :: rest)
  stored : block ∈ blocks
  txn : txn ∈ txnsOf block

/-- Every transaction of a listing is somewhere. -/
lemma exists_around (hsorted : blocks.Pairwise fun a b => a.height < b.height)
    {txn : TxnWithInfo} (htxn : txn ∈ order.listing blocks) :
    ∃ init block rest, Around order blocks txn init block rest := by
  rw [← listing_nonEmptyBlocks] at htxn
  obtain ⟨block, hblock, hmem⟩ := List.mem_flatMap.1 htxn
  obtain ⟨init, rest, hsplit⟩ := List.append_of_mem hblock
  have hinOrder := inOrder_listing (pairwise_nonEmptyBlocks hsorted) order.toBlockListOrder
  exact ⟨init, block, rest, hsplit, hsplit ▸ hinOrder,
    (mem_nonEmptyBlocks.1 (mem_blockListing.1 hblock)).1, hmem⟩

namespace Around

variable {txn : TxnWithInfo} {init rest : List Block} {block : Block}
  (h : Around order blocks txn init block rest)

include h

/-- The position names the block. -/
lemma position_block : txn.position.block = block.height :=
  height_of_mem_txnsOf h.txn

/-- The blocks listed before that of the transaction come before it. -/
lemma before {b : Block} (hb : b ∈ init) :
    order.toBlockListOrder.before b.height block.height = true :=
  (List.pairwise_append.1 h.inOrder).2.2 b hb block List.mem_cons_self

/-- The blocks listed after that of the transaction come after it. -/
lemma after {b : Block} (hb : b ∈ rest) :
    order.toBlockListOrder.before block.height b.height = true :=
  (List.pairwise_cons.1 (List.pairwise_append.1 h.inOrder).2.1).1 b hb

/-- No block before that of the transaction has its height. -/
lemma height_ne {b : Block} (hb : b ∈ init) : b.height ≠ block.height := by
  intro heq
  have hlt := h.before hb
  rw [heq, before_irrefl] at hlt
  cases hlt

/-- The blocks before that of the transaction have transactions. -/
lemma txnsOf_ne_nil {b : Block} (hb : b ∈ init) : txnsOf b ≠ [] := by
  have hlisted : b ∈ order.toBlockListOrder.listing (nonEmptyBlocks blocks) := by
    rw [h.listing]
    exact List.mem_append_left _ hb
  exact (mem_nonEmptyBlocks.1 (mem_blockListing.1 hlisted)).2

/-- The blocks before the position are those listed before its block. -/
lemma filter_before : ((order.toBlockListOrder.listing (nonEmptyBlocks blocks)).filter fun b =>
    order.toBlockListOrder.before b.height txn.position.block) = init := by
  rw [h.listing, h.position_block]
  exact @Pages.filter_before_of_pairwise _
    (fun a b : Block => order.toBlockListOrder.before a.height b.height)
    (fun _ _ => BlockListOrder.before_asymm) _ _ _ h.inOrder

/-- The blocks up to the position are these and its block. -/
lemma filter_beforeOrAt : ((order.toBlockListOrder.listing (nonEmptyBlocks blocks)).filter fun b =>
    order.toBlockListOrder.beforeOrAt b.height txn.position.block) = init ++ [block] := by
  have hone : init.filter (fun b =>
      order.toBlockListOrder.beforeOrAt b.height txn.position.block) = init := by
    refine List.filter_eq_self.2 fun b hb => beforeOrAt_iff.2 (.inl ?_)
    rw [h.position_block]
    exact h.before hb
  have hnone : rest.filter (fun b =>
      order.toBlockListOrder.beforeOrAt b.height txn.position.block) = [] := by
    refine List.filter_eq_nil_iff.2 fun b hb => ?_
    rw [h.position_block, beforeOrAt_iff]
    rintro (hlt | heq)
    · rw [BlockListOrder.before_asymm (h.after hb)] at hlt
      cases hlt
    · have hlt := h.after hb
      rw [heq, before_irrefl] at hlt
      cases hlt
  rw [h.listing, List.filter_append, hone, List.filter_cons,
    if_pos (beforeOrAt_iff.2 (.inr h.position_block.symm)), hnone]

/-- Nothing is skipped of the blocks before that of the transaction. -/
lemma filter_skip_init {b : Block} (hb : b ∈ init) :
    (txnsOf b).filter (fun t => !isToSkip txn.position t) = txnsOf b := by
  refine List.filter_eq_self.2 fun t ht => ?_
  have hne : b.height ≠ txn.position.block := h.position_block ▸ h.height_ne hb
  rw [isToSkip, height_of_mem_txnsOf ht]
  simp [hne]

/-- Of its own block, what comes after the transaction is left. -/
lemma filter_skip_block : (txnsOf block).filter (fun t => !isToSkip txn.position t) =
    (txnsOf block).drop (txn.indexInBlock + 1) := by
  rw [← (filter_index block _).1]
  refine List.filter_congr fun t ht => ?_
  rw [isToSkip, height_of_mem_txnsOf ht, h.position_block]
  simp [TxnWithInfo.position, ← decide_not]

/-- **The page before a transaction**: of the blocks before it, as many as transactions are asked
for, and of its own block what comes after it. -/
lemma listTxnsInner_back (limit : Option ℕ) :
    (listTxnsInner blocks ⟨limit, some (.before (.beforeInclusive txn.position)), order⟩).2 =
      ((init.rtake (min (limit.getD 10) 100)).flatMap txnsOf ++
        (txnsOf block).drop (txn.indexInBlock + 1)).take (min (limit.getD 10) 100) := by
  have hprev : ∀ b ∈ init.rtake (min (limit.getD 10) 100), b ∈ init :=
    fun b hb => List.mem_of_mem_drop hb
  rw [listTxnsInner, listNonEmptyPaginated_eq]
  change (((((order.toBlockListOrder.listing (nonEmptyBlocks blocks)).filter fun b =>
      order.toBlockListOrder.beforeOrAt b.height txn.position.block).rtake
        (min (limit.getD 10) 100 + 1)).flatMap txnsOf).filter
          fun t => !isToSkip txn.position t).take (min (limit.getD 10) 100) = _
  rw [h.filter_beforeOrAt, List.rtake_concat_succ, List.flatMap_append, List.flatMap_singleton,
    List.filter_append, h.filter_skip_block, List.filter_flatMap,
    List.flatMap_congr fun b hb => h.filter_skip_init (hprev b hb)]

/-- The transactions of a block are those before one of them, itself, and those after it. -/
lemma txnsOf_eq : txnsOf block =
    (txnsOf block).take txn.indexInBlock ++ txn :: (txnsOf block).drop (txn.indexInBlock + 1) := by
  have hget : (txnsOf block)[txn.indexInBlock]? = some txn := by
    obtain ⟨⟨proof, index⟩, hmem, rfl⟩ := List.mem_map.1 h.txn
    rw [txnsOf, List.getElem?_map, List.getElem?_zipIdx, List.mem_zipIdx_iff_getElem?.1 hmem]
    simp
  obtain ⟨hlt, hget⟩ := List.getElem?_eq_some_iff.1 hget
  have hdrop := List.drop_eq_getElem_cons hlt
  rw [hget] at hdrop
  rw [← hdrop, List.take_append_drop]

/-- The transactions before one: those of the blocks before it, and those before it in its block. -/
lemma preceding_eq : order.preceding blocks txn.position =
    init.flatMap txnsOf ++ (txnsOf block).take txn.indexInBlock := by
  have hlisted : (init ++ block :: rest).flatMap txnsOf =
      (init.flatMap txnsOf ++ (txnsOf block).take txn.indexInBlock) ++
        txn :: ((txnsOf block).drop (txn.indexInBlock + 1) ++ rest.flatMap txnsOf) := by
    rw [List.flatMap_append, List.flatMap_cons, List.append_assoc, ← List.cons_append,
      ← List.append_assoc ((txnsOf block).take _), ← h.txnsOf_eq]
  have hsorted := pairwise_flatMap_txnsOf h.inOrder
  rw [hlisted] at hsorted
  rw [ListTxnOrder.preceding, ← listing_nonEmptyBlocks, ListTxnOrder.listing, h.listing, hlisted]
  exact @Pages.filter_before_of_pairwise _
    (fun a b : TxnWithInfo => order.before a.position b.position)
    (fun _ _ => ListTxnOrder.before_asymm) _ _ _ hsorted

/-- The transactions of the last blocks before that of the transaction differ. -/
lemma nodup_flatMap_rtake (n : ℕ) : ((init.rtake n).flatMap txnsOf).Nodup := by
  have hprev : InOrder order.toBlockListOrder (init.rtake n) :=
    (List.pairwise_append.1 h.inOrder).1.sublist (List.drop_sublist _ _)
  refine (pairwise_flatMap_txnsOf hprev).imp ?_
  rintro a b hab rfl
  have hba := ListTxnOrder.before_asymm hab
  rw [hab] at hba
  cases hba

/-- Nothing comes after the first transaction of the block exactly if it is the only one. -/
lemma drop_one_eq_nil_iff (hsorted : blocks.Pairwise fun a b => a.height < b.height) :
    (txnsOf block).drop 1 = [] ↔ ∀ b ∈ blocks, b.height = txn.position.block →
      b.content.state.txns.length = 1 := by
  have hlen : (txnsOf block).length = block.content.state.txns.length := by
    rw [txnsOf, List.length_map, List.length_zipIdx]
  have hge : 0 < (txnsOf block).length := List.length_pos_of_mem h.txn
  rw [List.drop_eq_nil_iff]
  constructor
  · intro hle b hb hheight
    rw [eq_of_height_eq hsorted hb h.stored (hheight.trans h.position_block)]
    omega
  · intro hone
    have hlength := hone block h.stored h.position_block.symm
    omega

/-- A transaction that comes before it in its block is on no page before it. -/
lemma not_mem_back {last : TxnWithInfo} (hlast : last ∈ (txnsOf block).take txn.indexInBlock)
    (n : ℕ) : last ∉ (init.rtake n).flatMap txnsOf ++
      (txnsOf block).drop (txn.indexInBlock + 1) := by
  intro hpage
  rcases List.mem_append.1 hpage with hprev | hafter
  · obtain ⟨b, hb, hlastb⟩ := List.mem_flatMap.1 hprev
    refine h.height_ne (List.mem_of_mem_drop hb) ?_
    rw [← height_of_mem_txnsOf hlastb, height_of_mem_txnsOf (List.mem_of_mem_take hlast)]
  · rw [← (filter_index block _).1] at hafter
    rw [← (filter_index block _).2] at hlast
    have hge := of_decide_eq_true (List.mem_filter.1 hafter).2
    have hlt := of_decide_eq_true (List.mem_filter.1 hlast).2
    omega

end Around

/-- **The page before a transaction is the right one** exactly under this condition.

**Proof sketch.** The blocks before that of the transaction are read backwards, together with that
block itself. Of it the page has nothing, as the transactions from the start up to the cursor's are
skipped (`Around.listTxnsInner_back`); of the others it has the last ones. That is right if the
earlier blocks are enough, or if nothing of its own block comes before the transaction. -/
lemma listTxnsInner_back_iff (hsorted : blocks.Pairwise fun a b => a.height < b.height)
    {txn : TxnWithInfo} (htxn : txn ∈ order.listing blocks) {limit : Option ℕ}
    (hlimit : 1 ≤ min (limit.getD 10) 100) :
    (listTxnsInner blocks ⟨limit, some (.before (.beforeInclusive txn.position)), order⟩).2 =
        (order.preceding blocks txn.position).rtake (min (limit.getD 10) 100) ↔
      ReachesBack order blocks (min (limit.getD 10) 100) txn.position := by
  obtain ⟨init, block, rest, h⟩ := exists_around hsorted htxn
  rw [h.listTxnsInner_back, h.preceding_eq, ReachesBack, h.filter_before]
  generalize min (limit.getD 10) 100 = n at hlimit
  change _ ↔ txn.indexInBlock = 0 ∧ _
  rcases Nat.eq_zero_or_pos txn.indexInBlock with hzero | hpos
  · -- the first transaction of its block
    rw [hzero, List.take_zero, List.append_nil,
      ← Pages.rtake_flatMap_rtake (fun _ => h.txnsOf_ne_nil) le_rfl,
      Pages.take_append_eq_rtake_iff (h.nodup_flatMap_rtake n) hlimit,
      h.drop_one_eq_nil_iff hsorted]
    exact ⟨fun hreaches => ⟨rfl, hreaches⟩, fun hreaches => hreaches.2⟩
  · -- a transaction before it in its block is never reached
    refine iff_of_false (fun heq => ?_) (by omega)
    have htake : (txnsOf block).take txn.indexInBlock ≠ [] := by
      rw [ne_eq, List.take_eq_nil_iff]
      rintro (hnone | hnil)
      · omega
      · exact List.ne_nil_of_mem h.txn hnil
    obtain ⟨first, last, hlast⟩ := List.eq_nil_or_concat' ((txnsOf block).take txn.indexInBlock)
      |>.resolve_left htake
    obtain ⟨m, rfl⟩ : ∃ m, n = m + 1 := ⟨n - 1, by omega⟩
    rw [hlast, ← List.append_assoc, List.rtake_concat_succ] at heq
    have hbefore : last ∈ (txnsOf block).take txn.indexInBlock := by
      rw [hlast]
      exact List.mem_append_right _ List.mem_cons_self
    refine h.not_mem_back hbefore (m + 1) (List.mem_of_mem_take (i := m + 1) ?_)
    rw [heq]
    exact List.mem_append_right _ List.mem_cons_self

/-- A transaction on a page is one of the listing. -/
lemma mem_listing_of_mem_page {query : ListTxnsQuery} {txn : TxnWithInfo}
    (h : txn ∈ (listTxnsInner blocks query).2) : txn ∈ query.order.listing blocks := by
  rw [listTxnsInner, listNonEmptyPaginated_eq] at h
  have hmem := (List.mem_filter.1 (List.mem_of_mem_take h)).1
  obtain ⟨block, hblock, htxn⟩ := List.mem_flatMap.1 hmem
  have hblocks := (mem_nonEmptyBlocks.1 (mem_of_mem_pageOf hblock)).1
  exact List.mem_flatMap.2 ⟨block, mem_blockListing.2 hblocks, htxn⟩

/-- The cursor of the page before is that of the first transaction. -/
lemma listTxnsInner_before (query : ListTxnsQuery) :
    (listTxnsInner blocks query).1.before =
      (listTxnsInner blocks query).2.head?.map fun txn => .beforeInclusive txn.position := by
  change ((listTxnsInner blocks query).2.head?.map _).map _ = _
  rw [Option.map_map]
  rfl

/-- **The page that leads to a transaction** has those that immediately precede it.

**Proof sketch.** The page is the start of what is left after its cursor, and the next page starts
with what comes after its last transaction. So the transactions before that one end with the page.
-/
lemma page_eq_preceding (hsorted : blocks.Pairwise fun a b => a.height < b.height)
    {limit : Option ℕ} {c : Option (CursorChoiceAfter ListTxnsPosition)}
    {c' : CursorChoiceAfter ListTxnsPosition} {txn : TxnWithInfo}
    (hafter : (listTxnsInner blocks ⟨limit, c.map .after, order⟩).1.after = some c')
    (hnext : (listTxnsInner blocks ⟨limit, some (.after c'), order⟩).2.head? = some txn) :
    (listTxnsInner blocks ⟨limit, c.map .after, order⟩).2 =
      (order.preceding blocks txn.position).rtake (min (limit.getD 10) 100) := by
  have hlisting := pairwise_txnListing hsorted order
  rw [listTxnsInner_after, listTxnsInner_left hsorted] at hafter
  rw [listTxnsInner_left hsorted]
  have hnext' := @listTxnsInner_left _ order hsorted limit (some c')
  rw [Option.map_some] at hnext'
  rw [hnext'] at hnext
  generalize min (limit.getD 10) 100 = n at *
  obtain ⟨last, hlast, rfl⟩ := Option.map_eq_some_iff.1 hafter
  obtain ⟨first, hfirst⟩ : ∃ first, (order.left blocks c).take n = first ++ [last] :=
    ⟨_, (List.dropLast_append_getLast? last hlast).symm⟩
  have hsplit : order.left blocks c = first ++ last :: (order.left blocks c).drop n := by
    conv_lhs => rw [← List.take_append_drop n (order.left blocks c), hfirst, List.append_assoc]
    rfl
  rw [left_afterInclusive hsorted hsplit] at hnext
  -- what is left after the page starts with the transaction
  obtain ⟨rest, hrest⟩ : ∃ rest, (order.left blocks c).drop n = txn :: rest := by
    rcases hdrop : (order.left blocks c).drop n with _ | ⟨a, rest⟩
    · rw [hdrop, List.take_nil] at hnext
      cases hnext
    · rw [hdrop] at hnext
      cases n with
      | zero => cases hnext
      | succ n =>
        rw [List.take_succ_cons, List.head?_cons, Option.some.injEq] at hnext
        exact ⟨rest, by rw [hnext]⟩
  have hlen : ((order.left blocks c).take n).length = n := by
    have hlt := congrArg List.length hrest
    rw [List.length_drop, List.length_cons] at hlt
    rw [List.length_take]
    omega
  -- the listing is what the cursor has passed, the page, and the rest
  obtain ⟨passed, hpassed⟩ : ∃ passed, order.listing blocks = passed ++ order.left blocks c := by
    rcases c with _ | c
    · exact ⟨[], rfl⟩
    · exact @Pages.exists_append_filter _
        (fun a b : TxnWithInfo => order.before a.position b.position)
        (fun txn => c.precedes order txn.position)
        (fun _ _ => CursorChoiceAfter.precedes_trans) _ hlisting
  have hall : order.listing blocks =
      (passed ++ (order.left blocks c).take n) ++ txn :: rest := by
    rw [List.append_assoc, ← hrest, List.take_append_drop]
    exact hpassed
  have hpreceding : order.preceding blocks txn.position =
      passed ++ (order.left blocks c).take n := by
    rw [hall] at hlisting
    rw [ListTxnOrder.preceding, hall]
    exact @Pages.filter_before_of_pairwise _
      (fun a b : TxnWithInfo => order.before a.position b.position)
      (fun _ _ => ListTxnOrder.before_asymm) _ _ _ hlisting
  rw [hpreceding, List.rtake, List.length_append, hlen, Nat.add_sub_cancel,
    List.drop_left]

end PagesBefore

/-! ## The listing on the store -/

/-- The blocks that the node stores: `BlockFormat` and `TxnFormat`. -/
structure NodeFormat (B Txn : Type) extends Store.Format B Txn where
  /-- `into_block`, after `upgrade`. -/
  intoBlock : B → Block
  height_intoBlock : ∀ b, (intoBlock b).height = (blockHeight b).toNat
  length_txns : ∀ b, (intoBlock b).content.state.txns.length = (txns b).length

/-- A stored block has transactions if the block does. -/
lemma NodeFormat.txns_eq_nil_iff {B Txn : Type} (F : NodeFormat B Txn) (b : B) :
    (F.intoBlock b).content.state.txns = [] ↔ F.txns b = [] := by
  rw [← List.length_eq_zero_iff, F.length_txns, List.length_eq_zero_iff]

section OnStore

variable {B Txn : Type} (F : NodeFormat B Txn)

/-- `fetch_blocks_non_empty_paginated`. -/
def fetchBlocksNonEmptyPaginated (db : Smirk.Database) (cursor : Option (CursorChoice BlockHeight))
    (order : BlockListOrder) (limit : ℕ) : Outcome Store.Error (List Block) := do
  let items ← Store.listNonEmptyPaginated F.toFormat db
    (cursor.map fun cursor => cursor.mapPos (BitVec.ofNat 64)) order limit
  pure (items.map fun item => F.intoBlock item.2)

/-- `list_txns`. -/
def listTxns (db : Smirk.Database) (query : ListTxnsQuery) :
    Outcome Store.Error (Cursor ListTxnsPosition × List TxnWithInfo) := do
  let listed ← fetchBlocksNonEmptyPaginated F db
    (query.cursor.map fun cursor => cursor.mapPos ListTxnsPosition.block)
    query.order.toBlockListOrder (query.txnLimit + 1)
  pure (listTxnsOf listed query)

variable {F}

/-- A cursor of 64 bits selects what its number selects. -/
lemma selects_toNat (order : BlockListOrder) (c : CursorChoice Store.BlockHeight)
    (height : Store.BlockHeight) :
    c.selects order height = (c.mapPos BitVec.toNat).selects order height.toNat := by
  have hlt : ∀ a b : Store.BlockHeight, decide (a < b) = decide (a.toNat < b.toNat) :=
    fun a b => decide_eq_decide.2 BitVec.lt_def
  have hle : ∀ a b : Store.BlockHeight, decide (a ≤ b) = decide (a.toNat ≤ b.toNat) :=
    fun a b => decide_eq_decide.2 BitVec.le_def
  rcases c with (start | start) | (last | last) <;> cases order <;>
    first | exact hlt _ _ | exact hle _ _

/-- A position that fits in 64 bits is kept as it is. -/
lemma mapPos_toNat_ofNat (c : CursorChoice BlockHeight) (hc : c.inner < U64) :
    (c.mapPos (BitVec.ofNat 64)).mapPos BitVec.toNat = c := by
  have htoNat : ∀ pos : BlockHeight, pos < U64 → (BitVec.ofNat 64 pos).toNat = pos := by
    intro pos hpos
    rw [BitVec.toNat_ofNat]
    exact Nat.mod_eq_of_lt hpos
  rcases c with (start | start) | (last | last)
  · exact congrArg (fun pos => CursorChoice.after (.after pos)) (htoNat start hc)
  · exact congrArg (fun pos => CursorChoice.after (.afterInclusive pos)) (htoNat start hc)
  · exact congrArg (fun pos => CursorChoice.before (.before pos)) (htoNat last hc)
  · exact congrArg (fun pos => CursorChoice.before (.beforeInclusive pos)) (htoNat last hc)

/-- Pages by heights of 64 bits are pages by heights. -/
lemma pageOf_ofNat (items : List B) (cursor : Option (CursorChoice BlockHeight))
    (hcursor : ∀ c ∈ cursor, c.inner < U64) (order : BlockListOrder) (limit : ℕ) :
    pageOf F.blockHeight items (cursor.map fun c => c.mapPos (BitVec.ofNat 64)) order limit =
      pageOf (fun b => (F.blockHeight b).toNat) items cursor order limit := by
  have hselects : ∀ c ∈ cursor, ∀ b, (c.mapPos (BitVec.ofNat 64)).selects order (F.blockHeight b) =
      c.selects order (F.blockHeight b).toNat := by
    intro c hc b
    rw [selects_toNat, mapPos_toNat_ofNat c (hcursor c hc)]
  rcases cursor with _ | (after | before)
  · rfl
  · have h := hselects _ rfl
    simp only [CursorChoice.mapPos] at h
    simp only [pageOf, Option.map_some, CursorChoice.mapPos, h]
  · have h := hselects _ rfl
    simp only [CursorChoice.mapPos] at h
    simp only [pageOf, Option.map_some, CursorChoice.mapPos, h]

section Stores

variable (store : Store.BlockStore F.toFormat)

/-- The blocks that the listing reads. -/
def listedBlocks : List Block := store.nonEmpty.map F.intoBlock

/-- The listed blocks are in order of height. -/
lemma pairwise_listedBlocks :
    (listedBlocks store).Pairwise fun a b => a.height < b.height := by
  refine List.pairwise_map.2 (store.pairwise_nonEmpty.imp fun {a b} h => ?_)
  rw [F.height_intoBlock, F.height_intoBlock]
  exact BitVec.lt_def.1 h

/-- The blocks that are listed as non-empty have transactions. -/
lemma nonEmptyBlocks_listedBlocks : nonEmptyBlocks (listedBlocks store) = listedBlocks store := by
  refine List.filter_eq_self.2 fun block hblock => ?_
  obtain ⟨b, hb, rfl⟩ := List.mem_map.1 hblock
  obtain ⟨v, hrecord, hv⟩ := store.mem_nonEmpty.1 hb
  obtain ⟨b', hb', -, hne⟩ := store.wellFormed.row hrecord
  obtain rfl : b = b' := Option.some.inj (hv.symm.trans hb')
  rw [Bool.not_eq_true', List.isEmpty_eq_false_iff]
  exact fun h => hne ((F.txns_eq_nil_iff b).1 h)

/-- **Fetching blocks** gives a page of those that are listed as non-empty. -/
lemma fetchBlocksNonEmptyPaginated_eq (cursor : Option (CursorChoice BlockHeight))
    (hcursor : ∀ c ∈ cursor, c.inner < U64) (order : BlockListOrder) (limit : ℕ) :
    fetchBlocksNonEmptyPaginated F store.db cursor order limit =
      .ok (listNonEmptyPaginated (listedBlocks store) cursor order limit) := by
  have hheight : (fun b => (F.blockHeight b).toNat) = fun b => (F.intoBlock b).height := by
    funext b
    exact (F.height_intoBlock b).symm
  rw [fetchBlocksNonEmptyPaginated, store.listNonEmptyPaginated_eq, listNonEmptyPaginated_eq,
    nonEmptyBlocks_listedBlocks, listedBlocks, pageOf_map, pageOf_ofNat _ _ hcursor, hheight,
    Outcome.ok_bind, Store.Format.items, List.map_map]
  rfl

/-- **The listing on the store** is that of the blocks that are listed as non-empty. -/
theorem listTxns_eq (query : ListTxnsQuery) (hcursor : ∀ c ∈ query.cursor, c.inner.block < U64) :
    listTxns F store.db query = .ok (listTxnsInner (listedBlocks store) query) := by
  have hvalid : ∀ c ∈ query.cursor.map fun cursor => cursor.mapPos ListTxnsPosition.block,
      c.inner < U64 := by
    intro c hc
    obtain ⟨c', hc', rfl⟩ := Option.mem_map.1 hc
    have h := hcursor c' hc'
    rcases c' with (start | start) | (last | last) <;> exact h
  rw [listTxns, fetchBlocksNonEmptyPaginated_eq store _ hvalid, Outcome.ok_bind, listTxnsInner]
  rfl

/-- A listed transaction has a height in range. -/
lemma lt_of_mem_listing {order : ListTxnOrder} {txn : TxnWithInfo}
    (h : txn ∈ order.listing (listedBlocks store)) : txn.blockHeight < U64 := by
  obtain ⟨block, hblock, htxn⟩ := List.mem_flatMap.1 h
  obtain ⟨b, -, rfl⟩ := List.mem_map.1 (mem_blockListing.1 hblock)
  rw [height_of_mem_txnsOf htxn]
  rw [F.height_intoBlock]
  exact (F.blockHeight b).isLt

/-- A page of transactions, and the cursor from which the next one goes on. -/
def nextTxns (F : NodeFormat B Txn) (db : Smirk.Database) (order : ListTxnOrder) (limit : ℕ)
    (c : Option (CursorChoiceAfter ListTxnsPosition)) :
    Outcome Store.Error (List TxnWithInfo × Option (CursorChoiceAfter ListTxnsPosition)) := do
  let page ← listTxns F db ⟨some limit, c.map .after, order⟩
  pure (page.2, page.1.after)

/-- Following the cursors gives the transactions of all blocks that are listed as non-empty. -/
lemma exists_walk_listing (order : ListTxnOrder) {limit : ℕ} (hlimit : 1 ≤ limit) :
    ∃ pages, Pages.Walk (nextTxns F store.db order limit) none pages ∧
      pages.flatten = order.listing (listedBlocks store) := by
  have hsorted := pairwise_listedBlocks store
  refine @Pages.exists_walk _ _ _ _
    (fun c : Option (CursorChoiceAfter ListTxnsPosition) => ∀ c' ∈ c, c'.inner.block < U64)
    (order.left (listedBlocks store)) (fun txn => .afterInclusive txn.position) (min limit 100)
    (le_min hlimit (by decide)) (fun c hc => ?_) (fun c _ txn htxn => ?_)
    (fun c init txn rest h => left_afterInclusive hsorted h) none (by simp)
  · have hcursor : ∀ c' ∈ c.map CursorChoice.after, c'.inner.block < U64 := by
      intro c' hc'
      obtain ⟨c'', hc'', rfl⟩ := Option.mem_map.1 hc'
      exact hc c'' hc''
    rw [nextTxns, listTxns_eq store _ hcursor, Outcome.ok_bind, listTxnsInner_after,
      listTxnsInner_left hsorted]
    rfl
  · have hmem : txn ∈ order.listing (listedBlocks store) := by
      rcases c with _ | c
      · exact htxn
      · exact (List.mem_filter.1 htxn).1
    intro c' hc'
    obtain rfl : CursorChoiceAfter.afterInclusive txn.position = c' := Option.some.inj hc'
    exact lt_of_mem_listing store hmem

/-- Following the cursors ends. The transactions that it gives are in the requested order, and they
are those of the blocks that are listed as non-empty. -/
lemma exists_walk_mem (order : ListTxnOrder) {limit : ℕ} (hlimit : 1 ≤ limit) :
    ∃ pages, Pages.Walk (nextTxns F store.db order limit) none pages ∧
      (pages.flatten.Pairwise fun a b => order.before a.position b.position = true) ∧
      ∀ item, item ∈ pages.flatten ↔
        ∃ b, store.ListsNonEmpty b ∧ item ∈ txnsOf (F.intoBlock b) := by
  obtain ⟨pages, hwalk, hflat⟩ := exists_walk_listing store order hlimit
  refine ⟨pages, hwalk, ?_, fun item => ?_⟩
  · rw [hflat]
    exact pairwise_txnListing (pairwise_listedBlocks store) order
  rw [hflat, ListTxnOrder.listing, List.mem_flatMap]
  constructor
  · rintro ⟨block, hblock, hitem⟩
    obtain ⟨b, hb, rfl⟩ := List.mem_map.1 (mem_blockListing.1 hblock)
    exact ⟨b, store.mem_nonEmpty.1 hb, hitem⟩
  · rintro ⟨b, hb, hitem⟩
    exact ⟨F.intoBlock b, mem_blockListing.2 (List.mem_map_of_mem (store.mem_nonEmpty.2 hb)),
      hitem⟩

/-- A transaction of a block is one of its stored transactions. -/
lemma txns_ne_nil_of_mem {b : B} {item : TxnWithInfo} (h : item ∈ txnsOf (F.intoBlock b)) :
    F.txns b ≠ [] := by
  intro hnil
  rw [txnsOf_eq_nil_iff.2 ((F.txns_eq_nil_iff b).2 hnil)] at h
  cases h

/-- **What following the cursors is to give**: it ends, and gives the transactions of the stored
blocks and no others, in the requested order. The order is strict, so that each comes once. -/
def WalksStored (order : ListTxnOrder) (limit : ℕ) : Prop :=
  ∃ pages, Pages.Walk (nextTxns F store.db order limit) none pages ∧
    (pages.flatten.Pairwise fun a b => order.before a.position b.position = true) ∧
    ∀ item, item ∈ pages.flatten ↔ ∃ b, store.Holds b ∧ item ∈ txnsOf (F.intoBlock b)

/-- **Following the cursors.** From the start, following the cursors of the pages after ends. It
gives the transactions of the stored blocks exactly if the blocks that are listed as non-empty are
the stored blocks with transactions. With others, a block that was replaced by one without
transactions is listed too.

**Proof sketch.** The pages give, in order, the transactions of the blocks that are listed as
non-empty (`exists_walk_mem`). Every stored block with transactions is among these
(`Reachable.covers`), so they are the stored ones exactly if the listed blocks are stored. -/
theorem listTxns_walk_iff (h : store.Reachable) (order : ListTxnOrder) {limit : ℕ}
    (hlimit : 1 ≤ limit) :
    (∃ pages, Pages.Walk (nextTxns F store.db order limit) none pages) ∧
      (WalksStored store order limit ↔ store.NonEmptyExact) := by
  obtain ⟨pages, hwalk, hsorted, hmem⟩ := exists_walk_mem store order hlimit
  refine ⟨⟨pages, hwalk⟩, fun hwalks b => ?_, fun hexact => ⟨pages, hwalk, hsorted, fun item => ?_⟩⟩
  · obtain ⟨pages', hwalk', -, hstored⟩ := hwalks
    obtain rfl := hwalk.unique hwalk'
    constructor
    · rintro ⟨v, hrecord, hv⟩
      obtain ⟨b', hb', -, hne⟩ := store.wellFormed.row hrecord
      obtain rfl : b = b' := Option.some.inj (hv.symm.trans hb')
      -- a transaction of the listed block is one of a stored block at its height
      obtain ⟨txn, htxn⟩ : ∃ txn, txn ∈ txnsOf (F.intoBlock b) :=
        List.exists_mem_of_ne_nil _ fun hnil =>
          hne ((F.txns_eq_nil_iff b).1 (txnsOf_eq_nil_iff.1 hnil))
      obtain ⟨stored, hholds, hitem⟩ := (hstored txn).1 ((hmem txn).2 ⟨b, ⟨v, hrecord, hv⟩, htxn⟩)
      have hheight : F.blockHeight stored = F.blockHeight b := by
        have heq := (height_of_mem_txnsOf hitem).symm.trans (height_of_mem_txnsOf htxn)
        rw [F.height_intoBlock, F.height_intoBlock] at heq
        exact BitVec.eq_of_toNat_eq heq
      obtain ⟨v', hrecord', hv'⟩ := h.covers stored hholds (txns_ne_nil_of_mem hitem)
      rw [hheight, hrecord, Option.some.injEq] at hrecord'
      obtain rfl : b = stored := by
        rw [← hrecord', hv] at hv'
        exact Option.some.inj hv'
      exact ⟨hholds, hne⟩
    · rintro ⟨hholds, hne⟩
      exact h.covers b hholds hne
  · rw [hmem]
    constructor
    · rintro ⟨b, hb, hitem⟩
      exact ⟨b, ((hexact b).1 hb).1, hitem⟩
    · rintro ⟨b, hb, hitem⟩
      exact ⟨b, h.covers b hb (txns_ne_nil_of_mem hitem), hitem⟩

/-- **The page before a page**, on the store. A page comes with the cursor of its first transaction.
Asked for the page before, the node returns the transactions that immediately precede this one
exactly if the blocks before it reach back as far. A page that led to this one has these
transactions, so going forward and back again returns to it under the same condition.

**Proof sketch.** On the store the pages are those of `listTxnsInner`, for cursors in range
(`listTxns_eq`), and for these the condition is that of `listTxnsInner_back_iff`. A page that led to
this one has the transactions before it, as the pages after divide one listing. -/
theorem listTxns_back_iff (order : ListTxnOrder) {limit : Option ℕ} (hlimit : limit ≠ some 0) :
    (∀ (cursor : Option (CursorChoice ListTxnsPosition)) page t,
      (∀ c ∈ cursor, c.inner.block < U64) →
      listTxns F store.db ⟨limit, cursor, order⟩ = .ok page → page.2.head? = some t →
        page.1.before = some (.beforeInclusive t.position) ∧
        ∃ back, listTxns F store.db ⟨limit, some (.before (.beforeInclusive t.position)), order⟩ =
            .ok back ∧
          (back.2 = (order.preceding (listedBlocks store) t.position).rtake
              (min (limit.getD 10) 100) ↔
            ReachesBack order (listedBlocks store) (min (limit.getD 10) 100) t.position)) ∧
    ∀ (c : Option (CursorChoiceAfter ListTxnsPosition)) c' page next t,
      (∀ c'' ∈ c, c''.inner.block < U64) →
      listTxns F store.db ⟨limit, c.map .after, order⟩ = .ok page → page.1.after = some c' →
        listTxns F store.db ⟨limit, some (.after c'), order⟩ = .ok next →
          next.2.head? = some t →
            page.2 = (order.preceding (listedBlocks store) t.position).rtake
              (min (limit.getD 10) 100) := by
  have hsorted := pairwise_listedBlocks store
  have hpos : 1 ≤ min (limit.getD 10) 100 := by
    refine le_min ?_ (by decide)
    rcases limit with _ | _ | n
    · decide
    · exact absurd rfl hlimit
    · exact Nat.succ_pos n
  refine ⟨fun cursor page t hcursor hpage ht => ?_,
    fun c c' page next t hc hpage hafter hnext ht => ?_⟩
  · rw [listTxns_eq store _ hcursor, Outcome.ok.injEq] at hpage
    subst hpage
    have hlisted := mem_listing_of_mem_page (List.mem_of_mem_head? ht)
    refine ⟨by rw [listTxnsInner_before, ht]; rfl, _, listTxns_eq store _ ?_,
      listTxnsInner_back_iff hsorted hlisted hpos⟩
    intro c hc
    obtain rfl := Option.some.inj hc
    exact lt_of_mem_listing store hlisted
  · have hcursor : ∀ c'' ∈ c.map CursorChoice.after, c''.inner.block < U64 := by
      intro c'' hc''
      obtain ⟨c₀, hc₀, rfl⟩ := Option.mem_map.1 hc''
      exact hc c₀ hc₀
    rw [listTxns_eq store _ hcursor, Outcome.ok.injEq] at hpage
    subst hpage
    -- the cursor is that of a transaction on the page
    have hcursor' : ∀ c'' ∈ some (CursorChoice.after c'), c''.inner.block < U64 := by
      intro c'' hc''
      obtain rfl := Option.some.inj hc''
      rw [listTxnsInner_after] at hafter
      obtain ⟨last, hlast, rfl⟩ := Option.map_eq_some_iff.1 hafter
      exact lt_of_mem_listing store (mem_listing_of_mem_page (List.mem_of_getLast? hlast))
    rw [listTxns_eq store _ hcursor', Outcome.ok.injEq] at hnext
    subst hnext
    exact page_eq_preceding hsorted hafter ht

end Stores

end OnStore

/-! ## Stores of two blocks -/

/-- A transaction with a root of its own. -/
def sampleProof (recentRoot : Element) : UtxoProof := ⟨recentRoot, 0, 0, (0, 0), (0, 0), []⟩

/-- Blocks of the sample format, as blocks of the node. -/
def sampleNodeFormat : NodeFormat Store.BlockStore.SampleBlock Store.Hash where
  toFormat := Store.BlockStore.sampleFormat
  intoBlock b := ⟨⟨{ BlockContent.genesis.header with height := b.1.toNat },
    ⟨0, (Store.BlockStore.sampleFormat.txns b).map sampleProof⟩⟩, .default⟩
  height_intoBlock _ := rfl
  length_txns _ := List.length_map _

/-- A store with a block of two transactions. -/
def pairStore : Store.BlockStore sampleNodeFormat.toFormat :=
  (Store.BlockStore.create sampleNodeFormat.toFormat).set (1, 10, .inr (5, .inr 6))

/-- Following the cursors of this store, one transaction at a time. -/
theorem listTxns_walk_iff_pairStore :
    (∃ pages, Pages.Walk (nextTxns sampleNodeFormat pairStore.db .newestToOldest 1) none pages) ∧
      (WalksStored pairStore .newestToOldest 1 ↔ pairStore.NonEmptyExact) :=
  listTxns_walk_iff pairStore (.set .create _) .newestToOldest le_rfl

/-- A store in which a block with a transaction was replaced by one without. -/
def replacedTxnStore : Store.BlockStore sampleNodeFormat.toFormat :=
  ((Store.BlockStore.create sampleNodeFormat.toFormat).set (1, 10, .inr (5, .inl ()))).set
    (1, 11, .inl ())

/-- Following the cursors of this store gives the transaction of the replaced block, though no
stored block has a transaction. -/
theorem listTxns_walk_stale :
    (∃ pages, Pages.Walk (nextTxns sampleNodeFormat replacedTxnStore.db .newestToOldest 1) none
      pages ∧ pages.flatten.map TxnWithInfo.position = [⟨1, 0⟩]) ∧
      (∀ b, replacedTxnStore.Holds b → txnsOf (sampleNodeFormat.intoBlock b) = []) ∧
      ¬ ∀ (store : Store.BlockStore sampleNodeFormat.toFormat) (order : ListTxnOrder) (limit : ℕ),
        store.Reachable → 1 ≤ limit → WalksStored store order limit := by
  have hwalked : ∃ pages, Pages.Walk (nextTxns sampleNodeFormat replacedTxnStore.db .newestToOldest
      1) none pages ∧ pages.flatten.map TxnWithInfo.position = [⟨1, 0⟩] := by
    obtain ⟨pages, hwalk, hflat⟩ :=
      exists_walk_listing replacedTxnStore .newestToOldest (le_refl 1)
    refine ⟨pages, hwalk, ?_⟩
    rw [hflat]
    decide +kernel
  have hempty : ∀ b, replacedTxnStore.Holds b → txnsOf (sampleNodeFormat.intoBlock b) = [] := by
    intro b hb
    rw [Store.BlockStore.replacedStore_holds.1 hb]
    rfl
  refine ⟨hwalked, hempty, fun hall => ?_⟩
  obtain ⟨pages, hwalk, hpositions⟩ := hwalked
  obtain ⟨pages', hwalk', -, hmem⟩ :=
    hall replacedTxnStore .newestToOldest 1 (.set (.set .create _) _) le_rfl
  obtain rfl := hwalk.unique hwalk'
  have hne : pages.flatten ≠ [] := by
    intro hnil
    rw [hnil] at hpositions
    cases hpositions
  obtain ⟨item, hitem⟩ := List.exists_mem_of_ne_nil _ hne
  obtain ⟨b, hb, hin⟩ := (hmem item).1 hitem
  rw [hempty b hb] at hin
  cases hin

/-- Its second page, one transaction at a time, starts with the second transaction. -/
lemma exists_head_pairStore :
    ∃ t, (listTxnsInner (listedBlocks pairStore)
      ⟨some 1, some (.after (.afterInclusive ⟨1, 0⟩)), .oldestToNewest⟩).2.head? = some t ∧
        t.position = ⟨1, 1⟩ := by
  have h : (listTxnsInner (listedBlocks pairStore)
      ⟨some 1, some (.after (.afterInclusive ⟨1, 0⟩)), .oldestToNewest⟩).2.head?.map
        TxnWithInfo.position = some ⟨1, 1⟩ := by
    decide
  exact Option.map_eq_some_iff.1 h

/-- The page of its second transaction leads back to no page that has the first one. -/
theorem back_misses_pairStore :
    ¬ ∀ (store : Store.BlockStore sampleNodeFormat.toFormat) (order : ListTxnOrder) (limit : ℕ)
      (cursor : Option (CursorChoice ListTxnsPosition)) page back t, 1 ≤ limit →
      (∀ c ∈ cursor, c.inner.block < U64) →
      listTxns sampleNodeFormat store.db ⟨some limit, cursor, order⟩ = .ok page →
      page.2.head? = some t →
      listTxns sampleNodeFormat store.db
        ⟨some limit, some (.before (.beforeInclusive t.position)), order⟩ = .ok back →
      back.2 = (order.preceding (listedBlocks store) t.position).rtake (min limit 100) := by
  intro h
  obtain ⟨t, ht, hpos⟩ := exists_head_pairStore
  have hback := h pairStore .oldestToNewest 1 (some (.after (.afterInclusive ⟨1, 0⟩))) _ _
    t le_rfl (by decide) (listTxns_eq pairStore _ (by decide)) ht
    (listTxns_eq pairStore _ (by rw [hpos]; decide))
  have hreach := (listTxnsInner_back_iff (pairwise_listedBlocks pairStore)
    (mem_listing_of_mem_page (List.mem_of_mem_head? ht)) (by decide)).1 hback
  rw [hpos] at hreach
  exact absurd hreach.1 (by decide)

/-- Going forward and back in this store. -/
theorem listTxns_back_iff_pairStore :
    ∃ page next t back,
      listTxns sampleNodeFormat pairStore.db ⟨some 1, none, .oldestToNewest⟩ = .ok page ∧
      listTxns sampleNodeFormat pairStore.db
        ⟨some 1, some (.after (.afterInclusive ⟨1, 0⟩)), .oldestToNewest⟩ = .ok next ∧
      next.2.head? = some t ∧
      next.1.before = some (.beforeInclusive t.position) ∧
      page.2 = (ListTxnOrder.oldestToNewest.preceding (listedBlocks pairStore)
        t.position).rtake 1 ∧
      listTxns sampleNodeFormat pairStore.db
        ⟨some 1, some (.before (.beforeInclusive t.position)), .oldestToNewest⟩ = .ok back ∧
      (back.2 = (ListTxnOrder.oldestToNewest.preceding (listedBlocks pairStore)
          t.position).rtake 1 ↔
        ReachesBack .oldestToNewest (listedBlocks pairStore) 1 t.position) := by
  obtain ⟨t, ht, -⟩ := exists_head_pairStore
  have hpage := listTxns_eq pairStore ⟨some 1, none, .oldestToNewest⟩ (by decide)
  have hnext := listTxns_eq pairStore
    ⟨some 1, some (.after (.afterInclusive ⟨1, 0⟩)), .oldestToNewest⟩ (by decide)
  obtain ⟨hback, hforward⟩ :=
    listTxns_back_iff pairStore .oldestToNewest (show some 1 ≠ some 0 by decide)
  obtain ⟨hbefore, back, hok, hiff⟩ := hback _ _ t (by decide) hnext ht
  exact ⟨_, _, t, back, hpage, hnext, ht, hbefore,
    hforward none (.afterInclusive ⟨1, 0⟩) _ _ t (by decide) hpage (by decide) hnext ht,
    hok, hiff⟩

end TempoRollup.Node
