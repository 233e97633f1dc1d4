import TempoRollup.Lib.Pages
import TempoRollup.Node.Pagination
import TempoRollup.Store.BlockStore

set_option relaxedAutoImplicit false
set_option autoImplicit false

/-!
# Lists of blocks

`block-store/src/list.rs` and the ranges of keys in `block-store/src/keys.rs`: the blocks of a range
of heights, in either order, and pages of them. The ranges are given to rocksdb as bytes.

## Main definitions

* `KeyRange`, `KeyRange.intoIterator` — `List`.
* `ListableKey.list`, `ListableKey.listPaginated`.
* `list`, `listPaginated`, `listNonEmpty`, `listNonEmptyPaginated`, `listTxns`.
* `BlockStore.stored`, `BlockStore.nonEmpty` — the blocks that are listed, by their heights.

## Main results

* `BlockStore.list_eq`, `BlockStore.listPaginated_eq` — lists and pages of the stored blocks.
* `BlockStore.list_pages` — pages are the blocks next to the cursor, and follow each other; those of
  non-empty blocks are so exactly if the index has the blocks that are stored.
* `BlockStore.nonEmptyExact_run_iff` — after which calls the index is so.
-/

open Exec

namespace TempoRollup.Store

open Smirk (Database)
open Node (Bound CursorChoice CursorChoiceAfter CursorChoiceBefore BlockListOrder cursorRange
  listRange pageByRange pageOf)

/-! ## Ranges of keys -/

/-- `List`. -/
structure KeyRange where
  startKey : Key
  endKey : Key
  lowerExclusive : Bool
  upperInclusive : Bool
  startToEnd : Bool

/-- The lower bound that rocksdb is given. -/
def KeyRange.lowerBound (self : KeyRange) : List UInt8 :=
  if self.lowerExclusive then self.startKey.serializeImmediateSuccessor
  else self.startKey.serialize

/-- The upper bound that rocksdb is given, which is not part of the range. -/
def KeyRange.upperBound (self : KeyRange) : List UInt8 :=
  if self.upperInclusive then self.endKey.serializeImmediateSuccessor
  else self.endKey.serialize

/-- The rows that `into_iterator` asks rocksdb for. -/
def KeyRange.rows (self : KeyRange) (db : Database) : List (List UInt8 × List UInt8) :=
  db.iterate self.lowerBound self.upperBound self.startToEnd

section Lists

variable {B Txn : Type} (F : Format B Txn)

/-- A row that `into_iterator` yields. -/
def Format.readRow (row : List UInt8 × List UInt8) : Outcome Error (Key × B) := do
  let key ← (Key.deserialize row.1).mapErr fun _ => .invalidKey
  let value ← fromBytes F.block row.2
  pure (key, value)

namespace ListableKey

variable (K : ListableKey)

/-- `min_value`. -/
def minValue : BlockHeight := 0

/-- `max_value`. -/
def maxValue : BlockHeight := BitVec.allOnes 64

/-- `ListableKey::list`. -/
def list (range : Bound BlockHeight × Bound BlockHeight) (order : BlockListOrder) : KeyRange where
  startKey :=
    match range.1 with
    | .included x => K.toKey x
    | .excluded x => K.toKey x
    | .unbounded => K.toKey minValue
  endKey :=
    match range.2 with
    | .included x => K.toKey x
    | .excluded x => K.toKey x
    | .unbounded => K.toKey maxValue
  lowerExclusive :=
    match range.1 with
    | .included _ => false
    | .excluded _ => true
    | .unbounded => false
  upperInclusive :=
    match range.2 with
    | .included _ => true
    | .excluded _ => false
    | .unbounded => true
  startToEnd := order.isIndexedOrder

/-- `ListableKey::list_paginated`. -/
def listPaginated (db : Database) (cursor : Option (CursorChoice BlockHeight))
    (order : BlockListOrder) (limit : ℕ) : Outcome Error (List (Key × B)) := do
  let range := cursorRange cursor order
  let (reverseResults, order) :=
    match cursor with
    | some (.before _) => (true, order.reverse)
    | _ => (false, order)
  let results ← (((K.list range order).rows db).take limit).mapM F.readRow
  pure (if reverseResults then results.reverse else results)

/-- The items of `BlockStore`'s lists: those with another kind of key are errors. -/
def item (row : Key × B) : Outcome Error (BlockHeight × B) :=
  match K.fromKey row.1 with
  | some height => .ok (height, row.2)
  | none => .err .invalidKey

end ListableKey

/-- `list`, read to its end. -/
def list (db : Database) (blockRange : Bound BlockHeight × Bound BlockHeight)
    (order : BlockListOrder) : Outcome Error (List (BlockHeight × B)) := do
  let rows ← ((KeyBlock.list blockRange order).rows db).mapM F.readRow
  rows.mapM KeyBlock.item

/-- `list_paginated`, read to its end. -/
def listPaginated (db : Database) (cursor : Option (CursorChoice BlockHeight))
    (order : BlockListOrder) (limit : ℕ) : Outcome Error (List (BlockHeight × B)) := do
  let rows ← KeyBlock.listPaginated F db cursor order limit
  rows.mapM KeyBlock.item

/-- `list_non_empty`, read to its end. -/
def listNonEmpty (db : Database) (blockRange : Bound BlockHeight × Bound BlockHeight)
    (order : BlockListOrder) : Outcome Error (List (BlockHeight × B)) := do
  let rows ← ((KeyNonEmptyBlock.list blockRange order).rows db).mapM F.readRow
  rows.mapM KeyNonEmptyBlock.item

/-- `list_non_empty_paginated`, read to its end. -/
def listNonEmptyPaginated (db : Database) (cursor : Option (CursorChoice BlockHeight))
    (order : BlockListOrder) (limit : ℕ) : Outcome Error (List (BlockHeight × B)) := do
  let rows ← KeyNonEmptyBlock.listPaginated F db cursor order limit
  rows.mapM KeyNonEmptyBlock.item

/-- `list_txns`, read to its end. -/
def listTxns (db : Database) : Outcome Error (List Txn) :=
  (db.iterate (Key.txnByHash 0).serialize
    (Key.txnByHash (BitVec.allOnes 256)).serializeImmediateSuccessor true).mapM
    fun row => fromBytes F.txn row.2

end Lists

/-! ## The rows of a range -/

section Rows

/-- Below the successor of a key are the key itself and what is below it. -/
lemma isLT_successor (a b : Key) :
    (compare a.serialize b.serializeImmediateSuccessor).isLT =
      (compare a.serialize b.serialize).isLE :=
  ByteOrder.compare_successor_lt_iff _ _

variable (K : ListableKey) (range : Bound BlockHeight × Bound BlockHeight) (order : BlockListOrder)

/-- Heights are compared as numbers. -/
lemma isLT_compare_toNat (a b : BlockHeight) :
    (compare a.toNat b.toNat).isLT = decide (a < b) := by
  rw [Bool.eq_iff_iff, decide_eq_true_iff, BitVec.lt_def, Ordering.isLT_iff_eq_lt,
    Nat.compare_eq_lt]

/-- Heights are compared as numbers, with equality. -/
lemma isLE_compare_toNat (a b : BlockHeight) :
    (compare a.toNat b.toNat).isLE = decide (a ≤ b) := by
  rw [Bool.eq_iff_iff, decide_eq_true_iff, BitVec.le_def, Nat.isLE_compare]

/-- Not below is at or above. -/
lemma not_isLT_compare_toNat (a b : BlockHeight) :
    (!(compare a.toNat b.toNat).isLT) = decide (b ≤ a) := by
  rw [isLT_compare_toNat, Bool.eq_iff_iff, Bool.not_eq_true', decide_eq_false_iff_not,
    decide_eq_true_iff, BitVec.not_lt]

/-- Not at or below is above. -/
lemma not_isLE_compare_toNat (a b : BlockHeight) :
    (!(compare a.toNat b.toNat).isLE) = decide (b < a) := by
  rw [isLE_compare_toNat, Bool.eq_iff_iff, Bool.not_eq_true', decide_eq_false_iff_not,
    decide_eq_true_iff, BitVec.not_le]

namespace ListableKey

/-- A key of the kind is not below the lower bound if its height is in the range. -/
lemma not_isLT_lowerBound (height : BlockHeight) :
    (!(compare (K.toKey height).serialize (K.list range order).lowerBound).isLT) =
      range.1.startsBelow height := by
  rcases range with ⟨start | start | _, last⟩
  · change (!(compare (K.toKey height).serialize (K.toKey start).serialize).isLT) = decide _
    rw [K.compare_toKey, not_isLT_compare_toNat]
  · change (!(compare (K.toKey height).serialize
      (K.toKey start).serializeImmediateSuccessor).isLT) = decide _
    rw [isLT_successor, K.compare_toKey, not_isLE_compare_toNat]
  · change (!(compare (K.toKey height).serialize (K.toKey minValue).serialize).isLT) = true
    rw [K.compare_toKey, not_isLT_compare_toNat]
    exact decide_eq_true (BitVec.le_def.2 (Nat.zero_le _))

/-- A key of the kind is below the upper bound if its height is in the range. -/
lemma isLT_upperBound (height : BlockHeight) :
    (compare (K.toKey height).serialize (K.list range order).upperBound).isLT =
      range.2.endsAbove height := by
  rcases range with ⟨start, last | last | _⟩
  · change (compare (K.toKey height).serialize
      (K.toKey last).serializeImmediateSuccessor).isLT = decide _
    rw [isLT_successor, K.compare_toKey, isLE_compare_toNat]
  · change (compare (K.toKey height).serialize (K.toKey last).serialize).isLT = decide _
    rw [K.compare_toKey, isLT_compare_toNat]
  · change (compare (K.toKey height).serialize
      (K.toKey maxValue).serializeImmediateSuccessor).isLT = true
    rw [isLT_successor, K.compare_toKey, isLE_compare_toNat]
    refine decide_eq_true (BitVec.le_def.2 ?_)
    rw [maxValue, BitVec.toNat_allOnes]
    exact Nat.le_sub_one_of_lt height.isLt

/-- A list starts at a key of its kind. -/
lemma startKey_list : ∃ x, (K.list range order).startKey = K.toKey x := by
  rcases range with ⟨start | start | _, last⟩
  · exact ⟨start, rfl⟩
  · exact ⟨start, rfl⟩
  · exact ⟨minValue, rfl⟩

/-- A list ends at a key of its kind. -/
lemma endKey_list : ∃ x, (K.list range order).endKey = K.toKey x := by
  rcases range with ⟨start, last | last | _⟩
  · exact ⟨last, rfl⟩
  · exact ⟨last, rfl⟩
  · exact ⟨maxValue, rfl⟩

/-- **A key of another kind is outside every range**: it is below the lower bound or above the upper
bound. -/
lemma outside_of_fromKey_eq_none {key : Key} (hkey : K.fromKey key = none) :
    (!(compare key.serialize (K.list range order).lowerBound).isLT &&
      (compare key.serialize (K.list range order).upperBound).isLT) = false := by
  obtain ⟨start, hstart⟩ := K.startKey_list range order
  obtain ⟨last, hlast⟩ := K.endKey_list range order
  have hkind : key.kind ≠ (K.toKey start).kind := by
    intro heq
    obtain ⟨height, rfl⟩ := K.eq_toKey key start heq
    rw [(K.fromKey_eq_some_iff _ height).2 rfl] at hkey
    cases hkey
  rw [Bool.and_eq_false_iff, Bool.not_eq_false']
  rw [ne_eq, ← UInt8.toNat_inj] at hkind
  rcases Nat.lt_or_gt_of_ne hkind with hlt | hgt
  · left
    have hcompare := Key.compare_of_kind_lt (b := K.toKey start) hlt
    rw [KeyRange.lowerBound, hstart]
    split_ifs
    · rw [isLT_successor, hcompare]
      rfl
    · rw [hcompare]
      rfl
  · right
    have hcompare : compare key.serialize (K.toKey last).serialize = .gt := by
      rw [← Ordering.swap_eq_lt, ← Std.OrientedCmp.eq_swap]
      exact Key.compare_of_kind_lt (by rw [K.kind_toKey last start]; exact hgt)
    rw [KeyRange.upperBound, hlast]
    split_ifs
    · rw [isLT_successor, hcompare]
      rfl
    · rw [hcompare]
      rfl

end ListableKey

end Rows

/-! ## The blocks of a kind of keys -/

section Entries

variable {B Txn : Type} {F : Format B Txn}

/-- What stands under the keys of the kind are blocks of their heights. -/
def ListableKey.OfBlocks (K : ListableKey) (F : Format B Txn) : Prop :=
  ∀ height v, F.Row (K.toKey height) v →
    ∃ b, F.block.fromBytes v = some b ∧ F.blockHeight b = height

/-- Under the keys of blocks stand blocks of their heights. -/
lemma KeyBlock_ofBlocks : KeyBlock.OfBlocks F := fun _ _ h => h

/-- Under the keys of blocks with transactions stand blocks of their heights. -/
lemma KeyNonEmptyBlock_ofBlocks : KeyNonEmptyBlock.OfBlocks F := by
  rintro height v ⟨b, hb, hheight, -⟩
  exact ⟨b, hb, hheight⟩

namespace ListableKey

variable {K : ListableKey}

/-- The block of a row of the kind, with the bytes that it was read from. -/
def read (K : ListableKey) (F : Format B Txn) (row : List UInt8 × List UInt8) :
    Option (B × List UInt8) :=
  match Key.deserialize row.1 with
  | .ok key =>
    if (K.fromKey key).isSome then (F.block.fromBytes row.2).map fun b => (b, row.2) else none
  | _ => none

/-- The row of a block. -/
def write (K : ListableKey) (F : Format B Txn) (entry : B × List UInt8) :
    List UInt8 × List UInt8 :=
  ((K.toKey (F.blockHeight entry.1)).serialize, entry.2)

/-- A written record is read back if its key is of the kind. -/
lemma read_serialize (key : Key) (v : List UInt8) :
    K.read F (key.serialize, v) =
      if (K.fromKey key).isSome then (F.block.fromBytes v).map fun b => (b, v) else none := by
  rw [read]
  simp only [Key.deserialize_serialize]

/-- The blocks of the kind, with the bytes that they are read from, in the order of the rows. -/
def entries (K : ListableKey) (F : Format B Txn) (db : Database) : List (B × List UInt8) :=
  db.toList.filterMap (K.read F)

/-- The blocks of the kind, in the order of their heights. -/
def blocks (K : ListableKey) (F : Format B Txn) (db : Database) : List B :=
  (K.entries F db).map Prod.fst

/-- The items of the rows of blocks have keys of the right kind. -/
lemma mapM_item (blocks : List B) :
    (blocks.map fun b => (K.toKey (F.blockHeight b), b)).mapM K.item =
      .ok (blocks.map fun b => (F.blockHeight b, b)) := by
  refine Outcome.mapM_map_eq_ok fun b _ => ?_
  rw [item, (K.fromKey_eq_some_iff _ _).2 rfl]

variable (hK : K.OfBlocks F) (store : BlockStore F)

include hK

/-- A record that is read as a block stands under its height. -/
lemma read_eq_some {k v : List UInt8} {entry : B × List UInt8} (hrecord : store.db[k]? = some v)
    (hread : K.read F (k, v) = some entry) :
    (k, v) = K.write F entry ∧ F.block.fromBytes v = some entry.1 := by
  obtain ⟨key, rfl, hrow⟩ := store.wellFormed k v hrecord
  rw [read_serialize] at hread
  rcases hkey : K.fromKey key with _ | height
  · rw [hkey] at hread
    cases hread
  · rw [hkey, if_pos Option.isSome_some] at hread
    obtain rfl := (K.fromKey_eq_some_iff _ _).1 hkey
    obtain ⟨b, hb, rfl⟩ := hK height v hrow
    rw [hb] at hread
    obtain rfl : (b, v) = entry := Option.some.inj hread
    exact ⟨rfl, hb⟩

/-- A record that is not read as a block is one of another kind. -/
lemma read_eq_none {k v : List UInt8} (hrecord : store.db[k]? = some v)
    (hread : K.read F (k, v) = none) : ∃ key : Key, k = key.serialize ∧ K.fromKey key = none := by
  obtain ⟨key, rfl, hrow⟩ := store.wellFormed k v hrecord
  refine ⟨key, rfl, ?_⟩
  rw [read_serialize] at hread
  rcases hkey : K.fromKey key with _ | height
  · rfl
  · obtain rfl := (K.fromKey_eq_some_iff _ _).1 hkey
    obtain ⟨b, hb, -⟩ := hK height v hrow
    rw [hkey, if_pos Option.isSome_some, hb] at hread
    cases hread

/-- **The rows of a range** are those of the blocks in it. -/
lemma rows_list (range : Bound BlockHeight × Bound BlockHeight) (order : BlockListOrder) :
    (K.list range order).rows store.db =
      (listRange (fun entry => F.blockHeight entry.1) (K.entries F store.db) range order).map
        (K.write F) := by
  refine Database.iterate_eq_map (fun k v entry hrecord hread => ?_) (fun k v hrecord hread => ?_) _
  · obtain ⟨hwrite, -⟩ := read_eq_some hK store hrecord hread
    obtain ⟨rfl, rfl⟩ := Prod.mk.inj hwrite
    exact ⟨by rw [K.not_isLT_lowerBound, K.isLT_upperBound], rfl⟩
  · obtain ⟨key, rfl, hkey⟩ := read_eq_none hK store hrecord hread
    exact K.outside_of_fromKey_eq_none range order hkey

/-- The entries of a kind are its readable records. -/
lemma mem_entries {entry : B × List UInt8} :
    entry ∈ K.entries F store.db ↔
      record store.db (K.toKey (F.blockHeight entry.1)) = some entry.2 ∧
        F.block.fromBytes entry.2 = some entry.1 := by
  rw [entries, List.mem_filterMap]
  constructor
  · rintro ⟨⟨k, v⟩, hmem, hread⟩
    have hrecord := Database.mem_toList.1 hmem
    obtain ⟨hwrite, hb⟩ := read_eq_some hK store hrecord hread
    obtain ⟨rfl, rfl⟩ := Prod.mk.inj hwrite
    exact ⟨hrecord, hb⟩
  · rintro ⟨hrecord, hb⟩
    refine ⟨K.write F entry, Database.mem_toList.2 hrecord, ?_⟩
    rw [write, read_serialize, (K.fromKey_eq_some_iff _ _).2 rfl, if_pos Option.isSome_some, hb]
    rfl

/-- The blocks are in the order of their heights. -/
lemma pairwise_entries : (K.entries F store.db).Pairwise fun a b =>
    F.blockHeight a.1 < F.blockHeight b.1 := by
  rw [entries, List.pairwise_filterMap]
  refine (Database.pairwise_toList store.db).imp_of_mem ?_
  rintro ⟨k, v⟩ ⟨k', v'⟩ hmem hmem' hlt a ha b hb
  obtain ⟨hwrite, -⟩ := read_eq_some hK store (Database.mem_toList.1 hmem) ha
  obtain ⟨hwrite', -⟩ := read_eq_some hK store (Database.mem_toList.1 hmem') hb
  obtain ⟨rfl, rfl⟩ := Prod.mk.inj hwrite
  obtain ⟨rfl, rfl⟩ := Prod.mk.inj hwrite'
  rw [K.compare_toKey, Nat.compare_eq_lt] at hlt
  exact BitVec.lt_def.2 hlt

/-- Reading the rows of some of the blocks does not fail. -/
lemma mapM_readRow {entries : List (B × List UInt8)}
    (h : ∀ entry ∈ entries, entry ∈ K.entries F store.db) :
    (entries.map (K.write F)).mapM F.readRow =
      .ok (entries.map fun entry => (K.toKey (F.blockHeight entry.1), entry.1)) := by
  refine Outcome.mapM_map_eq_ok fun entry hentry => ?_
  have hb := ((mem_entries hK store).1 (h entry hentry)).2
  rw [Format.readRow, write, Key.deserialize_serialize, Outcome.mapErr, fromBytes_eq_ok.2 hb]
  rfl

/-- The blocks of the kind, by their heights. -/
lemma pairwise_blocks : (K.blocks F store.db).Pairwise fun a b =>
    F.blockHeight a < F.blockHeight b :=
  List.pairwise_map.2 (pairwise_entries hK store)

/-- The blocks of a kind are those of its readable records. -/
lemma mem_blocks {b : B} :
    b ∈ K.blocks F store.db ↔
      ∃ v, record store.db (K.toKey (F.blockHeight b)) = some v ∧
        F.block.fromBytes v = some b := by
  rw [blocks, List.mem_map]
  constructor
  · rintro ⟨⟨b, v⟩, hentry, rfl⟩
    exact ⟨v, (mem_entries hK store).1 hentry⟩
  · rintro ⟨v, h⟩
    exact ⟨(b, v), (mem_entries hK store).2 h, rfl⟩

/-- **A list** is that of the blocks in the range. -/
lemma mapM_rows_list (range : Bound BlockHeight × Bound BlockHeight) (order : BlockListOrder) :
    ((K.list range order).rows store.db).mapM F.readRow =
      .ok ((listRange F.blockHeight (K.blocks F store.db) range order).map
        fun b => (K.toKey (F.blockHeight b), b)) := by
  rw [rows_list hK, mapM_readRow hK store fun _ => Node.mem_of_mem_listRange, blocks,
    Node.listRange_map, List.map_map]
  rfl

/-- **A page** has the blocks next to the cursor. -/
theorem listPaginated_eq (cursor : Option (CursorChoice BlockHeight)) (order : BlockListOrder)
    (limit : ℕ) :
    K.listPaginated F store.db cursor order limit =
      .ok ((pageOf F.blockHeight (K.blocks F store.db) cursor order limit).map
        fun b => (K.toKey (F.blockHeight b), b)) := by
  have htake : ∀ order', (((K.list (cursorRange cursor order) order').rows store.db).take
      limit).mapM F.readRow =
        .ok (((listRange F.blockHeight (K.blocks F store.db) (cursorRange cursor order)
          order').take limit).map fun b => (K.toKey (F.blockHeight b), b)) := by
    intro order'
    rw [rows_list hK, ← List.map_take,
      mapM_readRow hK store fun _ h => Node.mem_of_mem_listRange (List.mem_of_mem_take h), blocks,
      Node.listRange_map, ← List.map_take, List.map_map]
    rfl
  rw [← Node.pageByRange_listRange]
  rcases cursor with _ | (after | before)
  · simp only [listPaginated, htake, Outcome.ok_bind]
    rfl
  · simp only [listPaginated, htake, Outcome.ok_bind]
    rfl
  · simp only [listPaginated, htake, Outcome.ok_bind, if_true, ← List.map_reverse]
    rfl

end ListableKey

end Entries

/-! ## The lists of a store -/

section Paginates

variable {B Txn : Type} {F : Format B Txn}

/-- The items of blocks: their heights, and the blocks. -/
def Format.items (F : Format B Txn) (blocks : List B) : List (BlockHeight × B) :=
  blocks.map fun b => (F.blockHeight b, b)

/-- The blocks of a list by their heights are determined by which they are. -/
lemma Format.eq_of_pairwise {blocks blocks' : List B}
    (h : blocks.Pairwise fun a b => F.blockHeight a < F.blockHeight b)
    (h' : blocks'.Pairwise fun a b => F.blockHeight a < F.blockHeight b)
    (hmem : ∀ b, b ∈ blocks ↔ b ∈ blocks') : blocks = blocks' := by
  have hnodup : ∀ {l : List B}, (l.Pairwise fun a b => F.blockHeight a < F.blockHeight b) →
      l.Nodup := by
    intro l hl
    refine hl.imp ?_
    rintro a b hab rfl
    exact BitVec.lt_irrefl _ hab
  have hperm := (List.perm_ext_iff_of_nodup (hnodup h) (hnodup h')).2 hmem
  exact hperm.eq_of_pairwise (fun a b _ _ hab hba => absurd hba (BitVec.lt_asymm hab)) h h'

/-- A page, and the height after which the next one goes on. -/
def nextPage (fetch : Option (CursorChoice BlockHeight) → BlockListOrder → ℕ →
      Outcome Error (List (BlockHeight × B))) (order : BlockListOrder) (limit : ℕ)
    (last : Option BlockHeight) :
    Outcome Error (List (BlockHeight × B) × Option BlockHeight) := do
  let page ← fetch (last.map fun height => .after (.after height)) order limit
  pure (page, page.getLast?.map Prod.fst)

/-- **Pages of blocks.** Each has the blocks next to the cursor, and following the cursors of the
last blocks from the start gives every block once. -/
structure Paginates (F : Format B Txn)
    (fetch : Option (CursorChoice BlockHeight) → BlockListOrder → ℕ →
      Outcome Error (List (BlockHeight × B))) (blocks : List B) : Prop where
  page : ∀ cursor order limit,
    fetch cursor order limit = .ok (F.items (pageOf F.blockHeight blocks cursor order limit))
  walk : ∀ order limit, 1 ≤ limit → ∃ pages, Pages.Walk (nextPage fetch order limit) none pages ∧
    pages.flatten = F.items (order.listing blocks)

/-- Pages that have the blocks next to the cursor follow each other.

**Proof sketch.** What is left after a cursor are the blocks beyond its height, so that
`Pages.exists_walk` applies: in a sorted listing these come after the last block of the page. -/
lemma paginates_of_page {fetch : Option (CursorChoice BlockHeight) → BlockListOrder → ℕ →
      Outcome Error (List (BlockHeight × B))} {blocks : List B}
    (hsorted : blocks.Pairwise fun a b => F.blockHeight a < F.blockHeight b)
    (hpage : ∀ cursor order limit,
      fetch cursor order limit = .ok (F.items (pageOf F.blockHeight blocks cursor order limit))) :
    Paginates F fetch blocks := by
  refine ⟨hpage, fun order limit hlimit => ?_⟩
  -- what is left after a height
  let left : Option BlockHeight → List (BlockHeight × B)
    | none => F.items (order.listing blocks)
    | some height => (F.items (order.listing blocks)).filter fun item => order.before height item.1
  have hitems : (F.items (order.listing blocks)).Pairwise fun a b =>
      order.before a.1 b.1 = true :=
    List.pairwise_map.2 (BlockListOrder.pairwise_listing hsorted order)
  refine @Pages.exists_walk _ _ _ _ (fun _ => True) left Prod.fst _ hlimit (fun last _ => ?_)
    (fun _ _ _ _ => trivial) (fun last init item rest hleft => ?_) none trivial
  · have hfetch : fetch (last.map fun height => .after (.after height)) order limit =
        .ok ((left last).take limit) := by
      rw [hpage]
      rcases last with _ | height
      · simp only [Option.map_none, pageOf, Format.items, List.map_take, left]
      · simp only [Option.map_some, pageOf, CursorChoice.selects, Format.items, List.map_take,
          List.filter_map, left]
        rfl
    rw [nextPage, hfetch]
    rfl
  · -- a block that is left comes after the height, and what comes after the block does so too
    have hafter : (left last).filter (fun next => order.before item.1 next.1) =
        left (some item.1) := by
      rcases last with _ | height
      · rfl
      · change ((F.items (order.listing blocks)).filter _).filter _ = _
        rw [List.filter_filter]
        refine List.filter_congr fun next _ => ?_
        have hitem : item ∈ left (some height) := by
          rw [hleft]
          exact List.mem_append_right _ List.mem_cons_self
        have hheight : order.before height item.1 = true := (List.mem_filter.1 hitem).2
        rcases hnext : order.before item.1 next.1 with _ | _
        · rfl
        · rw [BlockListOrder.before_trans hheight hnext]
          rfl
    have hsorted' : (left last).Pairwise fun a b : BlockHeight × B =>
        order.before a.1 b.1 = true := by
      rcases last with _ | height
      · exact hitems
      · exact hitems.sublist List.filter_sublist
    rw [← hafter, hleft]
    rw [hleft] at hsorted'
    exact @Pages.filter_of_pairwise _ (fun a b : BlockHeight × B => order.before a.1 b.1)
      (fun _ _ => BlockListOrder.before_asymm) _ _ _ hsorted'

end Paginates

namespace BlockStore

variable {B Txn : Type} {F : Format B Txn} (self : BlockStore F)

/-- The blocks that are stored, by their heights. -/
def stored : List B := KeyBlock.blocks F self.db

/-- The blocks that are listed as non-empty, by their heights. -/
def nonEmpty : List B := KeyNonEmptyBlock.blocks F self.db

/-- The block is listed as non-empty. -/
def ListsNonEmpty (b : B) : Prop :=
  ∃ v, record self.db (.nonEmptyBlock (F.blockHeight b)) = some v ∧
    F.block.fromBytes v = some b

/-- The blocks that are listed as non-empty are the stored blocks with transactions. -/
def NonEmptyExact : Prop := ∀ b, self.ListsNonEmpty b ↔ self.Holds b ∧ F.txns b ≠ []

/-- The stored blocks are in order of height. -/
lemma pairwise_stored : self.stored.Pairwise fun a b => F.blockHeight a < F.blockHeight b :=
  ListableKey.pairwise_blocks KeyBlock_ofBlocks self

/-- The indexed blocks are in order of height. -/
lemma pairwise_nonEmpty : self.nonEmpty.Pairwise fun a b => F.blockHeight a < F.blockHeight b :=
  ListableKey.pairwise_blocks KeyNonEmptyBlock_ofBlocks self

/-- What is listed is what the store holds. -/
lemma mem_stored {b : B} : b ∈ self.stored ↔ self.Holds b := by
  rw [stored, ListableKey.mem_blocks KeyBlock_ofBlocks, Holds, get]
  rcases hrecord : record self.db (.block (F.blockHeight b)) with _ | v
  · simp [KeyBlock, hrecord, pure]
  · rcases hv : F.block.fromBytes v with _ | b' <;>
      simp [KeyBlock, hrecord, fromBytes, hv, pure]

/-- What is listed is what the index holds. -/
lemma mem_nonEmpty {b : B} : b ∈ self.nonEmpty ↔ self.ListsNonEmpty b :=
  ListableKey.mem_blocks KeyNonEmptyBlock_ofBlocks self

/-- A list over a range of the store. -/
theorem list_eq (range : Bound BlockHeight × Bound BlockHeight) (order : BlockListOrder) :
    list F self.db range order =
      .ok (F.items (listRange F.blockHeight self.stored range order)) := by
  rw [list, ListableKey.mapM_rows_list KeyBlock_ofBlocks]
  exact ListableKey.mapM_item _

/-- A list over a range of the index. -/
lemma listNonEmpty_eq (range : Bound BlockHeight × Bound BlockHeight) (order : BlockListOrder) :
    listNonEmpty F self.db range order =
      .ok (F.items (listRange F.blockHeight self.nonEmpty range order)) := by
  rw [listNonEmpty, ListableKey.mapM_rows_list KeyNonEmptyBlock_ofBlocks]
  exact ListableKey.mapM_item _

/-- A page of the store. -/
theorem listPaginated_eq (cursor : Option (CursorChoice BlockHeight)) (order : BlockListOrder)
    (limit : ℕ) :
    listPaginated F self.db cursor order limit =
      .ok (F.items (pageOf F.blockHeight self.stored cursor order limit)) := by
  rw [listPaginated, ListableKey.listPaginated_eq KeyBlock_ofBlocks]
  exact ListableKey.mapM_item _

/-- A page of the index. -/
lemma listNonEmptyPaginated_eq (cursor : Option (CursorChoice BlockHeight))
    (order : BlockListOrder) (limit : ℕ) :
    listNonEmptyPaginated F self.db cursor order limit =
      .ok (F.items (pageOf F.blockHeight self.nonEmpty cursor order limit)) := by
  rw [listNonEmptyPaginated, ListableKey.listPaginated_eq KeyNonEmptyBlock_ofBlocks]
  exact ListableKey.mapM_item _

/-- The stored blocks that have transactions. -/
def storedNonEmpty : List B := self.stored.filter fun b => !(F.txns b).isEmpty

/-- The stored blocks with transactions. -/
lemma mem_storedNonEmpty {b : B} : b ∈ self.storedNonEmpty ↔ self.Holds b ∧ F.txns b ≠ [] := by
  rw [storedNonEmpty, List.mem_filter, mem_stored, Bool.not_eq_true', List.isEmpty_eq_false_iff]

/-- The two lists of non-empty blocks are the same exactly if they have the same blocks. -/
lemma nonEmpty_eq_iff : self.nonEmpty = self.storedNonEmpty ↔ self.NonEmptyExact := by
  constructor
  · intro heq b
    rw [← mem_nonEmpty, heq, mem_storedNonEmpty]
  · intro h
    have hsorted : self.storedNonEmpty.Pairwise fun a b => F.blockHeight a < F.blockHeight b :=
      self.pairwise_stored.sublist List.filter_sublist
    refine Format.eq_of_pairwise self.pairwise_nonEmpty hsorted fun b => ?_
    rw [mem_nonEmpty, mem_storedNonEmpty]
    exact h b

/-- **Pages of a store.** The stored blocks are listed in pages, each with the blocks next to its
cursor on the requested side, and following the cursors gives every block once. The same holds of
the stored blocks that have transactions exactly if their index has these blocks and no others.

**Proof sketch.** A list of the store is a range of the stored blocks in order of height, so that
pages come from `paginates_of_page`. The pages of the index are those of its own blocks, and a page
that is long enough shows all of these. -/
theorem list_pages : ∃ blocks : List B,
    (blocks.Pairwise fun a b => F.blockHeight a < F.blockHeight b) ∧
      (∀ b, b ∈ blocks ↔ self.Holds b) ∧
      Paginates F (listPaginated F self.db) blocks ∧
      (Paginates F (listNonEmptyPaginated F self.db) (blocks.filter fun b => !(F.txns b).isEmpty) ↔
        self.NonEmptyExact) := by
  refine ⟨self.stored, self.pairwise_stored, fun b => self.mem_stored,
    paginates_of_page self.pairwise_stored self.listPaginated_eq, ?_⟩
  rw [← nonEmpty_eq_iff]
  constructor
  · -- a page that is long enough has all blocks of either list
    intro h
    let limit := self.nonEmpty.length + self.storedNonEmpty.length
    have hpage := h.page none .lowestToHighest limit
    rw [listNonEmptyPaginated_eq, Outcome.ok.injEq] at hpage
    have hsnd := congrArg (List.map Prod.snd) hpage
    simp only [Format.items, List.map_map, Function.comp_def, List.map_id', pageOf] at hsnd
    change self.nonEmpty.take limit = self.storedNonEmpty.take limit at hsnd
    rwa [List.take_of_length_le (Nat.le_add_right _ _),
      List.take_of_length_le (Nat.le_add_left _ _)] at hsnd
  · intro heq
    change Paginates F _ self.storedNonEmpty
    rw [← heq]
    exact paginates_of_page self.pairwise_nonEmpty self.listNonEmptyPaginated_eq

/-- A block without transactions took the place of one with a transaction: it is listed as
non-empty, though no block with transactions is stored. -/
theorem list_stale :
    listNonEmptyPaginated sampleFormat replacedStore.db none .lowestToHighest 1 =
        .ok [(1, (1, 10, .inr (5, .inl ())))] ∧
      (∀ b, replacedStore.Holds b → sampleFormat.txns b = []) ∧
      ¬ ∀ store : BlockStore sampleFormat, ∃ blocks : List SampleBlock,
        (blocks.Pairwise fun a b => sampleFormat.blockHeight a < sampleFormat.blockHeight b) ∧
        (∀ b, b ∈ blocks ↔ store.Holds b) ∧
        Paginates sampleFormat (listPaginated sampleFormat store.db) blocks ∧
        Paginates sampleFormat (listNonEmptyPaginated sampleFormat store.db)
          (blocks.filter fun b => !(sampleFormat.txns b).isEmpty) := by
  have hlisted : listNonEmptyPaginated sampleFormat replacedStore.db none .lowestToHighest 1 =
      .ok [(1, (1, 10, .inr (5, .inl ())))] := by decide +kernel
  have hempty : ∀ b, replacedStore.Holds b → sampleFormat.txns b = [] := by
    intro b hb
    rw [replacedStore_holds.1 hb]
    rfl
  refine ⟨hlisted, hempty, fun h => ?_⟩
  obtain ⟨blocks, -, hmem, -, hpages⟩ := h replacedStore
  have hnil : (blocks.filter fun b => !(sampleFormat.txns b).isEmpty) = [] := by
    refine List.filter_eq_nil_iff.2 fun b hb => ?_
    rw [hempty b ((hmem b).1 hb)]
    decide
  have hpage := hpages.page none .lowestToHighest 1
  rw [hlisted, hnil] at hpage
  cases hpage

/-! ## Non-empty blocks after any calls -/

/-- The record among the non-empty blocks is that of the last block with transactions that was set
at the height. By induction on the calls, from the last one. -/
lemma record_nonEmptyBlock_run (blocks : List B) (height : BlockHeight) :
    record (blocks.foldl set (create F)).db (.nonEmptyBlock height) =
      (blocks.filter fun b => F.txns b ≠ [] ∧ F.blockHeight b = height).getLast?.map
        F.block.serialize := by
  induction blocks using List.reverseRecOn with
  | nil =>
    have hrecord : record (create F).db (.nonEmptyBlock height) =
        record ∅ (.nonEmptyBlock height) := by
      refine record_writeBatch_of_forall_ne (fun entry hentry => ?_) _
      rw [List.mem_singleton.1 hentry]
      rintro ⟨⟩
    exact hrecord.trans Std.TreeMap.getElem?_emptyc
  | append_singleton blocks block ih =>
    rw [List.foldl_concat, record_nonEmptyBlock_set, ih, List.filter_append, List.filter_singleton]
    by_cases h : F.txns block ≠ [] ∧ F.blockHeight block = height
    · rw [if_pos h, decide_eq_true h, cond_true, List.getLast?_concat, Option.map_some]
    · rw [if_neg h, decide_eq_false h, cond_false, List.append_nil]

/-- **When the index of non-empty blocks is right after any calls**: unless the last block that was
set at a height has no transactions while one before it had some.

**Proof sketch.** The store has the last block of each height, and the index the last one with
transactions. The two are the same for every height exactly if the last block of a height has
transactions whenever one has. -/
theorem nonEmptyExact_run_iff (blocks : List B) :
    (blocks.foldl set (create F)).NonEmptyExact ↔
      ∀ b ∈ blocks, F.txns b ≠ [] →
        ∀ last ∈ (blocks.filter fun b' => F.blockHeight b' = F.blockHeight b).getLast?,
          F.txns last ≠ [] := by
  have hlists : ∀ b, (blocks.foldl set (create F)).ListsNonEmpty b ↔
      (blocks.filter fun b' => F.txns b' ≠ [] ∧
        F.blockHeight b' = F.blockHeight b).getLast? = some b := by
    intro b
    rw [ListsNonEmpty, record_nonEmptyBlock_run]
    rcases (blocks.filter fun b' => F.txns b' ≠ [] ∧
      F.blockHeight b' = F.blockHeight b).getLast? with _ | b'
    · simp
    · simp [F.block.fromBytes_serialize]
  have hholds : ∀ b, (blocks.foldl set (create F)).Holds b ↔
      (blocks.filter fun b' => F.blockHeight b' = F.blockHeight b).getLast? = some b := by
    intro b
    rw [Holds, get_run, Outcome.ok.injEq]
  -- of the blocks of a height, the last one with transactions is the last one if it has some
  have hlast : ∀ b height, (blocks.filter fun b' => F.blockHeight b' = height).getLast? = some b →
      F.txns b ≠ [] →
        (blocks.filter fun b' => F.txns b' ≠ [] ∧ F.blockHeight b' = height).getLast? = some b := by
    intro b height hb hne
    have hsplit : (blocks.filter fun b' => F.txns b' ≠ [] ∧ F.blockHeight b' = height) =
        (blocks.filter fun b' => F.blockHeight b' = height).filter fun b' => F.txns b' ≠ [] := by
      rw [List.filter_filter]
      refine List.filter_congr fun b' _ => ?_
      rw [Bool.decide_and]
    obtain ⟨init, hinit⟩ : ∃ init, (blocks.filter fun b' => F.blockHeight b' = height) =
        init ++ [b] := ⟨_, (List.dropLast_append_getLast? b hb).symm⟩
    rw [hsplit, hinit, List.filter_append, List.filter_singleton, decide_eq_true hne, cond_true,
      List.getLast?_concat]
  constructor
  · intro hexact b hb hne last hmem
    -- some block of the height is listed, so it is the last one of the height
    have hsome : (blocks.filter fun b' => F.txns b' ≠ [] ∧
        F.blockHeight b' = F.blockHeight b) ≠ [] :=
      List.ne_nil_of_mem (List.mem_filter.2 ⟨hb, decide_eq_true ⟨hne, rfl⟩⟩)
    let top := (blocks.filter fun b' => F.txns b' ≠ [] ∧
      F.blockHeight b' = F.blockHeight b).getLast hsome
    have htop := of_decide_eq_true (List.mem_filter.1 (List.getLast_mem hsome)).2
    have hlisted : (blocks.foldl set (create F)).ListsNonEmpty top := by
      rw [hlists, show F.blockHeight top = F.blockHeight b from htop.2]
      exact List.getLast?_eq_some_getLast hsome
    have hhold := (hholds top).1 ((hexact top).1 hlisted).1
    rw [show F.blockHeight top = F.blockHeight b from htop.2] at hhold
    rw [hhold] at hmem
    rw [← Option.some.inj hmem]
    exact htop.1
  · intro hcond b
    rw [hlists, hholds]
    constructor
    · intro h
      obtain ⟨hmem, hprop⟩ := List.mem_filter.1 (List.mem_of_getLast? h)
      have hne := (of_decide_eq_true hprop).1
      have hsome : (blocks.filter fun b' => F.blockHeight b' = F.blockHeight b) ≠ [] :=
        List.ne_nil_of_mem (List.mem_filter.2 ⟨hmem, decide_eq_true rfl⟩)
      have hlast' := List.getLast?_eq_some_getLast hsome
      have hne' := hcond b hmem hne _ hlast'
      rw [hlast _ _ hlast' hne'] at h
      rw [hlast', h]
      exact ⟨rfl, hne⟩
    · rintro ⟨h, hne⟩
      exact hlast b _ h hne

end BlockStore

end TempoRollup.Store
