import Mathlib.Data.List.Induction
import TempoRollup.Lib.Runs
import TempoRollup.Smirk.Database
import TempoRollup.Store.Keys

set_option relaxedAutoImplicit false
set_option autoImplicit false

/-!
# The block store

`block-store/src/lib.rs`: blocks by their height, with an index of heights by block hash, one of
transactions by their hash, and one of the blocks that have transactions.

## Main definitions

* `Format` — the blocks that are stored, and how they are written.
* `get`, `getMaxHeight`, `getBlockHeightByHash`, `getTxnByHash`, `set`.
* `BlockStore` — a database all records of which can be read.
* `BlockStore.IndexesExact` — the indexes have the entries of the stored blocks, and no others.
* `BlockStore.Replaceable` — a block can be set so that they stay exact.

## Main results

* `BlockStore.set_eq` — setting a block does not fail.
* `BlockStore.get_set` — the last block that was set is found.
* `BlockStore.indexesExact_set_iff` — when setting a block keeps the indexes exact.
* `BlockStore.set_run` — the blocks, the greatest height and the indexes after any calls.

## Design

The calls of rocksdb succeed, and a value can always be written. The transactions of a block are in
the order of `txns`.
-/

open Exec

namespace TempoRollup.Store

open Smirk (Database WriteOp)

/-- What `Block`, `Transaction` and `WireMessage` say of the blocks that are stored. -/
structure Format (B Txn : Type) where
  blockHeight : B → BlockHeight
  blockHash : B → Hash
  txns : B → List Txn
  txnHash : Txn → Hash
  /-- `WireMessage` of the blocks. -/
  block : Codec B
  /-- `WireMessage` of the transactions. -/
  txn : Codec Txn

/-- A record as it is written, with its key. -/
abbrev Entry : Type := Key × List UInt8

/-- `to_be_bytes` of a height. -/
def heightBytes (height : BlockHeight) : List UInt8 := Codec.toBE 8 height.toNat

/-- `u64::from_be_bytes`, of a slice that is unwrapped as eight bytes. -/
def heightFromBytes (bytes : List UInt8) : Outcome Error BlockHeight :=
  if bytes.length = 8 then .ok (BitVec.ofNat 64 (Codec.ofBE bytes)) else .panic

/-- `WireMessage::from_bytes`: bytes after the message are ignored. -/
def fromBytes {α : Type} (codec : Codec α) (bytes : List UInt8) : Outcome Error α :=
  match codec.fromBytes bytes with
  | some a => .ok a
  | none => .err .wireMessage

/-- `DB::get`. -/
def record (db : Database) (key : Key) : Option (List UInt8) := db[key.serialize]?

/-- `DB::write` of a batch of puts. -/
def writeBatch (batch : List Entry) (db : Database) : Database :=
  db.write (batch.map fun entry => .put entry.1.serialize entry.2)

section Operations

variable {B Txn : Type} (F : Format B Txn)

/-- `txn_entries`. -/
def Format.txnEntries (block : B) : List Entry :=
  (F.txns block).map fun tx => (.txnByHash (F.txnHash tx), F.txn.serialize tx)

/-- `KeyNonEmptyBlock::from_block`. -/
def Format.fromBlock (block : B) : Option BlockHeight :=
  if (F.txns block).isEmpty then none else some (F.blockHeight block)

/-- The entry of the index of blocks that have transactions. -/
def Format.nonEmptyEntry (block : B) : List Entry :=
  ((F.fromBlock block).map fun height =>
    (Key.nonEmptyBlock height, F.block.serialize block)).toList

/-- The entries of a block in the indexes, in the order in which `set` puts them. -/
def Format.indexEntries (block : B) : List Entry :=
  (.blockHashToHeight (F.blockHash block), heightBytes (F.blockHeight block)) ::
    (F.txnEntries block ++ F.nonEmptyEntry block)

/-- `get`. -/
def get (db : Database) (height : BlockHeight) : Outcome Error (Option B) :=
  match record db (.block height) with
  | some bytes => do
    let block ← fromBytes F.block bytes
    pure (some block)
  | none => pure none

/-- `get_max_height`. -/
def getMaxHeight (db : Database) : Outcome Error (Option BlockHeight) :=
  match record db .maxHeight with
  | some bytes => do
    let height ← heightFromBytes bytes
    pure (some height)
  | none => pure none

/-- `get_block_height_by_hash`. -/
def getBlockHeightByHash (db : Database) (blockHash : Hash) :
    Outcome Error (Option BlockHeight) :=
  match record db (.blockHashToHeight blockHash) with
  | some bytes => do
    let height ← heightFromBytes bytes
    pure (some height)
  | none => pure none

/-- `get_txn_by_hash`. -/
def getTxnByHash (db : Database) (txnHash : Hash) : Outcome Error (Option Txn) :=
  match record db (.txnByHash txnHash) with
  | some bytes => do
    let txn ← fromBytes F.txn bytes
    pure (some txn)
  | none => pure none

/-- The batch of `set`. -/
def setBatch (maxHeight : Option BlockHeight) (block : B) : List Entry :=
  let height := F.blockHeight block
  (.block height, F.block.serialize block) ::
    ((if maxHeight.all (height > ·) then [(.maxHeight, heightBytes height)] else []) ++
      F.indexEntries block)

/-- `set`. -/
def set (db : Database) (block : B) : Outcome Error Database := do
  let maxHeight ← getMaxHeight db
  pure (writeBatch (setBatch F maxHeight block) db)

/-- `store_version`. -/
def storeVersion (db : Database) : Outcome Error ℕ :=
  match record db .storeVersion with
  | some bytes => if bytes.length = 4 then .ok (Codec.ofBE bytes) else .panic
  | none => .ok 0

/-- `set_store_version`. -/
def setStoreVersion (db : Database) (version : ℕ) : Database :=
  writeBatch [(.storeVersion, Codec.toBE 4 version)] db

/-- `LATEST_VERSION`. -/
def LATEST_VERSION : ℕ := 1

end Operations

/-! ## Batches -/

section Batches

/-- **What a batch of puts leaves under a key**: one of the values that it puts there, or what was
there. By induction on the batch. -/
lemma record_writeBatch (batch : List Entry) (db : Database) (key : Key) :
    (∃ v, (key, v) ∈ batch ∧ record (writeBatch batch db) key = some v) ∨
      (∀ v, (key, v) ∉ batch) ∧ record (writeBatch batch db) key = record db key := by
  induction batch generalizing db with
  | nil => exact .inr ⟨fun v => List.not_mem_nil, rfl⟩
  | cons entry batch ih =>
    have hcons : writeBatch (entry :: batch) db = writeBatch batch (writeBatch [entry] db) := rfl
    have hone : record (writeBatch [entry] db) key =
        if entry.1 = key then some entry.2 else record db key := by
      have hput := Database.getElem?_put db entry.1.serialize entry.2 key.serialize
      simp only [Key.serialize_inj] at hput
      exact hput
    rw [hcons]
    rcases ih (writeBatch [entry] db) with ⟨v, hv, hrecord⟩ | ⟨hnone, hrecord⟩
    · exact .inl ⟨v, List.mem_cons_of_mem _ hv, hrecord⟩
    · rw [hrecord, hone]
      by_cases heq : entry.1 = key
      · rw [if_pos heq, ← heq]
        exact .inl ⟨entry.2, List.mem_cons_self, rfl⟩
      · rw [if_neg heq]
        refine .inr ⟨fun v hv => ?_, rfl⟩
        rcases List.mem_cons.1 hv with rfl | hv
        · exact heq rfl
        · exact hnone v hv

/-- A key that a batch does not put keeps its record. -/
lemma record_writeBatch_of_forall_ne {batch : List Entry} {key : Key}
    (h : ∀ entry ∈ batch, entry.1 ≠ key) (db : Database) :
    record (writeBatch batch db) key = record db key := by
  rcases record_writeBatch batch db key with ⟨v, hv, -⟩ | ⟨-, hrecord⟩
  · exact absurd rfl (h _ hv)
  · exact hrecord

/-- A key under which a batch puts one value only. -/
lemma record_writeBatch_of_forall_eq {batch : List Entry} {key : Key} {v : List UInt8}
    (hmem : (key, v) ∈ batch) (h : ∀ w, (key, w) ∈ batch → w = v) (db : Database) :
    record (writeBatch batch db) key = some v := by
  rcases record_writeBatch batch db key with ⟨w, hw, hrecord⟩ | ⟨hnone, -⟩
  · rw [hrecord, h w hw]
  · exact absurd hmem (hnone v)

end Batches

/-! ## Values -/

/-- A written height is read back. -/
lemma heightFromBytes_heightBytes (height : BlockHeight) :
    heightFromBytes (heightBytes height) = .ok height := by
  have hlt : height.toNat < 256 ^ 8 := height.isLt
  rw [heightFromBytes, heightBytes, if_pos (Codec.length_toBE 8 _), Codec.ofBE_toBE,
    Nat.mod_eq_of_lt hlt, BitVec.ofNat_toNat, BitVec.setWidth_eq]

/-- A written value is read back. -/
lemma fromBytes_serialize {α : Type} (codec : Codec α) (a : α) :
    fromBytes codec (codec.serialize a) = .ok a := by
  rw [fromBytes, codec.fromBytes_serialize]

/-- Reading succeeds where the codec does. -/
lemma fromBytes_eq_ok {α : Type} {codec : Codec α} {bytes : List UInt8} {a : α} :
    fromBytes codec bytes = .ok a ↔ codec.fromBytes bytes = some a := by
  unfold fromBytes
  cases codec.fromBytes bytes <;> simp

section Format

variable {B Txn : Type} (F : Format B Txn)

/-- What stands under a key can be read, and belongs there. -/
def Format.Row : Key → List UInt8 → Prop
  | .block height, v => ∃ b, F.block.fromBytes v = some b ∧ F.blockHeight b = height
  | .maxHeight, v => v.length = 8
  | .blockHashToHeight _, v => v.length = 8
  | .pendingBlock, v => ∃ b, F.block.fromBytes v = some b
  | .txnByHash hash, v => ∃ t, F.txn.fromBytes v = some t ∧ F.txnHash t = hash
  | .storeVersion, v => v.length = 4
  | .nonEmptyBlock height, v =>
    ∃ b, F.block.fromBytes v = some b ∧ F.blockHeight b = height ∧ F.txns b ≠ []

variable {F}

/-- The entry of a block with transactions. -/
lemma Format.mem_nonEmptyEntry {block : B} {entry : Entry} :
    entry ∈ F.nonEmptyEntry block ↔
      F.txns block ≠ [] ∧
        entry = (.nonEmptyBlock (F.blockHeight block), F.block.serialize block) := by
  unfold nonEmptyEntry fromBlock
  cases F.txns block <;> simp

/-- The entries of a block's transactions. -/
lemma Format.mem_txnEntries {block : B} {entry : Entry} :
    entry ∈ F.txnEntries block ↔
      ∃ tx ∈ F.txns block, entry = (.txnByHash (F.txnHash tx), F.txn.serialize tx) := by
  simp [txnEntries, eq_comm]

/-- An entry of a block in the indexes is one of the three kinds. -/
lemma Format.mem_indexEntries {block : B} {entry : Entry} :
    entry ∈ F.indexEntries block ↔
      entry = (.blockHashToHeight (F.blockHash block), heightBytes (F.blockHeight block)) ∨
        (∃ tx ∈ F.txns block, entry = (.txnByHash (F.txnHash tx), F.txn.serialize tx)) ∨
        F.txns block ≠ [] ∧
          entry = (.nonEmptyBlock (F.blockHeight block), F.block.serialize block) := by
  rw [indexEntries, List.mem_cons, List.mem_append, mem_txnEntries, mem_nonEmptyEntry]

/-- The keys of the indexes. -/
def Key.isIndex : Key → Bool
  | .blockHashToHeight _ => true
  | .txnByHash _ => true
  | .nonEmptyBlock _ => true
  | _ => false

/-- The entries of an index have keys of an index. -/
lemma Format.isIndex_of_mem {block : B} {entry : Entry} (h : entry ∈ F.indexEntries block) :
    entry.1.isIndex = true := by
  rcases mem_indexEntries.1 h with rfl | ⟨tx, -, rfl⟩ | ⟨-, rfl⟩ <;> rfl

/-- What `set` puts can be read. -/
lemma Format.row_of_mem_setBatch {maxHeight : Option BlockHeight} {block : B} {entry : Entry}
    (h : entry ∈ setBatch F maxHeight block) : F.Row entry.1 entry.2 := by
  rw [setBatch, List.mem_cons, List.mem_append, mem_indexEntries] at h
  rcases h with rfl | h | rfl | ⟨tx, -, rfl⟩ | ⟨hne, rfl⟩
  · exact ⟨block, F.block.fromBytes_serialize block, rfl⟩
  · split_ifs at h
    · rw [List.mem_singleton.1 h]
      exact Codec.length_toBE 8 _
    · cases h
  · exact Codec.length_toBE 8 _
  · exact ⟨tx, F.txn.fromBytes_serialize tx, rfl⟩
  · exact ⟨block, F.block.fromBytes_serialize block, rfl, hne⟩

/-- Every record can be read, and belongs to its key. -/
def Format.WellFormed (F : Format B Txn) (db : Database) : Prop :=
  ∀ k v, db[k]? = some v → ∃ key : Key, k = key.serialize ∧ F.Row key v

/-- A record of a well-formed database is as the format has it. -/
lemma Format.WellFormed.row {db : Database} (h : F.WellFormed db) {key : Key} {v : List UInt8}
    (hv : record db key = some v) : F.Row key v := by
  obtain ⟨key', hkey, hrow⟩ := h _ _ hv
  rw [Key.serialize_inj.1 hkey]
  exact hrow

/-- A batch of records that can be read. -/
lemma Format.WellFormed.writeBatch {db : Database} (h : F.WellFormed db) {batch : List Entry}
    (hbatch : ∀ entry ∈ batch, F.Row entry.1 entry.2) : F.WellFormed (writeBatch batch db) := by
  refine Database.forall_write h fun k v hput => ?_
  obtain ⟨entry, hentry, heq⟩ := List.mem_map.1 hput
  obtain ⟨rfl, rfl⟩ := WriteOp.put.inj heq
  exact ⟨entry.1, rfl, hbatch entry hentry⟩

/-- An empty database is well formed. -/
lemma Format.WellFormed.empty (F : Format B Txn) : F.WellFormed ∅ := by
  intro k v h
  rw [Std.TreeMap.getElem?_emptyc] at h
  cases h

end Format

/-! ## Stores -/

/-- `BlockStore`: a database of which every record can be read. -/
structure BlockStore {B Txn : Type} (F : Format B Txn) where
  db : Database
  wellFormed : F.WellFormed db

namespace BlockStore

variable {B Txn : Type} {F : Format B Txn}

/-- `create`. -/
def create (F : Format B Txn) : BlockStore F where
  db := setStoreVersion ∅ LATEST_VERSION
  wellFormed := by
    refine (Format.WellFormed.empty F).writeBatch fun entry hentry => ?_
    rw [List.mem_singleton.1 hentry]
    exact Codec.length_toBE 4 _

variable (self : BlockStore F)

/-- The greatest height is always readable. -/
lemma getMaxHeight_returns : ∃ m, getMaxHeight self.db = .ok m := by
  rcases hrecord : record self.db .maxHeight with _ | bytes
  · refine ⟨none, ?_⟩
    rw [getMaxHeight, hrecord]
    rfl
  · have hlen : bytes.length = 8 := self.wellFormed.row hrecord
    refine ⟨some (BitVec.ofNat 64 (Codec.ofBE bytes)), ?_⟩
    rw [getMaxHeight, hrecord]
    simp only [heightFromBytes, if_pos hlen, Outcome.ok_bind]
    rfl

/-- The store after `set`; a call that does not return leaves it as it was. -/
def set (block : B) : BlockStore F where
  db :=
    match Store.set F self.db block with
    | .ok db => db
    | _ => self.db
  wellFormed := by
    obtain ⟨m, hm⟩ := self.getMaxHeight_returns
    rw [Store.set, hm]
    exact self.wellFormed.writeBatch fun _ => Format.row_of_mem_setBatch

/-- **Setting a block does not fail.** -/
theorem set_eq (block : B) : Store.set F self.db block = .ok (self.set block).db := by
  obtain ⟨m, hm⟩ := self.getMaxHeight_returns
  have hset : Store.set F self.db block = .ok (writeBatch (setBatch F m block) self.db) := by
    rw [Store.set, hm]
    rfl
  change _ = Outcome.ok (match Store.set F self.db block with
    | .ok db => db
    | _ => self.db)
  rw [hset]

/-- Setting a block writes the batch of `setBatch`. -/
lemma db_set {m : Option BlockHeight} (hm : getMaxHeight self.db = .ok m) (block : B) :
    (self.set block).db = writeBatch (setBatch F m block) self.db := by
  have hset := self.set_eq block
  rw [Store.set, hm] at hset
  exact (Outcome.ok.inj hset).symm

/-! ## Blocks and the greatest height -/

/-- What setting a block writes. -/
lemma mem_setBatch {m : Option BlockHeight} {block : B} {entry : Entry} :
    entry ∈ setBatch F m block ↔
      entry = (.block (F.blockHeight block), F.block.serialize block) ∨
        (m.all (F.blockHeight block > ·) = true ∧
          entry = (.maxHeight, heightBytes (F.blockHeight block))) ∨
        entry ∈ F.indexEntries block := by
  rw [setBatch, List.mem_cons, List.mem_append]
  split_ifs with h <;> simp [h]

/-- **The block that was set last** is found. -/
theorem get_set (block : B) (height : BlockHeight) :
    get F (self.set block).db height =
      if F.blockHeight block = height then .ok (some block) else get F self.db height := by
  obtain ⟨m, hm⟩ := self.getMaxHeight_returns
  have hmem : ∀ v, (Key.block height, v) ∈ setBatch F m block ↔
      F.blockHeight block = height ∧ v = F.block.serialize block := by
    intro v
    rw [mem_setBatch]
    constructor
    · rintro (h | ⟨-, h⟩ | h)
      · obtain ⟨hkey, hv⟩ := Prod.mk.inj h
        exact ⟨(Key.block.inj hkey).symm, hv⟩
      · cases h
      · cases Format.isIndex_of_mem h
    · rintro ⟨rfl, rfl⟩
      exact .inl rfl
  rw [self.db_set hm]
  split_ifs with h
  · have hrecord : record (writeBatch (setBatch F m block) self.db) (.block height) =
        some (F.block.serialize block) :=
      record_writeBatch_of_forall_eq ((hmem _).2 ⟨h, rfl⟩) (fun w hw => ((hmem w).1 hw).2) _
    rw [get, hrecord]
    simp only [fromBytes_serialize, Outcome.ok_bind]
    rfl
  · have hrecord : record (writeBatch (setBatch F m block) self.db) (.block height) =
        record self.db (.block height) := by
      refine record_writeBatch_of_forall_ne (fun entry hentry hkey => h ?_) _
      exact ((hmem entry.2).1 (by rw [← hkey]; exact hentry)).1
    rw [get, get, hrecord]

/-- The greatest height is replaced by a greater one. -/
lemma getMaxHeight_set {m : Option BlockHeight} (hm : getMaxHeight self.db = .ok m) (block : B) :
    getMaxHeight (self.set block).db =
      .ok (if m.all (F.blockHeight block > ·) then some (F.blockHeight block) else m) := by
  have hmem : ∀ v, (Key.maxHeight, v) ∈ setBatch F m block ↔
      m.all (F.blockHeight block > ·) = true ∧ v = heightBytes (F.blockHeight block) := by
    intro v
    rw [mem_setBatch]
    constructor
    · rintro (h | ⟨hall, h⟩ | h)
      · cases h
      · exact ⟨hall, (Prod.mk.inj h).2⟩
      · cases Format.isIndex_of_mem h
    · rintro ⟨hall, rfl⟩
      exact .inr (.inl ⟨hall, rfl⟩)
  rw [self.db_set hm]
  split_ifs with h
  · have hrecord : record (writeBatch (setBatch F m block) self.db) .maxHeight =
        some (heightBytes (F.blockHeight block)) :=
      record_writeBatch_of_forall_eq ((hmem _).2 ⟨h, rfl⟩) (fun w hw => ((hmem w).1 hw).2) _
    rw [getMaxHeight, hrecord]
    simp only [heightFromBytes_heightBytes, Outcome.ok_bind]
    rfl
  · have hrecord : record (writeBatch (setBatch F m block) self.db) .maxHeight =
        record self.db .maxHeight := by
      refine record_writeBatch_of_forall_ne (fun entry hentry hkey => h ?_) _
      exact ((hmem entry.2).1 (by rw [← hkey]; exact hentry)).1
    rw [getMaxHeight, hrecord, ← getMaxHeight, hm]

/-! ## The indexes -/

/-- The block is the one at its height. -/
def Holds (b : B) : Prop := get F self.db (F.blockHeight b) = .ok (some b)

/-- **The indexes have the entries of the stored blocks, and no others.** -/
def IndexesExact : Prop :=
  ∀ key v, key.isIndex = true →
    (record self.db key = some v ↔ ∃ b, self.Holds b ∧ (key, v) ∈ F.indexEntries b)

/-- The entries of a block in the indexes go with those of the stored blocks. -/
structure Fits (block : B) : Prop where
  /-- The block does not contradict itself. -/
  agree : ∀ key v w, (key, v) ∈ F.indexEntries block → (key, w) ∈ F.indexEntries block → v = w
  /-- It does not contradict a block at another height. -/
  apart : ∀ other, self.Holds other → F.blockHeight other ≠ F.blockHeight block →
    ∀ key v w, (key, v) ∈ F.indexEntries block → (key, w) ∈ F.indexEntries other → v = w
  /-- Each entry of the block that it replaces is put anew, or is also that of another block. -/
  leaves : ∀ old, self.Holds old → F.blockHeight old = F.blockHeight block →
    ∀ key v, (key, v) ∈ F.indexEntries old →
      (∃ w, (key, w) ∈ F.indexEntries block) ∨
        ∃ other, self.Holds other ∧ F.blockHeight other ≠ F.blockHeight block ∧
          (key, v) ∈ F.indexEntries other

/-- The blocks that are stored after a call. -/
lemma holds_set {block b : B} :
    (self.set block).Holds b ↔
      b = block ∨ self.Holds b ∧ F.blockHeight b ≠ F.blockHeight block := by
  rw [Holds, Holds, get_set]
  split_ifs with h
  · constructor
    · intro heq
      exact .inl (Option.some.inj (Outcome.ok.inj heq)).symm
    · rintro (rfl | ⟨-, hne⟩)
      · rfl
      · exact absurd h.symm hne
  · constructor
    · intro hb
      exact .inr ⟨hb, fun heq => h heq.symm⟩
    · rintro (rfl | ⟨hb, -⟩)
      · exact absurd rfl h
      · exact hb

/-- The record of an index after a call. -/
lemma record_set (block : B) {key : Key} (hkey : key.isIndex = true) :
    (∃ v, (key, v) ∈ F.indexEntries block ∧ record (self.set block).db key = some v) ∨
      (∀ v, (key, v) ∉ F.indexEntries block) ∧
        record (self.set block).db key = record self.db key := by
  obtain ⟨m, hm⟩ := self.getMaxHeight_returns
  have hmem : ∀ v, (key, v) ∈ setBatch F m block ↔ (key, v) ∈ F.indexEntries block := by
    intro v
    rw [mem_setBatch]
    constructor
    · rintro (h | ⟨-, h⟩ | h)
      · rw [(Prod.mk.inj h).1] at hkey
        cases hkey
      · rw [(Prod.mk.inj h).1] at hkey
        cases hkey
      · exact h
    · exact fun h => .inr (.inr h)
  have hcases := record_writeBatch (setBatch F m block) self.db key
  simp only [hmem] at hcases
  rw [self.db_set hm]
  exact hcases

/-- The record of a block among those that have transactions: an empty block leaves it alone. -/
lemma record_nonEmptyBlock_set (block : B) (height : BlockHeight) :
    record (self.set block).db (.nonEmptyBlock height) =
      if F.txns block ≠ [] ∧ F.blockHeight block = height then some (F.block.serialize block)
      else record self.db (.nonEmptyBlock height) := by
  have hmem : ∀ v, (Key.nonEmptyBlock height, v) ∈ F.indexEntries block ↔
      (F.txns block ≠ [] ∧ F.blockHeight block = height) ∧ v = F.block.serialize block := by
    intro v
    rw [Format.mem_indexEntries]
    constructor
    · rintro (h | ⟨tx, -, h⟩ | ⟨hne, h⟩)
      · cases h
      · cases h
      · obtain ⟨hkey, hv⟩ := Prod.mk.inj h
        exact ⟨⟨hne, (Key.nonEmptyBlock.inj hkey).symm⟩, hv⟩
    · rintro ⟨⟨hne, rfl⟩, rfl⟩
      exact .inr (.inr ⟨hne, rfl⟩)
  rcases @record_set _ _ _ self block (.nonEmptyBlock height) rfl with
    ⟨v, hv, hrecord⟩ | ⟨hnone, hsame⟩
  · obtain ⟨hcond, rfl⟩ := (hmem v).1 hv
    rw [if_pos hcond, hrecord]
  · rw [if_neg fun hcond => hnone _ ((hmem _).2 ⟨hcond, rfl⟩), hsame]

/-- In a store with exact indexes, the height of a hash is that of a stored block. -/
lemma IndexesExact.getBlockHeightByHash {store : BlockStore F} (h : store.IndexesExact)
    (hash : Hash) (height : BlockHeight) :
    getBlockHeightByHash store.db hash = .ok (some height) ↔
      ∃ b, store.Holds b ∧ F.blockHash b = hash ∧ F.blockHeight b = height := by
  have hentry : ∀ b v, (Key.blockHashToHeight hash, v) ∈ F.indexEntries b ↔
      F.blockHash b = hash ∧ v = heightBytes (F.blockHeight b) := by
    intro b v
    rw [Format.mem_indexEntries]
    constructor
    · rintro (h | ⟨tx, -, h⟩ | ⟨-, h⟩)
      · obtain ⟨hkey, hv⟩ := Prod.mk.inj h
        exact ⟨(Key.blockHashToHeight.inj hkey).symm, hv⟩
      · cases h
      · cases h
    · rintro ⟨rfl, rfl⟩
      exact .inl rfl
  have hget : Store.getBlockHeightByHash store.db hash = .ok (some height) ↔
      ∃ v, record store.db (.blockHashToHeight hash) = some v ∧ heightFromBytes v = .ok height := by
    unfold Store.getBlockHeightByHash
    rcases record store.db (.blockHashToHeight hash) with _ | v
    · simp [pure]
    · rcases hv : heightFromBytes v <;> simp [hv, pure]
  rw [hget]
  constructor
  · rintro ⟨v, hrecord, hv⟩
    obtain ⟨b, hb, hbv⟩ := (h _ v rfl).1 hrecord
    obtain ⟨hhash, rfl⟩ := (hentry b v).1 hbv
    rw [heightFromBytes_heightBytes] at hv
    exact ⟨b, hb, hhash, Outcome.ok.inj hv⟩
  · rintro ⟨b, hb, hhash, rfl⟩
    exact ⟨heightBytes (F.blockHeight b), (h _ _ rfl).2 ⟨b, hb, (hentry b _).2 ⟨hhash, rfl⟩⟩,
      heightFromBytes_heightBytes _⟩

/-- In a store with exact indexes, the transaction of a hash is one of a stored block. -/
lemma IndexesExact.getTxnByHash {store : BlockStore F} (h : store.IndexesExact)
    (hash : Hash) (tx : Txn) :
    getTxnByHash F store.db hash = .ok (some tx) ↔
      ∃ b, store.Holds b ∧ tx ∈ F.txns b ∧ F.txnHash tx = hash := by
  have hentry : ∀ b v, (Key.txnByHash hash, v) ∈ F.indexEntries b ↔
      ∃ tx ∈ F.txns b, F.txnHash tx = hash ∧ v = F.txn.serialize tx := by
    intro b v
    rw [Format.mem_indexEntries]
    constructor
    · rintro (h | ⟨tx, htx, h⟩ | ⟨-, h⟩)
      · cases h
      · obtain ⟨hkey, hv⟩ := Prod.mk.inj h
        exact ⟨tx, htx, (Key.txnByHash.inj hkey).symm, hv⟩
      · cases h
    · rintro ⟨tx, htx, rfl, rfl⟩
      exact .inr (.inl ⟨tx, htx, rfl⟩)
  have hget : Store.getTxnByHash F store.db hash = .ok (some tx) ↔
      ∃ v, record store.db (.txnByHash hash) = some v ∧ fromBytes F.txn v = .ok tx := by
    unfold Store.getTxnByHash
    rcases record store.db (.txnByHash hash) with _ | v
    · simp [pure]
    · rcases hv : fromBytes F.txn v <;> simp [hv, pure]
  rw [hget]
  constructor
  · rintro ⟨v, hrecord, hv⟩
    obtain ⟨b, hb, hbv⟩ := (h _ v rfl).1 hrecord
    obtain ⟨tx', htx', hhash, rfl⟩ := (hentry b v).1 hbv
    rw [fromBytes_serialize] at hv
    obtain rfl : tx' = tx := Outcome.ok.inj hv
    exact ⟨b, hb, htx', hhash⟩
  · rintro ⟨b, hb, htx, hhash⟩
    exact ⟨F.txn.serialize tx, (h _ _ rfl).2 ⟨b, hb, (hentry b _).2 ⟨tx, htx, hhash, rfl⟩⟩,
      fromBytes_serialize _ _⟩

/-- **When setting a block keeps the indexes exact.**

**Proof sketch.** After the block is set, an entry of an index is one that the block writes, or one
that was there. The written ones are right if they do not contradict each other or another stored
block; the old ones are right unless they are entries of a replaced block that no stored block has.
-/
theorem indexesExact_set_iff (h : self.IndexesExact) (block : B) :
    (self.set block).IndexesExact ↔ self.Fits block := by
  have hself : (self.set block).Holds block := self.holds_set.2 (.inl rfl)
  constructor
  · intro hset
    refine ⟨fun key v w hv hw => ?_, fun other hother hne key v w hv hw => ?_,
      fun old hold heq key v hv => ?_⟩
    · have hkey : key.isIndex = true := Format.isIndex_of_mem hv
      have hv' := (hset key v hkey).2 ⟨block, hself, hv⟩
      rw [(hset key w hkey).2 ⟨block, hself, hw⟩] at hv'
      exact (Option.some.inj hv').symm
    · have hkey : key.isIndex = true := Format.isIndex_of_mem hv
      have hv' := (hset key v hkey).2 ⟨block, hself, hv⟩
      rw [(hset key w hkey).2 ⟨other, self.holds_set.2 (.inr ⟨hother, hne⟩), hw⟩] at hv'
      exact (Option.some.inj hv').symm
    · have hkey : key.isIndex = true := Format.isIndex_of_mem hv
      rcases self.record_set block hkey with ⟨w, hw, -⟩ | ⟨hnone, hsame⟩
      · exact .inl ⟨w, hw⟩
      · -- the entry is still there, so it must be that of a block that is stored now
        have hrecord := hsame.trans ((h key v hkey).2 ⟨old, hold, hv⟩)
        obtain ⟨b, hb, hbv⟩ := (hset key v hkey).1 hrecord
        rcases self.holds_set.1 hb with rfl | ⟨hb, hne⟩
        · exact absurd hbv (hnone v)
        · exact .inr ⟨b, hb, hne, hbv⟩
  · rintro ⟨hagree, hapart, hleaves⟩ key v hkey
    rcases self.record_set block hkey with ⟨w, hw, hrecord⟩ | ⟨hnone, hsame⟩
    · rw [hrecord, Option.some.injEq]
      constructor
      · rintro rfl
        exact ⟨block, hself, hw⟩
      · rintro ⟨b, hb, hbv⟩
        rcases self.holds_set.1 hb with rfl | ⟨hb, hne⟩
        · exact hagree key w v hw hbv
        · exact hapart b hb hne key w v hw hbv
    · rw [hsame, h key v hkey]
      constructor
      · rintro ⟨b, hb, hbv⟩
        by_cases heq : F.blockHeight b = F.blockHeight block
        · rcases hleaves b hb heq key v hbv with ⟨w, hw⟩ | ⟨other, hother, hne, hv⟩
          · exact absurd hw (hnone w)
          · exact ⟨other, self.holds_set.2 (.inr ⟨hother, hne⟩), hv⟩
        · exact ⟨b, self.holds_set.2 (.inr ⟨hb, heq⟩), hbv⟩
      · rintro ⟨b, hb, hbv⟩
        rcases self.holds_set.1 hb with rfl | ⟨hb, -⟩
        · exact absurd hbv (hnone v)
        · exact ⟨b, hb, hbv⟩

/-! ## Runs -/

/-- A new store has no blocks. -/
lemma get_create (height : BlockHeight) : get F (create F).db height = .ok none := by
  have hrecord : record (create F).db (.block height) = record ∅ (.block height) := by
    refine record_writeBatch_of_forall_ne (fun entry hentry => ?_) _
    rw [List.mem_singleton.1 hentry]
    rintro ⟨⟩
  rw [get, hrecord, record, Std.TreeMap.getElem?_emptyc]
  rfl

/-- A new store has no greatest height. -/
lemma getMaxHeight_create : getMaxHeight (create F).db = .ok none := by
  have hrecord : record (create F).db .maxHeight = record ∅ .maxHeight := by
    refine record_writeBatch_of_forall_ne (fun entry hentry => ?_) _
    rw [List.mem_singleton.1 hentry]
    rintro ⟨⟩
  rw [getMaxHeight, hrecord, record, Std.TreeMap.getElem?_emptyc]
  rfl

/-- The indexes of a new store are exact. -/
lemma indexesExact_create : (create F).IndexesExact := by
  intro key v hkey
  have hrecord : record (create F).db key = record ∅ key := by
    refine record_writeBatch_of_forall_ne (fun entry hentry heq => ?_) _
    rw [← heq, List.mem_singleton.1 hentry] at hkey
    cases hkey
  rw [hrecord, record, Std.TreeMap.getElem?_emptyc]
  constructor
  · rintro ⟨⟩
  · rintro ⟨b, hb, -⟩
    rw [Holds, get_create] at hb
    cases hb

/-- The blocks after any calls. By induction on the calls, from the last one. -/
lemma get_run (blocks : List B) (height : BlockHeight) :
    get F (blocks.foldl set (create F)).db height =
      .ok ((blocks.filter fun b => F.blockHeight b = height).getLast?) := by
  induction blocks using List.reverseRecOn with
  | nil => exact get_create height
  | append_singleton blocks block ih =>
    rw [List.foldl_concat, get_set, ih, List.filter_append]
    by_cases h : F.blockHeight block = height
    · rw [if_pos h, List.filter_singleton, decide_eq_true h, cond_true, List.getLast?_concat]
    · rw [if_neg h, List.filter_singleton, decide_eq_false h, cond_false, List.append_nil]

/-- The greatest height after any calls. By induction on the calls, from the last one. -/
lemma getMaxHeight_run (blocks : List B) :
    ∃ m, getMaxHeight (blocks.foldl set (create F)).db = .ok m ∧ (m = none ↔ blocks = []) ∧
      ∀ h ∈ m, (∃ b ∈ blocks, F.blockHeight b = h) ∧ ∀ b ∈ blocks, F.blockHeight b ≤ h := by
  induction blocks using List.reverseRecOn with
  | nil => exact ⟨none, getMaxHeight_create, by simp, by simp⟩
  | append_singleton blocks block ih =>
    obtain ⟨m, hm, hnone, hgreatest⟩ := ih
    rw [List.foldl_concat]
    refine ⟨_, getMaxHeight_set _ hm block, ?_, fun h hh => ?_⟩
    · have hsome : (m = none → m.all (F.blockHeight block > ·) = true) := by
        rintro rfl
        rfl
      split_ifs with hall
      · simp
      · have hne : m ≠ none := fun heq => hall (hsome heq)
        simp [hne]
    · have hbelow : ∀ top, (∀ b ∈ blocks, F.blockHeight b ≤ top) → F.blockHeight block ≤ top →
          ∀ b ∈ blocks ++ [block], F.blockHeight b ≤ top := by
        intro top hle hlast b hb
        rcases List.mem_append.1 hb with hb | hb
        · exact hle b hb
        · rw [List.mem_singleton.1 hb]
          exact hlast
      split_ifs at hh with hall
      · obtain rfl : F.blockHeight block = h := Option.some.inj hh
        refine ⟨⟨block, List.mem_append_right _ List.mem_cons_self, rfl⟩,
          hbelow _ (fun b hb => ?_) (BitVec.le_refl _)⟩
        -- the block is above the greatest height so far
        cases m with
        | none =>
          rw [hnone.1 rfl] at hb
          cases hb
        | some top =>
          have hlt : top < F.blockHeight block := by simpa using hall
          have hle := (hgreatest top rfl).2 b hb
          rw [BitVec.lt_def] at hlt
          rw [BitVec.le_def] at hle ⊢
          omega
      · obtain ⟨⟨b, hb, hheight⟩, hle⟩ := hgreatest h hh
        obtain rfl : m = some h := hh
        exact ⟨⟨b, List.mem_append_left _ hb, hheight⟩, hbelow _ hle (by simpa using hall)⟩

/-- **Any calls of `set`.** The block of a height is the last one that was set there, and the
greatest height is the greatest one of these blocks. The indexes have the entries of the stored
blocks and no others after every call, exactly if the entries of each block that is set fit those of
the blocks that are stored then.

**Proof sketch.** By `Runs.forall_states_iff`; one call is `indexesExact_set_iff`. -/
theorem set_run (F : Format B Txn) (blocks : List B) :
    (∀ height, get F (blocks.foldl set (create F)).db height =
      .ok ((blocks.filter fun b => F.blockHeight b = height).getLast?)) ∧
    (∃ m, getMaxHeight (blocks.foldl set (create F)).db = .ok m ∧ (m = none ↔ blocks = []) ∧
      ∀ h ∈ m, (∃ b ∈ blocks, F.blockHeight b = h) ∧ ∀ b ∈ blocks, F.blockHeight b ≤ h) ∧
    ((∀ s ∈ Runs.states set (create F) blocks, s.IndexesExact) ↔
      Runs.Along set Fits (create F) blocks) := by
  refine ⟨get_run blocks, getMaxHeight_run blocks, ?_⟩
  exact @Runs.forall_states_iff _ _ set IndexesExact IndexesExact Fits (fun _ => True)
    (fun _ h => h) (fun s b _ h hfits => (s.indexesExact_set_iff h b).2 hfits)
    (fun s b _ h hset => (s.indexesExact_set_iff h b).1 hset) _ indexesExact_create blocks
    fun _ _ => trivial

/-! ## A block that is replaced -/

/-- Blocks with at most two transactions, which are hashes. -/
abbrev SampleBlock : Type := BlockHeight × Hash × (Unit ⊕ Hash × (Unit ⊕ Hash))

/-- Blocks of the sample are compared by their fields. -/
instance : DecidableEq SampleBlock :=
  inferInstanceAs (DecidableEq (BlockHeight × Hash × (Unit ⊕ Hash × (Unit ⊕ Hash))))

/-- How these blocks are written. -/
def sampleFormat : Format SampleBlock Hash where
  blockHeight b := b.1
  blockHash b := b.2.1
  txns b := b.2.2.elim (fun _ => []) fun txns => txns.1 :: txns.2.elim (fun _ => []) ([·])
  txnHash tx := tx
  block := (Codec.bigEndian 8).prod ((Codec.bigEndian 32).prod
    (Codec.unit.either ((Codec.bigEndian 32).prod (Codec.unit.either (Codec.bigEndian 32)))))
  txn := Codec.bigEndian 32

/-- A store with a block that has a transaction. -/
def sampleStore : BlockStore sampleFormat := (create sampleFormat).set (1, 10, .inr (5, .inl ()))

/-- The same store after a block without transactions at the same height. -/
def replacedStore : BlockStore sampleFormat := sampleStore.set (1, 11, .inl ())

/-- The block that is replaced stays among those that have transactions. -/
lemma replacedStore_record :
    record replacedStore.db (.nonEmptyBlock 1) =
      some (sampleFormat.block.serialize (1, 10, .inr (5, .inl ()))) := by
  rw [replacedStore, record_nonEmptyBlock_set, if_neg (fun h => h.1 rfl), sampleStore,
    record_nonEmptyBlock_set, if_pos ⟨List.cons_ne_nil _ _, rfl⟩]

/-- The only block that is stored has no transactions. -/
lemma replacedStore_holds {b : SampleBlock} : replacedStore.Holds b ↔ b = (1, 11, .inl ()) := by
  rw [replacedStore, holds_set, sampleStore, holds_set]
  constructor
  · rintro (rfl | ⟨rfl | ⟨hb, -⟩, hne⟩)
    · rfl
    · exact absurd rfl hne
    · rw [Holds, get_create] at hb
      cases hb
  · exact .inl

/-- An empty block at the height of a block with a transaction: the records of that block stay in
the indexes. -/
theorem set_stale :
    (∀ b, replacedStore.Holds b → sampleFormat.txns b = []) ∧
      (record replacedStore.db (.nonEmptyBlock 1)).isSome = true ∧
      ¬ ∀ blocks : List SampleBlock, (blocks.foldl set (create sampleFormat)).IndexesExact := by
  have hempty : ∀ b, replacedStore.Holds b → sampleFormat.txns b = [] := by
    intro b hb
    rw [replacedStore_holds.1 hb]
    rfl
  refine ⟨hempty, by rw [replacedStore_record]; rfl, fun h => ?_⟩
  have hexact : replacedStore.IndexesExact := h [(1, 10, .inr (5, .inl ())), (1, 11, .inl ())]
  obtain ⟨b, hb, hentry⟩ := (hexact _ _ rfl).1 replacedStore_record
  rw [Format.mem_indexEntries, hempty b hb] at hentry
  rcases hentry with h | ⟨tx, htx, -⟩ | ⟨hne, -⟩
  · cases h
  · cases htx
  · exact hne rfl

end BlockStore

end TempoRollup.Store
