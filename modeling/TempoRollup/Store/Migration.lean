import TempoRollup.Store.List

set_option relaxedAutoImplicit false
set_option autoImplicit false

/-!
# Migration of the block store

`block-store/src/migration.rs`: a store of version 0 has no index of transactions and none of
non-empty blocks. The migration puts the entries of the blocks into these indexes, a batch for each
block, and then sets the version. A run may be interrupted before any of its writes.

## Main definitions

* `Machine` — a database, and the number of writes after which the process is stopped.
* `migrate`, `migrateToV1`.
* `BlockStore.VersionZero` — the stores of version 0, and what interrupted runs leave of them.
* `BlockStore.migrated` — the store after a run that is not interrupted.
* `BlockStore.rebuilt` — the blocks of a store, set anew by increasing height.
* `BlockStore.Reachable` — the stores that calls of `set` make of a new store or a migrated one.

## Main results

* `BlockStore.migrate_eq` — how each run of the migration ends.
* `BlockStore.attempts` — what any number of interrupted runs leave.
* `BlockStore.migrate_refines` — after these, a run that is not interrupted ends with version 1 and
  a store that gives the same answers as the one that is set anew; a further run changes nothing.
* `BlockStore.Reachable.covers` — every stored block with transactions is listed as non-empty.

## Design

Each write of a batch is atomic, as in rocksdb. The iterator over the blocks reads the database as
it was when the migration started.
-/

open Exec

namespace TempoRollup.Store

open Smirk (Database)
open Node (Bound CursorChoice BlockListOrder listRange pageOf)

/-- How a run stops. -/
inductive Stop
  | error (e : Error)
  | interrupted
  | outOfFuel
  deriving DecidableEq, Repr

/-- A database, and the number of writes after which the process is stopped, if it is. -/
structure Machine where
  db : Database
  writesLeft : Option ℕ

/-- `DB::write`, unless the process is stopped before it. -/
def Machine.write (batch : List Entry) : Program Machine Stop Unit := fun m =>
  match m.writesLeft with
  | none => (.ok (), ⟨writeBatch batch m.db, none⟩)
  | some 0 => (.err .interrupted, m)
  | some (n + 1) => (.ok (), ⟨writeBatch batch m.db, some n⟩)

section Migration

variable {B Txn : Type} (F : Format B Txn)

/-- The batch that is written for a block. -/
def Format.migrationBatch (block : B) : List Entry := F.txnEntries block ++ F.nonEmptyEntry block

/-- One step of the loop of `migrate_to_v1`. -/
def migrateRow (row : List UInt8 × List UInt8) : Program Machine Stop Unit := do
  let (_, block) ← (Program.lift (F.readRow row >>= KeyBlock.item)).mapErr Stop.error
  Machine.write (F.migrationBatch block)

/-- `migrate_to_v1`. -/
def migrateToV1 : Program Machine Stop Unit := do
  let m ← Program.get
  forM ((KeyBlock.list (.unbounded, .unbounded) .lowestToHighest).rows m.db) (migrateRow F)
  Machine.write [(.storeVersion, Codec.toBE 4 1)]

/-- `migrate`: a loop with a bound on its steps. -/
def migrate : ℕ → Program Machine Stop Unit
  | 0 => Program.throw .outOfFuel
  | fuel + 1 => do
    let m ← Program.get
    let version ← (Program.lift (storeVersion m.db)).mapErr Stop.error
    match version with
    | 0 => do
      migrateToV1 F
      migrate fuel
    | 1 => pure ()
    | other => Program.throw (.error (.invalidVersion other))

end Migration

/-! ## Writes that may be interrupted -/

/-- Two batches are written one after the other. -/
lemma writeBatch_append (a b : List Entry) (db : Database) :
    writeBatch (a ++ b) db = writeBatch b (writeBatch a db) := by
  rw [writeBatch, List.map_append, Database.write, List.foldl_append]
  rfl

/-- **What is put does not depend on what was there**: databases that agree under a key, or a batch
that puts the key. By induction on the batch. -/
lemma record_writeBatch_congr {batch : List Entry} {db db' : Database} {key : Key}
    (h : (∃ v, (key, v) ∈ batch) ∨ record db key = record db' key) :
    record (writeBatch batch db) key = record (writeBatch batch db') key := by
  induction batch generalizing db db' with
  | nil =>
    rcases h with ⟨v, hv⟩ | h
    · cases hv
    · exact h
  | cons entry batch ih =>
    refine ih ?_
    rcases record_writeBatch [entry] db key with ⟨v, hv, hrecord⟩ | ⟨hnone, hrecord⟩
    · have hput : ∀ w, (key, w) ∈ [entry] → w = v := by
        intro w hw
        rw [← List.mem_singleton.1 hv] at hw
        exact (Prod.mk.inj (List.mem_singleton.1 hw)).2
      exact .inr (hrecord.trans (record_writeBatch_of_forall_eq hv hput db').symm)
    · rcases h with ⟨v, hv⟩ | h
      · rcases List.mem_cons.1 hv with hv | hv
        · exact absurd (List.mem_singleton.2 hv) (hnone v)
        · exact .inl ⟨v, hv⟩
      · right
        change record (writeBatch [entry] db) key = record (writeBatch [entry] db') key
        rw [hrecord, h]
        refine (record_writeBatch_of_forall_ne (fun e he heq => hnone e.2 ?_) db').symm
        rw [← heq]
        exact he

/-- **Writes that may be interrupted.** They are all done, or the process stops after some of them.
By induction on the writes. -/
lemma forM_write (batches : List (List Entry)) (m : Machine) :
    (m.writesLeft = none ∧
        forM batches Machine.write m = (.ok (), ⟨writeBatch batches.flatten m.db, none⟩)) ∨
      (∃ n, m.writesLeft = some (batches.length + n) ∧
        forM batches Machine.write m = (.ok (), ⟨writeBatch batches.flatten m.db, some n⟩)) ∨
      ∃ n < batches.length, m.writesLeft = some n ∧
        forM batches Machine.write m =
          (.err .interrupted, ⟨writeBatch (batches.take n).flatten m.db, some 0⟩) := by
  induction batches generalizing m with
  | nil =>
    obtain ⟨db, left⟩ := m
    cases left with
    | none => exact .inl ⟨rfl, rfl⟩
    | some n => exact .inr (.inl ⟨n, by simp, rfl⟩)
  | cons batch batches ih =>
    obtain ⟨db, left⟩ := m
    have hflat : ∀ rest : List (List Entry), writeBatch (batch :: rest).flatten db =
        writeBatch rest.flatten (writeBatch batch db) := by
      intro rest
      rw [List.flatten_cons, writeBatch_append]
    cases left with
    | none =>
      rcases ih ⟨writeBatch batch db, none⟩ with ⟨-, h⟩ | ⟨n, hn, -⟩ | ⟨n, -, hn, -⟩
      · left
        refine ⟨rfl, ?_⟩
        rw [hflat]
        exact h
      · cases hn
      · cases hn
    | some n =>
      cases n with
      | zero => exact .inr (.inr ⟨0, by simp, rfl, rfl⟩)
      | succ n =>
        rcases ih ⟨writeBatch batch db, some n⟩ with ⟨hn, -⟩ | ⟨n', hn, h⟩ | ⟨n', hlt, hn, h⟩
        · cases hn
        · obtain rfl : n = batches.length + n' := Option.some.inj hn
          refine .inr (.inl ⟨n', by simp; omega, ?_⟩)
          rw [hflat]
          exact h
        · obtain rfl : n = n' := Option.some.inj hn
          refine .inr (.inr ⟨n + 1, by simpa using hlt, rfl, ?_⟩)
          rw [List.take_succ_cons, hflat]
          exact h

/-! ## Runs of the migration -/

section Entries

variable {B Txn : Type} {F : Format B Txn}

/-- The keys of the indexes that version 1 adds. -/
def Key.isAdded : Key → Bool
  | .txnByHash _ => true
  | .nonEmptyBlock _ => true
  | _ => false

/-- What the migration writes for a block. -/
lemma Format.mem_migrationBatch {block : B} {entry : Entry} :
    entry ∈ F.migrationBatch block ↔
      (∃ tx ∈ F.txns block, entry = (.txnByHash (F.txnHash tx), F.txn.serialize tx)) ∨
        F.txns block ≠ [] ∧
          entry = (.nonEmptyBlock (F.blockHeight block), F.block.serialize block) := by
  rw [migrationBatch, List.mem_append, mem_txnEntries, mem_nonEmptyEntry]

/-- The migration writes keys that it adds, and no others. -/
lemma Format.isAdded_of_mem {block : B} {entry : Entry} (h : entry ∈ F.migrationBatch block) :
    entry.1.isAdded = true := by
  rcases mem_migrationBatch.1 h with ⟨tx, -, rfl⟩ | ⟨-, rfl⟩ <;> rfl

/-- The migration writes records as the format has them. -/
lemma Format.row_of_mem_migrationBatch {block : B} {entry : Entry}
    (h : entry ∈ F.migrationBatch block) : F.Row entry.1 entry.2 := by
  rcases mem_migrationBatch.1 h with ⟨tx, -, rfl⟩ | ⟨hne, rfl⟩
  · exact ⟨tx, F.txn.fromBytes_serialize tx, rfl⟩
  · exact ⟨block, F.block.fromBytes_serialize block, rfl, hne⟩

end Entries

namespace BlockStore

variable {B Txn : Type} {F : Format B Txn} (self : BlockStore F)

/-- The entries that the migration puts, in its order. -/
def migrationEntries : List Entry := self.stored.flatMap F.migrationBatch

/-- The migration of a store writes keys that it adds, and no others. -/
lemma isAdded_of_mem {key : Key} {v : List UInt8} (h : (key, v) ∈ self.migrationEntries) :
    key.isAdded = true := by
  obtain ⟨b, -, hb⟩ := List.mem_flatMap.1 h
  exact Format.isAdded_of_mem hb

/-- The migration of a store writes records as the format has them. -/
lemma row_of_mem {entry : Entry} (h : entry ∈ self.migrationEntries) :
    F.Row entry.1 entry.2 := by
  obtain ⟨b, -, hb⟩ := List.mem_flatMap.1 h
  exact Format.row_of_mem_migrationBatch hb

/-- The store after a run of the migration that is not interrupted. -/
def migrated : BlockStore F where
  db := writeBatch [(.storeVersion, Codec.toBE 4 1)] (writeBatch self.migrationEntries self.db)
  wellFormed := by
    refine (self.wellFormed.writeBatch fun entry => self.row_of_mem).writeBatch fun entry h => ?_
    rw [List.mem_singleton.1 h]
    exact Codec.length_toBE 4 _

/-- A store of version 0: the indexes that version 1 adds have no record, unless an interrupted run
of the migration put it there. -/
structure VersionZero (store : BlockStore F) : Prop where
  version : storeVersion store.db = .ok 0
  indexes : ∀ key v, key.isAdded = true → record store.db key = some v →
    ∃ w, (key, w) ∈ store.migrationEntries

/-- The rows of the blocks are read, and their entries are written. By induction on the rows. -/
lemma forM_migrateRow {entries : List (B × List UInt8)}
    (h : ∀ entry ∈ entries, entry ∈ KeyBlock.entries F self.db) :
    forM (entries.map (KeyBlock.write F)) (migrateRow F) =
      forM (entries.map fun entry => F.migrationBatch entry.1) Machine.write := by
  induction entries with
  | nil => rfl
  | cons entry entries ih =>
    obtain ⟨hentry, hentries⟩ := List.forall_mem_cons.1 h
    have hb := ((ListableKey.mem_entries KeyBlock_ofBlocks self).1 hentry).2
    have hread : F.readRow (KeyBlock.write F entry) >>= KeyBlock.item =
        .ok (F.blockHeight entry.1, entry.1) := by
      rw [Format.readRow, ListableKey.write, Key.deserialize_serialize, Outcome.mapErr,
        fromBytes_eq_ok.2 hb]
      rfl
    have hrow : migrateRow F (KeyBlock.write F entry) =
        Machine.write (F.migrationBatch entry.1) := by
      rw [migrateRow, hread]
      rfl
    rw [List.map_cons, List.map_cons, List.forM_cons, List.forM_cons, hrow, ih hentries]

/-- **The writes of `migrate_to_v1`**: the entries of each block, and then the version. -/
lemma migrateToV1_eq {m : Machine} (hm : m.db = self.db) :
    migrateToV1 F m =
      forM (self.stored.map F.migrationBatch ++ [[(Key.storeVersion, Codec.toBE 4 1)]])
        Machine.write m := by
  have hall : ∀ entry ∈ listRange (fun entry => F.blockHeight entry.1)
      (KeyBlock.entries F self.db) (.unbounded, .unbounded) .lowestToHighest,
      entry ∈ KeyBlock.entries F self.db := fun _ => Node.mem_of_mem_listRange
  have hrange : listRange (fun entry => F.blockHeight entry.1)
      (KeyBlock.entries F self.db) (.unbounded, .unbounded) .lowestToHighest =
        KeyBlock.entries F self.db := List.filter_eq_self.2 fun _ _ => rfl
  change (forM ((KeyBlock.list (.unbounded, .unbounded) .lowestToHighest).rows m.db)
    (migrateRow F) >>= fun _ => Machine.write [(.storeVersion, Codec.toBE 4 1)]) m = _
  rw [hm, ListableKey.rows_list KeyBlock_ofBlocks, self.forM_migrateRow hall, hrange,
    List.forM_append, List.forM_cons, List.forM_nil, stored, ListableKey.blocks, List.map_map,
    bind_pure_unit]
  rfl

/-- The version depends on its record only. -/
lemma storeVersion_congr {db db' : Database}
    (h : record db .storeVersion = record db' .storeVersion) :
    storeVersion db = storeVersion db' := by
  rw [storeVersion, storeVersion, h]

/-- A migrated store has version one. -/
lemma storeVersion_migrated : storeVersion self.migrated.db = .ok 1 := by
  have hrecord : record self.migrated.db .storeVersion = some (Codec.toBE 4 1) :=
    record_writeBatch_of_forall_eq List.mem_cons_self
      (fun w hw => (Prod.mk.inj (List.mem_singleton.1 hw)).2) _
  rw [storeVersion, hrecord]
  rfl

/-- A store of version 1 is left as it is. -/
lemma migrate_done {m : Machine} (h : storeVersion m.db = .ok 1) {fuel : ℕ} (hfuel : 1 ≤ fuel) :
    migrate F fuel m = (.ok (), m) := by
  obtain ⟨fuel, rfl⟩ : ∃ n, fuel = n + 1 := ⟨fuel - 1, by omega⟩
  rw [migrate, Program.run_bind, Program.run_get]
  simp only [h]
  rfl

/-- **How a run of the migration ends**: it is done, or the process stops after the entries of some
of the blocks.

**Proof sketch.** The run writes the entries of the blocks one block after the other, and then the
version (`forM_write`); it is interrupted before one of these writes, or it is done and the next
round finds the new version. -/
theorem migrate_eq {m : Machine} (hm : m.db = self.db) (h : storeVersion self.db = .ok 0)
    {fuel : ℕ} (hfuel : 2 ≤ fuel) :
    (m.writesLeft = none ∧ migrate F fuel m = (.ok (), ⟨self.migrated.db, none⟩)) ∨
      (∃ n n', m.writesLeft = some n ∧
        migrate F fuel m = (.ok (), ⟨self.migrated.db, some n'⟩)) ∨
      ∃ n, m.writesLeft = some n ∧ migrate F fuel m = (.err .interrupted,
        ⟨writeBatch ((self.stored.take n).flatMap F.migrationBatch) self.db, some 0⟩) := by
  obtain ⟨fuel, rfl⟩ : ∃ n, fuel = n + 2 := ⟨fuel - 2, by omega⟩
  have hdone : ∀ left, migrate F (fuel + 1) ⟨self.migrated.db, left⟩ =
      (.ok (), ⟨self.migrated.db, left⟩) :=
    fun left => migrate_done (m := ⟨self.migrated.db, left⟩) self.storeVersion_migrated (by omega)
  have hloop : migrate F (fuel + 2) m = (migrateToV1 F >>= fun _ => migrate F (fuel + 1)) m := by
    rw [migrate, Program.run_bind, Program.run_get]
    simp only [hm, h]
    rfl
  have hflat : writeBatch
      (self.stored.map F.migrationBatch ++ [[(Key.storeVersion, Codec.toBE 4 1)]]).flatten m.db =
        self.migrated.db := by
    rw [List.flatten_append, writeBatch_append, hm]
    rfl
  rw [hloop, Program.run_bind, self.migrateToV1_eq hm]
  rcases forM_write (self.stored.map F.migrationBatch ++ [[(Key.storeVersion, Codec.toBE 4 1)]]) m
    with ⟨hleft, hrun⟩ | ⟨n, hleft, hrun⟩ | ⟨n, hlt, hleft, hrun⟩
  · rw [hrun, hflat]
    exact .inl ⟨hleft, hdone none⟩
  · rw [hrun, hflat]
    exact .inr (.inl ⟨_, n, hleft, hdone (some n)⟩)
  · have hle : n ≤ (self.stored.map F.migrationBatch).length := by
      rw [List.length_append, List.length_singleton] at hlt
      omega
    rw [hrun, List.take_append_of_le_length hle, ← List.map_take, ← List.flatMap_def, hm]
    exact .inr (.inr ⟨n, hleft, rfl⟩)

/-! ## Interrupted runs -/

/-- The records of a store are those of this one, but for entries of the migration. -/
def Partial (db : Database) : Prop :=
  ∀ key, record db key = record self.db key ∨ ∃ v, (key, v) ∈ self.migrationEntries

/-- The records of a store are those after the migration. -/
def Complete (db : Database) : Prop := ∀ key, record db key = record self.migrated.db key

/-- The process is started on a database, and stopped before it writes once more than this. -/
def attempt (F : Format B Txn) (fuel : ℕ) (db : Database) (writes : ℕ) : Database :=
  (migrate F fuel ⟨db, some writes⟩).2.db

/-- A store whose migration was interrupted has the same blocks. -/
lemma Partial.get_eq {db : Database} (h : self.Partial db) (height : BlockHeight) :
    get F db height = get F self.db height := by
  rcases h (.block height) with hrecord | ⟨v, hv⟩
  · rw [Store.get, Store.get, hrecord]
  · cases self.isAdded_of_mem hv

/-- A store whose migration was interrupted has the same version. -/
lemma Partial.storeVersion_eq {db : Database} (h : self.Partial db) :
    storeVersion db = storeVersion self.db := by
  rcases h .storeVersion with hrecord | ⟨v, hv⟩
  · exact storeVersion_congr hrecord
  · cases self.isAdded_of_mem hv

/-- Stores with the same blocks list them alike. -/
lemma stored_eq {store store' : BlockStore F} (h : ∀ b, store.Holds b ↔ store'.Holds b) :
    store.stored = store'.stored := by
  refine Format.eq_of_pairwise store.pairwise_stored store'.pairwise_stored fun b => ?_
  rw [mem_stored, mem_stored]
  exact h b

/-- What an interrupted run has left has the same blocks, and the same entries to put. -/
lemma Partial.migrationEntries_eq {store : BlockStore F} (h : self.Partial store.db) :
    store.stored = self.stored ∧ store.migrationEntries = self.migrationEntries := by
  have hstored : store.stored = self.stored :=
    stored_eq fun b => by rw [Holds, Holds, h.get_eq self]
  refine ⟨hstored, ?_⟩
  rw [migrationEntries, hstored]
  rfl

/-- A run from what an interrupted one has left ends like one from the start. -/
lemma Partial.complete {store : BlockStore F} (h : self.Partial store.db) :
    self.Complete store.migrated.db := by
  intro key
  refine record_writeBatch_congr (.inr ?_)
  rw [(h.migrationEntries_eq self).2]
  refine record_writeBatch_congr ?_
  rcases h key with hrecord | hentry
  · exact .inr hrecord
  · exact .inl hentry

/-- **A run leaves part of its entries, or all of them**, from what earlier runs have left. -/
lemma run_step (hzero : storeVersion self.db = .ok 0) {fuel : ℕ} (hfuel : 2 ≤ fuel)
    {store : BlockStore F} (h : self.Partial store.db ∨ self.Complete store.db)
    (left : Option ℕ) : ∃ store' : BlockStore F,
      (migrate F fuel ⟨store.db, left⟩).2.db = store'.db ∧
        (self.Partial store'.db ∨ self.Complete store'.db) ∧
        (left = none → migrate F fuel ⟨store.db, none⟩ = (.ok (), ⟨store'.db, none⟩) ∧
          self.Complete store'.db) := by
  rcases h with hpart | hdone
  · have hversion : storeVersion store.db = .ok 0 := (hpart.storeVersion_eq self).trans hzero
    rcases store.migrate_eq (m := ⟨store.db, left⟩) rfl hversion hfuel with
      ⟨rfl, hrun⟩ | ⟨n, n', rfl, hrun⟩ | ⟨n, rfl, hrun⟩
    · exact ⟨store.migrated, by rw [hrun], .inr (hpart.complete self),
        fun _ => ⟨hrun, hpart.complete self⟩⟩
    · exact ⟨store.migrated, by rw [hrun], .inr (hpart.complete self), by simp⟩
    · -- the entries of some blocks were put, over what was there
      have hmem : ∀ entry ∈ (store.stored.take n).flatMap F.migrationBatch,
          entry ∈ store.migrationEntries := by
        intro entry hentry
        obtain ⟨b, hb, hbatch⟩ := List.mem_flatMap.1 hentry
        exact List.mem_flatMap.2 ⟨b, List.mem_of_mem_take hb, hbatch⟩
      refine ⟨⟨_, store.wellFormed.writeBatch fun entry h => store.row_of_mem (hmem entry h)⟩,
        by rw [hrun], .inl fun key => ?_, by simp⟩
      rcases record_writeBatch ((store.stored.take n).flatMap F.migrationBatch) store.db key with
        ⟨v, hv, -⟩ | ⟨-, hsame⟩
      · right
        rw [← (hpart.migrationEntries_eq self).2]
        exact ⟨v, hmem _ hv⟩
      · change record (writeBatch _ _) key = _ ∨ _
        rw [hsame]
        exact hpart key
  · have hversion : storeVersion store.db = .ok 1 :=
      (storeVersion_congr (hdone .storeVersion)).trans self.storeVersion_migrated
    have hrun : ∀ left, migrate F fuel ⟨store.db, left⟩ = (.ok (), ⟨store.db, left⟩) :=
      fun left => migrate_done (m := ⟨store.db, left⟩) hversion (by omega)
    exact ⟨store, by rw [hrun], .inr hdone, fun _ => ⟨hrun none, hdone⟩⟩

/-- Any number of interrupted runs. By induction on the runs. -/
theorem attempts (hzero : storeVersion self.db = .ok 0) {fuel : ℕ} (hfuel : 2 ≤ fuel)
    (runs : List ℕ) {store : BlockStore F}
    (h : self.Partial store.db ∨ self.Complete store.db) : ∃ store' : BlockStore F,
      runs.foldl (attempt F fuel) store.db = store'.db ∧
        (self.Partial store'.db ∨ self.Complete store'.db) := by
  induction runs generalizing store with
  | nil => exact ⟨store, rfl, h⟩
  | cons writes runs ih =>
    obtain ⟨store', hdb, hstate, -⟩ := self.run_step hzero hfuel h (some writes)
    rw [List.foldl_cons, attempt, hdb]
    exact ih hstate

/-! ## The store that is set anew -/

/-- The blocks of the store, set anew by increasing height. -/
def rebuilt : BlockStore F := self.stored.foldl set (create F)

/-- The records of the indexes that version 1 adds, after any calls of `set`: those of the entries
that the migration would put. By induction on the calls, from the last one. -/
lemma record_run (blocks : List B) {key : Key} (hkey : key.isAdded = true) :
    record (blocks.foldl set (create F)).db key =
      record (writeBatch (blocks.flatMap F.migrationBatch) ∅) key := by
  induction blocks using List.reverseRecOn with
  | nil =>
    refine record_writeBatch_of_forall_ne (fun entry hentry heq => ?_) _
    rw [← heq, List.mem_singleton.1 hentry] at hkey
    cases hkey
  | append_singleton blocks block ih =>
    obtain ⟨m, hm⟩ := (blocks.foldl set (create F)).getMaxHeight_returns
    rw [List.foldl_concat, db_set _ hm, List.flatMap_append, writeBatch_append,
      List.flatMap_singleton]
    -- the batch of `set` ends with that of the migration
    let first : List Entry := (.block (F.blockHeight block), F.block.serialize block) ::
      ((if m.all (F.blockHeight block > ·) then
        [(.maxHeight, heightBytes (F.blockHeight block))] else []) ++
      [(.blockHashToHeight (F.blockHash block), heightBytes (F.blockHeight block))])
    have hsplit : setBatch F m block = first ++ F.migrationBatch block := by
      simp only [setBatch, Format.indexEntries, Format.migrationBatch, first, List.cons_append,
        List.append_assoc, List.nil_append]
    have hfirst : ∀ entry ∈ first, entry.1 ≠ key := by
      intro entry hentry heq
      rw [← heq] at hkey
      simp only [first, List.mem_cons, List.mem_append, List.not_mem_nil, or_false] at hentry
      rcases hentry with rfl | hentry | rfl
      · cases hkey
      · split_ifs at hentry
        · rw [List.mem_singleton.1 hentry] at hkey
          cases hkey
        · cases hentry
      · cases hkey
    rw [hsplit, writeBatch_append]
    refine record_writeBatch_congr (.inr ?_)
    rw [record_writeBatch_of_forall_ne hfirst]
    exact ih

/-- The blocks of the store are those that are set anew. -/
lemma holds_rebuilt {b : B} : self.rebuilt.Holds b ↔ self.Holds b := by
  rw [rebuilt, Holds, get_run, Outcome.ok.injEq, ← mem_stored]
  constructor
  · intro h
    exact (List.mem_filter.1 (List.mem_of_getLast? h)).1
  · intro h
    -- there is one block only at a height
    have hone : ∀ b' ∈ self.stored.filter fun b' => F.blockHeight b' = F.blockHeight b, b' = b := by
      intro b' hb'
      obtain ⟨hmem, heq⟩ := List.mem_filter.1 hb'
      have hb'' : get F self.db (F.blockHeight b) = .ok (some b') := by
        rw [← of_decide_eq_true heq]
        exact self.mem_stored.1 hmem
      have hb := self.mem_stored.1 h
      rw [Holds, hb''] at hb
      exact Option.some.inj (Outcome.ok.inj hb)
    have hne : (self.stored.filter fun b' => F.blockHeight b' = F.blockHeight b) ≠ [] :=
      List.ne_nil_of_mem (List.mem_filter.2 ⟨h, decide_eq_true rfl⟩)
    rw [List.getLast?_eq_some_getLast hne, hone _ (List.getLast_mem hne)]

/-- The indexes that version 1 adds are those of the store that is set anew. -/
lemma record_rebuilt (h : self.VersionZero) {key : Key} (hkey : key.isAdded = true) :
    record self.migrated.db key = record self.rebuilt.db key := by
  have hversion : record self.migrated.db key =
      record (writeBatch self.migrationEntries self.db) key := by
    refine record_writeBatch_of_forall_ne (fun entry hentry heq => ?_) _
    rw [← heq, List.mem_singleton.1 hentry] at hkey
    cases hkey
  rw [hversion, rebuilt, record_run _ hkey]
  refine record_writeBatch_congr ?_
  rcases hrecord : record self.db key with _ | v
  · exact .inr Std.TreeMap.getElem?_emptyc.symm
  · exact .inl (h.indexes key v hkey hrecord)

/-! ## Answers -/

/-- The record of a transaction, from a row. -/
def readTxn (row : List UInt8 × List UInt8) : Option (Hash × List UInt8) :=
  match Key.deserialize row.1 with
  | .ok (.txnByHash hash) => some (hash, row.2)
  | _ => none

/-- The records of transactions, by their hashes. -/
def txnRows : List (Hash × List UInt8) := self.db.toList.filterMap readTxn

/-- A row that is read is the record of its transaction. -/
lemma readTxn_eq_some {k v : List UInt8} {entry : Hash × List UInt8}
    (hrecord : self.db[k]? = some v) (hread : readTxn (k, v) = some entry) :
    (k, v) = ((Key.txnByHash entry.1).serialize, entry.2) := by
  obtain ⟨key, rfl, -⟩ := self.wellFormed k v hrecord
  rw [readTxn] at hread
  simp only [Key.deserialize_serialize] at hread
  cases key with
  | txnByHash hash =>
    obtain rfl : (hash, v) = entry := Option.some.inj hread
    rfl
  | _ => cases hread

/-- The rows of transactions are their records. -/
lemma mem_txnRows {entry : Hash × List UInt8} :
    entry ∈ self.txnRows ↔ record self.db (.txnByHash entry.1) = some entry.2 := by
  rw [txnRows, List.mem_filterMap]
  constructor
  · rintro ⟨⟨k, v⟩, hmem, hread⟩
    have hrecord := Database.mem_toList.1 hmem
    obtain ⟨rfl, rfl⟩ := Prod.mk.inj (self.readTxn_eq_some hrecord hread)
    exact hrecord
  · intro hrecord
    refine ⟨((Key.txnByHash entry.1).serialize, entry.2), Database.mem_toList.2 hrecord, ?_⟩
    rw [readTxn]
    simp only [Key.deserialize_serialize]

/-- Keys of transactions are compared by their hashes. -/
lemma compare_txnByHash (a b : Hash) :
    compare (Key.txnByHash a).serialize (Key.txnByHash b).serialize = compare a.toNat b.toNat :=
  (Key.compare_of_kind_eq (a := .txnByHash a) (b := .txnByHash b) rfl).trans
    (ByteOrder.compare_toBE a.isLt b.isLt)

/-- The rows of transactions are in order of their hashes. -/
lemma pairwise_txnRows : self.txnRows.Pairwise fun a b => a.1.toNat < b.1.toNat := by
  rw [txnRows, List.pairwise_filterMap]
  refine (Database.pairwise_toList self.db).imp_of_mem ?_
  rintro ⟨k, v⟩ ⟨k', v'⟩ hmem hmem' hlt a ha b hb
  obtain ⟨rfl, rfl⟩ := Prod.mk.inj (self.readTxn_eq_some (Database.mem_toList.1 hmem) ha)
  obtain ⟨rfl, rfl⟩ := Prod.mk.inj (self.readTxn_eq_some (Database.mem_toList.1 hmem') hb)
  rwa [compare_txnByHash, Nat.compare_eq_lt] at hlt

/-- **The transactions are listed** by their hashes. -/
lemma listTxns_eq :
    listTxns F self.db = self.txnRows.mapM fun entry => fromBytes F.txn entry.2 := by
  have hiter : self.db.iterate (Key.txnByHash 0).serialize
      (Key.txnByHash (BitVec.allOnes 256)).serializeImmediateSuccessor true =
        self.txnRows.map fun entry => ((Key.txnByHash entry.1).serialize, entry.2) := by
    have hrange := @Database.iterate_eq_map _ self.db (Key.txnByHash 0).serialize
      (Key.txnByHash (BitVec.allOnes 256)).serializeImmediateSuccessor readTxn
      (fun entry => ((Key.txnByHash entry.1).serialize, entry.2)) (fun _ => true)
      (fun k v entry hrecord hread => ?_) (fun k v hrecord hread => ?_) true
    · rw [hrange, if_pos rfl, List.filter_true]
      rfl
    · obtain ⟨rfl, rfl⟩ := Prod.mk.inj (self.readTxn_eq_some hrecord hread)
      refine ⟨?_, rfl⟩
      have hle : entry.1.toNat ≤ (BitVec.allOnes 256).toNat := by
        rw [BitVec.toNat_allOnes]
        exact Nat.le_sub_one_of_lt entry.1.isLt
      have hlower : (compare entry.1.toNat (0 : Hash).toNat).isLT = false := by
        rw [Bool.eq_false_iff, ne_eq, Ordering.isLT_iff_eq_lt, Nat.compare_eq_lt]
        exact Nat.not_lt_zero _
      rw [isLT_successor, compare_txnByHash, compare_txnByHash, Nat.isLE_compare.2 hle, hlower]
      rfl
    · -- a key of another kind is below all hashes or above all hashes
      obtain ⟨key, rfl, -⟩ := self.wellFormed k v hrecord
      have hkind : key.kind ≠ 4 := by
        intro heq
        cases key <;> try cases heq
        rw [readTxn] at hread
        simp only [Key.deserialize_serialize] at hread
        cases hread
      rw [ne_eq, ← UInt8.toNat_inj] at hkind
      rw [Bool.and_eq_false_iff, Bool.not_eq_false']
      rcases Nat.lt_or_gt_of_ne hkind with hlt | hgt
      · left
        rw [Key.compare_of_kind_lt (a := key) (b := .txnByHash 0) hlt]
        rfl
      · right
        have hcompare :
            compare key.serialize (Key.txnByHash (BitVec.allOnes 256)).serialize = .gt := by
          rw [← Ordering.swap_eq_lt, ← Std.OrientedCmp.eq_swap]
          exact Key.compare_of_kind_lt (a := .txnByHash (BitVec.allOnes 256)) hgt
        rw [isLT_successor, hcompare]
        rfl
  rw [listTxns, hiter, List.mapM_map]
  rfl

/-- Two databases give the same answers. -/
structure SameAnswers (F : Format B Txn) (db db' : Database) : Prop where
  list : ∀ range order, list F db range order = list F db' range order
  listNonEmpty : ∀ range order, listNonEmpty F db range order = listNonEmpty F db' range order
  getTxnByHash : ∀ hash, getTxnByHash F db hash = getTxnByHash F db' hash
  listTxns : listTxns F db = listTxns F db'

/-- Stores with the same blocks, and the same records in the indexes that version 1 adds. -/
lemma sameAnswers {store store' : BlockStore F} (hholds : ∀ b, store.Holds b ↔ store'.Holds b)
    (hrecord : ∀ key : Key, key.isAdded = true → record store.db key = record store'.db key) :
    SameAnswers F store.db store'.db := by
  have hnonEmpty : store.nonEmpty = store'.nonEmpty := by
    refine Format.eq_of_pairwise store.pairwise_nonEmpty store'.pairwise_nonEmpty fun b => ?_
    rw [mem_nonEmpty, mem_nonEmpty, ListsNonEmpty, ListsNonEmpty, hrecord _ rfl]
  have htxns : store.txnRows = store'.txnRows := by
    have hnodup : ∀ store : BlockStore F, store.txnRows.Nodup := by
      intro store
      refine store.pairwise_txnRows.imp ?_
      rintro a b hab rfl
      exact lt_irrefl _ hab
    have hperm : store.txnRows.Perm store'.txnRows := by
      rw [List.perm_ext_iff_of_nodup (hnodup _) (hnodup _)]
      intro entry
      rw [mem_txnRows, mem_txnRows, hrecord _ rfl]
    exact hperm.eq_of_pairwise (fun a b _ _ hab hba => absurd hba (lt_asymm hab))
      store.pairwise_txnRows store'.pairwise_txnRows
  refine ⟨fun range order => ?_, fun range order => ?_, fun hash => ?_, ?_⟩
  · rw [list_eq, list_eq, stored_eq hholds]
  · rw [listNonEmpty_eq, listNonEmpty_eq, hnonEmpty]
  · rw [Store.getTxnByHash, Store.getTxnByHash, hrecord _ rfl]
  · rw [listTxns_eq, listTxns_eq, htxns]

/-- A migrated store holds what the store held. -/
lemma holds_migrated {b : B} : self.migrated.Holds b ↔ self.Holds b := by
  -- the migration does not touch the blocks
  have hblock : record self.migrated.db (.block (F.blockHeight b)) =
      record self.db (.block (F.blockHeight b)) := by
    rw [migrated]
    refine (record_writeBatch_of_forall_ne (fun entry hentry => ?_) _).trans
      (record_writeBatch_of_forall_ne (fun entry hentry heq => ?_) _)
    · rw [List.mem_singleton.1 hentry]
      rintro ⟨⟩
    · have hadded := self.isAdded_of_mem hentry
      rw [heq] at hadded
      cases hadded
  rw [Holds, Holds, Store.get, Store.get, hblock]

/-- **The migration refines setting the blocks anew.** After any number of interrupted runs on a
store of version 0, a run that is not interrupted ends; the version is 1 then, and the answers are
those of a store in which the same blocks were set by increasing height. A further run changes
nothing, however often its process is stopped.

**Proof sketch.** An interrupted run leaves the answers and the version as they were and has written
some of the entries (`attempts`). The last run writes all of them again and then the version
(`run_step`), and the records are then those of a store set anew (`record_rebuilt`). -/
theorem migrate_refines (h : self.VersionZero) {fuel : ℕ} (hfuel : 2 ≤ fuel) (runs : List ℕ) :
    ∃ db, migrate F fuel ⟨runs.foldl (attempt F fuel) self.db, none⟩ = (.ok (), ⟨db, none⟩) ∧
      storeVersion db = .ok 1 ∧ SameAnswers F db self.rebuilt.db ∧
      ∀ left, migrate F fuel ⟨db, left⟩ = (.ok (), ⟨db, left⟩) := by
  obtain ⟨store, hdb, hstate⟩ :=
    @attempts _ _ _ self h.version _ hfuel runs self (.inl fun _ => .inl rfl)
  obtain ⟨final, -, -, hfinal⟩ := self.run_step h.version hfuel hstate none
  obtain ⟨hrun, hdone⟩ := hfinal rfl
  have hversion : storeVersion final.db = .ok 1 :=
    (storeVersion_congr (hdone .storeVersion)).trans self.storeVersion_migrated
  refine ⟨final.db, by rw [hdb]; exact hrun, hversion, sameAnswers (fun b => ?_) fun key hkey => ?_,
    fun left => migrate_done (m := ⟨final.db, left⟩) hversion (by omega)⟩
  · rw [holds_rebuilt, ← self.holds_migrated, Holds, Holds, Store.get, Store.get, hdone]
  · rw [hdone, self.record_rebuilt h hkey]

/-! ## Stores in use -/

/-- The stores that calls of `set` make, of a new store or of one that was migrated. -/
inductive Reachable : BlockStore F → Prop
  | create : Reachable (create F)
  | migrated {store : BlockStore F} (h : store.VersionZero) : Reachable store.migrated
  | set {store : BlockStore F} (h : Reachable store) (block : B) : Reachable (store.set block)

/-- Every stored block that has transactions is listed as non-empty. -/
def Covers (store : BlockStore F) : Prop :=
  ∀ b, store.Holds b → F.txns b ≠ [] → store.ListsNonEmpty b

/-- A new store lists all its blocks, as it has none. -/
lemma covers_create : (create F).Covers := by
  intro b hb
  rw [Holds, get_create] at hb
  cases hb

/-- Setting a block keeps the blocks with transactions listed. -/
lemma Covers.set {store : BlockStore F} (h : store.Covers) (block : B) :
    (store.set block).Covers := by
  intro b hb hne
  rw [ListsNonEmpty, record_nonEmptyBlock_set]
  rcases (store.holds_set).1 hb with rfl | ⟨hb, hheight⟩
  · exact ⟨F.block.serialize b, if_pos ⟨hne, rfl⟩, F.block.fromBytes_serialize b⟩
  · rw [if_neg fun hcond => hheight hcond.2.symm]
    exact h b hb hne

/-- Setting blocks keeps the blocks with transactions listed. -/
lemma covers_foldl_set {store : BlockStore F} (h : store.Covers) (blocks : List B) :
    (blocks.foldl set store).Covers := by
  induction blocks generalizing store with
  | nil => exact h
  | cons block blocks ih => exact ih (h.set block)

/-- **The index of non-empty blocks covers the stored blocks**, however the store was made. By
induction on how it was made. -/
theorem Reachable.covers {store : BlockStore F} (h : store.Reachable) : store.Covers := by
  induction h with
  | create => exact covers_create
  | @migrated store h =>
    -- the records are those of the store that is set anew
    intro b hb hne
    have hlists := covers_foldl_set covers_create store.stored b
      (store.holds_rebuilt.2 (store.holds_migrated.1 hb)) hne
    rw [ListsNonEmpty, store.record_rebuilt h rfl]
    exact hlists
  | set _ block ih => exact ih.set block

/-- A store of version 0 with a block. -/
def oldStore : BlockStore sampleFormat where
  db := writeBatch [(.block 1, sampleFormat.block.serialize (1, 10, .inr (5, .inl ())))] ∅
  wellFormed := by
    refine (Format.WellFormed.empty sampleFormat).writeBatch fun entry hentry => ?_
    rw [List.mem_singleton.1 hentry]
    exact ⟨_, sampleFormat.block.fromBytes_serialize _, rfl⟩

/-- The old store of the sample has version zero. -/
lemma oldStore_versionZero : oldStore.VersionZero := by
  have hnone : ∀ key : Key, (∀ height, key ≠ .block height) → record oldStore.db key = none := by
    intro key hkey
    refine (record_writeBatch_of_forall_ne (fun entry hentry heq => ?_) _).trans
      Std.TreeMap.getElem?_emptyc
    rw [← heq, List.mem_singleton.1 hentry] at hkey
    exact hkey _ rfl
  constructor
  · rw [storeVersion, hnone _ (by simp)]
  · intro key v hkey hrecord
    rw [hnone key (by rintro height rfl; cases hkey)] at hrecord
    cases hrecord

/-- The migration of this store, which is stopped twice. -/
theorem migrate_refines_oldStore :
    ∃ db, migrate sampleFormat 2
        ⟨[0, 1].foldl (attempt sampleFormat 2) oldStore.db, none⟩ = (.ok (), ⟨db, none⟩) ∧
      storeVersion db = .ok 1 ∧ SameAnswers sampleFormat db oldStore.rebuilt.db ∧
      ∀ left, migrate sampleFormat 2 ⟨db, left⟩ = (.ok (), ⟨db, left⟩) :=
  migrate_refines oldStore oldStore_versionZero le_rfl [0, 1]

end BlockStore

end TempoRollup.Store
