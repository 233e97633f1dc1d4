import TempoRollup.Lib.Codec
import TempoRollup.Lib.Runs
import TempoRollup.Smirk.Database
import TempoRollup.Smirk.HashCache
import TempoRollup.Smirk.Storage

set_option relaxedAutoImplicit false
set_option autoImplicit false

/-!
# The records of the persistent tree

`smirk/src/storage` down to its bytes: the keys and values of the database in both versions of
their format, the write batch of `insert_batch`, the hashes that `persist_hashes` writes, and how
`load` reads them back. The module says that the simpler `Persistent` of `TempoRollup.Smirk.Storage`
is what these records mean.

## Main definitions

* `KeyFormat`, `ValueFormat`, `keyCodec`, `valueCodec` — `storage/format.rs`.
* `Records.Persistent`, `Records.insertBatch`, `Records.persistHashes`, `Records.load`.
* `Records.Refines` — the records mean a `Smirk.Persistent`.
* `Records.Call`, `Records.step` — sequences of calls.

## Main results

* `Records.Refines.insertBatch` — insertion of records is insertion into the map they mean.
* `Records.Inv.load` — the records are loaded, and give the entries they mean.
* `Records.load_run` — after any sequence of calls the database gives the tree back.
* `Records.keepsOnErr_iff` — memory and database stay together exactly in the runs in which no
  write of a new batch fails.

## Design

The values of the tree have a codec of their own. Hash maps are association lists without duplicate
keys: the operations of a write batch that come from one of them concern different keys, so that
their order does not matter. Whether a write succeeds is an input of the call.
-/

open Exec

namespace TempoRollup.Smirk

/-! ## Formats -/

/-- `KeyV2`. -/
inductive KeyV2
  | element (e : Element)
  | knownHash (left right : Element)
  deriving DecidableEq, Repr

/-- `KeyFormat`. -/
inductive KeyFormat
  | v1 (e : Element)
  | v2 (key : KeyV2)
  deriving DecidableEq, Repr

/-- `ValueV2`. -/
inductive ValueV2 (V : Type)
  | metadata (value : V)
  | knownHash (result : Element)

/-- `ValueFormat`. -/
inductive ValueFormat (V : Type)
  | v1 (value : V)
  | v2 (value : ValueV2 V)

/-- The keys as variants of variants. -/
def KeyFormat.equivSum : Element ⊕ (Element ⊕ Element × Element) ≃ KeyFormat where
  toFun
    | .inl e => .v1 e
    | .inr (.inl e) => .v2 (.element e)
    | .inr (.inr p) => .v2 (.knownHash p.1 p.2)
  invFun
    | .v1 e => .inl e
    | .v2 (.element e) => .inr (.inl e)
    | .v2 (.knownHash left right) => .inr (.inr (left, right))
  left_inv s := by rcases s with e | e | p <;> rfl
  right_inv k := by rcases k with e | e | ⟨left, right⟩ <;> rfl

/-- The values as variants of variants. -/
def ValueFormat.equivSum (V : Type) : V ⊕ (V ⊕ Element) ≃ ValueFormat V where
  toFun
    | .inl v => .v1 v
    | .inr (.inl v) => .v2 (.metadata v)
    | .inr (.inr result) => .v2 (.knownHash result)
  invFun
    | .v1 v => .inl v
    | .v2 (.metadata v) => .inr (.inl v)
    | .v2 (.knownHash result) => .inr (.inr result)
  left_inv s := by rcases s with v | v | result <;> rfl
  right_inv k := by rcases k with v | v | result <;> rfl

/-- `BorshSerialize` and `BorshDeserialize` of `Element`. -/
def elementCodec : Codec Element := Codec.bigEndian 32

/-- `BorshSerialize` and `BorshDeserialize` of `KeyFormat`. -/
def keyCodec : Codec KeyFormat :=
  (Codec.either elementCodec (Codec.either elementCodec (elementCodec.prod elementCodec))).map
    KeyFormat.equivSum

/-- `BorshSerialize` and `BorshDeserialize` of `ValueFormat`, over those of the values. -/
def valueCodec {V : Type} (codec : Codec V) : Codec (ValueFormat V) :=
  (Codec.either codec (Codec.either codec elementCodec)).map (ValueFormat.equivSum V)

/-- The bytes of the key of an element. -/
def elementKey (e : Element) : List UInt8 := keyCodec.serialize (.v2 (.element e))

/-- The bytes of the key of a known hash. -/
def hashKey (left right : Element) : List UInt8 :=
  keyCodec.serialize (.v2 (.knownHash left right))

/-- The key of an element tells the element. -/
lemma elementKey_inj {e e' : Element} : elementKey e = elementKey e' ↔ e = e' := by
  refine ⟨fun h => ?_, congrArg _⟩
  have hkey := keyCodec.serialize_injective h
  simpa using hkey

/-- The key of an element is not that of a hash. -/
lemma elementKey_ne_hashKey (e left right : Element) : elementKey e ≠ hashKey left right := by
  intro h
  have hkey := keyCodec.serialize_injective h
  simp at hkey

/-- The key of an element is not a key of the first version. -/
lemma elementKey_ne_v1 (e e' : Element) : elementKey e ≠ keyCodec.serialize (.v1 e') := by
  intro h
  have hkey := keyCodec.serialize_injective h
  simp at hkey

/-- The key of a hash tells the pair. -/
lemma hashKey_inj {l r l' r' : Element} : hashKey l r = hashKey l' r' ↔ l = l' ∧ r = r' := by
  refine ⟨fun h => ?_, fun h => by rw [h.1, h.2]⟩
  have hkey := keyCodec.serialize_injective h
  simpa using hkey

/-- `Tree::known_hashes`. A marked node fails the assertion. -/
def Node.knownHashes (H : List Fr → Fr) {ε : Type} : Node → Outcome ε (List KnownHash)
  | .parent left right hash hashDirty => do
    if hashDirty then Outcome.panic
    else
      let lefts ← left.knownHashes H
      let rights ← right.knownHashes H
      pure (⟨left.hash H, right.hash H, hash⟩ :: lefts ++ rights)
  | _ => .ok []

/-- The known hashes of a clean node are correct. -/
lemma Node.knownHashes_spec {H : List Fr → Fr} {ε : Type} {node : Node} (h : node.Clean H) :
    ∃ hashes, (node.knownHashes H : Outcome ε (List KnownHash)) = .ok hashes ∧
      ∀ known ∈ hashes, known.Correct H := by
  induction node with
  | leaf e => exact ⟨[], rfl, fun known hmem => absurd hmem List.not_mem_nil⟩
  | empty depth => exact ⟨[], rfl, fun known hmem => absurd hmem List.not_mem_nil⟩
  | parent left right hash dirty ihl ihr =>
    obtain ⟨hdirty, hhash, hl, hr⟩ := h
    obtain ⟨lefts, hlefts, hcl⟩ := ihl hl
    obtain ⟨rights, hrights, hcr⟩ := ihr hr
    refine ⟨⟨left.hash H, right.hash H, hash⟩ :: lefts ++ rights, ?_, fun known hmem => ?_⟩
    · rw [Node.knownHashes, hdirty, hlefts, hrights]
      rfl
    · rcases List.mem_append.1 hmem with hmem | hmem
      · rcases List.mem_cons.1 hmem with rfl | hmem
        · exact hhash
        · exact hcl known hmem
      · exact hcr known hmem

/-! ## The functions of the source -/

namespace Records

/-- `storage::Error`, in the variants that these functions return. -/
inductive Error
  | rocksdb
  | collision (e : CollisionError)
  | wireMessage
  | databaseConsistency
  deriving DecidableEq, Repr

/-- The errors of the simpler model. -/
def Error.ofStorage : StorageError → Error
  | .collision e => .collision e
  | .rocksdb => .rocksdb

/-- `Persistent`, with the cache of its tree. -/
structure Persistent (DEPTH : ℕ) (V : Type) where
  tree : Tree DEPTH V
  cache : SimpleHashCache
  db : Database

variable {DEPTH : ℕ} {V : Type} (codec : Codec V) (H : List Fr → Fr)

/-- The bytes of the value of an element. -/
def elementValue (value : V) : List UInt8 := (valueCodec codec).serialize (.v2 (.metadata value))

/-- The bytes of the value of a known hash. -/
def hashValue (result : Element) : List UInt8 :=
  (valueCodec codec).serialize (.v2 (.knownHash result))

/-- `Persistent::new` on an empty database. -/
def Persistent.new : Persistent DEPTH V := ⟨.new, .new, ∅⟩

/-- The operations for the entries of a batch: the new key is put, and the old one is deleted. -/
def entryOps (entries : List (Element × V)) : List WriteOp :=
  entries.flatMap fun entry =>
    [.put (elementKey entry.1) (elementValue codec entry.2),
      .delete (keyCodec.serialize (.v1 entry.1))]

/-- The operations for the changed hashes: those to remove, then those to insert. -/
def changeOps (changes : List ((Element × Element) × Option Element)) : List WriteOp :=
  (changes.filterMap fun change =>
      match change.2 with
      | none => some (.delete (hashKey change.1.1 change.1.2))
      | some _ => none) ++
    changes.filterMap fun change =>
      change.2.map fun result => .put (hashKey change.1.1 change.1.2) (hashValue codec result)

/-- `Persistent::insert_batch`; `dbWrites` says whether the write of the database succeeds. -/
def insertBatch (schedule : Schedule) (dbWrites : Bool) (batch : Batch DEPTH V) :
    Program (Persistent DEPTH V) Error Unit := fun self =>
  if batch.entries.isEmpty then (.ok (), self)
  else
    match Tree.insertBatchCached H schedule batch (self.tree, ⟨self.cache, []⟩) with
    | (.ok (), tree, shared) =>
      let ops := entryOps codec batch.entries ++ changeOps codec shared.changes
      -- the tree in memory has the new entries already
      if dbWrites then (.ok (), ⟨tree, shared.cache, self.db.write ops⟩)
      else (.err .rocksdb, ⟨tree, shared.cache, self.db⟩)
    | (.err e, tree, shared) => (.err (.collision e), ⟨tree, shared.cache, self.db⟩)
    | (.panic, tree, shared) => (.panic, ⟨tree, shared.cache, self.db⟩)

/-- `Persistent::insert`. -/
def insert (schedule : Schedule) (dbWrites : Bool) (element : Element) (value : V) :
    Program (Persistent DEPTH V) Error Unit :=
  insertBatch codec H schedule dbWrites (Batch.single element value)

/-- The known hash of a record, if it is one. -/
def knownHashOf (record : List UInt8 × List UInt8) : Option KnownHash :=
  match keyCodec.fromBytes record.1, (valueCodec codec).fromBytes record.2 with
  | some (.v2 (.knownHash left right)), some (.v2 (.knownHash result)) =>
    some ⟨left, right, result⟩
  | _, _ => none

/-- `Persistent::persist_hashes`, which is `synchronize_hashes`. -/
def persistHashes (dbWrites : Bool) : Program (Persistent DEPTH V) Error Unit := fun self =>
  match (self.tree.tree.knownHashes H : Outcome Error (List KnownHash)) with
  | .ok inMemoryHashes =>
    let inDbHashes := self.db.toList.filterMap (knownHashOf codec)
    let ops := (inMemoryHashes.filter fun known => !inDbHashes.contains known).map fun known =>
      WriteOp.put (hashKey known.left known.right) (hashValue codec known.result)
    if dbWrites then (.ok (), { self with db := self.db.write ops }) else (.err .rocksdb, self)
  | .err e => (.err e, self)
  | .panic => (.panic, self)

/-- `RocksbEntry`. -/
inductive RocksbEntry (V : Type)
  | smirkKV (key : Element) (value : V)
  | knownHash (known : KnownHash)

/-- One record of `entries`. -/
def entry (record : List UInt8 × List UInt8) : Outcome Error (RocksbEntry V) :=
  match keyCodec.fromBytes record.1 with
  | none => .err .wireMessage
  | some key =>
    match (valueCodec codec).fromBytes record.2 with
    | none => .err .wireMessage
    | some value =>
      match key, value with
      | .v1 key, .v1 metadata => .ok (.smirkKV key metadata)
      | .v1 key, .v2 (.metadata metadata) => .ok (.smirkKV key metadata)
      | .v2 (.element key), .v1 metadata => .ok (.smirkKV key metadata)
      | .v2 (.element key), .v2 (.metadata metadata) => .ok (.smirkKV key metadata)
      | .v2 (.knownHash left right), .v2 (.knownHash result) =>
        .ok (.knownHash ⟨left, right, result⟩)
      | _, _ => .err .databaseConsistency

/-- The loop of `load_tree` over `entries`: the known hashes, and the entries of the tree. -/
def collect : List (List UInt8 × List UInt8) →
    Outcome Error (List KnownHash × List (Element × V))
  | [] => .ok ([], [])
  | record :: records => do
    let e ← entry codec record
    let rest ← collect records
    match e with
    | .knownHash known => pure (known :: rest.1, rest.2)
    | .smirkKV key value => pure (rest.1, (key, value) :: rest.2)

/-- `load_tree`. -/
def loadTree (schedule : Schedule) (db : Database) :
    Outcome Error (Tree DEPTH V × SimpleHashCache) := do
  let (knownHashes, smirkKV) ← collect codec db.toList
  let (_, cache) ← match SimpleHashCache.provideKnownHashes knownHashes .new with
    | (.ok (), cache) => (.ok ((), cache) : Outcome Error (Unit × SimpleHashCache))
    | (.err e, _) => .err e
    | (.panic, _) => .panic
  let batch ← ((Batch.fromEntries smirkKV : Outcome CollisionError (Batch DEPTH V))).mapErr
    .collision
  match Tree.insertBatchCached H schedule batch (.new, ⟨cache, []⟩) with
  | (.ok (), tree, shared) => .ok (tree, shared.cache)
  | (.err e, _) => .err (.collision e)
  | (.panic, _) => .panic

/-- `Persistent::load`. -/
def load (schedule : Schedule) (db : Database) : Outcome Error (Persistent DEPTH V) := do
  let (tree, cache) ← loadTree codec H schedule db
  pure ⟨tree, cache, db⟩

/-! ## What the records mean -/

/-- The element records of the database are the entries of a map. -/
def Mirrors (db : Database) (m : Std.TreeMap Element V) : Prop :=
  ∀ e, db[elementKey e]? = (m[e]?).map (elementValue codec)

/-- A record is that of an element, or that of a correct hash. -/
def IsRecord (k v : List UInt8) : Prop :=
  (∃ e x, k = elementKey e ∧ v = elementValue codec x) ∨
    ∃ left right, k = hashKey left right ∧ v = hashValue codec (merge H left right)

variable {codec H} {db : Database} {m m' : Std.TreeMap Element V}

/-- The stored value tells the value. -/
lemma elementValue_inj {x y : V} : elementValue codec x = elementValue codec y ↔ x = y := by
  refine ⟨fun h => ?_, congrArg _⟩
  have hvalue := (valueCodec codec).serialize_injective h
  simpa using hvalue

/-- The records determine the entries. -/
lemma Mirrors.unique (h : Mirrors codec db m) (h' : Mirrors codec db m') (e : Element) :
    m[e]? = m'[e]? := by
  have hinj : Function.Injective (elementValue codec) := fun x y hxy => elementValue_inj.1 hxy
  exact Option.map_injective hinj ((h e).symm.trans (h' e))

/-- An empty database mirrors an empty tree. -/
lemma mirrors_empty : Mirrors codec ∅ (∅ : Std.TreeMap Element V) := fun e => by simp

/-- One entry of a batch: its record is put, and the record of the old format is deleted. -/
lemma Mirrors.entry (h : Mirrors codec db m) (e : Element) (x : V) :
    Mirrors codec (db.write [.put (elementKey e) (elementValue codec x),
      .delete (keyCodec.serialize (.v1 e))]) (m.insert e x) := by
  intro e'
  have hv1 : keyCodec.serialize (.v1 e) ≠ elementKey e' := (elementKey_ne_v1 e' e).symm
  have hwrite : (db.write [.put (elementKey e) (elementValue codec x),
      .delete (keyCodec.serialize (.v1 e))])[elementKey e']? =
      if elementKey e = elementKey e' then some (elementValue codec x)
      else db[elementKey e']? := by
    rw [Database.write, List.foldl_cons, List.foldl_cons, List.foldl_nil, Database.getElem?_delete,
      if_neg hv1, Database.getElem?_put]
  rw [hwrite, Std.TreeMap.getElem?_insert]
  simp only [elementKey_inj, Std.LawfulEqCmp.compare_eq_iff_eq]
  split
  · rfl
  · exact h e'

/-- **The entries of a batch** go into the database as into the map. By induction on them. -/
lemma Mirrors.entryOps (h : Mirrors codec db m) (entries : List (Element × V)) :
    Mirrors codec (db.write (entryOps codec entries)) (Tree.insertEntries m entries) := by
  induction entries generalizing db m with
  | nil => exact h
  | cons entry entries ih =>
    exact ih (h.entry entry.1 entry.2)

/-- Operations on hashes leave the elements alone. -/
lemma Mirrors.write_hashes (h : Mirrors codec db m) {ops : List WriteOp}
    (hops : ∀ op ∈ ops, ∃ left right, op.key = hashKey left right) :
    Mirrors codec (db.write ops) m := by
  intro e
  rw [Database.getElem?_write_of_forall_ne, h e]
  intro op hop heq
  obtain ⟨left, right, hkey⟩ := hops op hop
  exact elementKey_ne_hashKey e left right (heq.symm.trans hkey)

/-- A change of hashes writes a record of a hash. -/
lemma key_of_mem_changeOps {changes : List ((Element × Element) × Option Element)}
    {op : WriteOp} (h : op ∈ changeOps codec changes) :
    ∃ left right, op.key = hashKey left right := by
  rcases List.mem_append.1 h with h | h
  · obtain ⟨change, -, hop⟩ := List.mem_filterMap.1 h
    split at hop
    · cases hop
      exact ⟨_, _, rfl⟩
    · cases hop
  · obtain ⟨change, -, hop⟩ := List.mem_filterMap.1 h
    obtain ⟨result, -, rfl⟩ := Option.map_eq_some_iff.1 hop
    exact ⟨_, _, rfl⟩

/-- What the changes put is correct. -/
lemma isRecord_of_mem_changeOps {shared : Shared} (hshared : shared.Correct H)
    {k v : List UInt8} (h : WriteOp.put k v ∈ changeOps codec shared.changes) :
    IsRecord codec H k v := by
  rcases List.mem_append.1 h with h | h
  · obtain ⟨change, -, hop⟩ := List.mem_filterMap.1 h
    split at hop <;> cases hop
  · obtain ⟨⟨⟨left, right⟩, change⟩, hmem, hop⟩ := List.mem_filterMap.1 h
    obtain ⟨result, hresult, hput⟩ := Option.map_eq_some_iff.1 hop
    simp only at hresult
    rw [hresult] at hmem
    cases hput
    exact .inr ⟨left, right, rfl, by rw [hshared.changes left right result hmem]⟩

/-- What the entries write are records. -/
lemma isRecord_of_mem_entryOps {entries : List (Element × V)} {k v : List UInt8}
    (h : WriteOp.put k v ∈ Records.entryOps codec entries) : IsRecord codec H k v := by
  obtain ⟨entry, -, hop⟩ := List.mem_flatMap.1 h
  simp only [List.mem_cons, WriteOp.put.injEq, reduceCtorEq, List.not_mem_nil, or_false] at hop
  exact .inl ⟨entry.1, entry.2, hop⟩

/-! ## The invariant -/

/-- **The invariant of the records**, whatever the writes did: the tree is well formed, the cache
and the recorded hashes are correct, and every element of the database is in the tree. -/
structure Inv (codec : Codec V) (H : List Fr → Fr) (p : Persistent DEPTH V) : Prop where
  tree : p.tree.Inv H
  cache : p.cache.Correct H
  records : ∀ k v, p.db[k]? = some v → IsRecord codec H k v
  written : ∀ e v, p.db[elementKey e]? = some v → e ∈ p.tree.entries.keys

/-- Memory and database have the same entries. -/
def Synced (codec : Codec V) (p : Persistent DEPTH V) : Prop := Mirrors codec p.db p.tree.entries

/-- A new tree has the invariant. -/
lemma inv_new (hpos : 0 < DEPTH) : Inv codec H (.new : Persistent DEPTH V) where
  tree := Tree.inv_new hpos
  cache := SimpleHashCache.correct_new
  records k v h := by simp [Persistent.new] at h
  written e v h := by simp [Persistent.new] at h

variable {p : Persistent DEPTH V}

/-! ### The simpler model -/

/-- The records mean a persistent tree of the simpler model. -/
structure Refines (codec : Codec V) (p : Persistent DEPTH V) (a : Smirk.Persistent DEPTH V) :
    Prop where
  tree : p.tree = a.tree
  mirrors : Mirrors codec p.db a.db

/-- **Insertion of records is insertion into the map they mean**: it ends in the same way, and the
records mean the result. -/
theorem Refines.insertBatch {a : Smirk.Persistent DEPTH V} (h : Refines codec p a)
    (hcache : p.cache.Correct H) (schedule : Schedule) (dbWrites : Bool) (batch : Batch DEPTH V) :
    (insertBatch codec H schedule dbWrites batch p).1 =
        (Smirk.Persistent.insertBatch H dbWrites batch a).1.mapErr Error.ofStorage ∧
      Refines codec (insertBatch codec H schedule dbWrites batch p).2
        (Smirk.Persistent.insertBatch H dbWrites batch a).2 := by
  obtain ⟨htree, hmirrors⟩ := h
  have hstart : Shared.Correct H ⟨p.cache, []⟩ :=
    ⟨hcache, fun left right result hmem => absurd hmem List.not_mem_nil⟩
  obtain ⟨shared, hrun, -, -⟩ := Tree.insertBatchCached_spec schedule batch p.tree hstart
  unfold Records.insertBatch Smirk.Persistent.insertBatch
  split
  · exact ⟨rfl, htree, hmirrors⟩
  · rw [hrun, htree]
    simp only [Program.run_bind, Program.zoom, Program.mapErr, Program.run_ensure,
      Program.run_modify]
    rcases Tree.insertBatch H batch a.tree with ⟨⟨⟨⟩⟩ | e | _, tree⟩
    · cases dbWrites with
      | false => exact ⟨rfl, rfl, hmirrors⟩
      | true =>
        refine ⟨rfl, rfl, ?_⟩
        simp only [if_true, Database.write, List.foldl_append]
        exact Mirrors.write_hashes (hmirrors.entryOps batch.entries)
          fun op hop => key_of_mem_changeOps hop
    · exact ⟨rfl, rfl, hmirrors⟩
    · exact ⟨rfl, rfl, hmirrors⟩

/-! ### Insertions -/

/-- **The ways an insertion ends.** An empty batch does nothing; a batch that is not new is
refused, with everything as it was; a new one is in memory, and in the database too
unless the write fails. -/
lemma insertBatch_cases (hpos : 0 < DEPTH) (hdepth : DEPTH - 1 ≤ 256) (h : Inv codec H p)
    (schedule : Schedule) (dbWrites : Bool) (batch : Batch DEPTH V) :
    (batch.entries = [] ∧ insertBatch codec H schedule dbWrites batch p = (.ok (), p)) ∨
      (¬ p.tree.Fresh batch.elements ∧
        (insertBatch codec H schedule dbWrites batch p).1 ≠ .ok () ∧
        (insertBatch codec H schedule dbWrites batch p).2 = p) ∨
      (batch.entries ≠ [] ∧ p.tree.Fresh batch.elements ∧
        ∃ (tree : Tree DEPTH V) (shared : Shared), tree.Inv H ∧ shared.Correct H ∧
          tree.entries = Tree.insertEntries p.tree.entries batch.entries ∧
          insertBatch codec H schedule dbWrites batch p =
            if dbWrites then
              (.ok (), ⟨tree, shared.cache, p.db.write
                (entryOps codec batch.entries ++ changeOps codec shared.changes)⟩)
            else (.err .rocksdb, ⟨tree, shared.cache, p.db⟩)) := by
  by_cases hempty : batch.entries = []
  · refine .inl ⟨hempty, ?_⟩
    rw [insertBatch, hempty]
    rfl
  have hnil : ¬ batch.entries.isEmpty = true := by simpa using hempty
  have hstart : Shared.Correct H ⟨p.cache, []⟩ :=
    ⟨h.cache, fun left right result hmem => absurd hmem List.not_mem_nil⟩
  obtain ⟨shared, hrun, hshared, hsame⟩ :=
    Tree.insertBatchCached_spec schedule batch p.tree hstart
  by_cases hfresh : p.tree.Fresh batch.elements
  · obtain ⟨tree, hok, hinv, hentries⟩ := Tree.insertBatch_of_fresh hpos hdepth h.tree hfresh
    refine .inr (.inr ⟨hempty, hfresh, tree, shared, hinv, hshared, hentries, ?_⟩)
    rw [insertBatch, if_neg hnil, hrun, hok]
  · refine .inr (.inl ⟨hfresh, ?_⟩)
    -- the abstract insertion leaves the tree alone
    have habs := @Smirk.Persistent.insertBatch_of_not_fresh DEPTH V H ⟨p.tree, ∅⟩ hdepth true batch
      hfresh
    rw [Smirk.Persistent.insertBatch, if_neg hnil] at habs
    simp only [Program.run_bind, Program.zoom, Program.mapErr] at habs
    rw [insertBatch, if_neg hnil, hrun]
    rcases htree : Tree.insertBatch H batch p.tree with ⟨⟨⟨⟩⟩ | e | _, tree⟩
    · rw [htree] at habs
      exact absurd rfl habs.1
    · rw [htree] at habs hsame
      rw [hsame (fun h => by cases h), show tree = p.tree from
        congrArg Smirk.Persistent.tree habs.2]
      exact ⟨(fun h => by cases h), rfl⟩
    · rw [htree] at habs hsame
      rw [hsame (fun h => by cases h), show tree = p.tree from
        congrArg Smirk.Persistent.tree habs.2]
      exact ⟨(fun h => by cases h), rfl⟩

/-- **However an insertion ends**, the invariant holds again. -/
lemma Inv.insertBatch (hpos : 0 < DEPTH) (hdepth : DEPTH - 1 ≤ 256) (h : Inv codec H p)
    (schedule : Schedule) (dbWrites : Bool) (batch : Batch DEPTH V) :
    Inv codec H (insertBatch codec H schedule dbWrites batch p).2 := by
  rcases insertBatch_cases hpos hdepth h schedule dbWrites batch with
    ⟨-, hrun⟩ | ⟨-, -, hrun⟩ | ⟨-, -, tree, shared, htree, hshared, hentries, hrun⟩
  · rw [hrun]
    exact h
  · rw [hrun]
    exact h
  · have hkeys : ∀ e ∈ p.tree.entries.keys, e ∈ tree.entries.keys := by
      intro e he
      rw [hentries, Tree.mem_foldl_insert]
      exact .inl he
    rw [hrun]
    cases dbWrites with
    | false => exact ⟨htree, hshared.cache, h.records, fun e v hv => hkeys e (h.written e v hv)⟩
    | true =>
      refine ⟨htree, hshared.cache, ?_, fun e v hv => ?_⟩
      · refine Database.forall_write h.records fun k v hmem => ?_
        rcases List.mem_append.1 hmem with hmem | hmem
        · exact isRecord_of_mem_entryOps hmem
        · exact isRecord_of_mem_changeOps hshared hmem
      · -- an element of the database was there before, or is one of the batch
        refine @Database.forall_write (fun k _ => ∀ e, k = elementKey e → e ∈ tree.entries.keys)
          p.db (fun k v hk e hke => hkeys e (h.written e v (hke ▸ hk))) _ ?_ _ v hv e rfl
        intro k v hmem e hke
        rcases List.mem_append.1 hmem with hmem | hmem
        · obtain ⟨entry, hentry, hop⟩ := List.mem_flatMap.1 hmem
          simp only [List.mem_cons, WriteOp.put.injEq, reduceCtorEq, List.not_mem_nil,
            or_false] at hop
          rw [hentries, Tree.mem_foldl_insert]
          refine .inr (List.mem_map.2 ⟨entry, hentry, ?_⟩)
          exact elementKey_inj.1 (hop.1.symm.trans hke)
        · obtain ⟨left, right, hkey⟩ := key_of_mem_changeOps hmem
          exact absurd (hke.symm.trans hkey) (elementKey_ne_hashKey e left right)

/-- A batch that reaches the database is in both places: it is in the simpler model, which these
records mean. -/
lemma Synced.insertBatch (hpos : 0 < DEPTH) (hdepth : DEPTH - 1 ≤ 256) (h : Inv codec H p)
    (hsync : Synced codec p) (schedule : Schedule) (batch : Batch DEPTH V) :
    Synced codec (insertBatch codec H schedule true batch p).2 := by
  have hrefines : Refines codec p ⟨p.tree, p.tree.entries⟩ := ⟨rfl, hsync⟩
  obtain ⟨-, htree, hmirrors⟩ := hrefines.insertBatch h.cache schedule true batch
  rw [Synced, htree, ← Smirk.Persistent.db_insertBatch hpos hdepth h.tree rfl batch]
  exact hmirrors

/-! ## Hashes -/

/-- **`persist_hashes`** writes correct hashes and leaves the rest alone. -/
lemma persistHashes_spec (h : Inv codec H p) (dbWrites : Bool) :
    ∃ ops : List WriteOp, (∀ op ∈ ops, ∃ left right, op =
        .put (hashKey left right) (hashValue codec (merge H left right))) ∧
      persistHashes codec H dbWrites p =
        if dbWrites then (.ok (), { p with db := p.db.write ops }) else (.err .rocksdb, p) := by
  obtain ⟨hashes, hok, hcorrect⟩ := Node.knownHashes_spec (ε := Error) h.tree.clean
  refine ⟨_, ?_, by rw [persistHashes, hok]⟩
  intro op hop
  obtain ⟨known, hmem, rfl⟩ := List.mem_map.1 hop
  refine ⟨known.left, known.right, ?_⟩
  have hknown : known.Correct H := hcorrect known (List.mem_filter.1 hmem).1
  rw [← show known.result = merge H known.left known.right from hknown]

/-- Persisting the hashes keeps the invariant. -/
lemma Inv.persistHashes (h : Inv codec H p) (dbWrites : Bool) :
    Inv codec H (persistHashes codec H dbWrites p).2 := by
  obtain ⟨ops, hops, hrun⟩ := persistHashes_spec h dbWrites
  rw [hrun]
  cases dbWrites with
  | false => exact h
  | true =>
    refine ⟨h.tree, h.cache, ?_, fun e v hv => h.written e v ?_⟩
    · refine Database.forall_write h.records fun k v hmem => ?_
      obtain ⟨left, right, heq⟩ := hops _ hmem
      cases heq
      exact .inr ⟨left, right, rfl, rfl⟩
    · rw [if_pos rfl] at hv
      rwa [Database.getElem?_write_of_forall_ne] at hv
      intro op hop heq
      obtain ⟨left, right, rfl⟩ := hops op hop
      exact elementKey_ne_hashKey e left right heq.symm

/-- Persisting the hashes keeps tree and database in step. -/
lemma Synced.persistHashes (h : Inv codec H p) (hsync : Synced codec p) (dbWrites : Bool) :
    Synced codec (persistHashes codec H dbWrites p).2 := by
  obtain ⟨ops, hops, hrun⟩ := persistHashes_spec h dbWrites
  rw [hrun]
  cases dbWrites with
  | false => exact hsync
  | true =>
    refine Mirrors.write_hashes hsync fun op hop => ?_
    obtain ⟨left, right, rfl⟩ := hops op hop
    exact ⟨left, right, rfl⟩

/-! ## Loading -/

/-- The record of an element is read back. -/
lemma entry_element (e : Element) (x : V) :
    entry codec (elementKey e, elementValue codec x) = .ok (.smirkKV e x) := by
  simp only [entry, elementKey, elementValue, Codec.fromBytes_serialize]

/-- The record of a hash is read back. -/
lemma entry_hash (left right result : Element) :
    entry codec (hashKey left right, hashValue codec result) =
      .ok (.knownHash ⟨left, right, result⟩) := by
  simp only [entry, hashKey, hashValue, Codec.fromBytes_serialize]

/-- **What the loop over the records collects**: correct hashes, and the entries of the element
records. By induction on the records. -/
lemma collect_spec {records : List (List UInt8 × List UInt8)}
    (hrecords : ∀ r ∈ records, IsRecord codec H r.1 r.2)
    (hdistinct : records.Pairwise fun a b => a.1 ≠ b.1) :
    ∃ known kvs, collect codec records = .ok (known, kvs) ∧ (∀ k ∈ known, k.Correct H) ∧
      (∀ e x, (e, x) ∈ kvs ↔ (elementKey e, elementValue codec x) ∈ records) ∧
      (kvs.map Prod.fst).Nodup := by
  induction records with
  | nil => exact ⟨[], [], rfl, by simp, by simp, List.nodup_nil⟩
  | cons record records ih =>
    rw [List.forall_mem_cons] at hrecords
    rw [List.pairwise_cons] at hdistinct
    obtain ⟨known, kvs, hrest, hcorrect, hmem, hnodup⟩ := ih hrecords.2 hdistinct.2
    obtain ⟨key, value⟩ := record
    rcases hrecords.1 with ⟨e, x, rfl, rfl⟩ | ⟨left, right, rfl, rfl⟩
    · refine ⟨known, (e, x) :: kvs, ?_, hcorrect, fun e' x' => ?_, ?_⟩
      · simp only [collect, entry_element, hrest]
        rfl
      · rw [List.mem_cons, List.mem_cons, hmem, Prod.mk.injEq, Prod.mk.injEq, elementKey_inj,
          elementValue_inj]
      · rw [List.map_cons, List.nodup_cons]
        refine ⟨fun hin => ?_, hnodup⟩
        obtain ⟨⟨e', x'⟩, hkv, rfl⟩ := List.mem_map.1 hin
        exact hdistinct.1 _ ((hmem e' x').1 hkv) rfl
    · refine ⟨⟨left, right, merge H left right⟩ :: known, kvs, ?_, ?_, fun e' x' => ?_, hnodup⟩
      · simp only [collect, entry_hash, hrest]
        rfl
      · exact List.forall_mem_cons.2 ⟨rfl, hcorrect⟩
      · rw [hmem, List.mem_cons, Prod.mk.injEq]
        refine ⟨.inr, fun hin => hin.resolve_left fun heq => ?_⟩
        exact elementKey_ne_hashKey e' left right heq.1

/-- **Loading.** The records of a tree give a tree that has exactly the entries of the database.

**Proof sketch.** The records are those of elements and hashes (`collect_spec`). The elements have
slots of their own, being those of the tree in memory, so that they make a batch, which is inserted
in an empty tree with the collected hashes in its cache. -/
theorem Inv.load (hpos : 0 < DEPTH) (hdepth : DEPTH - 1 ≤ 256) (h : Inv codec H p)
    (schedule : Schedule) :
    ∃ q : Persistent DEPTH V, load codec H schedule p.db = .ok q ∧ Inv codec H q ∧
      Synced codec q ∧ q.db = p.db := by
  have hget : ∀ k v, (k, v) ∈ p.db.toList ↔ p.db[k]? = some v :=
    fun k v => Std.TreeMap.mem_toList_iff_getElem?_eq_some
  have hpairwise : p.db.toList.Pairwise fun a b => a.1 ≠ b.1 := by
    refine (Std.TreeMap.distinct_keys_toList (t := p.db)).imp fun hne heq => ?_
    exact hne (Std.LawfulEqCmp.compare_eq_iff_eq.2 heq)
  obtain ⟨known, kvs, hcollect, hknown, hmem, hnodup⟩ :=
    collect_spec (fun r hr => h.records r.1 r.2 ((hget r.1 r.2).1 hr)) hpairwise
  have hkey : ∀ e ∈ kvs.map Prod.fst, e ∈ p.tree.entries.keys := by
    intro e he
    obtain ⟨⟨e', x⟩, hin, rfl⟩ := List.mem_map.1 he
    exact h.written e' _ ((hget _ _).1 ((hmem e' x).1 hin))
  -- the keys have different slots, because they are those of the tree in memory
  have hlsb : (kvs.map fun kv => kv.1.lsb (DEPTH - 1)).Nodup := by
    have hmap : (kvs.map fun kv => kv.1.lsb (DEPTH - 1)) =
        (kvs.map Prod.fst).map fun e => e.lsb (DEPTH - 1) := by
      rw [List.map_map]
      rfl
    rw [hmap]
    refine List.Nodup.map_on (fun a ha b hb hab => ?_) hnodup
    exact h.tree.distinct a (hkey a ha) b (hkey b hb) ((Element.lsb_eq_iff a b hdepth).1 hab)
  have hbatch := @Batch.fromEntries_spec DEPTH V kvs
  rw [if_pos hlsb] at hbatch
  obtain ⟨batch, hok, hentries⟩ := hbatch
  obtain ⟨cache, hprovide, hcache⟩ := SimpleHashCache.provideKnownHashes_spec (ε := Error) hknown
  have hstart : Shared.Correct H ⟨cache, []⟩ :=
    ⟨hcache, fun left right result hmem => absurd hmem List.not_mem_nil⟩
  obtain ⟨shared, hrun, hshared, -⟩ := Tree.insertBatchCached_spec schedule batch
    (.new : Tree DEPTH V) hstart
  have hnn : ∀ e ∈ batch.elements, e ≠ Element.NULL_HASH := by
    intro e he
    rw [Batch.elements, hentries] at he
    exact h.tree.ne_null e (hkey e he)
  have hfresh : (Tree.new : Tree DEPTH V).Fresh batch.elements := by
    rw [Tree.fresh_elements hdepth hnn, Tree.checkCollisions_eq_ok_iff]
    exact fun e he => absurd he List.not_mem_nil
  obtain ⟨tree, hinsert, hinv, htree⟩ :=
    Tree.insertBatch_of_fresh hpos hdepth (Tree.inv_new (H := H) hpos) hfresh
  rw [hinsert] at hrun
  have hload : Records.load codec H schedule p.db = .ok ⟨tree, shared.cache, p.db⟩ := by
    simp only [Records.load, loadTree, hcollect, hprovide, hok, hrun, Outcome.mapErr,
      Outcome.ok_bind]
    rfl
  have hsync : Mirrors codec p.db tree.entries := by
    intro e
    have hiff : ∀ x, tree.entries[e]? = some x ↔
        p.db[elementKey e]? = some (elementValue codec x) := by
      intro x
      rw [htree, hentries, Tree.getElem?_insertEntries hnodup, hmem, hget]
      simp [Tree.new]
    cases hdb : p.db[elementKey e]? with
    | none =>
      cases htr : tree.entries[e]? with
      | none => rfl
      | some x =>
        rw [hiff, hdb] at htr
        cases htr
    | some v =>
      rcases h.records _ v hdb with ⟨e', x, hkey, rfl⟩ | ⟨left, right, hkey, -⟩
      · obtain rfl := elementKey_inj.1 hkey
        rw [(hiff x).2 hdb]
        rfl
      · exact absurd hkey (elementKey_ne_hashKey e left right)
  refine ⟨_, hload, ⟨hinv, hshared.cache, h.records, fun e v hv => ?_⟩, hsync, rfl⟩
  have hentry := hsync e
  rw [hv] at hentry
  obtain ⟨x, hx, -⟩ := Option.map_eq_some_iff.1 hentry.symm
  rw [Std.TreeMap.mem_keys]
  exact Std.TreeMap.mem_iff_isSome_getElem?.2 (by rw [hx]; rfl)

/-! ## Sequences of calls -/

/-- A call on a persistent tree; `reopen` drops it and loads its database again. -/
inductive Call (DEPTH : ℕ) (V : Type)
  | insert (schedule : Schedule) (element : Element) (value : V)
  | insertBatch (schedule : Schedule) (batch : Batch DEPTH V)
  | persistHashes
  | evict (left right : Element)
  | evictAll
  | reopen (schedule : Schedule)

/-- The persistent tree after a call, with whether its write succeeds. -/
def step (codec : Codec V) (H : List Fr → Fr) (dbWrites : Bool) (p : Persistent DEPTH V) :
    Call DEPTH V → Persistent DEPTH V
  | .insert schedule element value => (insert codec H schedule dbWrites element value p).2
  | .insertBatch schedule batch => (insertBatch codec H schedule dbWrites batch p).2
  | .persistHashes => (persistHashes codec H dbWrites p).2
  | .evict left right => { p with cache := p.cache.evict left right }
  | .evictAll => { p with cache := p.cache.evictAll }
  | .reopen schedule =>
    match (load codec H schedule p.db : Outcome Error (Persistent DEPTH V)) with
    | .ok q => q
    | _ => p

/-- A reopened tree has the invariant and is in step with its database. -/
lemma step_reopen (hpos : 0 < DEPTH) (hdepth : DEPTH - 1 ≤ 256) (h : Inv codec H p)
    (dbWrites : Bool) (schedule : Schedule) :
    Inv codec H (step codec H dbWrites p (.reopen schedule)) ∧
      Synced codec (step codec H dbWrites p (.reopen schedule)) := by
  obtain ⟨q, hload, hq, hsync, -⟩ := h.load hpos hdepth schedule
  simp only [step, hload]
  exact ⟨hq, hsync⟩

/-- **One call** keeps the invariant. -/
lemma Inv.step (hpos : 0 < DEPTH) (hdepth : DEPTH - 1 ≤ 256) (h : Inv codec H p)
    (dbWrites : Bool) (call : Call DEPTH V) : Inv codec H (step codec H dbWrites p call) := by
  cases call with
  | insert schedule element value => exact h.insertBatch hpos hdepth schedule dbWrites _
  | insertBatch schedule batch => exact h.insertBatch hpos hdepth schedule dbWrites batch
  | persistHashes => exact h.persistHashes dbWrites
  | evict left right => exact ⟨h.tree, h.cache.evict left right, h.records, h.written⟩
  | evictAll => exact ⟨h.tree, h.cache.evictAll, h.records, h.written⟩
  | reopen schedule => exact (step_reopen hpos hdepth h dbWrites schedule).1

/-- One call whose write succeeds keeps memory and database together. -/
lemma Synced.step (hpos : 0 < DEPTH) (hdepth : DEPTH - 1 ≤ 256) (h : Inv codec H p)
    (hsync : Synced codec p) (call : Call DEPTH V) :
    Synced codec (step codec H true p call) := by
  cases call with
  | insert schedule element value => exact hsync.insertBatch hpos hdepth h schedule _
  | insertBatch schedule batch => exact hsync.insertBatch hpos hdepth h schedule batch
  | persistHashes => exact hsync.persistHashes h true
  | evict left right => exact hsync
  | evictAll => exact hsync
  | reopen schedule => exact (step_reopen hpos hdepth h true schedule).2

/-- A sequence of calls whose writes succeed. -/
lemma inv_foldl_step (hpos : 0 < DEPTH) (hdepth : DEPTH - 1 ≤ 256) (calls : List (Call DEPTH V))
    (h : Inv codec H p) (hsync : Synced codec p) :
    Inv codec H (calls.foldl (step codec H true) p) ∧
      Synced codec (calls.foldl (step codec H true) p) := by
  induction calls generalizing p with
  | nil => exact ⟨h, hsync⟩
  | cons call calls ih => exact ih (h.step hpos hdepth true call) (hsync.step hpos hdepth h call)

/-- **The database gives the tree back.** After any sequence of calls whose writes succeed, `load`
returns a tree with the same entries and the same root, and every record of a known hash has the
hash of its two sides.

**Proof sketch.** The invariant holds after the calls, and memory and database have the same entries
(`inv_foldl_step`). Loading gives a tree with the entries of the database (`Inv.load`), and the root
depends on the entries only. Every record is one of the two kinds that the invariant allows. -/
theorem load_run (codec : Codec V) (H : List Fr → Fr) (hpos : 1 ≤ DEPTH) (hdepth : DEPTH ≤ 257)
    (calls : List (Call DEPTH V)) (schedule : Schedule) :
    let p := calls.foldl (step codec H true) (.new : Persistent DEPTH V)
    (∃ q : Persistent DEPTH V, load codec H schedule p.db = .ok q ∧
        (∀ e : Element, q.tree.entries[e]? = p.tree.entries[e]?) ∧
        q.tree.rootHash H = p.tree.rootHash H) ∧
      ∀ k v left right, p.db[k]? = some v →
        keyCodec.fromBytes k = some (.v2 (.knownHash left right)) →
        (valueCodec codec).fromBytes v = some (.v2 (.knownHash (hashMerge H [left, right]))) := by
  intro p
  have hd : DEPTH - 1 ≤ 256 := by omega
  have hnew : Inv codec H (.new : Persistent DEPTH V) := inv_new hpos
  obtain ⟨hinv, hsync⟩ := inv_foldl_step hpos hd calls hnew mirrors_empty
  obtain ⟨q, hload, hq, hsyncq, hdb⟩ := hinv.load hpos hd schedule
  have hentries : ∀ e : Element, q.tree.entries[e]? = p.tree.entries[e]? := by
    intro e
    rw [Synced, hdb] at hsyncq
    exact hsyncq.unique hsync e
  refine ⟨⟨q, hload, hentries, ?_⟩, fun k v left right hk hkey => ?_⟩
  · rw [hq.tree.rootHash_eq, hinv.tree.rootHash_eq, occupant_congr hinv.tree.distinct]
    intro e
    rw [Std.TreeMap.mem_keys, Std.TreeMap.mem_keys, Std.TreeMap.mem_iff_isSome_getElem?,
      Std.TreeMap.mem_iff_isSome_getElem?, hentries e]
  · rcases hinv.records k v hk with ⟨e, x, rfl, -⟩ | ⟨l, r, rfl, rfl⟩
    · rw [elementKey, Codec.fromBytes_serialize] at hkey
      simp at hkey
    · rw [hashKey, Codec.fromBytes_serialize] at hkey
      simp only [Option.some.injEq, KeyFormat.v2.injEq, KeyV2.knownHash.injEq] at hkey
      rw [← hkey.1, ← hkey.2]
      exact Codec.fromBytes_serialize _ _

/-- Two elements are inserted, and the hashes are persisted. -/
def sampleCalls : List (Call 3 Unit) :=
  [.insert (fun _ => []) 5 (), .insertBatch (fun _ => [true]) (Batch.single 2 ()), .persistHashes]

/-- The records after the sample's calls load again. -/
theorem load_run_sampleCalls :
    let p := sampleCalls.foldl (step Codec.unit Tree.sampleHash true) .new
    ∃ q : Persistent 3 Unit, load Codec.unit Tree.sampleHash (fun _ => []) p.db = .ok q ∧
      (∀ e : Element, q.tree.entries[e]? = p.tree.entries[e]?) ∧
      q.tree.rootHash Tree.sampleHash = p.tree.rootHash Tree.sampleHash :=
  (load_run Codec.unit Tree.sampleHash (by decide) (by decide) sampleCalls (fun _ => [])).1

/-! ### Writes that fail -/

/-- A call that returns an error leaves the tree and the database as they were. -/
def ErrKeeps (p : Persistent DEPTH V) (r : Outcome Error Unit × Persistent DEPTH V) : Prop :=
  (∃ e, r.1 = .err e) → r.2.tree = p.tree ∧ r.2.db = p.db

/-- `ErrKeeps` for the calls that insert. -/
def KeepsOnErr (codec : Codec V) (H : List Fr → Fr) (p : Persistent DEPTH V) :
    Bool × Call DEPTH V → Prop
  | (dbWrites, .insert schedule element value) =>
    ErrKeeps p (insert codec H schedule dbWrites element value p)
  | (dbWrites, .insertBatch schedule batch) =>
    ErrKeeps p (insertBatch codec H schedule dbWrites batch p)
  | _ => True

/-- The write succeeds, or there is nothing to write: the batch is empty, or it is refused because
of a collision or a null element. -/
def NothingLost (p : Persistent DEPTH V) (dbWrites : Bool) (batch : Batch DEPTH V) : Prop :=
  dbWrites = true ∨ batch.entries = [] ∨ p.tree.checkCollisions batch ≠ .ok () ∨
    Element.NULL_HASH ∈ batch.elements

/-- `NothingLost` for the calls that insert. -/
def LosesNothing (p : Persistent DEPTH V) : Bool × Call DEPTH V → Prop
  | (dbWrites, .insert _ element value) => NothingLost p dbWrites (Batch.single element value)
  | (dbWrites, .insertBatch _ batch) => NothingLost p dbWrites batch
  | _ => True

/-- Nothing is lost when the write succeeds or there is nothing to write. -/
lemma nothingLost_iff (hdepth : DEPTH - 1 ≤ 256) (dbWrites : Bool) (batch : Batch DEPTH V) :
    NothingLost p dbWrites batch ↔
      dbWrites = true ∨ batch.entries = [] ∨ ¬ p.tree.Fresh batch.elements := by
  refine or_congr_right (or_congr_right ?_)
  constructor
  · rintro (hcol | hnull) hfresh
    · exact hcol ((Tree.fresh_elements hdepth hfresh.ne_null).1 hfresh)
    · exact hfresh.ne_null _ hnull rfl
  · intro hnot
    by_contra hboth
    rw [not_or, not_not] at hboth
    refine hnot ((Tree.fresh_elements hdepth fun e he hnull => ?_).2 hboth.1)
    exact hboth.2 (hnull ▸ he)

/-- **An insertion leaves everything alone on an error exactly when nothing is lost.** A new batch
whose write fails is in memory only. -/
lemma errKeeps_iff (hpos : 0 < DEPTH) (hdepth : DEPTH - 1 ≤ 256) (h : Inv codec H p)
    (schedule : Schedule) (dbWrites : Bool) (batch : Batch DEPTH V) :
    ErrKeeps p (insertBatch codec H schedule dbWrites batch p) ↔ NothingLost p dbWrites batch := by
  rw [nothingLost_iff hdepth]
  rcases insertBatch_cases hpos hdepth h schedule dbWrites batch with
    ⟨hempty, hrun⟩ | ⟨hnot, -, hrun⟩ | ⟨hne, hfresh, tree, shared, -, -, hentries, hrun⟩
  · rw [hrun]
    exact ⟨fun _ => .inr (.inl hempty), fun _ _ => ⟨rfl, rfl⟩⟩
  · rw [ErrKeeps, hrun]
    exact ⟨fun _ => .inr (.inr hnot), fun _ _ => ⟨rfl, rfl⟩⟩
  · rw [ErrKeeps, hrun]
    cases dbWrites with
    | true => exact ⟨fun _ => .inl rfl, fun _ herr => by obtain ⟨e, he⟩ := herr; cases he⟩
    | false =>
      refine ⟨fun hkeeps => ?_, fun hlost => ?_⟩
      · -- the first element of the batch is in the tree now, and was not before
        obtain ⟨entry, hentry⟩ := List.exists_mem_of_ne_nil _ hne
        have helem : entry.1 ∈ batch.elements := List.mem_map.2 ⟨entry, hentry, rfl⟩
        have hsame : tree = p.tree := (hkeeps ⟨_, rfl⟩).1
        have hmem : entry.1 ∈ p.tree.entries.keys := by
          rw [← hsame, hentries, Tree.mem_foldl_insert]
          exact .inr helem
        exact absurd rfl (hfresh.free _ hmem _ helem)
      · rcases hlost with hfalse | hempty | hnot
        · cases hfalse
        · exact absurd hempty hne
        · exact absurd hfresh hnot

/-- An insertion that loses nothing keeps memory and database together. -/
lemma Synced.insertBatch_of_nothingLost (hpos : 0 < DEPTH) (hdepth : DEPTH - 1 ≤ 256)
    (h : Inv codec H p) (hsync : Synced codec p) (schedule : Schedule) {dbWrites : Bool}
    {batch : Batch DEPTH V} (hlost : NothingLost p dbWrites batch) :
    Synced codec (Records.insertBatch codec H schedule dbWrites batch p).2 := by
  cases dbWrites with
  | true => exact hsync.insertBatch hpos hdepth h schedule batch
  | false =>
    rw [nothingLost_iff hdepth] at hlost
    rcases insertBatch_cases hpos hdepth h schedule false batch with
      ⟨-, hrun⟩ | ⟨-, -, hrun⟩ | ⟨hne, hfresh, -⟩
    · rw [hrun]
      exact hsync
    · rw [hrun]
      exact hsync
    · rcases hlost with hfalse | hempty | hnot
      · cases hfalse
      · exact absurd hempty hne
      · exact absurd hfresh hnot

/-- **Memory and database over whole runs.** Every insertion that returns an error leaves the tree
and the database as they were, and they have the same entries in every state of the run, exactly
when no insertion of the run loses a new batch to a write that fails.

**Proof sketch.** For each call the two conditions are the same (`errKeeps_iff`), as the invariant
holds in every state. Memory and database stay in step by `Synced.insertBatch_of_nothingLost`. -/
theorem keepsOnErr_iff (codec : Codec V) (H : List Fr → Fr) (hpos : 1 ≤ DEPTH)
    (hdepth : DEPTH ≤ 257) (calls : List (Bool × Call DEPTH V)) :
    (Runs.Along (fun p call => step codec H call.1 p call.2) (KeepsOnErr codec H) .new calls ∧
        ∀ p ∈ Runs.states (fun p call => step codec H call.1 p call.2) .new calls,
          Synced codec p) ↔
      Runs.Along (fun p call => step codec H call.1 p call.2) LosesNothing .new calls := by
  have hd : DEPTH - 1 ≤ 256 := by omega
  have hstep : ∀ (p : Persistent DEPTH V) (call : Bool × Call DEPTH V), True → Inv codec H p →
      Inv codec H (step codec H call.1 p call.2) :=
    fun p call _ h => h.step hpos hd call.1 call.2
  have hiff : ∀ (p : Persistent DEPTH V) (call : Bool × Call DEPTH V), True → Inv codec H p →
      (KeepsOnErr codec H p call ↔ LosesNothing p call) := by
    rintro p ⟨dbWrites, call⟩ - h
    cases call with
    | insert schedule element value => exact errKeeps_iff hpos hd h schedule dbWrites _
    | insertBatch schedule batch => exact errKeeps_iff hpos hd h schedule dbWrites batch
    | _ => exact Iff.rfl
  have hcongr := Runs.along_congr hstep hiff (inv_new hpos) calls fun _ _ => trivial
  refine ⟨fun h => hcongr.1 h.1, fun h => ⟨hcongr.2 h, fun p hp => ?_⟩⟩
  refine (@Runs.forall_states _ _ _ (fun p => Inv codec H p ∧ Synced codec p) LosesNothing
    (fun _ => True) ?_ _ ⟨inv_new hpos, mirrors_empty⟩ calls (fun _ _ => trivial) h p hp).2
  rintro p ⟨dbWrites, call⟩ - ⟨hinv, hsync⟩ hlost
  refine ⟨hinv.step hpos hd dbWrites call, ?_⟩
  cases call with
  | insert schedule element value =>
    exact hsync.insertBatch_of_nothingLost hpos hd hinv schedule hlost
  | insertBatch schedule batch =>
    exact hsync.insertBatch_of_nothingLost hpos hd hinv schedule hlost
  | persistHashes => exact hsync.persistHashes hinv dbWrites
  | evict left right => exact hsync
  | evictAll => exact hsync
  | reopen schedule => exact (step_reopen hpos hd hinv dbWrites schedule).2

/-- The calls of the sample lose nothing when their writes succeed. -/
theorem keepsOnErr_sampleCalls :
    Runs.Along (fun p call => step Codec.unit Tree.sampleHash call.1 p call.2)
        (KeepsOnErr Codec.unit Tree.sampleHash) .new (sampleCalls.map fun call => (true, call)) ∧
      ∀ p ∈ Runs.states (fun p call => step Codec.unit Tree.sampleHash call.1 p call.2) .new
        (sampleCalls.map fun call => (true, call)), Synced Codec.unit p := by
  refine (keepsOnErr_iff Codec.unit Tree.sampleHash (by decide) (by decide) _).2 ?_
  exact ⟨.inl rfl, .inl rfl, trivial, trivial⟩

/-- The write of a new element fails: the call returns an error, and the element is in memory but
not in the database. -/
theorem insert_write_fails :
    ¬ ErrKeeps (.new : Persistent 3 Unit)
      (insert Codec.unit (fun _ => 0) (fun _ => []) false 5 () .new) := by
  intro h
  have hlost := (errKeeps_iff (by decide) (by decide) (inv_new (by decide)) _ _ _).1 h
  rcases hlost with hfalse | hempty | hcol | hnull
  · cases hfalse
  · cases hempty
  · exact hcol rfl
  · exact absurd hnull (by decide)

end Records

end TempoRollup.Smirk
