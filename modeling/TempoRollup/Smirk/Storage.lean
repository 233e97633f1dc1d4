import TempoRollup.Smirk.Tree

set_option relaxedAutoImplicit false
set_option autoImplicit false

/-!
# The persistent tree

`smirk/src/storage`: a tree together with the database that its entries are written to.

## Main definitions

* `Persistent`, `Persistent.insertBatch`, `Persistent.load`.
* `Persistent.Inv` — the tree in memory is that of the database.
* `Persistent.Backed` — the tree in memory has everything that the database has.

## Main results

* `Persistent.load_spec` — a database whose keys have different slots is loaded, and the tree
  has these keys.
* `Persistent.insertBatch_of_fresh` — new elements are inserted in memory and in the database,
  unless the write fails.
* `Persistent.Backed.insertBatch` — however an insertion ends, the tree has everything that the
  database has.

## Design

The database is the map of its element records. The records of known hashes, which are written
in the same batch and read into the hash cache, and the encoding of the records are the subject of
`Smirk.Records` and `Smirk.KnownHashes`. Whether a write of the database succeeds is an input.
-/

open Exec

namespace TempoRollup.Smirk

variable {DEPTH : ℕ} {V : Type}

/-- `storage::Error`. -/
inductive StorageError
  | collision (e : CollisionError)
  | rocksdb
  deriving DecidableEq, Repr

/-- `Persistent`. -/
structure Persistent (DEPTH : ℕ) (V : Type) where
  tree : Tree DEPTH V
  db : Std.TreeMap Element V

namespace Persistent

variable (H : List Fr → Fr)

/-- `Persistent::new` on an empty database. -/
def new : Persistent DEPTH V := ⟨.new, ∅⟩

/-- `Persistent::insert_batch`; `dbWrites` says whether the write of the database succeeds. -/
def insertBatch (dbWrites : Bool) (batch : Batch DEPTH V) :
    Program (Persistent DEPTH V) StorageError Unit :=
  if batch.entries.isEmpty then pure ()
  else do
    Program.zoom Persistent.tree (fun tree self => { self with tree := tree })
      ((Tree.insertBatch H batch).mapErr .collision)
    -- the tree in memory has the new entries already
    Program.ensure dbWrites .rocksdb
    Program.modify fun self => { self with db := Tree.insertEntries self.db batch.entries }

/-- `Persistent::load`. -/
def load (db : Std.TreeMap Element V) : Outcome StorageError (Persistent DEPTH V) :=
  match (Batch.fromEntries db.toList : Outcome CollisionError (Batch DEPTH V)) with
  | .ok batch =>
    match Tree.insertBatch H batch Tree.new with
    | (.ok (), tree) => .ok ⟨tree, db⟩
    | (.err e, _) => .err (.collision e)
    | (.panic, _) => .panic
  | .err e => .err (.collision e)
  | .panic => .panic

/-- **The invariant of a persistent tree**: that of its tree, and the database has the same
keys. -/
structure Inv (p : Persistent DEPTH V) : Prop where
  tree : p.tree.Inv H
  synced : ∀ e, e ∈ p.db.keys ↔ e ∈ p.tree.entries.keys

variable {H} {self : Persistent DEPTH V}

/-- A new tree has the invariant. -/
lemma inv_new (hpos : 0 < DEPTH) : (new : Persistent DEPTH V).Inv H :=
  ⟨Tree.inv_new hpos, fun _ => Iff.rfl⟩

/-- **Loading.** A database whose keys are not null and have different slots is loaded, and the
tree has exactly its entries. -/
lemma load_entries (hpos : 0 < DEPTH) (hdepth : DEPTH - 1 ≤ 256) {db : Std.TreeMap Element V}
    (hnn : ∀ e ∈ db.keys, e ≠ Element.NULL_HASH) (hdistinct : SlotDistinct (DEPTH - 1) db.keys) :
    ∃ p : Persistent DEPTH V, load H db = .ok p ∧ p.Inv H ∧ p.db = db ∧
      ∀ (e : Element) (v : V), p.tree.entries[e]? = some v ↔ db[e]? = some v := by
  have hkeys : db.toList.map Prod.fst = db.keys := Std.TreeMap.map_fst_toList_eq_keys
  have hnodup : (db.toList.map fun entry => entry.1.lsb (DEPTH - 1)).Nodup := by
    have hmap : (db.toList.map fun entry => entry.1.lsb (DEPTH - 1)) =
        db.keys.map fun e => e.lsb (DEPTH - 1) := by
      rw [← hkeys, List.map_map]
      rfl
    rw [hmap]
    refine List.Nodup.map_on ?_ Std.TreeMap.nodup_keys
    intro a ha b hb hab
    exact hdistinct a ha b hb ((Element.lsb_eq_iff a b hdepth).1 hab)
  have hbatch := @Batch.fromEntries_spec DEPTH V db.toList
  rw [if_pos hnodup] at hbatch
  obtain ⟨batch, hok, hentries⟩ := hbatch
  have helems : batch.elements = db.keys := by rw [Batch.elements, hentries, hkeys]
  have hfresh : (Tree.new : Tree DEPTH V).Fresh batch.elements := by
    rw [Tree.fresh_elements hdepth (by rw [helems]; exact hnn), Tree.checkCollisions_eq_ok_iff]
    exact fun e he => absurd he List.not_mem_nil
  obtain ⟨tree, hrun, hinv, htree⟩ :=
    Tree.insertBatch_of_fresh hpos hdepth (Tree.inv_new (H := H) hpos) hfresh
  refine ⟨⟨tree, db⟩, ?_, ⟨hinv, fun e => ?_⟩, rfl, fun e v => ?_⟩
  · rw [load, hok]
    simp only
    rw [hrun]
  · rw [htree, Tree.mem_foldl_insert, hentries, hkeys]
    simp [Tree.new]
  · have hkeysNodup : (batch.entries.map Prod.fst).Nodup := by
      rw [hentries, hkeys]
      exact Std.TreeMap.nodup_keys
    rw [htree, Tree.getElem?_insertEntries hkeysNodup, hentries,
      Std.TreeMap.mem_toList_iff_getElem?_eq_some]
    simp [Tree.new]

/-- The keys of a loaded tree. -/
theorem load_spec (hpos : 0 < DEPTH) (hdepth : DEPTH - 1 ≤ 256) {db : Std.TreeMap Element V}
    (hnn : ∀ e ∈ db.keys, e ≠ Element.NULL_HASH) (hdistinct : SlotDistinct (DEPTH - 1) db.keys) :
    ∃ p : Persistent DEPTH V, load H db = .ok p ∧ p.Inv H ∧ p.db = db := by
  obtain ⟨p, hok, hinv, hdb, -⟩ := @load_entries DEPTH V H hpos hdepth db hnn hdistinct
  exact ⟨p, hok, hinv, hdb⟩

/-- **Insertion of new elements.** They are inserted in memory; if the write succeeds they are
in the database too. -/
theorem insertBatch_of_fresh (hpos : 0 < DEPTH) (hdepth : DEPTH - 1 ≤ 256) (h : self.Inv H)
    {batch : Batch DEPTH V} (hf : self.tree.Fresh batch.elements) :
    ∃ p : Persistent DEPTH V, insertBatch H true batch self = (.ok (), p) ∧ p.Inv H ∧
      ∀ e, e ∈ p.tree.entries.keys ↔ e ∈ self.tree.entries.keys ∨ e ∈ batch.elements := by
  by_cases hempty : batch.entries = []
  · refine ⟨self, ?_, h, fun e => ?_⟩
    · rw [insertBatch, hempty]
      rfl
    · simp [Batch.elements, hempty]
  · obtain ⟨tree, hrun, hinv, hentries⟩ := Tree.insertBatch_of_fresh hpos hdepth h.tree hf
    have hmem : ∀ e, e ∈ tree.entries.keys ↔ e ∈ self.tree.entries.keys ∨ e ∈ batch.elements := by
      intro e
      rw [hentries, Tree.mem_foldl_insert]
      rfl
    refine ⟨⟨tree, Tree.insertEntries self.db batch.entries⟩, ?_, ⟨hinv, fun e => ?_⟩, hmem⟩
    · rw [insertBatch, if_neg (by simpa using hempty)]
      simp only [Program.run_bind, Program.zoom, Program.mapErr, hrun, Program.run_ensure,
        Program.run_modify, if_true]
    · rw [Tree.mem_foldl_insert, h.synced e, hmem e]
      rfl

/-- **A batch that is not new is refused**, and everything stays as it was. -/
lemma insertBatch_of_not_fresh (hdepth : DEPTH - 1 ≤ 256) (dbWrites : Bool)
    {batch : Batch DEPTH V} (hnot : ¬ self.tree.Fresh batch.elements) :
    (insertBatch H dbWrites batch self).1 ≠ .ok () ∧
      (insertBatch H dbWrites batch self).2 = self := by
  have hempty : batch.entries ≠ [] := by
    intro hempty
    refine hnot ((Tree.fresh_elements hdepth ?_).2 (Tree.checkCollisions_eq_ok_iff _ _ |>.2 ?_))
    · simp [Batch.elements, hempty]
    · simp [Batch.elements, hempty]
  rw [insertBatch, if_neg (by simpa using hempty)]
  rcases Tree.checkCollisions_cases self.tree batch with hok | ⟨c, herr⟩
  · -- no collision, so one of the elements is null
    have hnull : (batch.entries.any fun entry => entry.1 == Element.NULL_HASH) = true := by
      by_contra hnone
      refine hnot ((Tree.fresh_elements hdepth ?_).2 hok)
      intro e he
      obtain ⟨entry, hentry, rfl⟩ := List.mem_map.1 he
      simp only [List.any_eq_true, not_exists, not_and, beq_iff_eq] at hnone
      exact hnone entry hentry
    simp only [Program.run_bind, Program.zoom, Program.mapErr, Tree.insertBatch, Program.run_get,
      Program.run_lift, hok, Program.unwrap, Tree.insertWithoutHashing, List.isEmpty_iff, hempty,
      if_false, hnull, if_true, Outcome.unwrap]
    exact ⟨(fun h => by cases h), trivial⟩
  · simp only [Program.run_bind, Program.zoom, Program.mapErr, Tree.insertBatch, Program.run_get,
      Program.run_lift, herr]
    exact ⟨(fun h => by cases h), trivial⟩

/-- **What insertion takes**: a batch that is inserted is new. -/
lemma fresh_of_insertBatch (hdepth : DEPTH - 1 ≤ 256) {dbWrites : Bool}
    {batch : Batch DEPTH V} (hok : (insertBatch H dbWrites batch self).1 = .ok ()) :
    self.tree.Fresh batch.elements := by
  by_contra hnot
  exact (insertBatch_of_not_fresh hdepth dbWrites hnot).1 hok

/-- **After a batch was inserted**: the entries are in the tree, and the invariant holds again. -/
lemma insertBatch_eq_ok (hpos : 0 < DEPTH) (hdepth : DEPTH - 1 ≤ 256) (h : self.Inv H)
    {dbWrites : Bool} {batch : Batch DEPTH V} {p : Persistent DEPTH V}
    (hrun : insertBatch H dbWrites batch self = (.ok (), p)) :
    p.Inv H ∧ p.tree.entries = Tree.insertEntries self.tree.entries batch.entries := by
  have hf : self.tree.Fresh batch.elements := fresh_of_insertBatch hdepth (congrArg Prod.fst hrun)
  obtain ⟨q, hrun', hinv, -⟩ := insertBatch_of_fresh hpos hdepth h hf
  obtain ⟨tree, hinserted, -, hentries⟩ := Tree.insertBatch_of_fresh hpos hdepth h.tree hf
  unfold insertBatch at hrun hrun'
  split_ifs at hrun hrun' with hempty
  · obtain ⟨-, rfl⟩ := Program.pure_eq_ok.1 hrun
    refine ⟨h, ?_⟩
    rw [List.isEmpty_iff.1 hempty]
    rfl
  · simp only [Program.run_bind, Program.zoom, Program.mapErr, hinserted, Program.run_ensure]
      at hrun hrun'
    cases dbWrites with
    | false => cases hrun
    | true =>
      obtain rfl : p = q := congrArg Prod.snd (hrun.symm.trans hrun')
      refine ⟨hinv, ?_⟩
      cases hrun
      exact hentries

/-- A batch of new elements that cannot be written does not reach the database. -/
lemma insertBatch_of_not_writes (hpos : 0 < DEPTH) (hdepth : DEPTH - 1 ≤ 256)
    (h : self.tree.Inv H) {batch : Batch DEPTH V} (hne : batch.entries ≠ [])
    (hf : self.tree.Fresh batch.elements) :
    (insertBatch H false batch self).1 ≠ .ok () ∧
      (insertBatch H false batch self).2.db = self.db := by
  obtain ⟨tree, hrun, -, -⟩ := Tree.insertBatch_of_fresh hpos hdepth h hf
  rw [insertBatch, if_neg (by simpa using hne)]
  simp only [Program.run_bind, Program.zoom, Program.mapErr, hrun, Program.run_ensure,
    Bool.false_eq_true, if_false]
  exact ⟨(fun h => by cases h), trivial⟩

/-- A batch of new elements is in the tree afterwards, whether the database could be written or
not. -/
lemma mem_keys_of_insertBatch (hpos : 0 < DEPTH) (hdepth : DEPTH - 1 ≤ 256)
    (h : self.tree.Inv H) (dbWrites : Bool) {batch : Batch DEPTH V}
    (hf : self.tree.Fresh batch.elements) {e : Element} (he : e ∈ batch.elements) :
    e ∈ (insertBatch H dbWrites batch self).2.tree.entries.keys := by
  have hempty : batch.entries ≠ [] := by
    intro hempty
    rw [Batch.elements, hempty] at he
    cases he
  obtain ⟨tree, hrun, -, hentries⟩ := Tree.insertBatch_of_fresh hpos hdepth h hf
  have hmem : e ∈ tree.entries.keys := by
    rw [hentries, Tree.mem_foldl_insert]
    exact .inr he
  rw [insertBatch, if_neg (by simpa using hempty)]
  simp only [Program.run_bind, Program.zoom, Program.mapErr, hrun, Program.run_ensure,
    Program.run_modify]
  cases dbWrites with
  | true => exact hmem
  | false => exact hmem

/-- **However an insertion ends**: nothing changes, or the entries are in the tree, and in the
database too unless it could not be written. -/
lemma insertBatch_cases (hpos : 0 < DEPTH) (hdepth : DEPTH - 1 ≤ 256) (h : self.tree.Inv H)
    (dbWrites : Bool) (batch : Batch DEPTH V) :
    (insertBatch H dbWrites batch self).2 = self ∨
      ∃ tree : Tree DEPTH V, tree.Inv H ∧ self.tree.Fresh batch.elements ∧
        tree.entries = Tree.insertEntries self.tree.entries batch.entries ∧
        (insertBatch H dbWrites batch self =
            (.ok (), ⟨tree, Tree.insertEntries self.db batch.entries⟩) ∨
          dbWrites = false ∧ (insertBatch H dbWrites batch self).2 = ⟨tree, self.db⟩) := by
  by_cases hfresh : self.tree.Fresh batch.elements
  · by_cases hempty : batch.entries = []
    · left
      rw [insertBatch, hempty]
      rfl
    · obtain ⟨tree, hrun, hinv, hentries⟩ := Tree.insertBatch_of_fresh hpos hdepth h hfresh
      refine .inr ⟨tree, hinv, hfresh, hentries, ?_⟩
      rw [insertBatch, if_neg (by simpa using hempty)]
      simp only [Program.run_bind, Program.zoom, Program.mapErr, hrun, Program.run_ensure,
        Program.run_modify]
      cases dbWrites with
      | true => exact .inl rfl
      | false => exact .inr ⟨rfl, rfl⟩
  · exact .inl (insertBatch_of_not_fresh hdepth dbWrites hfresh).2

/-- A database with the entries of the tree has them after an insertion that is written, too. -/
lemma db_insertBatch (hpos : 0 < DEPTH) (hdepth : DEPTH - 1 ≤ 256) (h : self.tree.Inv H)
    (hsame : self.db = self.tree.entries) (batch : Batch DEPTH V) :
    (insertBatch H true batch self).2.db = (insertBatch H true batch self).2.tree.entries := by
  rcases insertBatch_cases hpos hdepth h true batch with hrun | ⟨tree, -, -, hentries, hrun⟩
  · rw [hrun]
    exact hsame
  · rcases hrun with hrun | ⟨hfalse, -⟩
    · rw [hrun]
      exact (congrArg (Tree.insertEntries · batch.entries) hsame).trans hentries.symm
    · cases hfalse

/-- **When an insertion returns**: exactly when the entries are new and the database can be
written, if there is something to write. -/
lemma insertBatch_eq_ok_iff (hpos : 0 < DEPTH) (hdepth : DEPTH - 1 ≤ 256) (h : self.tree.Inv H)
    (dbWrites : Bool) (batch : Batch DEPTH V) :
    (insertBatch H dbWrites batch self).1 = .ok () ↔
      self.tree.Fresh batch.elements ∧ (dbWrites = true ∨ batch.elements = []) := by
  by_cases hfresh : self.tree.Fresh batch.elements
  · by_cases hempty : batch.entries = []
    · rw [insertBatch, hempty, Batch.elements, hempty]
      simp only [List.isEmpty_nil, if_true, Program.run_pure, List.map_nil, or_true, and_true,
        true_iff]
      rw [Batch.elements, hempty] at hfresh
      exact hfresh
    · obtain ⟨tree, hrun, -⟩ := Tree.insertBatch_of_fresh hpos hdepth h hfresh
      have hne : batch.elements ≠ [] := fun hnil => hempty (List.map_eq_nil_iff.1 hnil)
      rw [insertBatch, if_neg (by simpa using hempty)]
      simp only [Program.run_bind, Program.zoom, Program.mapErr, hrun, Program.run_ensure,
        Program.run_modify, hfresh, hne, true_and, or_false]
      cases dbWrites with
      | true => simp
      | false => simp
  · exact iff_of_false (insertBatch_of_not_fresh hdepth dbWrites hfresh).1 fun h => hfresh h.1

/-! ### Whatever the writes do -/

/-- What holds whether or not the writes succeed: the tree is well formed and has everything that
the database has. -/
structure Backed (H : List Fr → Fr) (p : Persistent DEPTH V) : Prop where
  tree : p.tree.Inv H
  written : ∀ e ∈ p.db.keys, e ∈ p.tree.entries.keys

/-- A tree with the invariant is backed by its database. -/
lemma Inv.backed (h : self.Inv H) : self.Backed H := ⟨h.tree, fun e => (h.synced e).1⟩

/-- A backed tree whose entries are all written. -/
lemma Backed.inv (h : self.Backed H)
    (hsynced : ∀ e ∈ self.tree.entries.keys, e ∈ self.db.keys) : self.Inv H :=
  ⟨h.tree, fun e => ⟨h.written e, hsynced e⟩⟩

/-- **However an insertion ends**, the tree has everything that the database has. -/
theorem Backed.insertBatch (hpos : 0 < DEPTH) (hdepth : DEPTH - 1 ≤ 256) (h : self.Backed H)
    (dbWrites : Bool) (batch : Batch DEPTH V) :
    (insertBatch H dbWrites batch self).2.Backed H := by
  by_cases hfresh : self.tree.Fresh batch.elements
  · by_cases hempty : batch.entries = []
    · rw [Persistent.insertBatch, hempty]
      exact h
    · obtain ⟨tree, hrun, hinv, hentries⟩ := Tree.insertBatch_of_fresh hpos hdepth h.tree hfresh
      have hmem : ∀ e, e ∈ tree.entries.keys ↔
          e ∈ self.tree.entries.keys ∨ e ∈ batch.entries.map Prod.fst := by
        intro e
        rw [hentries, Tree.mem_foldl_insert]
      rw [Persistent.insertBatch, if_neg (by simpa using hempty)]
      simp only [Program.run_bind, Program.zoom, Program.mapErr, hrun, Program.run_ensure,
        Program.run_modify]
      cases dbWrites with
      | true =>
        refine ⟨hinv, fun e he => ?_⟩
        rw [if_pos rfl] at he ⊢
        rcases (Tree.mem_foldl_insert _ _ e).1 he with hold | hnew
        · exact (hmem e).2 (.inl (h.written e hold))
        · exact (hmem e).2 (.inr hnew)
      | false => exact ⟨hinv, fun e he => (hmem e).2 (.inl (h.written e he))⟩
  · rw [(insertBatch_of_not_fresh hdepth dbWrites hfresh).2]
    exact h

end Persistent

end TempoRollup.Smirk
