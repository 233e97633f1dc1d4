import TempoRollup.Lib.Indexed

set_option relaxedAutoImplicit false
set_option autoImplicit false

/-!
# A rocksdb instance

The database behind the notes tree and behind the block store: an ordered map of byte strings, with
write batches, and iteration between two bounds.

## Main definitions

* `Database`, `WriteOp`, `Database.write` — rocksdb, with write batches.
* `Database.iterate` — the records between a lower and an upper bound, from either end.

## Main results

* `Database.getElem?_write_of_forall_ne` — a key that no operation names keeps its value.
* `Database.forall_write` — what holds of every record and of every record that is put.
* `Database.iterate_eq_map` — what is iterated, in terms of what the records stand for.
-/

namespace TempoRollup.Smirk

/-- The contents of a rocksdb instance. -/
abbrev Database : Type := Std.TreeMap (List UInt8) (List UInt8)

/-- An operation of a `WriteBatch`. -/
inductive WriteOp
  | put (key value : List UInt8)
  | delete (key : List UInt8)

/-- The key of an operation. -/
def WriteOp.key : WriteOp → List UInt8
  | put key _ => key
  | delete key => key

namespace Database

/-- One operation of a write batch. -/
def apply (db : Database) : WriteOp → Database
  | .put key value => db.insert key value
  | .delete key => db.erase key

/-- `DB::write`: the operations take effect in their order. -/
def write (ops : List WriteOp) (db : Database) : Database := ops.foldl apply db

/-- A key that is put has the new value. -/
lemma getElem?_put (db : Database) (key value k : List UInt8) :
    (db.apply (.put key value))[k]? = if key = k then some value else db[k]? := by
  rw [apply, Std.TreeMap.getElem?_insert]
  simp only [Std.LawfulEqCmp.compare_eq_iff_eq]

/-- A key that is deleted has none. -/
lemma getElem?_delete (db : Database) (key k : List UInt8) :
    (db.apply (.delete key))[k]? = if key = k then none else db[k]? := by
  rw [apply, Std.TreeMap.getElem?_erase]
  simp only [Std.LawfulEqCmp.compare_eq_iff_eq]

/-- A key that no operation names keeps its value. -/
theorem getElem?_write_of_forall_ne {ops : List WriteOp} {k : List UInt8}
    (h : ∀ op ∈ ops, op.key ≠ k) (db : Database) : (db.write ops)[k]? = db[k]? := by
  induction ops generalizing db with
  | nil => rfl
  | cons op ops ih =>
    rw [List.forall_mem_cons] at h
    refine (ih h.2 _).trans ?_
    cases op with
    | put key value =>
      rw [getElem?_put]
      exact if_neg h.1
    | delete key =>
      rw [getElem?_delete]
      exact if_neg h.1

/-- What holds of every record and of every record that is put holds of every record
afterwards. -/
theorem forall_write {P : List UInt8 → List UInt8 → Prop} {db : Database}
    (hdb : ∀ k v, db[k]? = some v → P k v) {ops : List WriteOp}
    (hops : ∀ k v, WriteOp.put k v ∈ ops → P k v) :
    ∀ k v, (db.write ops)[k]? = some v → P k v := by
  induction ops generalizing db with
  | nil => exact hdb
  | cons op ops ih =>
    refine ih ?_ fun k v hmem => hops k v (List.mem_cons_of_mem _ hmem)
    intro k v hk
    cases op with
    | put key value =>
      rw [getElem?_put] at hk
      split at hk
      · next heq =>
        rw [← heq, ← Option.some.inj hk]
        exact hops key value List.mem_cons_self
      · exact hdb k v hk
    | delete key =>
      rw [getElem?_delete] at hk
      split at hk
      · cases hk
      · exact hdb k v hk

/-! ## Iteration -/

/-- `DB::iterator_opt`, between a lower bound and an upper bound that is left out, from the start or
from the end. -/
def iterate (lower upper : List UInt8) (startToEnd : Bool) (db : Database) :
    List (List UInt8 × List UInt8) :=
  let rows := db.toList.filter fun row =>
    !(compare row.1 lower).isLT && (compare row.1 upper).isLT
  if startToEnd then rows else rows.reverse

/-- The entries of a database are its keys with their values. -/
lemma mem_toList {db : Database} {key value : List UInt8} :
    (key, value) ∈ db.toList ↔ db[key]? = some value :=
  Std.TreeMap.mem_toList_iff_getElem?_eq_some

/-- The records are in the order of their keys. -/
lemma pairwise_toList (db : Database) :
    db.toList.Pairwise fun a b => compare a.1 b.1 = .lt :=
  Std.TreeMap.ordered_keys_toList

/-- Rows that stand for values are selected by what is asked of the values. By induction on the
rows. -/
lemma filter_eq_map {α β : Type} {rows : List α} {read : α → Option β} {write : β → α}
    {p : α → Bool} {q : β → Bool}
    (hsome : ∀ a ∈ rows, ∀ b, read a = some b → p a = q b ∧ a = write b)
    (hnone : ∀ a ∈ rows, read a = none → p a = false) :
    rows.filter p = ((rows.filterMap read).filter q).map write := by
  induction rows with
  | nil => rfl
  | cons a rows ih =>
    obtain ⟨ha, hrows⟩ := List.forall_mem_cons.1 hsome
    obtain ⟨ha', hrows'⟩ := List.forall_mem_cons.1 hnone
    rw [List.filter_cons, List.filterMap_cons, ih hrows hrows']
    rcases hread : read a with _ | b
    · rw [ha' hread, if_neg Bool.false_ne_true]
    · obtain ⟨hp, hwrite⟩ := ha b hread
      rw [hp, List.filter_cons]
      split_ifs
      · rw [List.map_cons, ← hwrite]
      · rfl

/-- **What is iterated**, when every record in the range stands for a value, and the range asks
something of these values. -/
theorem iterate_eq_map {β : Type} {db : Database} {lower upper : List UInt8}
    {read : List UInt8 × List UInt8 → Option β} {write : β → List UInt8 × List UInt8}
    {q : β → Bool}
    (hsome : ∀ k v b, db[k]? = some v → read (k, v) = some b →
      (!(compare k lower).isLT && (compare k upper).isLT) = q b ∧ (k, v) = write b)
    (hnone : ∀ k v, db[k]? = some v → read (k, v) = none →
      (!(compare k lower).isLT && (compare k upper).isLT) = false) (startToEnd : Bool) :
    db.iterate lower upper startToEnd =
      (if startToEnd then (db.toList.filterMap read).filter q
        else ((db.toList.filterMap read).filter q).reverse).map write := by
  have hrows := @filter_eq_map _ _ db.toList read write
    (fun row => !(compare row.1 lower).isLT && (compare row.1 upper).isLT) q
    (fun row hrow b => hsome row.1 row.2 b (mem_toList.1 hrow))
    (fun row hrow => hnone row.1 row.2 (mem_toList.1 hrow))
  rw [iterate, hrows]
  cases startToEnd
  · exact List.map_reverse.symm
  · rfl

end Database

end TempoRollup.Smirk
