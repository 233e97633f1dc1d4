import TempoRollup.Lib.Runs
import TempoRollup.Smirk.Marked

set_option relaxedAutoImplicit false
set_option autoImplicit false

/-!
# The known hashes of the database

`smirk/src/storage/batch.rs` writes the hashes that an insertion changed, `known_hashes.rs` lists
those of the tree in memory. The callbacks of `recalculate_hashes` are meant to keep the two
together: they drop the pair that a node had and add the pair that it has now.

## Main definitions

* `Records.Exact` — the records of known hashes are those of the tree in memory.
* `Records.Clears` — a call that puts no element beside a stored one, and reaches the database.
* `Records.Unambiguous` — what the hash has to tell apart.

## Main results

* `Records.getElem?_write_changeOps` — the record of a pair after the changes are written.
* `Records.exact_insertStep_iff` — one call.
* `Records.exact_iff` — the records are exact in every state of a run of insertions exactly if every
  insertion of the run clears the pairs it supersedes.

## Design

No hash of pairs of 256-bit numbers is injective. The hash is assumed to tell apart what the trees
of the run hash: the pairs do not collide, and no stored element is a digest of one of them.
-/

open Exec

namespace TempoRollup.Smirk

open SparseMerkle (Occupied Apart)

/-! ## What the database learns -/

/-- The value of a key after an operation on it. -/
def WriteOp.value : WriteOp → Option (List UInt8)
  | put _ value => some value
  | delete _ => none

/-- The operations on a key are all the same: the key has its value afterwards. By induction on the
operations. -/
lemma Database.getElem?_write_of_mem {ops : List WriteOp} {op : WriteOp} (hop : op ∈ ops)
    (honly : ∀ op' ∈ ops, op'.key = op.key → op' = op) (db : Database) :
    (db.write ops)[op.key]? = op.value := by
  induction ops generalizing db with
  | nil => exact absurd hop List.not_mem_nil
  | cons first ops ih =>
    rw [List.forall_mem_cons] at honly
    by_cases hrest : op ∈ ops
    · exact ih hrest honly.2 _
    · obtain rfl : op = first := (List.mem_cons.1 hop).resolve_right hrest
      have hne : ∀ op' ∈ ops, op'.key ≠ op.key := by
        intro op' hop' hkey
        exact hrest (honly.2 op' hop' hkey ▸ hop')
      refine (Database.getElem?_write_of_forall_ne hne _).trans ?_
      cases op with
      | put key value => rw [Database.getElem?_put, WriteOp.key, if_pos rfl, WriteOp.value]
      | delete key => rw [Database.getElem?_delete, WriteOp.key, if_pos rfl, WriteOp.value]

namespace Records

variable {DEPTH : ℕ} {V : Type} {codec : Codec V} {H : List Fr → Fr}

/-- The operation for a changed hash. -/
def changeOp (codec : Codec V) (change : HashPair × Option Element) : WriteOp :=
  match change.2 with
  | none => .delete (hashKey change.1.1 change.1.2)
  | some result => .put (hashKey change.1.1 change.1.2) (hashValue codec result)

/-- The writes of a list of changes are those of its entries. -/
lemma mem_changeOps_iff {changes : List (HashPair × Option Element)} {op : WriteOp} :
    op ∈ changeOps codec changes ↔ ∃ change ∈ changes, op = changeOp codec change := by
  unfold changeOps
  rw [List.mem_append, List.mem_filterMap, List.mem_filterMap]
  constructor
  · rintro (⟨⟨q, _ | r⟩, hmem, hop⟩ | ⟨⟨q, _ | r⟩, hmem, hop⟩)
    · exact ⟨_, hmem, (Option.some.inj hop).symm⟩
    · cases hop
    · cases hop
    · exact ⟨_, hmem, (Option.some.inj hop).symm⟩
  · rintro ⟨⟨q, _ | r⟩, hmem, rfl⟩
    · exact .inl ⟨_, hmem, rfl⟩
    · exact .inr ⟨_, hmem, rfl⟩

/-- A change writes the record of its pair. -/
lemma key_changeOp (change : HashPair × Option Element) :
    (changeOp codec change).key = hashKey change.1.1 change.1.2 := by
  obtain ⟨q, _ | r⟩ := change
  · rfl
  · rfl

/-- **The record of a pair after the changes are written.**

**Proof sketch.** Each pair is in the list of changes once, and different pairs have different keys.
So the record of a pair is what its only change wrote, or what was there. -/
theorem getElem?_write_changeOps {shared : Shared} (hnodup : (shared.changes.map Prod.fst).Nodup)
    (db : Database) (q : HashPair) :
    (db.write (changeOps codec shared.changes))[hashKey q.1 q.2]? =
      match shared.lookup q with
      | none => db[hashKey q.1 q.2]?
      | some result => result.map (hashValue codec) := by
  have hkey : ∀ {change change' : HashPair × Option Element}, change ∈ shared.changes →
      change' ∈ shared.changes → change'.1 = change.1 → change' = change := by
    rintro ⟨q, r⟩ ⟨q', r'⟩ hmem hmem' heq
    obtain rfl : q' = q := heq
    rw [Shared.mem_changes_iff hnodup] at hmem hmem'
    rw [Option.some.inj (hmem.symm.trans hmem')]
  cases hlookup : shared.lookup q with
  | none =>
    refine Database.getElem?_write_of_forall_ne (fun op hop heq => ?_) db
    obtain ⟨⟨q', r⟩, hmem, rfl⟩ := mem_changeOps_iff.1 hop
    rw [key_changeOp, hashKey_inj] at heq
    obtain rfl : q' = q := Prod.ext heq.1 heq.2
    rw [(Shared.mem_changes_iff hnodup q' r).1 hmem] at hlookup
    cases hlookup
  | some result =>
    have hmem := (Shared.mem_changes_iff hnodup q result).2 hlookup
    have hop : changeOp codec (q, result) ∈ changeOps codec shared.changes :=
      mem_changeOps_iff.2 ⟨_, hmem, rfl⟩
    have hwrite := Database.getElem?_write_of_mem hop (fun op' hop' heq => by
        obtain ⟨change, hchange, rfl⟩ := mem_changeOps_iff.1 hop'
        rw [key_changeOp, key_changeOp, hashKey_inj] at heq
        rw [hkey hmem hchange (Prod.ext heq.1 heq.2)]) db
    rw [key_changeOp] at hwrite
    rw [hwrite]
    cases result with
    | none => rfl
    | some r => rfl

/-- The records of elements do not concern the hashes. -/
lemma getElem?_write_entryOps (entries : List (Element × V)) (db : Database)
    (left right : Element) :
    (db.write (entryOps codec entries))[hashKey left right]? = db[hashKey left right]? := by
  refine Database.getElem?_write_of_forall_ne (fun op hop heq => ?_) db
  obtain ⟨entry, -, hop⟩ := List.mem_flatMap.1 hop
  simp only [List.mem_cons, List.not_mem_nil, or_false] at hop
  rcases hop with rfl | rfl
  · exact elementKey_ne_hashKey _ _ _ heq
  · have hkey := keyCodec.serialize_injective heq
    cases hkey

/-! ## Exact records -/

/-- **The records of known hashes are those of the tree in memory.** -/
def Exact (codec : Codec V) (H : List Fr → Fr) (p : Persistent DEPTH V) : Prop :=
  ∃ hashes, (p.tree.tree.knownHashes H : Outcome Error (List KnownHash)) = .ok hashes ∧
    ∀ known, known ∈ p.db.toList.filterMap (knownHashOf codec) ↔ known ∈ hashes

/-- The reference tree of the tree in memory. -/
def reference (p : Persistent DEPTH V) : ℕ → Element := occupant (DEPTH - 1) p.tree.entries.keys

/-- A call of `insert_batch`, with the order of its callbacks and whether its write succeeds. -/
structure Insertion (DEPTH : ℕ) (V : Type) where
  schedule : Schedule
  dbWrites : Bool
  batch : Batch DEPTH V

/-- The persistent tree after a call of `insert_batch`. -/
def insertStep (codec : Codec V) (H : List Fr → Fr) (p : Persistent DEPTH V)
    (call : Insertion DEPTH V) : Persistent DEPTH V :=
  (insertBatch codec H call.schedule call.dbWrites call.batch p).2

/-- A call that inserts something puts no element beside a stored one, which shares all but the last
bit of the slot, and its write succeeds. In a tree of depth 1 there are no hashes. -/
def Clears (p : Persistent DEPTH V) (call : Insertion DEPTH V) : Prop :=
  1 < DEPTH → call.batch.entries ≠ [] → p.tree.Fresh call.batch.elements →
    call.dbWrites = true ∧ ∀ e ∈ call.batch.elements, ∀ key ∈ p.tree.entries.keys,
      e.slot (DEPTH - 1) / 2 ≠ key.slot (DEPTH - 1) / 2

/-- What the hash has to tell apart in some trees of height `n`: the pairs hashed in them, and the
stored elements from the digests. -/
structure Unambiguous (H : List Fr → Fr) (n : ℕ) (trees : Set (ℕ → Element)) : Prop where
  inj : Set.InjOn (Function.uncurry (merge H))
    {q | ∃ T ∈ trees, q ∈ SparseMerkle.nodePairs (merge H) T n}
  leaf : ∀ T ∈ trees, ∀ s, T s ≠ Element.NULL_HASH → ∀ T' ∈ trees,
    ∀ q ∈ SparseMerkle.nodePairs (merge H) T' n, Function.uncurry (merge H) q ≠ T s

variable {p : Persistent DEPTH V}

/-- A stored element stands in its own slot. -/
lemma slot_reference {s : ℕ} (h : reference p s ≠ Element.NULL_HASH) :
    (reference p s).slot (DEPTH - 1) = s := by
  rcases occupant_cases (DEPTH - 1) p.tree.entries.keys s with ⟨-, hslot⟩ | ⟨hnull, -⟩
  · exact hslot
  · exact absurd hnull h

/-- Trees without ambiguous pairs are apart from each other. -/
lemma Unambiguous.apart {ps : List (Persistent DEPTH V)}
    (h : Unambiguous H (DEPTH - 1) {T | ∃ p ∈ ps, T = reference p}) :
    Apart (merge H) Element.NULL_HASH (DEPTH - 1) {T | ∃ p ∈ ps, T = reference p} := by
  refine ⟨h.inj, h.leaf, ?_⟩
  rintro T ⟨p, -, rfl⟩ T' ⟨p', -, rfl⟩ s s' hne heq
  have hslot := slot_reference hne
  rw [heq] at hne hslot
  exact hslot.symm.trans (slot_reference hne)

/-- The record of a known hash. -/
lemma mem_knownHashOf_iff (h : Inv codec H p) (known : KnownHash) :
    known ∈ p.db.toList.filterMap (knownHashOf codec) ↔
      p.db[hashKey known.left known.right]? = some (hashValue codec known.result) := by
  rw [List.mem_filterMap]
  constructor
  · rintro ⟨⟨k, v⟩, hmem, hof⟩
    have hget : p.db[k]? = some v := Std.TreeMap.mem_toList_iff_getElem?_eq_some.1 hmem
    rcases h.records k v hget with ⟨e, x, rfl, rfl⟩ | ⟨left, right, rfl, rfl⟩
    · simp [knownHashOf, elementKey, Codec.fromBytes_serialize] at hof
    · simp only [knownHashOf, hashKey, hashValue, Codec.fromBytes_serialize,
        Option.some.injEq] at hof
      rw [← hof]
      exact hget
  · intro hget
    refine ⟨(_, _), Std.TreeMap.mem_toList_iff_getElem?_eq_some.2 hget, ?_⟩
    simp only [knownHashOf, hashKey, hashValue, Codec.fromBytes_serialize]

/-- **Exactness by pairs**: a pair has a record exactly if it is live.

**Proof sketch.** A record has the hash of its pair, by the invariant, so that there is one exactly
if the known hashes of the tree have one (`mem_knownHashes`). -/
lemma exact_iff_live (h : Inv codec H p) (hfull : p.tree.tree.Full) :
    Exact codec H p ↔ ∀ q : HashPair,
      (p.db[hashKey q.1 q.2]? ≠ none ↔ Live H (reference p) (DEPTH - 1) q) := by
  obtain ⟨hashes, hok, hmem⟩ := mem_knownHashes (ε := Error) h.tree.shape h.tree.clean hfull
  -- a record has the hash of its pair
  have hvalue : ∀ q : HashPair, p.db[hashKey q.1 q.2]? ≠ none ↔
      p.db[hashKey q.1 q.2]? = some (hashValue codec (merge H q.1 q.2)) := by
    intro q
    constructor
    · intro hne
      obtain ⟨v, hv⟩ := Option.ne_none_iff_exists'.1 hne
      rcases h.records _ v hv with ⟨e, x, hkey, -⟩ | ⟨left, right, hkey, rfl⟩
      · exact absurd hkey.symm (elementKey_ne_hashKey e q.1 q.2)
      · obtain ⟨hl, hr⟩ := hashKey_inj.1 hkey
        rw [hv, hl, hr]
    · intro hv
      rw [hv]
      exact Option.some_ne_none _
  have hlive : ∀ q : HashPair, Live H (reference p) (DEPTH - 1) q ↔
      (⟨q.1, q.2, merge H q.1 q.2⟩ : KnownHash) ∈ hashes := by
    intro q
    rw [hmem]
    constructor
    · rintro ⟨j, I, hj, hI, hocc, rfl⟩
      exact ⟨j, I, hj, hI, hocc, rfl⟩
    · rintro ⟨j, I, hj, hI, hocc, heq⟩
      refine ⟨j, I, hj, hI, hocc, ?_⟩
      rw [KnownHash.mk.injEq] at heq
      exact Prod.ext heq.1 heq.2.1
  have hcorrect : ∀ known ∈ hashes, known.result = merge H known.left known.right := by
    intro known hknown
    obtain ⟨j, I, -, -, -, rfl⟩ := (hmem known).1 hknown
    rfl
  constructor
  · rintro ⟨hashes', hok', hiff⟩ q
    obtain rfl : hashes = hashes' := Outcome.ok.inj (hok.symm.trans hok')
    rw [hvalue, hlive, ← hiff, mem_knownHashOf_iff h]
  · intro hiff
    refine ⟨hashes, hok, fun known => ?_⟩
    rw [mem_knownHashOf_iff h]
    constructor
    · intro hget
      have hpair := (hvalue (known.left, known.right)).1 (by rw [hget]; exact Option.some_ne_none _)
      have hresult : known.result = merge H known.left known.right := by
        have hbytes := (valueCodec codec).serialize_injective
          (Option.some.inj (hget.symm.trans hpair))
        simpa using hbytes
      have := (hlive (known.left, known.right)).1
        ((hiff _).1 (by rw [hget]; exact Option.some_ne_none _))
      obtain ⟨left, right, result⟩ := known
      rwa [← show result = merge H left right from hresult] at this
    · intro hknown
      have hresult := hcorrect known hknown
      obtain ⟨left, right, result⟩ := known
      simp only at hresult
      subst hresult
      exact (hvalue (left, right)).1 ((hiff _).2 ((hlive (left, right)).2 hknown))

/-! ## Insertions -/

/-- What the first pass makes of the nodes. -/
lemma tree_of_insertWithoutHashing {tree tree' : Tree DEPTH V} {entries : List (Element × V)}
    (hne : entries ≠ [])
    (h : Tree.insertWithoutHashing H entries tree = (.ok (), tree')) :
    tree'.tree = (tree.tree.insertWithoutHashing H DEPTH
      ((sortByBits DEPTH (entries.map Prod.fst)).map Prod.fst)
      ((sortByBits DEPTH (entries.map Prod.fst)).map Prod.snd) 0).1 := by
  unfold Tree.insertWithoutHashing at h
  rw [if_neg (by simpa using hne)] at h
  split_ifs at h
  · cases h
  · split at h
    · cases h
    · simp only at h
      split at h
      · rw [← (Prod.mk.inj h).2]
      · cases h
      · cases h
      · cases h

/-- **A call that inserts something**: the marked nodes between the two passes, what the callbacks
left, and the state afterwards.

**Proof sketch.** The first pass marks the nodes above the new leaves, and the second computes their
hashes and collects the changes (`insertBatchCached_collected`), which are written together with the
entries. -/
lemma insertStep_of_fresh (hpos : 0 < DEPTH) (hdepth : DEPTH - 1 ≤ 256) (h : Inv codec H p)
    (hfull : p.tree.tree.Full) {call : Insertion DEPTH V} (hne : call.batch.entries ≠ [])
    (hfresh : p.tree.Fresh call.batch.elements) :
    ∃ (node : Node) (shared : Shared),
      Marked H (reference p) (reference (insertStep codec H p call)) node (DEPTH - 1) 0 ∧
      (insertStep codec H p call).tree.tree = node.recalculateHashes H ∧
      (node.Separate H → Job.Collected H shared (node.removes H) (node.sets H)) ∧
      (insertStep codec H p call).tree.entries =
        Tree.insertEntries p.tree.entries call.batch.entries ∧
      (insertStep codec H p call).db = if call.dbWrites then
        p.db.write (entryOps codec call.batch.entries ++ changeOps codec shared.changes)
        else p.db := by
  obtain ⟨schedule, dbWrites, batch⟩ := call
  simp only at hne hfresh
  have hcheck := (Tree.fresh_elements hdepth hfresh.ne_null).1 hfresh
  obtain ⟨node, hinsert, -, -⟩ := Tree.insertWithoutHashing_spec hpos hdepth h.tree hfresh
  have hbatch : Tree.insertBatch H batch p.tree =
      (.ok (), ⟨node.recalculateHashes H, Tree.insertEntries p.tree.entries batch.entries⟩) := by
    simp only [Tree.insertBatch, Program.run_bind, Program.run_get, Program.run_lift, hcheck,
      Program.unwrap, hinsert, Outcome.unwrap, Program.run_modify]
  have hstart : Shared.Correct H ⟨p.cache, []⟩ :=
    ⟨h.cache, fun left right result hmem => absurd hmem List.not_mem_nil⟩
  obtain ⟨shared, hrun, -, -⟩ := Tree.insertBatchCached_spec schedule batch p.tree hstart
  have hcollected := fun hsep =>
    Tree.insertBatchCached_collected schedule h.cache hcheck hinsert (hsep : node.Separate H)
  rw [hrun] at hcollected
  rw [hbatch] at hrun
  have hstep : insertStep codec H p ⟨schedule, dbWrites, batch⟩ =
      ⟨⟨node.recalculateHashes H, Tree.insertEntries p.tree.entries batch.entries⟩, shared.cache,
        if dbWrites then p.db.write (entryOps codec batch.entries ++ changeOps codec shared.changes)
        else p.db⟩ := by
    have hnil : ¬ batch.entries.isEmpty = true := by simpa using hne
    rw [insertStep, insertBatch, if_neg hnil, hrun]
    cases dbWrites with
    | true => rfl
    | false => rfl
  rw [hstep]
  refine ⟨node, shared, ?_, rfl, hcollected, rfl, rfl⟩
  -- the nodes of the first pass are those of the sorted elements
  have hnode := tree_of_insertWithoutHashing hne hinsert
  simp only at hnode
  have hsorted : (sortByBits DEPTH batch.elements).map Prod.fst ≠ [] := by
    intro hnil
    have hlen := (sortByBits_perm DEPTH batch.elements).length_eq
    rw [hnil, Batch.elements, List.length_nil, List.length_map] at hlen
    exact hne (List.length_eq_zero_iff.1 hlen.symm)
  obtain ⟨-, hmarked⟩ := Node.insertWithoutHashing_marked (p := 0) hdepth (by omega) h.tree.shape
    h.tree.clean hfull _ hsorted
    (hfresh.insertable hdepth h.tree (Tree.mem_foldl_insert batch.entries _))
  rw [← sortByBits_snd, show DEPTH - 1 + 1 = DEPTH by omega] at hmarked
  rw [hnode]
  exact hmarked

/-- A call that inserts nothing leaves everything as it is. -/
lemma insertStep_of_not_fresh (hpos : 0 < DEPTH) (hdepth : DEPTH - 1 ≤ 256) (h : Inv codec H p)
    {call : Insertion DEPTH V}
    (hnot : ¬ (call.batch.entries ≠ [] ∧ p.tree.Fresh call.batch.elements)) :
    insertStep codec H p call = p := by
  rcases insertBatch_cases hpos hdepth h call.schedule call.dbWrites call.batch with
    ⟨-, hrun⟩ | ⟨-, -, hrun⟩ | ⟨hne, hfresh, -⟩
  · exact congrArg Prod.snd hrun
  · exact hrun
  · exact absurd ⟨hne, hfresh⟩ hnot

section Step

variable {call : Insertion DEPTH V}

/-- An insertion keeps the invariant. -/
lemma Inv.insertStep (hpos : 0 < DEPTH) (hdepth : DEPTH - 1 ≤ 256) (h : Inv codec H p)
    (call : Insertion DEPTH V) : Inv codec H (insertStep codec H p call) :=
  h.insertBatch hpos hdepth call.schedule call.dbWrites call.batch

/-- The keys after a call that inserts something. -/
lemma mem_keys_insertStep (hentries : (insertStep codec H p call).tree.entries =
      Tree.insertEntries p.tree.entries call.batch.entries) (e : Element) :
    e ∈ (insertStep codec H p call).tree.entries.keys ↔
      e ∈ p.tree.entries.keys ∨ e ∈ call.batch.elements := by
  rw [hentries, Tree.mem_foldl_insert]
  rfl

/-- What is stored stays. -/
lemma grows_insertStep (hpos : 0 < DEPTH) (hdepth : DEPTH - 1 ≤ 256) (h : Inv codec H p)
    (hentries : (insertStep codec H p call).tree.entries =
      Tree.insertEntries p.tree.entries call.batch.entries) :
    Grows (reference p) (reference (insertStep codec H p call)) := by
  intro s hne
  have hinv := h.insertStep hpos hdepth call
  rcases occupant_cases (DEPTH - 1) p.tree.entries.keys s with ⟨hkey, hslot⟩ | ⟨hnull, -⟩
  · have hmem := (mem_keys_insertStep hentries _).2 (.inl hkey)
    have hocc := occupant_of_mem hinv.tree.distinct hmem
    rwa [hslot] at hocc
  · exact absurd hnull hne

/-- **When a leaf is put beside another**, in terms of the elements. -/
lemma beside_iff (hpos : 0 < DEPTH) (hdepth : DEPTH - 1 ≤ 256) (h : Inv codec H p)
    (hfresh : p.tree.Fresh call.batch.elements)
    (hentries : (insertStep codec H p call).tree.entries =
      Tree.insertEntries p.tree.entries call.batch.entries) (hdeep : 1 < DEPTH) :
    Beside (reference p) (reference (insertStep codec H p call)) (DEPTH - 1) ↔
      ∃ e ∈ call.batch.elements, ∃ key ∈ p.tree.entries.keys,
        e.slot (DEPTH - 1) / 2 = key.slot (DEPTH - 1) / 2 := by
  have hinv := h.insertStep hpos hdepth call
  have hkeys := mem_keys_insertStep hentries
  constructor
  · rintro ⟨I, -, -, ⟨s, hs, hne⟩, s', hs', hocc⟩
    obtain ⟨key, hkey, hslot⟩ := (h.tree.occupant_ne_null_iff s').1 hocc
    rw [pow_one] at hs hs'
    -- the slot that changed has a new element
    rcases occupant_cases (DEPTH - 1) (insertStep codec H p call).tree.entries.keys s with
      ⟨hmem, hslot'⟩ | ⟨hnull, hfree⟩
    · rcases (hkeys _).1 hmem with hold | hnew
      · refine absurd ?_ hne
        have hocc := occupant_of_mem h.tree.distinct hold
        rw [hslot'] at hocc
        exact hocc.symm
      · exact ⟨_, hnew, key, hkey, by rw [hslot', hslot, hs, hs']⟩
    · refine absurd ?_ hne
      rw [reference, hnull, reference, occupant_of_forall_ne]
      exact fun e he => hfree e ((hkeys e).2 (.inl he))
  · rintro ⟨e, he, key, hkey, hslots⟩
    have hfree : reference p (e.slot (DEPTH - 1)) = Element.NULL_HASH :=
      occupant_of_forall_ne fun a ha => (hfresh.free a ha e he).symm
    have hfilled : reference (insertStep codec H p call) (e.slot (DEPTH - 1)) = e :=
      occupant_of_mem hinv.tree.distinct ((hkeys e).2 (.inr he))
    refine ⟨e.slot (DEPTH - 1) / 2, by omega, ?_, ⟨_, by rw [pow_one], ?_⟩,
      key.slot (DEPTH - 1), by rw [pow_one, hslots], ?_⟩
    · rw [Nat.div_div_eq_div_mul, ← pow_succ', show DEPTH - 1 - 1 + 1 = DEPTH - 1 by omega]
      exact Nat.div_eq_of_lt (e.slot_lt _)
    · rw [hfilled, hfree]
      exact hfresh.ne_null e he
    · exact (h.tree.occupant_ne_null_iff _).2 ⟨key, hkey, rfl⟩

variable (call) in
/-- **One call**: from exact records, the records are exact afterwards exactly if the call clears
the pairs it supersedes.

**Proof sketch.** The changes that are collected are the pairs removed and set by the hashing of the
marked nodes (`insertStep_of_fresh`), and they are all written or none. If no new leaf is beside an
old one, the live pairs afterwards are those (`live_step`); if one is, the pair of the old leaf
stays (`stale_of_beside`). A call that inserts nothing changes nothing. -/
theorem exact_insertStep_iff (hpos : 0 < DEPTH) (hdepth : DEPTH - 1 ≤ 256) (h : Inv codec H p)
    (hfull : p.tree.tree.Full) (hexact : Exact codec H p) {trees : Set (ℕ → Element)}
    (ha : Apart (merge H) Element.NULL_HASH (DEPTH - 1) trees) (hT : reference p ∈ trees)
    (hT' : reference (insertStep codec H p call) ∈ trees) :
    (insertStep codec H p call).tree.tree.Full ∧
      (Exact codec H (insertStep codec H p call) ↔ Clears p call) := by
  by_cases hinserts : call.batch.entries ≠ [] ∧ p.tree.Fresh call.batch.elements
  · obtain ⟨hne, hfresh⟩ := hinserts
    obtain ⟨node, shared, hmarked, htree, hcollected, hentries, hdb⟩ :=
      insertStep_of_fresh hpos hdepth h hfull hne hfresh
    have hinv := h.insertStep hpos hdepth call
    have hg := grows_insertStep hpos hdepth h hentries
    have hfull' : (insertStep codec H p call).tree.tree.Full := htree ▸ hmarked.full hg
    refine ⟨hfull', ?_⟩
    have hsep := hmarked.separate ha hT hT' hg le_rfl (by simp)
    obtain ⟨hnodup, hlookup⟩ := hcollected hsep
    rw [exact_iff_live h hfull] at hexact
    rw [exact_iff_live hinv hfull', hdb]
    have hclears : Clears p call ↔ (1 < DEPTH → call.dbWrites = true ∧
        ¬ Beside (reference p) (reference (insertStep codec H p call)) (DEPTH - 1)) := by
      refine ⟨fun hc hdeep => ?_, fun hc hdeep _ _ => ?_⟩
      · obtain ⟨hwrites, hfree⟩ := hc hdeep hne hfresh
        refine ⟨hwrites, fun hbeside => ?_⟩
        obtain ⟨e, he, key, hkey, hslots⟩ :=
          (beside_iff hpos hdepth h hfresh hentries hdeep).1 hbeside
        exact hfree e he key hkey hslots
      · obtain ⟨hwrites, hbeside⟩ := hc hdeep
        refine ⟨hwrites, fun e he key hkey hslots => hbeside ?_⟩
        exact (beside_iff hpos hdepth h hfresh hentries hdeep).2 ⟨e, he, key, hkey, hslots⟩
    rw [hclears]
    cases hwrites : call.dbWrites with
    | false =>
      simp only [Bool.false_eq_true, if_false, false_and]
      constructor
      · intro hall hdeep
        -- the root has a new pair, which the database has not got
        obtain ⟨e, he⟩ : ∃ e, e ∈ call.batch.elements := by
          obtain ⟨entry, hentry⟩ := List.exists_mem_of_ne_nil _ hne
          exact ⟨entry.1, List.mem_map.2 ⟨entry, hentry, rfl⟩⟩
        have hchanged : Changed (reference p) (reference (insertStep codec H p call)) (DEPTH - 1)
            0 := by
          refine ⟨e.slot (DEPTH - 1), Nat.div_eq_of_lt (e.slot_lt _), ?_⟩
          rw [reference, reference, occupant_of_mem hinv.tree.distinct
            ((mem_keys_insertStep hentries e).2 (.inr he)),
            occupant_of_forall_ne fun a ha => (hfresh.free a ha e he).symm]
          exact hfresh.ne_null e he
        obtain ⟨q, hlive, hnot⟩ := live_ne_of_changed ha hT hT' hg (by omega) hchanged
        exact hnot ((hexact q).1 ((hall q).2 hlive))
      · intro hdepth1 q
        -- in a tree of depth 1 there are no pairs
        have hone : DEPTH - 1 = 0 := by
          by_contra hne
          exact hdepth1 (by omega)
        have hnone : ∀ T, ¬ Live H T (DEPTH - 1) q := by
          rintro T ⟨j, I, hj, -⟩
          omega
        rw [hexact q]
        exact ⟨fun hlive => absurd hlive (hnone _), fun hlive => absurd hlive (hnone _)⟩
    | true =>
      have hrecord : ∀ q : HashPair, (p.db.write (entryOps codec call.batch.entries ++
          changeOps codec shared.changes))[hashKey q.1 q.2]? ≠ none ↔
          q ∈ node.sets H ∨ (q ∉ node.removes H ∧ Live H (reference p) (DEPTH - 1) q) := by
        intro q
        rw [Database.write, List.foldl_append, ← Database.write, ← Database.write,
          getElem?_write_changeOps hnodup, hlookup q]
        by_cases hset : q ∈ node.sets H
        · simp [hset]
        · by_cases hremoved : q ∈ node.removes H
          · simp [hset, hremoved]
          · simp only [hset, if_false, hremoved, not_false_eq_true, true_and, false_or]
            rw [getElem?_write_entryOps]
            exact hexact q
      simp only [if_true, hrecord, true_and]
      constructor
      · intro hall _ hbeside
        obtain ⟨q, hset, hremoved, hlive, hdead⟩ := stale_of_beside ha hT hT' hg hmarked hbeside
        exact hdead ((hall q).1 (.inr ⟨hremoved, hlive⟩))
      · intro hclean q
        refine live_step ha hT hT' hg hmarked (fun hbeside => ?_) q
        obtain ⟨I, hn, -⟩ := id hbeside
        exact hclean (by omega) hbeside
  · rw [insertStep_of_not_fresh hpos hdepth h hinserts]
    exact ⟨hfull, fun _ _ hne hfresh => absurd ⟨hne, hfresh⟩ hinserts, fun _ => hexact⟩

end Step

/-! ## Whole runs -/

/-- A new tree has exact records. -/
lemma exact_new (hpos : 0 < DEPTH) : Exact codec H (.new : Persistent DEPTH V) := by
  rw [exact_iff_live (inv_new hpos) trivial]
  intro q
  have hdb : (Persistent.new : Persistent DEPTH V).db[hashKey q.1 q.2]? = none := by
    simp [Persistent.new]
  simp only [hdb, ne_eq, not_true_eq_false, false_iff]
  rintro ⟨j, I, hj, -, ⟨s, hs, hne⟩, -⟩
  exact hne rfl

/-- **The known hashes over whole runs.** With a hash that tells apart what the trees of the run
hash, and whatever the order of the callbacks: the records of known hashes are those of the tree in
memory in every state of a run of insertions on a fresh database exactly if every insertion of
the run puts its elements beside no stored one and reaches the database.

**Proof sketch.** By `Runs.forall_states_iff_of_law`, with exact records as part of the invariant;
one call is `exact_insertStep_iff`. -/
theorem exact_iff (codec : Codec V) (H : List Fr → Fr) (hpos : 1 ≤ DEPTH) (hdepth : DEPTH ≤ 257)
    (calls : List (Insertion DEPTH V))
    (hhash : Unambiguous H (DEPTH - 1)
      {T | ∃ p ∈ Runs.states (insertStep codec H) .new calls, T = reference p}) :
    (∀ p ∈ Runs.states (insertStep codec H) .new calls, Exact codec H p) ↔
      Runs.Along (insertStep codec H) Clears .new calls := by
  have hd : DEPTH - 1 ≤ 256 := by omega
  have ha := hhash.apart
  have hmem : ∀ p ∈ Runs.states (insertStep codec H) .new calls,
      p ∈ {p | reference p ∈ {T | ∃ p ∈ Runs.states (insertStep codec H) .new calls,
        T = reference p}} := fun p hp => ⟨p, hp, rfl⟩
  have hstart : Inv codec H (.new : Persistent DEPTH V) ∧
      (.new : Persistent DEPTH V).tree.tree.Full ∧ Exact codec H (.new : Persistent DEPTH V) :=
    ⟨inv_new hpos, trivial, exact_new hpos⟩
  refine Runs.forall_states_iff_of_law (s := .new)
    (fun p (h : Inv codec H p ∧ p.tree.tree.Full ∧ Exact codec H p) => h.2.2) ?_ ?_ hstart
    (Runs.along_mem_states hmem)
  · rintro p call ⟨hT, hT'⟩ ⟨hinv, hfull, hexact⟩ hclears
    obtain ⟨hfull', hiff⟩ := exact_insertStep_iff call hpos hd hinv hfull hexact ha hT hT'
    exact ⟨hinv.insertStep hpos hd call, hfull', hiff.2 hclears⟩
  · rintro p call ⟨hT, hT'⟩ ⟨hinv, hfull, hexact⟩ hexact'
    exact (exact_insertStep_iff call hpos hd hinv hfull hexact ha hT hT').2.1 hexact'

/-! ### Sample runs -/

/-- A hash of pairs that tells the pairs of the samples apart. -/
def pairHash (l : List Fr) : Fr := 10 + l.getD 0 0 + 2 * l.getD 1 0

/-- The insertion of one element. -/
def insertOne (e : Element) : Insertion 2 Unit := ⟨fun _ => [], true, Batch.single e ()⟩

/-- The tree after the first insertion. -/
lemma keys_one : (insertStep Codec.unit pairHash .new (insertOne 2)).tree.entries.keys = [2] := by
  decide +kernel

/-- The tree after the second insertion. -/
lemma keys_two : (insertStep Codec.unit pairHash
    (insertStep Codec.unit pairHash .new (insertOne 2)) (insertOne 3)).tree.entries.keys =
      [2, 3] := by
  decide +kernel

/-- The slots of a tree with given keys. -/
lemma reference_of_keys {keys : List Element} (h : p.tree.entries.keys = keys) :
    reference p = occupant (DEPTH - 1) keys := by
  rw [reference, h]

/-- Trees whose keys are among some lists, whose pairs are among a list that the hash tells apart,
and whose leaves are no digests. -/
lemma unambiguous_of_keys {ps : List (Persistent DEPTH V)} {keyLists : List (List Element)}
    {leaves : List Element} {pairs : List (Element × Element)}
    (hkeys : ∀ p ∈ ps, p.tree.entries.keys ∈ keyLists)
    (hleaves : ∀ keys ∈ keyLists, keys ⊆ leaves)
    (hpairs : ∀ keys ∈ keyLists,
      ∀ q ∈ SparseMerkle.nodePairs (merge H) (occupant (DEPTH - 1) keys) (DEPTH - 1), q ∈ pairs)
    (hinj : pairs.Pairwise fun q q' =>
      Function.uncurry (merge H) q ≠ Function.uncurry (merge H) q')
    (hapart : ∀ leaf ∈ leaves, ∀ q ∈ pairs, Function.uncurry (merge H) q ≠ leaf) :
    Unambiguous H (DEPTH - 1) {T | ∃ p ∈ ps, T = reference p} := by
  have hmem : ∀ p ∈ ps, ∀ q ∈ SparseMerkle.nodePairs (merge H) (reference p) (DEPTH - 1),
      q ∈ pairs := fun p hp => hpairs _ (hkeys p hp)
  have : Std.Symm fun q q' : Element × Element =>
      Function.uncurry (merge H) q ≠ Function.uncurry (merge H) q' := ⟨fun _ _ => Ne.symm⟩
  constructor
  · rintro q ⟨_, ⟨p, hp, rfl⟩, hq⟩ q' ⟨_, ⟨p', hp', rfl⟩, hq'⟩ heq
    by_contra hne
    exact hinj.forall (hmem p hp q hq) (hmem p' hp' q' hq') hne heq
  · rintro _ ⟨p, hp, rfl⟩ s hne _ ⟨p', hp', rfl⟩ q hq
    rcases occupant_cases (DEPTH - 1) p.tree.entries.keys s with ⟨hkey, -⟩ | ⟨hnull, -⟩
    · exact hapart _ (hleaves _ (hkeys p hp) hkey) q (hmem p' hp' q hq)
    · exact absurd hnull hne

/-- The pairs of the trees of the samples with two slots. -/
def slotPairs : List (Element × Element) := [(0, 0), (2, 0), (2, 3)]

/-- What these trees hash is in the list of pairs. -/
lemma mem_slotPairs {keys : List Element} (hkeys : keys ∈ ([[], [2], [2, 3]] : List (List Element)))
    {q : Element × Element}
    (hq : q ∈ SparseMerkle.nodePairs (merge pairHash) (occupant (2 - 1) keys) (2 - 1)) :
    q ∈ slotPairs := by
  obtain ⟨k, i, hk, hi, rfl⟩ := hq
  obtain rfl : k = 0 := by omega
  obtain rfl : i = 0 := by simpa using hi
  simp only [List.mem_cons, List.not_mem_nil, or_false] at hkeys
  rcases hkeys with rfl | rfl | rfl <;> decide +kernel

/-- The trees of the sample runs with two slots. -/
lemma unambiguous_samples {ps : List (Persistent 2 Unit)}
    (hps : ∀ p ∈ ps, p.tree.entries.keys ∈ ([[], [2], [2, 3]] : List (List Element))) :
    Unambiguous pairHash (2 - 1) {T | ∃ p ∈ ps, T = reference p} := by
  refine @unambiguous_of_keys 2 Unit pairHash ps [[], [2], [2, 3]] [2, 3] slotPairs hps ?_
    (fun keys hkeys q hq => mem_slotPairs hkeys hq) (by decide +kernel) ?_
  · simp
  · simp only [slotPairs, List.forall_mem_cons]
    exact ⟨⟨by decide +kernel, by decide +kernel, by decide +kernel, by simp⟩,
      ⟨by decide +kernel, by decide +kernel, by decide +kernel, by simp⟩, by simp⟩

/-! ### Two batches -/

/-- A batch of two elements with one node over them, then one under the other half of the tree. -/
def firstBatch : Insertion 3 Unit :=
  ⟨fun _ => [true], true, ⟨[(4, ()), (5, ())], by decide +kernel⟩⟩

/-- A second batch, into the other half of the tree. -/
def secondBatch : Insertion 3 Unit := ⟨fun _ => [], true, Batch.single 2 ()⟩

/-- The tree after the first batch. -/
def firstTree : Persistent 3 Unit := insertStep Codec.unit pairHash .new firstBatch

/-- The first batch is inserted. -/
lemma firstTree_spec : Inv Codec.unit pairHash firstTree ∧ firstTree.tree.tree.Full ∧
    firstTree.tree.entries = Tree.insertEntries ∅ [(4, ()), (5, ())] := by
  have hnew : Inv Codec.unit pairHash (.new : Persistent 3 Unit) := inv_new (by decide)
  have hnn : ∀ e ∈ firstBatch.batch.elements, e ≠ Element.NULL_HASH := by
    simp only [firstBatch, Batch.elements, List.map_cons, List.map_nil, List.forall_mem_cons]
    exact ⟨by decide, by decide, by simp⟩
  have hfresh : (.new : Persistent 3 Unit).tree.Fresh firstBatch.batch.elements :=
    (Tree.fresh_elements (by decide) hnn).2
      ((Tree.checkCollisions_eq_ok_iff _ _).2 fun e he => absurd he List.not_mem_nil)
  obtain ⟨node, shared, hmarked, htree, -, hentries, -⟩ :=
    insertStep_of_fresh (by decide) (by decide) hnew trivial (List.cons_ne_nil _ _) hfresh
  refine ⟨hnew.insertStep (by decide) (by decide) firstBatch, ?_, hentries⟩
  rw [firstTree, htree]
  exact hmarked.full (grows_insertStep (by decide) (by decide) hnew hentries)

/-- The tree after the first batch. -/
lemma keys_firstTree : firstTree.tree.entries.keys = [4, 5] := by
  rw [firstTree_spec.2.2]
  decide +kernel

/-- The second batch is inserted, too. -/
lemma keys_secondBatch :
    (insertStep Codec.unit pairHash firstTree secondBatch).tree.entries.keys = [2, 4, 5] := by
  obtain ⟨hinv, hfull, hfirst⟩ := firstTree_spec
  have hnn : ∀ e ∈ secondBatch.batch.elements, e ≠ Element.NULL_HASH := by
    intro e he
    rw [List.mem_singleton.1 he]
    decide
  have hcollisions : firstTree.tree.checkCollisions secondBatch.batch = .ok () := by
    rw [Tree.checkCollisions_eq_ok_iff, keys_firstTree]
    intro key hkey e he
    rw [List.mem_singleton.1 he]
    simp only [List.mem_cons, List.not_mem_nil, or_false] at hkey
    rcases hkey with rfl | rfl <;> decide +kernel
  have hfresh := (Tree.fresh_elements (by decide) hnn).2 hcollisions
  obtain ⟨-, -, -, -, -, hentries, -⟩ :=
    insertStep_of_fresh (by decide) (by decide) hinv hfull (List.cons_ne_nil _ _) hfresh
  rw [hentries, hfirst]
  decide +kernel

/-- The keys of the states of the run. -/
lemma keys_insertions {p : Persistent 3 Unit}
    (hp : p ∈ Runs.states (insertStep Codec.unit pairHash) .new [firstBatch, secondBatch]) :
    p.tree.entries.keys ∈ ([[], [4, 5], [2, 4, 5]] : List (List Element)) := by
  simp only [Runs.states, List.mem_cons, List.not_mem_nil, or_false] at hp
  rcases hp with rfl | rfl | rfl
  · exact List.mem_cons_self
  · rw [show insertStep Codec.unit pairHash .new firstBatch = firstTree from rfl, keys_firstTree]
    simp
  · rw [show insertStep Codec.unit pairHash .new firstBatch = firstTree from rfl, keys_secondBatch]
    simp

/-- The pairs of the trees of the run: the pair of the root is superseded by the second batch. -/
def insertionPairs : List (Element × Element) :=
  [(0, 0), (10, 10), (4, 5), (24, 10), (2, 0), (24, 12)]

/-- What these trees hash is in the list of pairs. -/
lemma mem_insertionPairs {keys : List Element}
    (hkeys : keys ∈ ([[], [4, 5], [2, 4, 5]] : List (List Element))) {q : Element × Element}
    (hq : q ∈ SparseMerkle.nodePairs (merge pairHash) (occupant (3 - 1) keys) (3 - 1)) :
    q ∈ insertionPairs := by
  obtain ⟨k, i, hk, hi, rfl⟩ := hq
  simp only [List.mem_cons, List.not_mem_nil, or_false] at hkeys
  rcases k with _ | _ | k
  · change i < 2 at hi
    interval_cases i <;> rcases hkeys with rfl | rfl | rfl <;> decide +kernel
  · change i < 1 at hi
    interval_cases i
    rcases hkeys with rfl | rfl | rfl <;> decide +kernel
  · omega

/-- Two elements in one batch, and a third in another half of the tree: the records are those of the
tree in every state, also after the second batch, which supersedes the hash of the root. -/
theorem exact_insertions :
    Runs.Along (insertStep Codec.unit pairHash) Clears (.new : Persistent 3 Unit)
        [firstBatch, secondBatch] ∧
      ∀ p ∈ Runs.states (insertStep Codec.unit pairHash) (.new : Persistent 3 Unit)
        [firstBatch, secondBatch], Exact Codec.unit pairHash p := by
  have hclears : Runs.Along (insertStep Codec.unit pairHash) Clears (.new : Persistent 3 Unit)
      [firstBatch, secondBatch] := by
    refine ⟨fun _ _ _ => ⟨rfl, fun e _ key hkey => absurd hkey List.not_mem_nil⟩,
      fun _ _ _ => ⟨rfl, fun e he key hkey => ?_⟩, trivial⟩
    rw [show insertStep Codec.unit pairHash .new firstBatch = firstTree from rfl, keys_firstTree]
      at hkey
    rw [List.mem_singleton.1 he]
    simp only [List.mem_cons, List.not_mem_nil, or_false] at hkey
    rcases hkey with rfl | rfl <;> decide +kernel
  have hapart : ∀ leaf ∈ ([2, 4, 5] : List Element), ∀ q ∈ insertionPairs,
      Function.uncurry (merge pairHash) q ≠ leaf := by
    simp only [insertionPairs, List.forall_mem_cons]
    refine ⟨?_, ?_, ?_, by simp⟩ <;>
      exact ⟨by decide +kernel, by decide +kernel, by decide +kernel, by decide +kernel,
        by decide +kernel, by decide +kernel, by simp⟩
  have hhash := @unambiguous_of_keys 3 Unit pairHash _ _ [2, 4, 5] insertionPairs
    (fun p hp => keys_insertions hp) (by simp) (fun keys hkeys q hq => mem_insertionPairs hkeys hq)
    (by decide +kernel) hapart
  exact ⟨hclears, (exact_iff Codec.unit pairHash (by decide) (by decide) _ hhash).2 hclears⟩

/-! ### One element beside the other -/

/-- **A record that is left over**: 3 is inserted into the slot beside 2, with a hash that tells
everything apart and with writes that succeed. The pair of 2 and the null element keeps its
record. -/
theorem not_exact_beside :
    Unambiguous pairHash (2 - 1) {T | ∃ p ∈ Runs.states (insertStep Codec.unit pairHash)
        (.new : Persistent 2 Unit) [insertOne 2, insertOne 3], T = reference p} ∧
      ∃ p ∈ Runs.states (insertStep Codec.unit pairHash) (.new : Persistent 2 Unit)
        [insertOne 2, insertOne 3], ¬ Exact Codec.unit pairHash p := by
  have hhash : Unambiguous pairHash (2 - 1) {T | ∃ p ∈ Runs.states (insertStep Codec.unit pairHash)
      (.new : Persistent 2 Unit) [insertOne 2, insertOne 3], T = reference p} := by
    refine unambiguous_samples fun p hp => ?_
    simp only [Runs.states, List.mem_cons, List.not_mem_nil, or_false] at hp
    rcases hp with rfl | rfl | rfl
    · exact List.mem_cons_self
    · rw [keys_one]
      simp
    · rw [keys_two]
      simp
  have ha := @Unambiguous.apart 2 Unit pairHash _ hhash
  have hnew : Inv Codec.unit pairHash (.new : Persistent 2 Unit) := inv_new (by decide)
  obtain ⟨hfull, hone⟩ := exact_insertStep_iff (insertOne 2) (by decide) (by decide) hnew
    trivial (exact_new (by decide)) ha ⟨_, List.mem_cons_self, rfl⟩
    ⟨_, List.mem_cons_of_mem _ List.mem_cons_self, rfl⟩
  have hexact := hone.2 fun _ _ _ => ⟨rfl, fun e _ key hkey => absurd hkey List.not_mem_nil⟩
  have hlast : insertStep Codec.unit pairHash (insertStep Codec.unit pairHash .new (insertOne 2))
      (insertOne 3) ∈ Runs.states (insertStep Codec.unit pairHash) (.new : Persistent 2 Unit)
        [insertOne 2, insertOne 3] := by
    simp only [Runs.states, List.mem_cons, List.not_mem_nil, or_false, or_true]
  obtain ⟨-, htwo⟩ := exact_insertStep_iff (insertOne 3) (by decide) (by decide)
    (hnew.insertStep (by decide) (by decide) (insertOne 2)) hfull hexact ha
    ⟨_, List.mem_cons_of_mem _ List.mem_cons_self, rfl⟩ ⟨_, hlast, rfl⟩
  refine ⟨hhash, _, hlast, fun hexact' => ?_⟩
  have hclears := htwo.1 hexact' (by decide) (List.cons_ne_nil _ _) ?_
  · have hkey : (2 : Element) ∈ (insertStep Codec.unit pairHash (.new : Persistent 2 Unit)
        (insertOne 2)).tree.entries.keys := by
      rw [keys_one]
      exact List.mem_singleton.2 rfl
    exact hclears.2 3 (List.mem_singleton.2 rfl) 2 hkey (by decide +kernel)
  · refine (Tree.fresh_elements (by decide) ?_).2 ?_
    · intro e he
      rw [List.mem_singleton.1 he]
      decide
    · rw [Tree.checkCollisions_eq_ok_iff, keys_one]
      intro e he b hb
      rw [List.mem_singleton.1 he, List.mem_singleton.1 hb]
      decide +kernel

end Records

end TempoRollup.Smirk
