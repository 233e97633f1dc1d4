import TempoRollup.Smirk.Insertion

set_option relaxedAutoImplicit false
set_option autoImplicit false

/-!
# Insertions one after the other

`smirk/src/tree/insert.rs` and `smirk/src/batch/merge.rs`: entries that are inserted one by one,
with or without their paths, against the insertion of one batch, and batches that are merged.

## Main definitions

* `Batch.lsbs`, `Batch.merge` — the index of a batch, and two batches made one.
* `Tree.insertAll` — entries inserted one by one.
* `Tree.Links` — a path that takes one root to the next.

## Main results

* `Batch.merge_eq_ok_iff` — a merged batch is the batch of all entries.
* `Tree.insertAll_spec` — all entries are inserted exactly if their elements are new.
* `Tree.insertAll_eq_insertBatch` — one by one or as a batch, the entries and the root are the same.
* `Tree.insertWithPaths_chain` — the paths link the roots between the insertions, and a collision
  ends the call between two insertions.

## Design

The collisions that `merge` reports come from a hash set; here they are in the order of the entries.
-/

open Exec

namespace TempoRollup.Smirk

variable {DEPTH : ℕ} {V : Type}

/-! ## Merged batches -/

namespace Batch

/-- The set `lsbs` of a batch, in the order of its entries. -/
def lsbs (batch : Batch DEPTH V) : List (List Bool) :=
  batch.entries.map fun entry => entry.1.lsb (DEPTH - 1)

/-- Batches are equal if their entries are. -/
lemma ext {a b : Batch DEPTH V} (h : a.entries = b.entries) : a = b := by
  cases a
  cases b
  cases h
  rfl

/-- Batches without common low bits can be put together. -/
lemma nodup_lsbs_append {a b : Batch DEPTH V} (h : (a.lsbs.filter b.lsbs.contains).length = 0) :
    ((a.entries ++ b.entries).map fun entry => entry.1.lsb (DEPTH - 1)).Nodup := by
  rw [List.map_append]
  refine List.nodup_append.2 ⟨a.distinct, b.distinct, ?_⟩
  rintro x hx y hy rfl
  have hmem : x ∈ a.lsbs.filter b.lsbs.contains :=
    List.mem_filter.2 ⟨hx, List.contains_iff_mem.2 hy⟩
  rw [List.length_eq_zero_iff.1 h] at hmem
  exact absurd hmem List.not_mem_nil

/-- `Batch::merge`. -/
def merge (self other : Batch DEPTH V) : Outcome CollisionError (Batch DEPTH V) :=
  let collidingLsbs := self.lsbs.filter other.lsbs.contains
  if h : collidingLsbs.length = 0 then .ok ⟨self.entries ++ other.entries, nodup_lsbs_append h⟩
  else do
    let collisions ← collidingLsbs.mapM fun lsb => do
      let elementInSelf ← Outcome.ofOption (self.findElementWithLsb lsb)
      let elementInOther ← Outcome.ofOption (other.findElementWithLsb lsb)
      Outcome.ok ({ inTree := elementInSelf, inserted := elementInOther, depth := DEPTH,
                    structName := .batch } : Collision)
    .err collisions

/-- The index finds the element of each of its low bits. -/
lemma findElementWithLsb_of_mem {batch : Batch DEPTH V} {lsb : List Bool}
    (h : lsb ∈ batch.lsbs) : ∃ e, batch.findElementWithLsb lsb = some e := by
  obtain ⟨entry, hentry, rfl⟩ := List.mem_map.1 h
  refine Option.isSome_iff_exists.1 (List.find?_isSome.2 ⟨entry.1, ?_, ?_⟩)
  · exact List.mem_map.2 ⟨entry, hentry, rfl⟩
  · exact beq_iff_eq.2 rfl

/-- **When two batches can be merged**: exactly if they have no common low bits. -/
lemma merge_spec (self other : Batch DEPTH V) :
    if ((self.entries ++ other.entries).map fun entry => entry.1.lsb (DEPTH - 1)).Nodup then
      ∃ batch : Batch DEPTH V, self.merge other = .ok batch ∧
        batch.entries = self.entries ++ other.entries
    else ∃ e, self.merge other = .err e := by
  unfold merge
  by_cases h : (self.lsbs.filter other.lsbs.contains).length = 0
  · rw [if_pos (nodup_lsbs_append h)]
    simp only [dif_pos h]
    exact ⟨_, rfl, rfl⟩
  · rw [if_neg]
    · simp only [dif_neg h]
      -- the unwraps are fine, since the low bits are those of both batches
      obtain ⟨collisions, hcollisions⟩ := Outcome.mapM_returns
        (l := self.lsbs.filter other.lsbs.contains) (ε := CollisionError)
        (f := fun lsb => do
          let elementInSelf ← Outcome.ofOption (self.findElementWithLsb lsb)
          let elementInOther ← Outcome.ofOption (other.findElementWithLsb lsb)
          Outcome.ok ({ inTree := elementInSelf, inserted := elementInOther, depth := DEPTH,
                        structName := .batch } : Collision)) (by
          intro lsb hlsb
          obtain ⟨hself, hother⟩ := List.mem_filter.1 hlsb
          obtain ⟨a, ha⟩ := findElementWithLsb_of_mem hself
          obtain ⟨b, hb⟩ := findElementWithLsb_of_mem (List.contains_iff_mem.1 hother)
          rw [ha, hb]
          exact ⟨_, rfl⟩)
      rw [hcollisions]
      exact ⟨collisions, rfl⟩
    · intro hnodup
      obtain ⟨lsb, hlsb⟩ := List.exists_mem_of_length_pos (Nat.pos_of_ne_zero h)
      obtain ⟨hself, hother⟩ := List.mem_filter.1 hlsb
      rw [List.map_append] at hnodup
      exact (List.nodup_append.1 hnodup).2.2 lsb hself lsb (List.contains_iff_mem.1 hother) rfl

/-- **Merged batches.** A merge returns a batch exactly when `from_entries` does for the entries of
both, and the same one; otherwise both return an error. -/
theorem merge_eq_ok_iff (self other : Batch DEPTH V) :
    (∀ batch, self.merge other = .ok batch ↔
        fromEntries (self.entries ++ other.entries) = .ok batch) ∧
      ((∃ e, self.merge other = .err e) ↔
        ∃ e, (fromEntries (self.entries ++ other.entries) :
          Outcome CollisionError (Batch DEPTH V)) = .err e) := by
  have hmerge := merge_spec self other
  have hfrom := @fromEntries_spec DEPTH V (self.entries ++ other.entries)
  split_ifs at hmerge hfrom
  · obtain ⟨a, ha, hentries⟩ := hmerge
    obtain ⟨b, hb, hentries'⟩ := hfrom
    obtain rfl : a = b := ext (hentries.trans hentries'.symm)
    rw [ha, hb]
    simp
  · obtain ⟨e, he⟩ := hmerge
    obtain ⟨e', he'⟩ := hfrom
    rw [he, he']
    simp

end Batch

/-! ## One by one -/

namespace Tree

/-- Insert the entries one by one with `insert`, up to the first that is refused. -/
def insertAll (H : List Fr → Fr) :
    List (Element × V) → Program (Tree DEPTH V) CollisionError Unit
  | [] => pure ()
  | (element, value) :: entries => do
    insert H element value
    insertAll H entries

variable {H : List Fr → Fr} {self self' : Tree DEPTH V} {element : Element} {value : V}

/-- The slot of an element is free. -/
lemma fresh_singleton_iff :
    self.Fresh [element] ↔ element ≠ Element.NULL_HASH ∧
      ∀ key ∈ self.entries.keys, element.slot (DEPTH - 1) ≠ key.slot (DEPTH - 1) := by
  constructor
  · intro h
    exact ⟨h.ne_null element List.mem_cons_self,
      fun key hkey => h.free key hkey element List.mem_cons_self⟩
  · rintro ⟨hne, hfree⟩
    refine ⟨?_, List.pairwise_singleton _ _, ?_⟩
    · intro e he
      rwa [List.mem_singleton.1 he]
    · intro key hkey e he
      rw [List.mem_singleton.1 he]
      exact hfree key hkey

/-- **One insertion**: an element in a free slot is inserted, any other element is refused. -/
lemma insert_cases (hpos : 0 < DEPTH) (hdepth : DEPTH - 1 ≤ 256) (h : self.Inv H)
    (hne : element ≠ Element.NULL_HASH) (value : V) :
    (self.Fresh [element] ∧ ∃ self', insert H element value self = (.ok (), self') ∧
        self'.Inv H ∧ self'.entries = self.entries.insert element value) ∨
      (¬ self.Fresh [element] ∧ ∃ c, insert H element value self = (.err c, self)) := by
  have hfresh := @fresh_elements DEPTH V self (Batch.single element value) hdepth (by
    intro e he
    rwa [List.mem_singleton.1 he])
  by_cases hf : self.Fresh [element]
  · exact .inl ⟨hf, insertBatch_of_fresh hpos hdepth h hf⟩
  · refine .inr ⟨hf, ?_⟩
    rcases checkCollisions_cases self (Batch.single element value) with hok | ⟨c, herr⟩
    · exact absurd (hfresh.2 hok) hf
    · refine ⟨c, ?_⟩
      simp only [insert, insertBatch, Program.run_bind, Program.run_get, Program.run_lift, herr]

/-- An insertion adds its element. -/
lemma mem_keys_of_insert (hentries : self'.entries = self.entries.insert element value)
    (e : Element) : e ∈ self'.entries.keys ↔ e ∈ self.entries.keys ∨ e = element := by
  have hmem := mem_foldl_insert [(element, value)] self.entries e
  rw [List.map_singleton, List.mem_singleton] at hmem
  rw [hentries]
  exact hmem

/-- Elements are new when the first is, and the others are after its insertion. -/
lemma fresh_cons_iff (hentries : self'.entries = self.entries.insert element value)
    (elements : List Element) :
    self.Fresh (element :: elements) ↔ self.Fresh [element] ∧ self'.Fresh elements := by
  have hkeys := mem_keys_of_insert hentries
  rw [fresh_singleton_iff]
  constructor
  · intro h
    obtain ⟨hfirst, hrest⟩ := List.pairwise_cons.1 h.distinct
    refine ⟨⟨h.ne_null element List.mem_cons_self, fun key hkey =>
      h.free key hkey element List.mem_cons_self⟩, ?_, hrest, ?_⟩
    · exact fun e he => h.ne_null e (List.mem_cons_of_mem _ he)
    · intro key hkey e he
      rcases (hkeys key).1 hkey with hkey | rfl
      · exact h.free key hkey e (List.mem_cons_of_mem _ he)
      · exact (hfirst e he).symm
  · rintro ⟨⟨hne, hfree⟩, h⟩
    refine ⟨?_, List.pairwise_cons.2 ⟨?_, h.distinct⟩, ?_⟩
    · intro e he
      rcases List.mem_cons.1 he with rfl | he
      · exact hne
      · exact h.ne_null e he
    · exact fun e he => (h.free element ((hkeys element).2 (.inr rfl)) e he).symm
    · intro key hkey e he
      rcases List.mem_cons.1 he with rfl | he
      · exact hfree key hkey
      · exact h.free key ((hkeys key).2 (.inl hkey)) e he

/-- New elements that are followed by others. -/
lemma Fresh.of_append {elements elements' : List Element}
    (h : self.Fresh (elements ++ elements')) : self.Fresh elements := by
  refine ⟨?_, (List.pairwise_append.1 h.distinct).1, ?_⟩
  · exact fun e he => h.ne_null e (List.mem_append_left _ he)
  · exact fun key hkey e he => h.free key hkey e (List.mem_append_left _ he)

/-- **Entries inserted one by one**: all of them are inserted if their elements are new, and one is
refused otherwise. By induction on the entries. -/
theorem insertAll_spec (hpos : 0 < DEPTH) (hdepth : DEPTH - 1 ≤ 256) (h : self.Inv H)
    (entries : List (Element × V))
    (hnn : ∀ e ∈ entries.map Prod.fst, e ≠ Element.NULL_HASH) :
    (self.Fresh (entries.map Prod.fst) ∧ ∃ self', insertAll H entries self = (.ok (), self') ∧
        self'.Inv H ∧ self'.entries = insertEntries self.entries entries) ∨
      (¬ self.Fresh (entries.map Prod.fst) ∧
        ∃ c self', insertAll H entries self = (.err c, self')) := by
  induction entries generalizing self with
  | nil =>
    refine .inl ⟨⟨?_, List.Pairwise.nil, ?_⟩, self, rfl, h, rfl⟩
    · exact fun e he => absurd he List.not_mem_nil
    · exact fun key hkey e he => absurd he List.not_mem_nil
  | cons entry entries ih =>
    obtain ⟨element, value⟩ := entry
    rw [List.map_cons, List.forall_mem_cons] at hnn
    simp only [insertAll, Program.run_bind, List.map_cons]
    rcases insert_cases hpos hdepth h hnn.1 value with
      ⟨hf, next, hrun, hinv, hentries⟩ | ⟨hf, c, hrun⟩
    · rw [hrun, fresh_cons_iff hentries]
      simp only [hf, true_and]
      rcases ih hinv hnn.2 with ⟨hrest, self', hrun', hinv', hentries'⟩ | ⟨hrest, c, self', hrun'⟩
      · refine .inl ⟨hrest, self', hrun', hinv', ?_⟩
        rw [hentries', hentries]
        rfl
      · exact .inr ⟨hrest, c, self', hrun'⟩
    · rw [hrun]
      refine .inr ⟨fun hall => hf ?_, c, self, rfl⟩
      rw [← List.singleton_append] at hall
      exact hall.of_append

/-- **A batch made from entries** is inserted exactly if the elements are new. -/
lemma insertBatch_fromEntries_iff (hpos : 0 < DEPTH) (hdepth : DEPTH - 1 ≤ 256) (h : self.Inv H)
    (entries : List (Element × V))
    (hnn : ∀ e ∈ entries.map Prod.fst, e ≠ Element.NULL_HASH) :
    (∃ batch, Batch.fromEntries entries = .ok batch ∧ (insertBatch H batch self).1 = .ok ()) ↔
      self.Fresh (entries.map Prod.fst) := by
  constructor
  · rintro ⟨batch, hbatch, hok⟩
    have helements : batch.elements = entries.map Prod.fst := by
      rw [Batch.elements, Batch.entries_of_fromEntries hbatch]
    rw [← helements] at hnn ⊢
    rcases checkCollisions_cases self batch with hcheck | ⟨c, hcheck⟩
    · exact (fresh_elements hdepth hnn).2 hcheck
    · simp only [insertBatch, Program.run_bind, Program.run_get, Program.run_lift, hcheck] at hok
      cases hok
  · intro hf
    obtain ⟨batch, hbatch, hentries⟩ := hf.fromEntries hdepth
    have helements : batch.elements = entries.map Prod.fst := by rw [Batch.elements, hentries]
    obtain ⟨self', hrun, -⟩ := insertBatch_of_fresh hpos hdepth h (helements ▸ hf)
    exact ⟨batch, hbatch, congrArg Prod.fst hrun⟩

/-- **One by one or as a batch.** After any calls, entries without the null element are all
inserted one by one exactly if they make a batch and the batch is inserted; the trees then have the
same entries with the same values, and the same root. Merging two batches is making a batch from the
entries of both.

**Proof sketch.** Both ways succeed exactly if the elements are fresh
(`insertBatch_fromEntries_iff`, `insertAll_spec`), and then both have the entries of the tree with
the new ones. -/
theorem insertAll_eq_insertBatch (H : List Fr → Fr) (hpos : 1 ≤ DEPTH) (hdepth : DEPTH ≤ 257)
    (calls : List (Call DEPTH V)) (entries : List (Element × V))
    (hnn : ∀ e ∈ entries.map Prod.fst, e ≠ Element.NULL_HASH) :
    ((insertAll H entries (run H calls new)).1 = .ok () ↔
        ∃ batch, Batch.fromEntries entries = .ok batch ∧
          (insertBatch H batch (run H calls new)).1 = .ok ()) ∧
      (∀ batch, Batch.fromEntries entries = .ok batch →
        (insertBatch H batch (run H calls new)).1 = .ok () →
        (insertAll H entries (run H calls new)).2.entries =
            (insertBatch H batch (run H calls new)).2.entries ∧
          (insertAll H entries (run H calls new)).2.rootHash H =
            (insertBatch H batch (run H calls new)).2.rootHash H) ∧
      ∀ a b : Batch DEPTH V,
        (∀ batch, a.merge b = .ok batch ↔ Batch.fromEntries (a.entries ++ b.entries) = .ok batch) ∧
        ((∃ e, a.merge b = .err e) ↔
          ∃ e, (Batch.fromEntries (a.entries ++ b.entries) :
            Outcome CollisionError (Batch DEPTH V)) = .err e) := by
  have hd : DEPTH - 1 ≤ 256 := by omega
  have hinv : (run H calls new).Inv H := run_inv_of_calls hpos hd calls (inv_new hpos)
  generalize run H calls new = self at hinv ⊢
  have hbatch := insertBatch_fromEntries_iff hpos hd hinv entries hnn
  refine ⟨?_, ?_, Batch.merge_eq_ok_iff⟩
  · rw [hbatch]
    rcases insertAll_spec hpos hd hinv entries hnn with ⟨hf, self', hrun, -⟩ | ⟨hf, c, self', hrun⟩
    · simp [hrun, hf]
    · simp [hrun, hf]
  · intro batch hfrom hok
    have hf := hbatch.1 ⟨batch, hfrom, hok⟩
    have hentries := Batch.entries_of_fromEntries hfrom
    have helements : batch.elements = entries.map Prod.fst := by rw [Batch.elements, hentries]
    obtain ⟨tree, hrun, hinv', hkeys⟩ := insertBatch_of_fresh hpos hd hinv (helements ▸ hf)
    rcases insertAll_spec hpos hd hinv entries hnn with
      ⟨-, tree', hrun', hinv'', hkeys'⟩ | ⟨hnot, -⟩
    · have heq : tree'.entries = tree.entries := by rw [hkeys, hkeys', hentries]
      rw [hrun, hrun']
      -- the root depends on the keys only
      exact ⟨heq, by rw [hinv'.rootHash_eq, hinv''.rootHash_eq, heq]⟩
    · exact absurd hf hnot

/-- Two entries that are new for the tree of the sample calls. -/
theorem insertAll_eq_insertBatch_sampleCalls :
    (insertAll sampleHash [(7, ()), (4, ())] (run sampleHash sampleCalls new)).1 = .ok () ∧
      ∃ batch, Batch.fromEntries [(7, ()), (4, ())] = .ok batch ∧
        (insertAll sampleHash [(7, ()), (4, ())] (run sampleHash sampleCalls new)).2.entries =
          (insertBatch sampleHash batch (run sampleHash sampleCalls new)).2.entries := by
  have hnn : ∀ e ∈ [((7 : Element), ()), (4, ())].map Prod.fst, e ≠ Element.NULL_HASH := by
    simp [Element.NULL_HASH]
  obtain ⟨hiff, hsame, -⟩ := insertAll_eq_insertBatch sampleHash (by decide) (by decide)
    sampleCalls [(7, ()), (4, ())] hnn
  have hok : (insertAll sampleHash [(7, ()), (4, ())]
      (run sampleHash sampleCalls new)).1 = .ok () := by
    decide +kernel
  obtain ⟨batch, hbatch, hinsert⟩ := hiff.1 hok
  exact ⟨hok, batch, hbatch, (hsame batch hbatch hinsert).1⟩

/-! ## Paths -/

/-- The path of an element takes the null element to one root and the element to the next. -/
structure Links (H : List Fr → Fr) (path : Path DEPTH) (element before after : Element) :
    Prop where
  element_eq : path.element = element
  before_eq : path.computeRootHash H Element.NULL_HASH = before
  after_eq : path.computeRootHash H element = after

/-- **The path of an element that was just inserted** links the roots before and after the
insertion: the siblings on it are those of the reference tree before, too. -/
lemma links_of_insert (hpos : 0 < DEPTH) (hdepth : DEPTH - 1 ≤ 256) (h : self.Inv H)
    (h' : self'.Inv H) (hf : self.Fresh [element])
    (hentries : self'.entries = self.entries.insert element value) :
    ∃ path, self'.pathFor H element = .ok path ∧
      Links H path element (self.rootHash H) (self'.rootHash H) := by
  obtain ⟨hne, hfree⟩ := fresh_singleton_iff.1 hf
  have hkeys := mem_keys_of_insert hentries
  obtain ⟨path, hpath, helement, -, hsib⟩ := pathFor_spec hpos hdepth h' element
  have hslot := element.slot_lt (DEPTH - 1)
  have hfold : ∀ x, path.computeRootHash H x = SparseMerkle.root (merge H)
      (Function.update (occupant (DEPTH - 1) self'.entries.keys) (element.slot (DEPTH - 1)) x)
      (DEPTH - 1) := by
    intro x
    rw [computeRootHash_eq hdepth helement hsib, SparseMerkle.foldPath_path_update _ _ _ _ hslot]
  have hbefore : Function.update (occupant (DEPTH - 1) self'.entries.keys)
      (element.slot (DEPTH - 1)) Element.NULL_HASH = occupant (DEPTH - 1) self.entries.keys := by
    funext s
    by_cases hs : s = element.slot (DEPTH - 1)
    · subst hs
      rw [Function.update_self, occupant_of_forall_ne fun key hkey => (hfree key hkey).symm]
    · rw [Function.update_of_ne hs, occupant_insert_of_ne h.distinct hkeys hs]
  have hafter : Function.update (occupant (DEPTH - 1) self'.entries.keys)
      (element.slot (DEPTH - 1)) element = occupant (DEPTH - 1) self'.entries.keys := by
    have hocc := occupant_of_mem h'.distinct ((hkeys element).2 (.inr rfl))
    rw [Function.update_eq_self_iff]
    exact hocc.symm
  refine ⟨path, hpath, helement, ?_, ?_⟩
  · rw [hfold, hbefore, h.rootHash_eq]
  · rw [hfold, hafter, h'.rootHash_eq]

/-- One round of the loop of `insert_with_paths`, with an element that is inserted. -/
lemma insertWithPaths_cons (entries : List (Element × V)) {path : Path DEPTH}
    (hrun : insert H element value self = (.ok (), self'))
    (hpath : self'.pathFor H element = .ok path) :
    insertWithPaths H ((element, value) :: entries) self =
      match insertWithPaths H entries self' with
      | (.ok paths, self'') => (.ok (path :: paths), self'')
      | (.err e, self'') => (.err e, self'')
      | (.panic, self'') => (.panic, self'') := by
  simp only [insertWithPaths, Program.run_bind, Program.run_get, Program.run_lift, hrun, hpath,
    Outcome.unwrap]
  rcases insertWithPaths H entries self' with ⟨_ | _ | _, _⟩ <;> rfl

/-- The tree after the first `i` insertions. -/
def after (H : List Fr → Fr) (entries : List (Element × V)) (self : Tree DEPTH V) (i : ℕ) :
    Tree DEPTH V :=
  (insertAll H (entries.take i) self).2

/-- After the first entry come the others. -/
lemma after_cons_succ (entries : List (Element × V))
    (hrun : insert H element value self = (.ok (), self')) (i : ℕ) :
    after H ((element, value) :: entries) self (i + 1) = after H entries self' i := by
  simp only [after, List.take_succ_cons, insertAll, Program.run_bind, hrun]

/-- **The chain of the paths**: with new elements, there is a path for each of them, and it links
the roots before and after its insertion. By induction on the entries. -/
lemma insertWithPaths_of_fresh (hpos : 0 < DEPTH) (hdepth : DEPTH - 1 ≤ 256) (h : self.Inv H)
    (entries : List (Element × V)) (hf : self.Fresh (entries.map Prod.fst)) :
    ∃ paths, insertWithPaths H entries self = (.ok paths, after H entries self entries.length) ∧
      paths.length = entries.length ∧
      ∀ i entry, entries[i]? = some entry → ∃ path, paths[i]? = some path ∧
        Links H path entry.1 ((after H entries self i).rootHash H)
          ((after H entries self (i + 1)).rootHash H) := by
  induction entries generalizing self with
  | nil => exact ⟨[], rfl, rfl, fun i entry hi => by simp at hi⟩
  | cons entry entries ih =>
    obtain ⟨element, value⟩ := entry
    have hne := hf.ne_null element List.mem_cons_self
    rcases insert_cases hpos hdepth h hne value with
      ⟨hfirst, self', hrun, hinv, hentries⟩ | ⟨hnot, -⟩
    · obtain ⟨path, hpath, hlinks⟩ := links_of_insert hpos hdepth h hinv hfirst hentries
      obtain ⟨paths, hpaths, hlength, hchain⟩ := ih hinv ((fresh_cons_iff hentries _).1 hf).2
      have hafter := after_cons_succ entries hrun
      refine ⟨path :: paths, ?_, by simp [hlength], ?_⟩
      · rw [insertWithPaths_cons entries hrun hpath, hpaths, List.length_cons, hafter]
      · intro i entry hi
        cases i with
        | zero =>
          obtain rfl : (element, value) = entry := by simpa using hi
          refine ⟨path, rfl, ?_⟩
          rw [hafter]
          simpa [after, insertAll] using hlinks
        | succ i =>
          rw [hafter, hafter]
          exact hchain i entry hi
    · rw [List.map_cons, ← List.singleton_append] at hf
      exact absurd hf.of_append hnot

/-- **Where a collision ends the call**: with the elements before it inserted, and nothing else. By
induction on these elements. -/
lemma insertWithPaths_of_collision (hpos : 0 < DEPTH) (hdepth : DEPTH - 1 ≤ 256) (h : self.Inv H)
    (entries : List (Element × V)) (hf : self.Fresh (entries.map Prod.fst))
    (hne : element ≠ Element.NULL_HASH)
    (hcollides : ∃ e, (e ∈ self.entries.keys ∨ e ∈ entries.map Prod.fst) ∧
      element.lsb (DEPTH - 1) = e.lsb (DEPTH - 1))
    (rest : List (Element × V)) :
    ∃ c self', insertWithPaths H (entries ++ (element, value) :: rest) self = (.err c, self') ∧
      insertAll H entries self = (.ok (), self') ∧
      self'.entries = insertEntries self.entries entries := by
  induction entries generalizing self with
  | nil =>
    obtain ⟨e, he | he, hlsb⟩ := hcollides
    · rcases insert_cases hpos hdepth h hne value with ⟨hfresh, -⟩ | ⟨-, c, hrun⟩
      · rw [Element.lsb_eq_iff _ _ hdepth] at hlsb
        exact absurd hlsb ((fresh_singleton_iff.1 hfresh).2 e he)
      · refine ⟨c, self, ?_, rfl, rfl⟩
        simp only [List.nil_append, insertWithPaths, Program.run_bind, hrun]
    · exact absurd he List.not_mem_nil
  | cons entry entries ih =>
    obtain ⟨first, x⟩ := entry
    have hne' := hf.ne_null first List.mem_cons_self
    rcases insert_cases hpos hdepth h hne' x with
      ⟨hfirst, next, hrun, hinv, hentries⟩ | ⟨hnot, -⟩
    · obtain ⟨path, hpath, -⟩ := links_of_insert hpos hdepth h hinv hfirst hentries
      have hcollides' : ∃ e, (e ∈ next.entries.keys ∨ e ∈ entries.map Prod.fst) ∧
          element.lsb (DEPTH - 1) = e.lsb (DEPTH - 1) := by
        obtain ⟨e, he, hlsb⟩ := hcollides
        refine ⟨e, ?_, hlsb⟩
        rw [mem_keys_of_insert hentries]
        rw [List.map_cons, List.mem_cons] at he
        tauto
      obtain ⟨c, self', hrest, hall, hkeys⟩ :=
        ih hinv ((fresh_cons_iff hentries _).1 hf).2 hcollides'
      refine ⟨c, self', ?_, ?_, ?_⟩
      · rw [List.cons_append, insertWithPaths_cons _ hrun hpath, hrest]
      · simp only [insertAll, Program.run_bind, hrun, hall]
      · rw [hkeys, hentries]
        rfl
    · rw [List.map_cons, ← List.singleton_append] at hf
      exact absurd hf.of_append hnot

/-- **The paths of an insertion.** After any calls, with `r i` the root after the first `i` of the
entries: for new elements with different slots there are as many paths as entries, and path `i`
takes the null element to `r i` and the element to `r (i + 1)`; and if an element collides with a
stored one or with one before it, which are new, the call fails with exactly those before it
inserted. -/
theorem insertWithPaths_chain (H : List Fr → Fr) (hpos : 1 ≤ DEPTH) (hdepth : DEPTH ≤ 257)
    (calls : List (Call DEPTH V)) (entries : List (Element × V))
    (hf : (run H calls new).Fresh (entries.map Prod.fst)) :
    (∃ paths, insertWithPaths H entries (run H calls new) =
          (.ok paths, after H entries (run H calls new) entries.length) ∧
        paths.length = entries.length ∧
        ∀ i entry, entries[i]? = some entry → ∃ path, paths[i]? = some path ∧
          Links H path entry.1 ((after H entries (run H calls new) i).rootHash H)
            ((after H entries (run H calls new) (i + 1)).rootHash H)) ∧
      ∀ element value rest, element ≠ Element.NULL_HASH →
        (∃ e, (e ∈ (run H calls new).entries.keys ∨ e ∈ entries.map Prod.fst) ∧
          element.lsb (DEPTH - 1) = e.lsb (DEPTH - 1)) →
        ∃ c self', insertWithPaths H (entries ++ (element, value) :: rest) (run H calls new) =
            (.err c, self') ∧
          insertAll H entries (run H calls new) = (.ok (), self') ∧
          self'.entries = insertEntries (run H calls new).entries entries := by
  have hd : DEPTH - 1 ≤ 256 := by omega
  have hinv : (run H calls new).Inv H := run_inv_of_calls hpos hd calls (inv_new hpos)
  refine ⟨insertWithPaths_of_fresh hpos hd hinv entries hf, ?_⟩
  intro element value rest hne hcollides
  exact insertWithPaths_of_collision hpos hd hinv entries hf hne hcollides rest

/-- Two new elements, and one more that has the slot of a stored one. -/
theorem insertWithPaths_chain_sampleCalls :
    (∃ paths, (insertWithPaths sampleHash [(7, ()), (4, ())]
        (run sampleHash sampleCalls new)).1 = .ok paths ∧ paths.length = 2) ∧
      ∃ c, (insertWithPaths sampleHash [(7, ()), (4, ()), (9, ())]
        (run sampleHash sampleCalls new)).1 = .err c := by
  have hf : (run sampleHash sampleCalls new).Fresh
      ([((7 : Element), ()), (4, ())].map Prod.fst) := by
    refine ⟨by simp [Element.NULL_HASH], ?_, ?_⟩
    · simp only [List.map_cons, List.map_nil, List.pairwise_cons, List.mem_singleton, forall_eq]
      exact ⟨by decide +kernel, by simp⟩
    · rw [keys_sampleCalls]
      simp only [List.map_cons, List.map_nil, List.forall_mem_cons, List.not_mem_nil, false_implies,
        implies_true, and_true]
      exact ⟨⟨by decide +kernel, by decide +kernel⟩, by decide +kernel, by decide +kernel⟩
  obtain ⟨⟨paths, hpaths, hlength, -⟩, hcollision⟩ := insertWithPaths_chain sampleHash (by decide)
    (by decide) sampleCalls [(7, ()), (4, ())] hf
  obtain ⟨c, self', hrun, -⟩ := hcollision 9 () [] (by decide) ⟨5, .inl (by
    rw [keys_sampleCalls]
    simp), by decide +kernel⟩
  exact ⟨⟨paths, congrArg Prod.fst hpaths, hlength⟩, c, congrArg Prod.fst hrun⟩

end Tree

end TempoRollup.Smirk
