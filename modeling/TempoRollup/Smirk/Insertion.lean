import TempoRollup.Smirk.Tree

set_option relaxedAutoImplicit false
set_option autoImplicit false

/-!
# The ways an insertion ends

`smirk/src/tree/batch.rs`, `smirk/src/tree/raw_api.rs`, `smirk/src/tree/tree_repr.rs`: what
`insert_batch` does with any batch, the null element included, and what `root_hash_with` says
about it beforehand.

## Main definitions

* `Tree.Collides` — a batch has an element in the slot of a stored one.
* `Tree.Reports` — the documented behaviour of an insertion.

## Main results

* `Tree.insertBatch_cases` — an insertion is refused, panics or succeeds.
* `Tree.run_inv_of_calls` — the invariant after any calls, those with null elements included.
* `Tree.reports_iff` — the documented behaviour, and the batches without it.
* `Tree.run_rootHashWith` — the dry run has the root of the insertion.

## Design

A call that panics leaves the tree as it is at that point, and the tree may be used further. A
tree that is loaded from a database is a new tree with one batch inserted.
-/

open Exec

namespace TempoRollup.Smirk

variable {DEPTH : ℕ} {V : Type}

namespace Tree

variable {H : List Fr → Fr} {self : Tree DEPTH V} {batch : Batch DEPTH V}

/-- Some element of the batch shares its low bits with an element of the tree. -/
def Collides (self : Tree DEPTH V) (batch : Batch DEPTH V) : Prop :=
  ∃ e ∈ self.entries.keys, ∃ b ∈ batch.elements, b.lsb (DEPTH - 1) = e.lsb (DEPTH - 1)

/-- A batch passes the check when it does not collide. -/
lemma checkCollisions_eq_ok_iff_not_collides :
    self.checkCollisions batch = .ok () ↔ ¬ self.Collides batch := by
  rw [checkCollisions_eq_ok_iff, Collides]
  push Not
  rfl

/-! ## Insertion of any batch -/

/-- A batch with the null element that collides with nothing passes the check, and the call of
`unwrap` after it panics. -/
lemma insertBatch_of_null (hok : self.checkCollisions batch = .ok ())
    (hnull : Element.NULL_HASH ∈ batch.elements) : insertBatch H batch self = (.panic, self) := by
  obtain ⟨entry, hentry, heq⟩ := List.mem_map.1 hnull
  have hany : (batch.entries.any fun entry => entry.1 == Element.NULL_HASH) = true := by
    rw [List.any_eq_true]
    exact ⟨entry, hentry, beq_iff_eq.2 heq⟩
  have hempty : batch.entries.isEmpty = false := by
    rw [List.isEmpty_eq_false_iff]
    exact List.ne_nil_of_mem hentry
  have hinsert : insertWithoutHashing H batch.entries self =
      (.err ⟨Element.NULL_HASH, Element.NULL_HASH, DEPTH, .tree⟩, self) := by
    unfold insertWithoutHashing
    rw [hempty, if_neg Bool.false_ne_true, hany, if_pos rfl]
  simp only [insertBatch, Program.run_bind, Program.run_get, Program.run_lift, hok, Program.unwrap,
    hinsert, Outcome.unwrap]

/-- **The ways an insertion ends.** A batch that collides is refused; the null element makes the
insertion of any other batch panic; and the rest is inserted. Only the last changes the tree. -/
theorem insertBatch_cases (hpos : 0 < DEPTH) (hdepth : DEPTH - 1 ≤ 256) (h : self.Inv H)
    (batch : Batch DEPTH V) :
    (self.Collides batch ∧ ∃ c, insertBatch H batch self = (.err c, self)) ∨
      (¬ self.Collides batch ∧ Element.NULL_HASH ∈ batch.elements ∧
        insertBatch H batch self = (.panic, self)) ∨
      ¬ self.Collides batch ∧ Element.NULL_HASH ∉ batch.elements ∧
        ∃ self', insertBatch H batch self = (.ok (), self') ∧ self'.Inv H ∧
          self'.entries = insertEntries self.entries batch.entries := by
  rcases checkCollisions_cases self batch with hok | ⟨c, herr⟩
  · have hfree := checkCollisions_eq_ok_iff_not_collides.1 hok
    by_cases hnull : Element.NULL_HASH ∈ batch.elements
    · exact .inr (.inl ⟨hfree, hnull, insertBatch_of_null hok hnull⟩)
    · have hnn : ∀ e ∈ batch.elements, e ≠ Element.NULL_HASH := by
        rintro e he rfl
        exact hnull he
      exact .inr (.inr ⟨hfree, hnull,
        insertBatch_of_fresh hpos hdepth h ((fresh_elements hdepth hnn).2 hok)⟩)
  · refine .inl ⟨?_, c, ?_⟩
    · by_contra hfree
      rw [checkCollisions_eq_ok_iff_not_collides.2 hfree] at herr
      cases herr
    · simp only [insertBatch, Program.run_bind, Program.run_get, Program.run_lift, herr]

/-! ## Runs of any calls -/

/-- However the insertion of a batch ends, the invariant is kept. -/
lemma Inv.insertBatch (hpos : 0 < DEPTH) (hdepth : DEPTH - 1 ≤ 256) (h : self.Inv H)
    (batch : Batch DEPTH V) : (insertBatch H batch self).2.Inv H := by
  rcases insertBatch_cases hpos hdepth h batch with
    ⟨-, c, hrun⟩ | ⟨-, -, hrun⟩ | ⟨-, -, self', hrun, hinv, -⟩
  · rw [hrun]
    exact h
  · rw [hrun]
    exact h
  · rw [hrun]
    exact hinv

/-- The loop of `insert_with_paths`, wherever it ends. By induction on the entries. -/
lemma Inv.insertWithPaths (hpos : 0 < DEPTH) (hdepth : DEPTH - 1 ≤ 256) (h : self.Inv H)
    (entries : List (Element × V)) : (insertWithPaths H entries self).2.Inv H := by
  induction entries generalizing self with
  | nil => exact h
  | cons entry entries ih =>
    obtain ⟨element, value⟩ := entry
    have hinserted := h.insertBatch hpos hdepth (Batch.single element value)
    simp only [Tree.insertWithPaths, Program.run_bind, insert, Program.run_get, Program.run_lift]
    rcases hrun : Tree.insertBatch H (Batch.single element value) self with ⟨_ | c | _, self'⟩
    · rw [hrun] at hinserted
      obtain ⟨path, hpath, -⟩ := pathFor_spec hpos hdepth hinserted element
      have hrest := ih hinserted
      simp only [hpath, Outcome.unwrap]
      rcases hpaths : Tree.insertWithPaths H entries self' with ⟨paths | c | _, self''⟩
      · rw [hpaths] at hrest
        exact hrest
      · rw [hpaths] at hrest
        exact hrest
      · rw [hpaths] at hrest
        exact hrest
    · rw [hrun] at hinserted
      exact hinserted
    · rw [hrun] at hinserted
      exact hinserted

/-- **One call**, whatever its elements are. -/
lemma Inv.call (hpos : 0 < DEPTH) (hdepth : DEPTH - 1 ≤ 256) (h : self.Inv H)
    (call : Call DEPTH V) : (call.run H self).2.Inv H := by
  cases call with
  | insert element value => exact h.insertBatch hpos hdepth _
  | insertBatch batch => exact h.insertBatch hpos hdepth batch
  | insertWithPaths entries =>
    have hinv := h.insertWithPaths hpos hdepth entries
    simp only [Call.run, Program.run_bind]
    rcases hrun : Tree.insertWithPaths H entries self with ⟨paths | c | _, self'⟩
    · rw [hrun] at hinv
      exact hinv
    · rw [hrun] at hinv
      exact hinv
    · rw [hrun] at hinv
      exact hinv

/-- **A run of any calls** keeps the invariant. By induction on the calls. -/
theorem run_inv_of_calls (hpos : 0 < DEPTH) (hdepth : DEPTH - 1 ≤ 256)
    (calls : List (Call DEPTH V)) (h : self.Inv H) : (run H calls self).Inv H := by
  induction calls generalizing self with
  | nil => exact h
  | cons call calls ih => exact ih (h.call hpos hdepth call)

/-! ## What an insertion reports -/

/-- **The documented behaviour of an insertion**: it does not panic; it fails exactly when the batch
has the null element, which collides with every value, or collides with the tree; and when it
fails the tree is as it was. -/
def Reports (H : List Fr → Fr) (self : Tree DEPTH V) (batch : Batch DEPTH V) : Prop :=
  (insertBatch H batch self).1 ≠ .panic ∧
    ((∃ c, (insertBatch H batch self).1 = .err c) ↔
      Element.NULL_HASH ∈ batch.elements ∨ self.Collides batch) ∧
    ∀ c, (insertBatch H batch self).1 = .err c → (insertBatch H batch self).2 = self

/-- **Exactly the batches that have the null element and collide with nothing** are not reported:
their insertion panics.

**Proof sketch.** By the three ways an insertion goes (`insertBatch_cases`): it reports a collision,
it panics on the null element, or it inserts. -/
theorem reports_iff (H : List Fr → Fr) (hpos : 1 ≤ DEPTH) (hdepth : DEPTH ≤ 257)
    (calls : List (Call DEPTH V)) (batch : Batch DEPTH V) :
    (run H calls new).Reports H batch ↔
      Element.NULL_HASH ∉ batch.elements ∨ (run H calls new).Collides batch := by
  have hd : DEPTH - 1 ≤ 256 := by omega
  have hinv : (run H calls new).Inv H := run_inv_of_calls hpos hd calls (inv_new hpos)
  unfold Reports
  rcases insertBatch_cases hpos hd hinv batch with
    ⟨hcollides, c, hrun⟩ | ⟨hfree, hnull, hrun⟩ | ⟨hfree, hnull, self', hrun, -, -⟩
  · rw [hrun]
    refine ⟨fun _ => .inr hcollides, fun _ => ⟨(fun h => by cases h), ?_, fun _ _ => rfl⟩⟩
    exact ⟨fun _ => .inr hcollides, fun _ => ⟨c, rfl⟩⟩
  · rw [hrun]
    refine ⟨fun h => absurd rfl h.1, fun h => ?_⟩
    rcases h with h | h
    · exact absurd hnull h
    · exact absurd h hfree
  · rw [hrun]
    refine ⟨fun _ => .inl hnull, fun _ => ⟨(fun h => by cases h), ?_, fun c h => by cases h⟩⟩
    constructor
    · rintro ⟨c, h⟩
      cases h
    · rintro (h | h)
      · exact absurd h hnull
      · exact absurd h hfree

/-- The element 1 has the slot of the element 5, which the tree has: the collision is reported. -/
theorem reports_iff_sampleCalls :
    (run sampleHash sampleCalls new).Reports sampleHash (Batch.single 1 ()) := by
  refine (reports_iff sampleHash (by decide) (by decide) sampleCalls (Batch.single 1 ())).2 ?_
  left
  decide

/-- **The null element is not reported**: its insertion in a new tree panics. -/
theorem not_reports_null :
    (insertBatch (fun _ => 0) (Batch.single Element.NULL_HASH ()) (new : Tree 161 Unit)).1 =
      .panic ∧
      ¬ (new : Tree 161 Unit).Reports (fun _ => 0) (Batch.single Element.NULL_HASH ()) := by
  have hpanic : insertBatch (fun _ => 0) (Batch.single Element.NULL_HASH ())
      (new : Tree 161 Unit) = (.panic, new) := by
    refine insertBatch_of_null ?_ List.mem_cons_self
    rw [checkCollisions_eq_ok_iff]
    exact fun e he => absurd he List.not_mem_nil
  refine ⟨congrArg Prod.fst hpanic, fun hreports => hreports.1 (congrArg Prod.fst hpanic)⟩

/-! ## The dry run -/

/-- Elements with different low bits that collide with no key are new. -/
lemma fresh_of_lsb (hdepth : DEPTH - 1 ≤ 256) {elements : List Element}
    (hnn : ∀ e ∈ elements, e ≠ Element.NULL_HASH)
    (hdistinct : elements.Pairwise fun a b => a.lsb (DEPTH - 1) ≠ b.lsb (DEPTH - 1))
    (hfree : ∀ e ∈ self.entries.keys, ∀ b ∈ elements, b.lsb (DEPTH - 1) ≠ e.lsb (DEPTH - 1)) :
    self.Fresh elements := by
  refine ⟨hnn, hdistinct.imp fun hne heq => hne ((Element.lsb_eq_iff _ _ hdepth).2 heq), ?_⟩
  intro e he b hb heq
  exact hfree e he b hb ((Element.lsb_eq_iff _ _ hdepth).2 heq)

/-- New elements stay new in any order. -/
lemma Fresh.perm {elements elements' : List Element} (hf : self.Fresh elements)
    (hperm : elements'.Perm elements) : self.Fresh elements' := by
  refine ⟨fun e he => hf.ne_null e (hperm.mem_iff.1 he), ?_, fun e he b hb =>
    hf.free e he b (hperm.mem_iff.1 hb)⟩
  exact (hperm.pairwise_iff fun hne => Ne.symm hne).2 hf.distinct

/-- Entries with new elements make a batch. -/
lemma Fresh.fromEntries (hdepth : DEPTH - 1 ≤ 256) {entries : List (Element × V)}
    (hf : self.Fresh (entries.map Prod.fst)) :
    ∃ batch : Batch DEPTH V, Batch.fromEntries entries = .ok batch ∧ batch.entries = entries :=
  Batch.fromEntries_of_pairwise hdepth hf.distinct

/-- **The dry run has the root of the insertion.** After any calls, for elements that are not null
and differ from each other and from the keys in their low bits: the entries of a batch with these
elements, in whatever order, are inserted, and the root is then what `root_hash_with` returned for
the elements.

**Proof sketch.** The elements are fresh in the tree, so that the entries make a batch that is
inserted. The dry run computes the root of the keys with the elements, which is that of the tree
afterwards (`rootHashWith_insertBatch`). -/
theorem run_rootHashWith (H : List Fr → Fr) (hpos : 1 ≤ DEPTH) (hdepth : DEPTH ≤ 257)
    (calls : List (Call DEPTH V)) (elements : List Element)
    (hnn : ∀ e ∈ elements, e ≠ Element.NULL_HASH)
    (hdistinct : elements.Pairwise fun a b => a.lsb (DEPTH - 1) ≠ b.lsb (DEPTH - 1))
    (hfree : ∀ e ∈ (run H calls new).entries.keys, ∀ b ∈ elements,
      b.lsb (DEPTH - 1) ≠ e.lsb (DEPTH - 1))
    (entries : List (Element × V)) (hperm : (entries.map Prod.fst).Perm elements) :
    ∃ (batch : Batch DEPTH V) (self' : Tree DEPTH V),
      Batch.fromEntries entries = .ok batch ∧
      insertBatch H batch (run H calls new) = (.ok (), self') ∧
      (run H calls new).rootHashWith H elements = .ok (self'.rootHash H) := by
  have hd : DEPTH - 1 ≤ 256 := by omega
  have hinv : (run H calls new).Inv H := run_inv_of_calls hpos hd calls (inv_new hpos)
  have hf : (run H calls new).Fresh elements := fresh_of_lsb hd hnn hdistinct hfree
  have hf' : (run H calls new).Fresh (entries.map Prod.fst) := hf.perm hperm
  obtain ⟨batch, hbatch, hentries⟩ := hf'.fromEntries hd
  have helements : batch.elements = entries.map Prod.fst := by rw [Batch.elements, hentries]
  obtain ⟨self', hrun, -, -, hroot⟩ := rootHashWith_insertBatch hpos hd hinv (helements ▸ hf') hf
    fun e => by rw [helements]; exact hperm.mem_iff.symm
  exact ⟨batch, self', hbatch, hrun, hroot⟩

/-- Two elements, given to the dry run in one order and inserted in the other. -/
theorem run_rootHashWith_sampleCalls :
    ∃ (batch : Batch 3 Unit) (self' : Tree 3 Unit),
      Batch.fromEntries [(7, ()), (4, ())] = .ok batch ∧
      insertBatch sampleHash batch (run sampleHash sampleCalls new) = (.ok (), self') ∧
      (run sampleHash sampleCalls new).rootHashWith sampleHash [4, 7] =
        .ok (self'.rootHash sampleHash) := by
  have hnn : ∀ e ∈ ([4, 7] : List Element), e ≠ Element.NULL_HASH := by
    simp [Element.NULL_HASH]
  have hdistinct : ([4, 7] : List Element).Pairwise fun a b => a.lsb (3 - 1) ≠ b.lsb (3 - 1) := by
    decide +kernel
  have hfree : ∀ e ∈ (run sampleHash sampleCalls new).entries.keys, ∀ b ∈ ([4, 7] : List Element),
      b.lsb (3 - 1) ≠ e.lsb (3 - 1) := by
    rw [keys_sampleCalls]
    simp only [List.forall_mem_cons, List.not_mem_nil, false_implies, implies_true, and_true]
    exact ⟨⟨by decide +kernel, by decide +kernel⟩, by decide +kernel, by decide +kernel⟩
  have hperm : ([(7, ()), (4, ())].map Prod.fst : List Element).Perm [4, 7] := List.Perm.swap 4 7 []
  exact run_rootHashWith sampleHash (by decide) (by decide) sampleCalls [4, 7] hnn hdistinct hfree
    [(7, ()), (4, ())] hperm

end Tree

end TempoRollup.Smirk
