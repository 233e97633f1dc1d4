import TempoRollup.Smirk.Node

set_option relaxedAutoImplicit false
set_option autoImplicit false

/-!
# The sparse Merkle tree of notes

`smirk/src/tree` and `smirk/src/batch`: batches of elements with pairwise different low bits,
the tree with its sorted map of entries, insertion, and Merkle paths.

## Main definitions

* `Batch`, `Batch.insert`, `Batch.fromEntries` — `batch/mod.rs`.
* `Tree`, `Tree.rootHash`, `Tree.rootHashWith` — `tree/mod.rs`.
* `Tree.checkCollisions`, `Tree.insertWithoutHashing`, `Tree.insertBatch`, `Tree.insert`,
  `Tree.insertWithPaths` — `tree/batch.rs`, `tree/raw_api.rs`, `tree/insert.rs`.
* `Path`, `Path.computeRootHash`, `Tree.pathFor` — `tree/path.rs`.
* `Call`, `Tree.run` — sequences of insertions.
* `occupant` — the reference tree of a list of keys.

## Main results

* `Tree.insertBatch_spec` — a batch of non-null elements is inserted as a whole or refused as
  a whole, and the invariant `Tree.Inv` is kept.
* `Tree.run_rootHash` — after any calls the root is that of the reference tree.
* `Tree.pathFor_proves` — the path of an element proves the occupant of its slot and nothing
  else.

## Design

The hash cache of the source returns `hash_merge`; the callbacks of an insertion are left out.
`DEPTH` is a parameter of the types, as in the source; trees have depth 1 to 257, since an
element has 256 bits.
-/

open Exec

namespace TempoRollup.Smirk

variable {DEPTH : ℕ} {V : Type}

/-! ## Batches -/

/-- `CollisionError`, the list of its collisions. -/
abbrev CollisionError : Type := List Collision

/-- `Batch`. The set `lsbs` of the source holds the low bits of the entries; they are pairwise
different. -/
structure Batch (DEPTH : ℕ) (V : Type) where
  entries : List (Element × V)
  distinct : (entries.map fun entry => entry.1.lsb (DEPTH - 1)).Nodup

namespace Batch

/-- `Batch::new`. -/
def new : Batch DEPTH V := ⟨[], List.nodup_nil⟩

/-- `Batch::elements`. -/
def elements (batch : Batch DEPTH V) : List Element := batch.entries.map Prod.fst

/-- `Batch::find_element_with_lsb`. -/
def findElementWithLsb (batch : Batch DEPTH V) (lsb : List Bool) : Option Element :=
  batch.elements.find? fun e => e.lsb (DEPTH - 1) == lsb

/-- An element whose low bits are not found can be added. -/
lemma nodup_append {batch : Batch DEPTH V} {element : Element} {value : V}
    (h : batch.findElementWithLsb (element.lsb (DEPTH - 1)) = none) :
    ((batch.entries ++ [(element, value)]).map fun entry => entry.1.lsb (DEPTH - 1)).Nodup := by
  rw [List.map_append, List.nodup_append]
  refine ⟨batch.distinct, by simp, ?_⟩
  intro a ha b hb
  obtain ⟨entry, hentry, rfl⟩ := List.mem_map.1 ha
  simp only [List.map_cons, List.map_nil, List.mem_singleton] at hb
  subst hb
  have := List.find?_eq_none.1 h entry.1 (List.mem_map.2 ⟨entry, hentry, rfl⟩)
  simpa using this

/-- `Batch::insert`. -/
def insert (batch : Batch DEPTH V) (element : Element) (value : V) :
    Outcome CollisionError (Batch DEPTH V) :=
  match h : batch.findElementWithLsb (element.lsb (DEPTH - 1)) with
  | some inTree =>
    .err [{ inTree := inTree, inserted := element, depth := DEPTH, structName := .batch }]
  | none => .ok ⟨batch.entries ++ [(element, value)], nodup_append h⟩

/-- `Batch::from_entries`. -/
def fromEntries (entries : List (Element × V)) : Outcome CollisionError (Batch DEPTH V) :=
  entries.foldlM (fun batch entry => batch.insert entry.1 entry.2) new

/-- `batch! { element => value }`, the insertion of one entry into a new batch. -/
def single (element : Element) (value : V) : Batch DEPTH V := ⟨[(element, value)], by simp⟩

/-- An insertion adds its entry, or fails. -/
lemma insert_cases (batch : Batch DEPTH V) (element : Element) (value : V) :
    (∃ batch' : Batch DEPTH V, batch.insert element value = .ok batch' ∧
        batch'.entries = batch.entries ++ [(element, value)]) ∨
      ((∃ e, batch.insert element value = .err e) ∧
        ¬ ((batch.entries ++ [(element, value)]).map fun entry =>
          entry.1.lsb (DEPTH - 1)).Nodup) := by
  unfold insert
  split
  · next inTree h =>
    refine .inr ⟨⟨_, rfl⟩, fun hnodup => ?_⟩
    have hmem : inTree ∈ batch.elements := List.mem_of_find?_eq_some h
    have hlsb : inTree.lsb (DEPTH - 1) = element.lsb (DEPTH - 1) := by
      simpa using List.find?_some h
    obtain ⟨entry, hentry, rfl⟩ := List.mem_map.1 hmem
    rw [List.map_append, List.nodup_append] at hnodup
    exact hnodup.2.2 _ (List.mem_map.2 ⟨entry, hentry, rfl⟩) _ (by simp) hlsb
  · exact .inl ⟨_, rfl, rfl⟩

/-- **Batches from entries.** Entries with different low bits make a batch of these entries;
other entries are refused. -/
lemma fromEntries_spec (entries : List (Element × V)) :
    if (entries.map fun entry => entry.1.lsb (DEPTH - 1)).Nodup then
      ∃ batch : Batch DEPTH V, fromEntries entries = .ok batch ∧ batch.entries = entries
    else ∃ e, (fromEntries entries : Outcome CollisionError (Batch DEPTH V)) = .err e := by
  -- the entries still to come, after those that the batch has
  have hfold : ∀ (entries : List (Element × V)) (start : Batch DEPTH V),
      if ((start.entries ++ entries).map fun entry => entry.1.lsb (DEPTH - 1)).Nodup then
        ∃ batch, entries.foldlM (fun batch entry => batch.insert entry.1 entry.2) start =
          .ok batch ∧ batch.entries = start.entries ++ entries
      else ∃ e, entries.foldlM (fun batch entry => batch.insert entry.1 entry.2) start =
        .err e := by
    intro entries
    induction entries with
    | nil =>
      intro start
      rw [List.append_nil, if_pos start.distinct]
      exact ⟨start, rfl, rfl⟩
    | cons entry entries ih =>
      intro start
      rw [List.foldlM_cons]
      rcases start.insert_cases entry.1 entry.2 with ⟨next, hok, hnext⟩ | ⟨⟨e, herr⟩, hdup⟩
      · have h := ih next
        rw [hnext, List.append_assoc, List.singleton_append] at h
        rw [hok]
        exact h
      · rw [if_neg, herr]
        · exact ⟨e, rfl⟩
        · intro hnodup
          refine hdup (hnodup.sublist (List.Sublist.map _ ?_))
          exact List.Sublist.append_left (List.singleton_sublist.2 List.mem_cons_self) _
  exact hfold entries new

/-- A batch has the entries that it was made from. -/
lemma entries_of_fromEntries {entries : List (Element × V)} {batch : Batch DEPTH V}
    (hok : fromEntries entries = .ok batch) : batch.entries = entries := by
  have hspec := @fromEntries_spec DEPTH V entries
  split_ifs at hspec
  · obtain ⟨batch', hok', hentries⟩ := hspec
    obtain rfl : batch = batch' := Outcome.ok.inj (hok.symm.trans hok')
    exact hentries
  · obtain ⟨c, herr⟩ := hspec
    rw [herr] at hok
    cases hok

/-- Entries with elements in different slots make a batch. -/
lemma fromEntries_of_pairwise (hdepth : DEPTH - 1 ≤ 256) {entries : List (Element × V)}
    (hslots : (entries.map Prod.fst).Pairwise fun a b =>
      a.slot (DEPTH - 1) ≠ b.slot (DEPTH - 1)) :
    ∃ batch : Batch DEPTH V, fromEntries entries = .ok batch ∧ batch.entries = entries := by
  have hnodup : (entries.map fun entry => entry.1.lsb (DEPTH - 1)).Nodup := by
    rw [List.nodup_iff_pairwise_ne, List.pairwise_map]
    refine (List.pairwise_map.1 hslots).imp fun hne heq => hne ?_
    exact (Element.lsb_eq_iff _ _ hdepth).1 heq
  have hspec := @fromEntries_spec DEPTH V entries
  rw [if_pos hnodup] at hspec
  exact hspec

/-- Elements with one value make a batch exactly when they are in different slots. -/
lemma fromEntries_cases (hdepth : DEPTH - 1 ≤ 256) (elements : List Element) (value : V) :
    (elements.Pairwise (fun a b => a.slot (DEPTH - 1) ≠ b.slot (DEPTH - 1)) ∧
      ∃ batch : Batch DEPTH V, fromEntries (elements.map fun e => (e, value)) = .ok batch ∧
        batch.elements = elements) ∨
      (¬ elements.Pairwise (fun a b => a.slot (DEPTH - 1) ≠ b.slot (DEPTH - 1)) ∧
        ∃ e, (fromEntries (elements.map fun e => (e, value)) :
          Outcome CollisionError (Batch DEPTH V)) = .err e) := by
  -- different slots are different low bits
  have hnodup : ((elements.map fun e => (e, value)).map fun entry =>
      entry.1.lsb (DEPTH - 1)).Nodup ↔
        elements.Pairwise fun a b => a.slot (DEPTH - 1) ≠ b.slot (DEPTH - 1) := by
    rw [List.map_map, List.nodup_iff_pairwise_ne, List.pairwise_map]
    exact List.Pairwise.iff fun _ _ => not_congr (Element.lsb_eq_iff _ _ hdepth)
  have hspec := @fromEntries_spec DEPTH V (elements.map fun e => (e, value))
  split_ifs at hspec with h
  · obtain ⟨batch, hok, hentries⟩ := hspec
    refine .inl ⟨hnodup.1 h, batch, hok, ?_⟩
    rw [Batch.elements, hentries, List.map_map]
    exact List.map_id _
  · exact .inr ⟨mt hnodup.2 h, hspec⟩

end Batch

/-! ## The tree -/

/-- `Tree`, without its cache. -/
structure Tree (DEPTH : ℕ) (V : Type) where
  tree : Node
  entries : Std.TreeMap Element V

namespace Tree

variable (H : List Fr → Fr)

/-- `Tree::new`. -/
def new : Tree DEPTH V := ⟨.empty DEPTH, ∅⟩

/-- `Tree::contains_element`. -/
def containsElement (self : Tree DEPTH V) (element : Element) : Bool :=
  self.entries.contains element

/-- `Tree::root_hash`. -/
def rootHash (self : Tree DEPTH V) : Element := self.tree.hash H

/-- `Tree::root_hash_with`. -/
def rootHashWith (self : Tree DEPTH V) (extraElements : List Element) : Outcome Empty Element :=
  self.tree.hashWith H DEPTH extraElements

/-- `Tree::insert_without_hashing`. -/
def insertWithoutHashing (entries : List (Element × V)) :
    Program (Tree DEPTH V) Collision Unit := fun self =>
  if entries.isEmpty then (.ok (), self)
  else if entries.any fun entry => entry.1 == Element.NULL_HASH then
    (.err { inserted := Element.NULL_HASH, inTree := Element.NULL_HASH, depth := DEPTH,
            structName := .tree }, self)
  else
    match entries.find? fun entry => self.entries.contains entry.1 with
    | some (element, _) =>
      (.err { inTree := element, inserted := element, depth := DEPTH, structName := .tree }, self)
    | none =>
      let sorted := sortByBits DEPTH (entries.map Prod.fst)
      let r := self.tree.insertWithoutHashing H DEPTH (sorted.map Prod.fst) (sorted.map Prod.snd) 0
      match r.2 with
      | .ok true =>
        (.ok (), { tree := r.1
                   entries := entries.foldl (fun m entry => m.insert entry.1 entry.2)
                     self.entries })
      | .ok false => (.panic, { self with tree := r.1 })
      | .err collision => (.err collision, { self with tree := r.1 })
      | .panic => (.panic, { self with tree := r.1 })

/-- `Tree::check_collisions`. -/
def checkCollisions (self : Tree DEPTH V) (batch : Batch DEPTH V) : Outcome CollisionError Unit :=
  let collisions := self.entries.keys.filterMap fun treeElement =>
    (batch.findElementWithLsb (treeElement.lsb (DEPTH - 1))).map fun batchElement =>
      { depth := DEPTH, inTree := treeElement, inserted := batchElement, structName := .tree }
  if collisions.isEmpty then .ok () else .err collisions

/-- `Tree::insert_batch`. -/
def insertBatch (batch : Batch DEPTH V) : Program (Tree DEPTH V) CollisionError Unit := do
  let self ← Program.get
  Program.lift (self.checkCollisions batch)
  (insertWithoutHashing H batch.entries).unwrap
  Program.modify fun self => { self with tree := self.tree.recalculateHashes H }

/-- `Tree::insert`. -/
def insert (element : Element) (value : V) : Program (Tree DEPTH V) CollisionError Unit :=
  insertBatch H (Batch.single element value)

end Tree

/-! ## Paths -/

/-- `Path`: the siblings, deepest first, then the element itself. -/
structure Path (DEPTH : ℕ) where
  siblings : List Element
  rootHash : Element
  length_siblings : siblings.length = DEPTH

namespace Path

/-- `Path::siblings_deepest_first`. -/
def siblingsDeepestFirst (self : Path DEPTH) : List Element := self.siblings.take (DEPTH - 1)

/-- `Path::element`. -/
def element (self : Path DEPTH) : Element := self.siblings.getLastD Element.NULL_HASH

/-- `Path::lsb`. -/
def lsb (self : Path DEPTH) : List Bool := self.element.lsb (DEPTH - 1)

/-- `Path::compute_root_hash`. -/
def computeRootHash (H : List Fr → Fr) (self : Path DEPTH) (element : Element) : Element :=
  computeMerkleRoot H element (self.siblingsDeepestFirst.zip self.lsb.reverse)

end Path

/-- Write to an array; a write outside of it panics. -/
def setAt {ε : Type} (siblings : List Element) (index : ℕ) (e : Element) :
    Outcome ε (List Element) :=
  if index < siblings.length then .ok (siblings.set index e) else .panic

/-- The writes at an empty node of the given depth, from `index` on: the hashes of the empty
subtrees below it, the deepest last. -/
def fillEmpty (H : List Fr → Fr) : ℕ → ℕ → List Element → Outcome Empty (List Element)
  | 0, _, siblings => .ok siblings
  | 1, _, siblings => .ok siblings
  | depth + 2, index, siblings => do
    let siblings ← setAt siblings index (emptyTreeHash H (depth + 1))
    fillEmpty H (depth + 1) (index + 1) siblings

/-- The loop of `path_for` over the bits of the element. -/
def walk (H : List Fr → Fr) : Node → List Bool → ℕ → List Element → Outcome Empty (List Element)
  | _, [], _, siblings => .ok siblings
  | .parent left right _ _, bit :: bits, index, siblings =>
    match bit with
    | false => do
      let siblings ← setAt siblings index (right.hash H)
      walk H left bits (index + 1) siblings
    | true => do
      let siblings ← setAt siblings index (left.hash H)
      walk H right bits (index + 1) siblings
  | .empty depth, _ :: _, index, siblings => fillEmpty H depth index siblings
  | .leaf _, _ :: _, _, _ => .panic

/-! The walk keeps the length of the array, so that it ends with an array of length `DEPTH`. -/

/-- Setting a sibling keeps their number. -/
lemma length_of_setAt {siblings siblings' : List Element} {index : ℕ} {e : Element}
    (h : (setAt siblings index e : Outcome Empty (List Element)) = .ok siblings') :
    siblings'.length = siblings.length := by
  unfold setAt at h
  split at h
  · cases h
    exact List.length_set
  · cases h

/-- Filling empty siblings keeps their number. -/
lemma length_of_fillEmpty {H : List Fr → Fr} {depth index : ℕ} {siblings siblings' : List Element}
    (h : fillEmpty H depth index siblings = .ok siblings') :
    siblings'.length = siblings.length := by
  fun_induction fillEmpty H depth index siblings with
  | case1 => cases h; rfl
  | case2 => cases h; rfl
  | case3 siblings depth index ih =>
    obtain ⟨s, hset, hrest⟩ := Outcome.bind_eq_ok.1 h
    rw [ih s hrest, length_of_setAt hset]

/-- A walk keeps the number of siblings. -/
lemma length_of_walk {H : List Fr → Fr} {node : Node} {bits : List Bool} {index : ℕ}
    {siblings siblings' : List Element} (h : walk H node bits index siblings = .ok siblings') :
    siblings'.length = siblings.length := by
  fun_induction walk H node bits index siblings with
  | case1 => cases h; rfl
  | case2 left right _ _ bits index siblings ih =>
    obtain ⟨s, hset, hrest⟩ := Outcome.bind_eq_ok.1 h
    rw [ih s hrest, length_of_setAt hset]
  | case3 left right _ _ bits index siblings ih =>
    obtain ⟨s, hset, hrest⟩ := Outcome.bind_eq_ok.1 h
    rw [ih s hrest, length_of_setAt hset]
  | case4 => exact length_of_fillEmpty h
  | case5 => cases h

/-- The end of `path_for`: the element goes last, and the siblings before it are reversed. -/
def finishPath (DEPTH : ℕ) (siblings : List Element) (element : Element) : List Element :=
  (siblings.take (DEPTH - 1)).reverse ++ [element]

/-- A finished path has the length of the tree's depth. -/
lemma length_finishPath {siblings : List Element} (element : Element) (hpos : 0 < DEPTH)
    (h : siblings.length = (List.replicate DEPTH Element.NULL_HASH).length) :
    (finishPath DEPTH siblings element).length = DEPTH := by
  simp only [finishPath, List.length_append, List.length_reverse, List.length_take, h,
    List.length_replicate, List.length_singleton]
  omega

namespace Tree

/-- `Tree::path_for`. -/
def pathFor (H : List Fr → Fr) (self : Tree DEPTH V) (element : Element) :
    Outcome Empty (Path DEPTH) :=
  match h : walk H self.tree (element.lsb (DEPTH - 1)) 0
      (List.replicate DEPTH Element.NULL_HASH) with
  | .ok siblings =>
    -- there is no last sibling to write to in an empty array
    if hpos : 0 < DEPTH then
      .ok { siblings := finishPath DEPTH siblings element
            rootHash := self.rootHash H
            length_siblings := length_finishPath element hpos (length_of_walk h) }
    else .panic
  | .err e => .err e
  | .panic => .panic

/-- `Tree::insert_with_paths`. -/
def insertWithPaths (H : List Fr → Fr) :
    List (Element × V) → Program (Tree DEPTH V) CollisionError (List (Path DEPTH))
  | [] => pure []
  | (element, value) :: entries => do
    insert H element value
    let self ← Program.get
    let path ← Program.lift (self.pathFor H element).unwrap
    let paths ← insertWithPaths H entries
    pure (path :: paths)

end Tree

/-! ## The invariant -/

/-- The reference tree of a list of keys: the key with the given slot, or the null element. -/
def occupant (n : ℕ) (keys : List Element) (s : ℕ) : Element :=
  (keys.find? fun e => e.slot n == s).getD Element.NULL_HASH

section Occupant

variable {n : ℕ} {keys keys' : List Element}

/-- No two of the keys have the same slot. -/
def SlotDistinct (n : ℕ) (keys : List Element) : Prop :=
  ∀ a ∈ keys, ∀ b ∈ keys, a.slot n = b.slot n → a = b

/-- The occupant of a key's slot is the key. -/
lemma occupant_of_mem (h : SlotDistinct n keys) {e : Element} (he : e ∈ keys) :
    occupant n keys (e.slot n) = e := by
  unfold occupant
  rcases hfind : keys.find? fun a => a.slot n == e.slot n with _ | a
  · exact absurd (List.find?_eq_none.1 hfind e he) (by simp)
  · have hslot : a.slot n = e.slot n := by simpa using List.find?_some hfind
    rw [hfind]
    exact h a (List.mem_of_find?_eq_some hfind) e he hslot

/-- A slot without a key is empty. -/
lemma occupant_of_forall_ne {s : ℕ} (h : ∀ e ∈ keys, e.slot n ≠ s) :
    occupant n keys s = Element.NULL_HASH := by
  unfold occupant
  rw [List.find?_eq_none.2 fun e he => by simpa using h e he]
  rfl

/-- The occupant of a slot is a key with that slot, or null. -/
lemma occupant_cases (n : ℕ) (keys : List Element) (s : ℕ) :
    (occupant n keys s ∈ keys ∧ (occupant n keys s).slot n = s) ∨
      (occupant n keys s = Element.NULL_HASH ∧ ∀ e ∈ keys, e.slot n ≠ s) := by
  unfold occupant
  rcases hfind : keys.find? fun a => a.slot n == s with _ | a
  · rw [hfind]
    exact .inr ⟨rfl, fun e he => by simpa using List.find?_eq_none.1 hfind e he⟩
  · rw [hfind]
    exact .inl ⟨List.mem_of_find?_eq_some hfind, by simpa using List.find?_some hfind⟩

/-- The reference tree depends on the set of keys only. -/
lemma occupant_congr (h : SlotDistinct n keys) (hmem : ∀ e, e ∈ keys' ↔ e ∈ keys) :
    occupant n keys' = occupant n keys := by
  funext s
  rcases occupant_cases n keys' s with ⟨hkey, hslot⟩ | ⟨hnull, hne⟩
  · have := occupant_of_mem h ((hmem _).1 hkey)
    rw [hslot] at this
    exact this.symm
  · rw [hnull, occupant_of_forall_ne fun e he => hne e ((hmem e).2 he)]

/-- One more key changes the occupant of its own slot only. -/
lemma occupant_insert_of_ne (h : SlotDistinct n keys) {e : Element}
    (hmem : ∀ a, a ∈ keys' ↔ a ∈ keys ∨ a = e) {s : ℕ} (hs : s ≠ e.slot n) :
    occupant n keys' s = occupant n keys s := by
  rcases occupant_cases n keys' s with ⟨hkey, hslot⟩ | ⟨hnull, hne⟩
  · rcases (hmem _).1 hkey with hold | hnew
    · have := occupant_of_mem h hold
      rw [hslot] at this
      exact this.symm
    · exact absurd (by rw [← hslot, hnew]) hs
  · rw [hnull, occupant_of_forall_ne fun a ha => hne a ((hmem a).2 (.inl ha))]

end Occupant

namespace Tree

variable {H : List Fr → Fr} {self : Tree DEPTH V}

/-- **The invariant of a tree**: the keys are not null and have different slots, the nodes
represent the reference tree of the keys, and every hash is up to date. -/
structure Inv (H : List Fr → Fr) (t : Tree DEPTH V) : Prop where
  ne_null : ∀ e ∈ t.entries.keys, e ≠ Element.NULL_HASH
  distinct : SlotDistinct (DEPTH - 1) t.entries.keys
  shape : Shape (occupant (DEPTH - 1) t.entries.keys) t.tree (DEPTH - 1) 0
  clean : t.tree.Clean H

/-- The empty tree. -/
lemma inv_new (hpos : 0 < DEPTH) : (new : Tree DEPTH V).Inv H := by
  have hkeys : (new : Tree DEPTH V).entries.keys = [] := rfl
  have hdepth : DEPTH = DEPTH - 1 + 1 := by omega
  refine ⟨?_, ?_, ?_, trivial⟩
  · rw [hkeys]
    exact fun e he => absurd he (List.not_mem_nil)
  · rw [hkeys]
    exact fun e he => absurd he (List.not_mem_nil)
  · rw [hkeys]
    change Shape _ (.empty DEPTH) _ _
    rw [hdepth]
    exact .empty fun s _ => rfl

/-- The keys after an insertion of entries. -/
lemma mem_foldl_insert (entries : List (Element × V)) (m : Std.TreeMap Element V) (e : Element) :
    e ∈ (entries.foldl (fun m entry => m.insert entry.1 entry.2) m).keys ↔
      e ∈ m.keys ∨ e ∈ entries.map Prod.fst := by
  induction entries generalizing m with
  | nil => simp
  | cons entry entries ih =>
    rw [List.foldl_cons, ih, Std.TreeMap.mem_keys, Std.TreeMap.mem_insert, Std.TreeMap.mem_keys]
    simp only [Std.LawfulEqCmp.compare_eq_iff_eq, List.map_cons, List.mem_cons]
    constructor
    · rintro ((rfl | h) | h)
      · exact .inr (.inl rfl)
      · exact .inl h
      · exact .inr (.inr h)
    · rintro (h | rfl | h)
      · exact .inl (.inr h)
      · exact .inl (.inl rfl)
      · exact .inr h

/-- A batch collides with no key exactly when the check passes. -/
lemma checkCollisions_eq_ok_iff (self : Tree DEPTH V) (batch : Batch DEPTH V) :
    self.checkCollisions batch = .ok () ↔
      ∀ e ∈ self.entries.keys, ∀ b ∈ batch.elements, b.lsb (DEPTH - 1) ≠ e.lsb (DEPTH - 1) := by
  unfold checkCollisions
  have hnil : (self.entries.keys.filterMap fun treeElement =>
      (batch.findElementWithLsb (treeElement.lsb (DEPTH - 1))).map fun batchElement =>
        ({ depth := DEPTH, inTree := treeElement, inserted := batchElement,
           structName := .tree } : Collision)) = [] ↔
      ∀ e ∈ self.entries.keys, ∀ b ∈ batch.elements, b.lsb (DEPTH - 1) ≠ e.lsb (DEPTH - 1) := by
    rw [List.filterMap_eq_nil_iff]
    refine forall₂_congr fun e _ => ?_
    rw [Option.map_eq_none_iff, Batch.findElementWithLsb, List.find?_eq_none]
    simp
  rw [← hnil]
  simp only
  split
  · next h => simpa using h
  · next h => simpa using h

/-- The check for collisions passes or fails with one. -/
lemma checkCollisions_cases (self : Tree DEPTH V) (batch : Batch DEPTH V) :
    self.checkCollisions batch = .ok () ∨ ∃ c, self.checkCollisions batch = .err c := by
  unfold checkCollisions
  simp only
  split
  · exact .inl rfl
  · exact .inr ⟨_, rfl⟩

/-! ## Insertion -/

/-- The entries after the insertion of a list of them. -/
abbrev insertEntries (m : Std.TreeMap Element V) (entries : List (Element × V)) :
    Std.TreeMap Element V :=
  entries.foldl (fun m entry => m.insert entry.1 entry.2) m

/-- The entries after an insertion of a list without duplicate keys. -/
lemma getElem?_insertEntries {kvs : List (Element × V)} (hnodup : (kvs.map Prod.fst).Nodup)
    (m : Std.TreeMap Element V) (e : Element) (x : V) :
    (insertEntries m kvs)[e]? = some x ↔
      (e, x) ∈ kvs ∨ (e ∉ kvs.map Prod.fst ∧ m[e]? = some x) := by
  induction kvs generalizing m with
  | nil => simp
  | cons kv kvs ih =>
    rw [List.map_cons, List.nodup_cons] at hnodup
    obtain ⟨e', x'⟩ := kv
    refine (ih hnodup.2 _).trans ?_
    rw [Std.TreeMap.getElem?_insert, List.map_cons, List.mem_cons, List.mem_cons, Prod.mk.injEq,
      not_or]
    simp only [Std.LawfulEqCmp.compare_eq_iff_eq]
    by_cases he : e' = e
    · subst he
      have hnot : ∀ y, (e', y) ∉ kvs := fun y hy => hnodup.1 (List.mem_map.2 ⟨_, hy, rfl⟩)
      simp only [hnot, if_true, Option.some.injEq, true_and, not_true_eq_false, false_and,
        or_false, false_or, hnodup.1, not_false_eq_true]
      exact eq_comm
    · simp only [if_neg he, Ne.symm he, false_and, false_or, not_false_eq_true, true_and]

/-- New elements for a tree: they are not null, and their slots differ from each other and from
those of the keys. -/
structure Fresh (t : Tree DEPTH V) (elements : List Element) : Prop where
  ne_null : ∀ e ∈ elements, e ≠ Element.NULL_HASH
  distinct : elements.Pairwise fun a b => a.slot (DEPTH - 1) ≠ b.slot (DEPTH - 1)
  free : ∀ e ∈ t.entries.keys, ∀ b ∈ elements, b.slot (DEPTH - 1) ≠ e.slot (DEPTH - 1)

section Insert

variable {batch : Batch DEPTH V} {elements keys : List Element}

/-- Elements that differ pairwise in their slots. -/
lemma slotDistinct_of_pairwise {n : ℕ}
    (h : elements.Pairwise fun a b => a.slot n ≠ b.slot n) : SlotDistinct n elements := by
  intro a ha b hb hab
  by_contra hne
  have : Std.Symm fun a b : Element => a.slot n ≠ b.slot n := ⟨fun _ _ => Ne.symm⟩
  exact h.forall ha hb hne hab

/-- The elements of a batch that passes the check are new. -/
lemma fresh_elements (hdepth : DEPTH - 1 ≤ 256)
    (hnn : ∀ e ∈ batch.elements, e ≠ Element.NULL_HASH) :
    self.Fresh batch.elements ↔ self.checkCollisions batch = .ok () := by
  have hslot : (∀ e ∈ self.entries.keys, ∀ b ∈ batch.elements,
      b.slot (DEPTH - 1) ≠ e.slot (DEPTH - 1)) ↔ self.checkCollisions batch = .ok () := by
    rw [checkCollisions_eq_ok_iff]
    simp only [ne_eq, Element.lsb_eq_iff _ _ hdepth]
  refine ⟨fun h => hslot.1 h.free, fun h => ⟨hnn, ?_, hslot.2 h⟩⟩
  have hdistinct := batch.distinct
  rw [Batch.elements, List.pairwise_map]
  rw [List.nodup_iff_pairwise_ne, List.pairwise_map] at hdistinct
  exact hdistinct.imp fun hne heq => hne ((Element.lsb_eq_iff _ _ hdepth).2 heq)

/-- The keys of a tree and new elements have different slots. -/
lemma Fresh.slotDistinct (hf : self.Fresh elements) (h : self.Inv H)
    (hkeys : ∀ e, e ∈ keys ↔ e ∈ self.entries.keys ∨ e ∈ elements) :
    SlotDistinct (DEPTH - 1) keys := by
  intro a ha b hb hab
  rw [hkeys] at ha hb
  rcases ha with ha | ha <;> rcases hb with hb | hb
  · exact h.distinct a ha b hb hab
  · exact absurd hab.symm (hf.free a ha b hb)
  · exact absurd hab (hf.free b hb a ha)
  · exact slotDistinct_of_pairwise hf.distinct a ha b hb hab

/-- Sorted new elements can be inserted at the root. -/
lemma Fresh.insertable (hdepth : DEPTH - 1 ≤ 256) (hf : self.Fresh elements) (h : self.Inv H)
    (hkeys : ∀ e, e ∈ keys ↔ e ∈ self.entries.keys ∨ e ∈ elements) :
    Insertable (occupant (DEPTH - 1) self.entries.keys) (occupant (DEPTH - 1) keys) (DEPTH - 1)
      (DEPTH - 1) 0 ((sortByBits DEPTH elements).map Prod.fst) := by
  have hdist := hf.slotDistinct h hkeys
  have hmem : ∀ e, e ∈ (sortByBits DEPTH elements).map Prod.fst ↔ e ∈ elements :=
    fun e => (sortByBits_perm DEPTH elements).mem_iff
  refine ⟨placed_sortByBits hdepth hf.distinct, ?_, ?_, ?_, ?_⟩
  · intro e he
    exact hf.ne_null e ((hmem e).1 he)
  · intro e he
    exact occupant_of_forall_ne fun a ha hslot => hf.free a ha e ((hmem e).1 he) hslot.symm
  · intro e he
    exact occupant_of_mem hdist ((hkeys e).2 (.inr ((hmem e).1 he)))
  · intro s _ hs
    -- an occupied slot that no new element has is the slot of an old key
    rcases occupant_cases (DEPTH - 1) self.entries.keys s with ⟨hkey, hslot⟩ | ⟨hnull, hne⟩
    · have := occupant_of_mem hdist ((hkeys _).2 (.inl hkey))
      rwa [hslot] at this
    · rw [hnull]
      refine occupant_of_forall_ne fun e he => ?_
      rcases (hkeys e).1 he with he | he
      · exact hne e he
      · exact hs e ((hmem e).2 he)

/-- **The root hash** is that of the reference tree of the keys. -/
lemma Inv.rootHash_eq (h : self.Inv H) :
    self.rootHash H =
      SparseMerkle.root (merge H) (occupant (DEPTH - 1) self.entries.keys) (DEPTH - 1) :=
  h.shape.hash_eq h.clean

/-- **The root hash with new elements** is that of the reference tree of the keys and the new
elements. -/
lemma rootHashWith_spec (hdepth : DEPTH - 1 ≤ 256) (h : self.Inv H)
    (hf : self.Fresh elements)
    (hkeys : ∀ e, e ∈ keys ↔ e ∈ self.entries.keys ∨ e ∈ elements) :
    self.rootHashWith H elements =
      .ok (SparseMerkle.root (merge H) (occupant (DEPTH - 1) keys) (DEPTH - 1)) := by
  have hspec := Node.hashWithInner_spec (p := 0) hdepth (by omega) h.shape h.clean _
    (hf.insertable hdepth h hkeys)
  rw [← sortByBits_snd] at hspec
  exact hspec

/-- The slots with an occupant are those of the keys. -/
lemma Inv.occupant_ne_null_iff (h : self.Inv H) (s : ℕ) :
    occupant (DEPTH - 1) self.entries.keys s ≠ Element.NULL_HASH ↔
      ∃ key ∈ self.entries.keys, key.slot (DEPTH - 1) = s := by
  constructor
  · intro hne
    rcases occupant_cases (DEPTH - 1) self.entries.keys s with ⟨hkey, hslot⟩ | ⟨hnull, -⟩
    · exact ⟨_, hkey, hslot⟩
    · exact absurd hnull hne
  · rintro ⟨key, hkey, rfl⟩
    rw [occupant_of_mem h.distinct hkey]
    exact h.ne_null key hkey

/-- **When a dry run returns**: exactly when no two elements have the same free slot. -/
lemma rootHashWith_returns_iff (hdepth : DEPTH - 1 ≤ 256) (h : self.Inv H) :
    (∃ root, self.rootHashWith H elements = .ok root) ↔
      elements.Pairwise fun a b => a.slot (DEPTH - 1) = b.slot (DEPTH - 1) →
        ∃ key ∈ self.entries.keys, key.slot (DEPTH - 1) = a.slot (DEPTH - 1) := by
  have hperm := sortByBits_perm DEPTH elements
  have hiff := Node.hashWithInner_returns_iff (H := H) (p := 0) hdepth (by omega) h.shape
    (@gathered_sortByBits DEPTH elements hdepth)
  rw [← sortByBits_snd] at hiff
  simp only [h.occupant_ne_null_iff] at hiff
  refine hiff.trans (hperm.pairwise_iff fun hab heq => ?_)
  rw [heq]
  exact hab heq.symm

/-- Non-null elements whose slots are free have a root only if they are new. -/
lemma fresh_of_rootHashWith (hdepth : DEPTH - 1 ≤ 256) (h : self.Inv H)
    (hnn : ∀ e ∈ elements, e ≠ Element.NULL_HASH)
    (hfree : ∀ e ∈ self.entries.keys, ∀ b ∈ elements, b.slot (DEPTH - 1) ≠ e.slot (DEPTH - 1))
    {root : Element} (hok : self.rootHashWith H elements = .ok root) : self.Fresh elements := by
  refine ⟨hnn, ?_, hfree⟩
  refine ((rootHashWith_returns_iff hdepth h).1 ⟨root, hok⟩).imp_of_mem fun ha _ hab heq => ?_
  obtain ⟨key, hkey, hslot⟩ := hab heq
  exact hfree key hkey _ ha hslot.symm

/-- **A dry run with a taken slot**: an element that shares its slot with a key does not change
the root. -/
lemma rootHashWith_of_taken (hdepth : DEPTH - 1 ≤ 256) (h : self.Inv H) {e key : Element}
    (hkey : key ∈ self.entries.keys) (hslot : e.slot (DEPTH - 1) = key.slot (DEPTH - 1)) :
    self.rootHashWith H [e] = .ok (self.rootHash H) := by
  have hsort : sortByBits DEPTH [e] = [(e, e.lsb (DEPTH - 1))] := List.mergeSort_singleton _
  unfold rootHashWith Node.hashWith
  rw [hsort]
  refine Node.hashWithInner_of_taken hdepth (by omega) h.shape h.clean
    (Nat.div_eq_of_lt (e.slot_lt _)) ?_
  rw [hslot, occupant_of_mem h.distinct hkey]
  exact h.ne_null key hkey

/-- A batch that passes the check is inserted, and the nodes above it are marked. -/
lemma insertWithoutHashing_spec (hpos : 0 < DEPTH) (hdepth : DEPTH - 1 ≤ 256) (h : self.Inv H)
    (hf : self.Fresh batch.elements) :
    ∃ node, insertWithoutHashing H batch.entries self =
        (.ok (), ⟨node, insertEntries self.entries batch.entries⟩) ∧
      Shape (occupant (DEPTH - 1) (insertEntries self.entries batch.entries).keys) node
        (DEPTH - 1) 0 ∧ node.MaybeDirty H := by
  unfold insertWithoutHashing
  by_cases hempty : batch.entries = []
  · refine ⟨self.tree, by simp [hempty], ?_, h.clean.maybeDirty⟩
    simpa [hempty] using h.shape
  have hnull : (batch.entries.any fun entry => entry.1 == Element.NULL_HASH) = false := by
    rw [List.any_eq_false]
    intro entry hentry
    simpa using hf.ne_null entry.1 (List.mem_map.2 ⟨entry, hentry, rfl⟩)
  have hnew : (batch.entries.find? fun entry => self.entries.contains entry.1) = none := by
    rw [List.find?_eq_none]
    intro entry hentry hcontains
    have hkey : entry.1 ∈ self.entries.keys := by
      rw [Std.TreeMap.mem_keys]
      exact Std.TreeMap.contains_iff_mem.1 hcontains
    exact hf.free entry.1 hkey entry.1 (List.mem_map.2 ⟨entry, hentry, rfl⟩) rfl
  have hne : (sortByBits DEPTH batch.elements).map Prod.fst ≠ [] := by
    intro hnil
    have := (sortByBits_perm DEPTH batch.elements).length_eq
    rw [hnil] at this
    simp only [Batch.elements, List.length_nil, List.length_map] at this
    exact hempty (List.length_eq_zero_iff.1 this.symm)
  obtain ⟨hres, hshape, hdirty⟩ := Node.insertWithoutHashing_spec (p := 0) hdepth (by omega)
    h.shape h.clean _ hne (hf.insertable hdepth h (mem_foldl_insert batch.entries _))
  rw [← sortByBits_snd, show DEPTH - 1 + 1 = DEPTH by omega] at hres hshape hdirty
  refine ⟨_, ?_, hshape, hdirty⟩
  rw [if_neg (by simpa using hempty), if_neg (by rw [hnull]; exact Bool.false_ne_true), hnew]
  simp only [Batch.elements] at hres ⊢
  rw [hres]

/-- A batch of new elements is inserted, and the invariant holds again. -/
lemma insertBatch_of_fresh (hpos : 0 < DEPTH) (hdepth : DEPTH - 1 ≤ 256) (h : self.Inv H)
    (hf : self.Fresh batch.elements) :
    ∃ self', insertBatch H batch self = (.ok (), self') ∧ self'.Inv H ∧
      self'.entries = insertEntries self.entries batch.entries := by
  have hok := (fresh_elements hdepth hf.ne_null).1 hf
  obtain ⟨node, hrun, hshape, hdirty⟩ := insertWithoutHashing_spec hpos hdepth h hf
  refine ⟨⟨node.recalculateHashes H, insertEntries self.entries batch.entries⟩, ?_, ?_, rfl⟩
  · simp only [insertBatch, Program.run_bind, Program.run_get, Program.run_lift, hok,
      Program.unwrap, hrun, Outcome.unwrap, Program.run_modify]
  · refine ⟨?_, hf.slotDistinct h (mem_foldl_insert batch.entries _), hshape.recalculateHashes,
      Node.recalculateHashes_spec hdirty⟩
    intro e he
    rcases (mem_foldl_insert _ _ e).1 he with he | he
    · exact h.ne_null e he
    · exact hf.ne_null e he

/-- **Insertion of a batch.** A batch of non-null elements is refused, with the tree as it was,
when one of them collides with a key; otherwise all of them are inserted, and the invariant
holds again. -/
theorem insertBatch_spec (hpos : 0 < DEPTH) (hdepth : DEPTH - 1 ≤ 256) (h : self.Inv H)
    (hnn : ∀ e ∈ batch.elements, e ≠ Element.NULL_HASH) :
    (∃ c, insertBatch H batch self = (.err c, self)) ∨
      ∃ self', insertBatch H batch self = (.ok (), self') ∧ self'.Inv H ∧
        self'.entries = insertEntries self.entries batch.entries := by
  rcases checkCollisions_cases self batch with hok | ⟨c, herr⟩
  · exact .inr (insertBatch_of_fresh hpos hdepth h ((fresh_elements hdepth hnn).2 hok))
  · refine .inl ⟨c, ?_⟩
    simp only [insertBatch, Program.run_bind, Program.run_get, Program.run_lift, herr]

/-- **Roots and insertion.** After the insertion of new elements the root is what
`root_hash_with` said, in whatever order it was given them. -/
lemma rootHashWith_insertBatch (hpos : 0 < DEPTH) (hdepth : DEPTH - 1 ≤ 256) (h : self.Inv H)
    (hf : self.Fresh batch.elements) (hf' : self.Fresh elements)
    (hmem : ∀ e, e ∈ elements ↔ e ∈ batch.elements) :
    ∃ self', insertBatch H batch self = (.ok (), self') ∧ self'.Inv H ∧
      self'.entries = insertEntries self.entries batch.entries ∧
      self.rootHashWith H elements = .ok (self'.rootHash H) := by
  obtain ⟨self', hrun, hinv, hentries⟩ := insertBatch_of_fresh hpos hdepth h hf
  refine ⟨self', hrun, hinv, hentries, ?_⟩
  rw [hinv.rootHash_eq]
  refine rootHashWith_spec hdepth h hf' fun e => ?_
  rw [hentries, mem_foldl_insert, hmem e]
  rfl

end Insert

/-! ## Paths -/

section Paths

variable {T : ℕ → Element} {node : Node} {k i p : ℕ}

/-- One write of the walk: the sibling at `p` stands between those before and those after. -/
lemma take_set_append (siblings rest : List Element) (x : Element) (hp : p < siblings.length) :
    (siblings.set p x).take (p + 1) ++ rest ++ (siblings.set p x).drop (p + 1 + k) =
      siblings.take p ++ (x :: rest) ++ siblings.drop (p + (k + 1)) := by
  rw [List.take_add_one, List.getElem?_set_self hp, List.drop_set_of_lt (by omega),
    List.take_set_of_le (by omega), show p + 1 + k = p + (k + 1) by omega]
  simp

/-- A sibling is set in range. -/
lemma setAt_of_lt (siblings : List Element) (x : Element) (hp : p < siblings.length) :
    (setAt siblings p x : Outcome Empty (List Element)) = .ok (siblings.set p x) :=
  if_pos hp

/-- The siblings of a slot up to height `k`, from the top. -/
def siblingsFromTop (H : List Fr → Fr) (T : ℕ → Element) (s k : ℕ) : List Element :=
  ((SparseMerkle.path (merge H) T 0 s k).map Prod.fst).reverse

/-- The siblings of one more level. -/
lemma siblingsFromTop_succ (H : List Fr → Fr) (T : ℕ → Element) (s k : ℕ) :
    siblingsFromTop H T s (k + 1) =
      SparseMerkle.node (merge H) T k (SparseMerkle.sibling (s / 2 ^ k)) ::
        siblingsFromTop H T s k := by
  rw [siblingsFromTop, SparseMerkle.path_succ]
  simp [siblingsFromTop]

/-- The siblings below an empty node are the hashes of empty trees. -/
lemma fillEmpty_spec {s : ℕ} (hs : s / 2 ^ k = i)
    (hnull : ∀ s, s / 2 ^ k = i → T s = Element.NULL_HASH) (siblings : List Element)
    (hlen : p + k < siblings.length) :
    fillEmpty H (k + 1) p siblings =
      .ok (siblings.take p ++ siblingsFromTop H T s k ++ siblings.drop (p + k)) := by
  induction k generalizing i p siblings with
  | zero => simp [fillEmpty, siblingsFromTop, SparseMerkle.path]
  | succ k ih =>
    have hdiv : s / 2 ^ k / 2 = i := by rw [← div_two_pow_succ]; exact hs
    have hbelow : ∀ j, j / 2 = i → ∀ s, s / 2 ^ k = j → T s = Element.NULL_HASH :=
      fun j hj s hsj => hnull s (by rw [div_two_pow_succ, hsj]; exact hj)
    have hsib : SparseMerkle.sibling (s / 2 ^ k) / 2 = i := by
      rw [SparseMerkle.sibling]
      split <;> omega
    have hhash := node_eq_emptyTreeHash (H := H) (hbelow _ hsib)
    unfold fillEmpty
    rw [setAt_of_lt _ _ (by omega), Outcome.ok_bind,
      ih rfl (hbelow _ hdiv) _ (by rw [List.length_set]; omega),
      take_set_append _ _ _ (by omega), siblingsFromTop_succ, hhash]

/-- The walk from a place to a slot below it writes the siblings of the slot.

**Proof sketch.** At a parent the sibling is the node beside the one that the bit leads to. At an
empty subtree the rest of the siblings are those of empty trees (`fillEmpty_spec`). -/
lemma walk_spec {n : ℕ} (hn : n ≤ 256) (hp : p + k = n) (hshape : Shape T node k i)
    (hclean : node.Clean H) (e : Element) (hs : e.slot n / 2 ^ k = i) (siblings : List Element)
    (hlen : siblings.length = n + 1) :
    walk H node ((e.lsb n).drop p) p siblings =
      .ok (siblings.take p ++ siblingsFromTop H T (e.slot n) k ++ siblings.drop n) := by
  have hbits : (e.lsb n).length = n := e.length_lsb hn
  induction hshape generalizing p siblings with
  | leaf he hne =>
    obtain rfl : p = n := by omega
    rw [List.drop_of_length_le (by omega)]
    simp [walk, siblingsFromTop, SparseMerkle.path]
  | @empty k i hnull =>
    subst hp
    rw [← fillEmpty_spec hs hnull siblings (by omega)]
    rcases hdrop : (e.lsb (p + k)).drop p with _ | ⟨b, bits⟩
    · -- no bits are left at depth 1
      obtain rfl : k = 0 := by
        have := congrArg List.length hdrop
        rw [List.length_drop, hbits, List.length_nil] at this
        omega
      rfl
    · rfl
  | @parent l r _ _ k i hl hr ihl ihr =>
    obtain ⟨-, -, hcl, hcr⟩ := hclean
    have hbit := slot_div_two_pow e hn hp hs
    have hlt : p < (e.lsb n).length := by omega
    rw [List.getD_eq_getElem?_getD, List.getElem?_eq_getElem hlt, Option.getD_some] at hbit
    rw [List.drop_eq_getElem_cons hlt, siblingsFromTop_succ]
    cases hb : (e.lsb n)[p] with
    | false =>
      rw [hb, Bool.toNat_false, Nat.add_zero] at hbit
      have hsib : SparseMerkle.sibling (e.slot n / 2 ^ k) = 2 * i + 1 := by
        rw [hbit, SparseMerkle.sibling, if_neg (by omega)]
      simp only [walk]
      rw [setAt_of_lt _ _ (by omega), Outcome.ok_bind,
        ihl (by omega) hcl hbit _ (by rw [List.length_set]; exact hlen), hsib, hr.hash_eq hcr]
      congr 1
      have := take_set_append (k := k) siblings (siblingsFromTop H T (e.slot n) k)
        (SparseMerkle.node (merge H) T k (2 * i + 1)) (show p < siblings.length by omega)
      rwa [show p + 1 + k = n by omega, show p + (k + 1) = n by omega] at this
    | true =>
      rw [hb, Bool.toNat_true] at hbit
      have hsib : SparseMerkle.sibling (e.slot n / 2 ^ k) = 2 * i := by
        rw [hbit, SparseMerkle.sibling, if_pos (by omega)]
        omega
      simp only [walk]
      rw [setAt_of_lt _ _ (by omega), Outcome.ok_bind,
        ihr (by omega) hcr hbit _ (by rw [List.length_set]; exact hlen), hsib, hl.hash_eq hcl]
      congr 1
      have := take_set_append (k := k) siblings (siblingsFromTop H T (e.slot n) k)
        (SparseMerkle.node (merge H) T k (2 * i)) (show p < siblings.length by omega)
      rwa [show p + 1 + k = n by omega, show p + (k + 1) = n by omega] at this

/-- **The path of an element** is the path of its slot in the reference tree. -/
lemma pathFor_spec (hpos : 0 < DEPTH) (hdepth : DEPTH - 1 ≤ 256) (h : self.Inv H)
    (e : Element) :
    ∃ path, self.pathFor H e = .ok path ∧ path.element = e ∧
      path.rootHash = self.rootHash H ∧
      path.siblingsDeepestFirst =
        (SparseMerkle.path (merge H) (occupant (DEPTH - 1) self.entries.keys) 0
          (e.slot (DEPTH - 1)) (DEPTH - 1)).map Prod.fst := by
  have hwalk := walk_spec (p := 0) hdepth (by omega) h.shape h.clean e
    (Nat.div_eq_of_lt (e.slot_lt _)) (List.replicate DEPTH Element.NULL_HASH)
    (by rw [List.length_replicate]; omega)
  rw [List.drop_zero, List.take_zero, List.nil_append] at hwalk
  have hlen : (siblingsFromTop H (occupant (DEPTH - 1) self.entries.keys) (e.slot (DEPTH - 1))
      (DEPTH - 1)).length = DEPTH - 1 := by
    simp [siblingsFromTop]
  unfold pathFor
  split
  · next siblings hok =>
    rw [hwalk] at hok
    rw [dif_pos hpos]
    refine ⟨_, rfl, ?_, rfl, ?_⟩
    · simp [Path.element, finishPath]
    · have hsib : siblings.take (DEPTH - 1) =
          siblingsFromTop H (occupant (DEPTH - 1) self.entries.keys) (e.slot (DEPTH - 1))
            (DEPTH - 1) := by
        rw [← Outcome.ok.inj hok]
        exact List.take_left' hlen
      have hlen' : (siblingsFromTop H (occupant (DEPTH - 1) self.entries.keys)
          (e.slot (DEPTH - 1)) (DEPTH - 1)).reverse.length = DEPTH - 1 := by
        rw [List.length_reverse, hlen]
      change (finishPath DEPTH siblings e).take (DEPTH - 1) = _
      rw [finishPath, hsib, List.take_left' hlen', siblingsFromTop,
        List.reverse_reverse]
  · next hok =>
    rw [hwalk] at hok
    cases hok
  · next hok =>
    rw [hwalk] at hok
    cases hok

/-- The root a path computes is the fold along the path of the slot. -/
lemma computeRootHash_eq (hdepth : DEPTH - 1 ≤ 256) {T : ℕ → Element} {path : Path DEPTH}
    {e : Element} (he : path.element = e)
    (hsib : path.siblingsDeepestFirst =
      (SparseMerkle.path (merge H) T 0 (e.slot (DEPTH - 1)) (DEPTH - 1)).map Prod.fst)
    (x : Element) :
    path.computeRootHash H x =
      SparseMerkle.foldPath (merge H) x
        (SparseMerkle.path (merge H) T 0 (e.slot (DEPTH - 1)) (DEPTH - 1)) := by
  have hbits : path.lsb.reverse =
      (SparseMerkle.path (merge H) T 0 (e.slot (DEPTH - 1)) (DEPTH - 1)).map Prod.snd := by
    rw [SparseMerkle.map_snd_path, Path.lsb, he, e.reverse_lsb hdepth, Element.slot,
      Bits.toLE_mod]
  rw [Path.computeRootHash, computeMerkleRoot_eq, hsib, hbits, List.zip_map', List.map_id']

end Paths

end Tree

/-! ## Runs -/

/-- A call of one of the insertions. -/
inductive Call (DEPTH : ℕ) (V : Type)
  | insert (element : Element) (value : V)
  | insertBatch (batch : Batch DEPTH V)
  | insertWithPaths (entries : List (Element × V))

namespace Call

/-- The elements a call inserts. -/
def elements : Call DEPTH V → List Element
  | insert element _ => [element]
  | insertBatch batch => batch.elements
  | insertWithPaths entries => entries.map Prod.fst

/-- Make the call. -/
def run (H : List Fr → Fr) : Call DEPTH V → Program (Tree DEPTH V) CollisionError Unit
  | insert element value => Tree.insert H element value
  | insertBatch batch => Tree.insertBatch H batch
  | insertWithPaths entries => do
    let _ ← Tree.insertWithPaths H entries
    pure ()

end Call

namespace Tree

variable {H : List Fr → Fr} {self : Tree DEPTH V}

/-- Make one call after the other, whether they succeed or not. -/
def run (H : List Fr → Fr) (calls : List (Call DEPTH V)) (self : Tree DEPTH V) : Tree DEPTH V :=
  calls.foldl (fun self call => (call.run H self).2) self

/-- What a call does to a tree: it ends without a panic, keeps the invariant, and adds none but
its own elements. -/
def Keeps {α : Type} (H : List Fr → Fr) (elements : List Element) (self : Tree DEPTH V)
    (result : Outcome CollisionError α × Tree DEPTH V) : Prop :=
  result.1.isPanic = false ∧ result.2.Inv H ∧
    ∀ e ∈ result.2.entries.keys, e ∈ self.entries.keys ∨ e ∈ elements

/-- An insertion of a batch ends without a panic, keeps the invariant and adds none but its
elements. -/
lemma keeps_insertBatch (hpos : 0 < DEPTH) (hdepth : DEPTH - 1 ≤ 256) (h : self.Inv H)
    {batch : Batch DEPTH V} (hnn : ∀ e ∈ batch.elements, e ≠ Element.NULL_HASH) :
    Keeps H batch.elements self (insertBatch H batch self) := by
  rcases insertBatch_spec hpos hdepth h hnn with ⟨c, hrun⟩ | ⟨self', hrun, hinv, hentries⟩
  · rw [hrun]
    exact ⟨rfl, h, fun e he => .inl he⟩
  · rw [hrun]
    refine ⟨rfl, hinv, fun e he => ?_⟩
    rw [hentries] at he
    exact (mem_foldl_insert _ _ e).1 he

/-- The loop of `insert_with_paths`, by induction on its entries. -/
lemma keeps_insertWithPaths (hpos : 0 < DEPTH) (hdepth : DEPTH - 1 ≤ 256) (h : self.Inv H)
    (entries : List (Element × V))
    (hnn : ∀ e ∈ entries.map Prod.fst, e ≠ Element.NULL_HASH) :
    Keeps H (entries.map Prod.fst) self (insertWithPaths H entries self) := by
  induction entries generalizing self with
  | nil => exact ⟨rfl, h, fun e he => .inl he⟩
  | cons entry entries ih =>
    obtain ⟨element, value⟩ := entry
    have hone : ∀ e ∈ (Batch.single element value : Batch DEPTH V).elements,
        e ≠ Element.NULL_HASH := fun e he => hnn e (by
      rw [List.mem_singleton.1 he]
      exact List.mem_cons_self)
    simp only [insertWithPaths, Program.run_bind, insert, Program.run_get, Program.run_lift]
    rcases insertBatch_spec hpos hdepth h hone with ⟨c, hrun⟩ | ⟨self', hrun, hinv, hentries⟩
    · rw [hrun]
      exact ⟨rfl, h, fun e he => .inl he⟩
    · obtain ⟨path, hpath, -⟩ := pathFor_spec hpos hdepth hinv element
      obtain ⟨hpanic, hinv', hkeys⟩ :=
        ih hinv fun e he => hnn e (List.mem_cons_of_mem _ he)
      have hkeys' : ∀ e ∈ (insertWithPaths H entries self').2.entries.keys,
          e ∈ self.entries.keys ∨ e ∈ (((element, value) :: entries).map Prod.fst) := by
        intro e he
        rcases hkeys e he with he | he
        · rw [hentries] at he
          rcases (mem_foldl_insert _ _ e).1 he with he | he
          · exact .inl he
          · rw [List.mem_singleton.1 he]
            exact .inr List.mem_cons_self
        · exact .inr (List.mem_cons_of_mem _ he)
      rw [hrun]
      simp only [hpath, Outcome.unwrap]
      rcases hrest : insertWithPaths H entries self' with ⟨paths | c | _, self''⟩
      · rw [hrest] at hinv' hkeys'
        exact ⟨rfl, hinv', hkeys'⟩
      · rw [hrest] at hinv' hkeys'
        exact ⟨rfl, hinv', hkeys'⟩
      · rw [hrest] at hpanic
        cases hpanic

/-- **One call.** -/
lemma keeps_call (hpos : 0 < DEPTH) (hdepth : DEPTH - 1 ≤ 256) (h : self.Inv H)
    (call : Call DEPTH V) (hnn : ∀ e ∈ call.elements, e ≠ Element.NULL_HASH) :
    Keeps H call.elements self (call.run H self) := by
  cases call with
  | insert element value =>
    exact @keeps_insertBatch _ _ _ _ hpos hdepth h (Batch.single element value) hnn
  | insertBatch batch => exact keeps_insertBatch hpos hdepth h hnn
  | insertWithPaths entries =>
    obtain ⟨hpanic, hinv, hkeys⟩ := keeps_insertWithPaths hpos hdepth h entries hnn
    simp only [Call.run, Program.run_bind]
    rcases hrun : insertWithPaths H entries self with ⟨paths | c | _, self'⟩
    · rw [hrun] at hinv hkeys
      exact ⟨rfl, hinv, hkeys⟩
    · rw [hrun] at hinv hkeys
      exact ⟨rfl, hinv, hkeys⟩
    · rw [hrun] at hpanic
      cases hpanic

/-- The leaves are the keys. -/
lemma Inv.leaves_perm (h : self.Inv H) : self.tree.leaves.Perm self.entries.keys := by
  refine (List.perm_ext_iff_of_nodup (h.shape.nodup_leaves (n := DEPTH - 1) ?_)
    Std.TreeMap.nodup_keys).2 ?_
  · intro s hs
    rcases occupant_cases (DEPTH - 1) self.entries.keys s with ⟨-, hslot⟩ | ⟨hnull, -⟩
    · exact hslot
    · exact absurd hnull hs
  · intro e
    rw [h.shape.mem_leaves]
    constructor
    · rintro ⟨hne, s, -, rfl⟩
      rcases occupant_cases (DEPTH - 1) self.entries.keys s with ⟨hkey, -⟩ | ⟨hnull, -⟩
      · exact hkey
      · exact absurd hnull hne
    · intro he
      exact ⟨h.ne_null e he, e.slot (DEPTH - 1), Nat.div_eq_of_lt (e.slot_lt _),
        occupant_of_mem h.distinct he⟩

/-- **A run of calls** keeps the invariant, and the keys come from the calls. -/
lemma run_inv (hpos : 0 < DEPTH) (hdepth : DEPTH - 1 ≤ 256) (calls : List (Call DEPTH V))
    (hnn : ∀ call ∈ calls, ∀ e ∈ call.elements, e ≠ Element.NULL_HASH) (h : self.Inv H) :
    (run H calls self).Inv H ∧
      ∀ e ∈ (run H calls self).entries.keys,
        e ∈ self.entries.keys ∨ ∃ call ∈ calls, e ∈ call.elements := by
  induction calls generalizing self with
  | nil => exact ⟨h, fun e he => .inl he⟩
  | cons call calls ih =>
    obtain ⟨-, hinv, hkeys⟩ := keeps_call hpos hdepth h call (hnn call List.mem_cons_self)
    obtain ⟨hinv', hkeys'⟩ := ih (fun c hc => hnn c (List.mem_cons_of_mem _ hc)) hinv
    refine ⟨hinv', fun e he => ?_⟩
    rcases hkeys' e he with he | ⟨c, hc, he⟩
    · rcases hkeys e he with he | he
      · exact .inl he
      · exact .inr ⟨call, List.mem_cons_self, he⟩
    · exact .inr ⟨c, List.mem_cons_of_mem _ hc, he⟩

/-- **The root of a tree.** After any calls with non-null elements, whether they succeed or not,
the root is that of the reference tree of the stored keys, so that it depends on the set of
keys only; the leaves are the keys; no hash is marked or stale; every subtree has the depth of
its place; and no further call panics.

**Proof sketch.** Every call keeps the invariant (`run_inv`), and by the invariant the nodes have
the shape and the hashes of the reference tree. Its leaves are the occupants of the slots, which
depend on the keys only. -/
theorem run_rootHash (H : List Fr → Fr) (hpos : 1 ≤ DEPTH) (hdepth : DEPTH ≤ 257)
    (calls : List (Call DEPTH V))
    (hnn : ∀ call ∈ calls, ∀ e ∈ call.elements, e ≠ Element.NULL_HASH) :
    ((run H calls new).rootHash H =
        SparseMerkle.root (merge H) (occupant (DEPTH - 1) (run H calls new).entries.keys)
          (DEPTH - 1) ∧
      ∀ e ∈ (run H calls new).entries.keys,
        occupant (DEPTH - 1) (run H calls new).entries.keys (e.slot (DEPTH - 1)) = e) ∧
    (∀ calls' : List (Call DEPTH V),
      (∀ call ∈ calls', ∀ e ∈ call.elements, e ≠ Element.NULL_HASH) →
      (∀ e, (run H calls' new).containsElement e = (run H calls new).containsElement e) →
      (run H calls' new).rootHash H = (run H calls new).rootHash H) ∧
    (run H calls new).tree.leaves.Perm (run H calls new).entries.keys ∧
    (run H calls new).tree.Clean H ∧
    (run H calls new).tree.HasDepth DEPTH ∧
    ∀ call : Call DEPTH V, (∀ e ∈ call.elements, e ≠ Element.NULL_HASH) →
      (call.run H (run H calls new)).1.isPanic = false := by
  have hd : DEPTH - 1 ≤ 256 := by omega
  have hroot : ∀ calls : List (Call DEPTH V),
      (∀ call ∈ calls, ∀ e ∈ call.elements, e ≠ Element.NULL_HASH) →
      (run H calls new).Inv H ∧ (run H calls new).rootHash H =
        SparseMerkle.root (merge H) (occupant (DEPTH - 1) (run H calls new).entries.keys)
          (DEPTH - 1) := by
    intro calls hnn
    obtain ⟨hinv, -⟩ := run_inv hpos hd calls hnn (inv_new hpos)
    exact ⟨hinv, hinv.shape.hash_eq hinv.clean⟩
  obtain ⟨hinv, hr⟩ := hroot calls hnn
  refine ⟨⟨hr, fun e he => occupant_of_mem hinv.distinct he⟩, ?_, hinv.leaves_perm, hinv.clean,
    ?_, ?_⟩
  · intro calls' hnn' hset
    obtain ⟨-, hr'⟩ := hroot calls' hnn'
    have hmem : ∀ e, e ∈ (run H calls' new).entries.keys ↔ e ∈ (run H calls new).entries.keys := by
      intro e
      rw [Std.TreeMap.mem_keys, Std.TreeMap.mem_keys, ← Std.TreeMap.contains_iff_mem,
        ← Std.TreeMap.contains_iff_mem]
      exact Bool.eq_iff_iff.1 (hset e)
    rw [hr', hr, occupant_congr hinv.distinct hmem]
  · have := hinv.shape.hasDepth
    rwa [show DEPTH - 1 + 1 = DEPTH by omega] at this
  · intro call hcall
    exact (keeps_call hpos hd hinv call hcall).1

/-- A hash that tells the two sides of a pair apart. -/
def sampleHash (l : List Fr) : Fr := l.getD 0 0 + 10 * l.getD 1 0 + 1

/-- Calls on a tree of depth 3: the second one collides with the first, and the third fails at
its second entry. -/
def sampleCalls : List (Call 3 Unit) :=
  [.insert 5 (), .insert 1 (), .insertWithPaths [(2, ()), (6, ())]]

/-- No element of the sample is null. -/
lemma ne_null_sampleCalls :
    ∀ call ∈ sampleCalls, ∀ e ∈ call.elements, e ≠ Element.NULL_HASH := by
  simp [sampleCalls, Call.elements, Element.NULL_HASH]

/-- The tree after the sample's calls. -/
lemma keys_sampleCalls : (run sampleHash sampleCalls new).entries.keys = [2, 5] := by
  decide +kernel

/-- The elements 2 and 5 are in the tree, in the slots 2 and 1; with 2 in slot 1 and 5 in slot 2 the
root would be another one. -/
theorem run_rootHash_sampleCalls :
    (run sampleHash sampleCalls new).rootHash sampleHash =
        SparseMerkle.root (merge sampleHash) (occupant 2 [2, 5]) 2 ∧
      SparseMerkle.root (merge sampleHash) (occupant 2 [2, 5]) 2 = 82 ∧
      (run sampleHash sampleCalls new).tree.leaves.Perm [2, 5] := by
  have h := run_rootHash sampleHash (by decide) (by decide) sampleCalls ne_null_sampleCalls
  rw [keys_sampleCalls] at h
  exact ⟨h.1.1, by decide +kernel, h.2.2.1⟩

/-- The pairs hashed in a tree, and on the way of `x` up the path of `e`. -/
def hashedPairs (H : List Fr → Fr) (self : Tree DEPTH V) (e x : Element) :
    Set (Element × Element) :=
  SparseMerkle.nodePairs (merge H) (occupant (DEPTH - 1) self.entries.keys) (DEPTH - 1) ∪
    {q | q ∈ SparseMerkle.pathPairs (merge H) x
      (SparseMerkle.path (merge H) (occupant (DEPTH - 1) self.entries.keys) 0
        (e.slot (DEPTH - 1)) (DEPTH - 1))}

/-- Both elements of a pair are canonical. -/
def CanonicalPair (q : Element × Element) : Prop :=
  q.1.isCanonical = true ∧ q.2.isCanonical = true

/-- The pairs are canonical when the keys and `x` are. -/
lemma canonicalPair_of_mem_hashedPairs {e x : Element}
    (hkeys : ∀ a ∈ self.entries.keys, a.isCanonical = true) (hx : x.isCanonical = true)
    {q : Element × Element} (hq : q ∈ hashedPairs H self e x) : CanonicalPair q := by
  have hT : ∀ s, (occupant (DEPTH - 1) self.entries.keys s).isCanonical = true := by
    intro s
    rcases occupant_cases (DEPTH - 1) self.entries.keys s with ⟨hkey, -⟩ | ⟨hnull, -⟩
    · exact hkeys _ hkey
    · rw [hnull, Element.isCanonical_iff]
      exact Element.prime_MODULUS.pos
  have hh : ∀ a b, (merge H a b).isCanonical = true := fun a b => isCanonical_hashMerge H [a, b]
  rcases hq with hq | hq
  · exact SparseMerkle.of_mem_nodePairs (P := fun a => a.isCanonical = true) hT hh hq
  · have hpath := SparseMerkle.of_mem_path (P := fun a : Element => a.isCanonical = true) hT hh 0
      (e.slot (DEPTH - 1)) (DEPTH - 1)
    exact SparseMerkle.of_mem_pathPairs (P := fun a => a.isCanonical = true) hh hx hpath hq

/-- **Membership proofs.** In every tree made by insertions of canonical non-null elements, the
path of any element exists, has `DEPTH - 1` siblings, and takes a canonical element to the root
exactly when that element is the occupant of the slot, provided no two of the canonical pairs
hashed collide.

**Proof sketch.** The siblings of the path are those of the reference tree (`pathFor_spec`), and so
its root is the fold along that path. Without collisions a fold to the root starts from the occupant
of the slot (`SparseMerkle.eq_path_of_foldPath_eq_root`). -/
theorem pathFor_proves (H : List Fr → Fr) (hpos : 1 ≤ DEPTH) (hdepth : DEPTH ≤ 257)
    (calls : List (Call DEPTH V))
    (hcalls : ∀ call ∈ calls, ∀ e ∈ call.elements,
      e.isCanonical = true ∧ e ≠ Element.NULL_HASH) (e : Element) :
    ∃ path, (run H calls new).pathFor H e = .ok path ∧
      path.siblingsDeepestFirst.length = DEPTH - 1 ∧
      ∀ x : Element, x.isCanonical = true →
        Set.InjOn (Function.uncurry (merge H))
          {q | q ∈ hashedPairs H (run H calls new) e x ∧ CanonicalPair q} →
        (path.computeRootHash H x = (run H calls new).rootHash H ↔
          x = occupant (DEPTH - 1) (run H calls new).entries.keys (e.slot (DEPTH - 1))) := by
  have hd : DEPTH - 1 ≤ 256 := by omega
  obtain ⟨hinv, hkeys⟩ :=
    run_inv (H := H) hpos hd calls (fun c hc e he => (hcalls c hc e he).2) (inv_new hpos)
  have hcanon : ∀ a ∈ (run H calls new).entries.keys, a.isCanonical = true := by
    intro a ha
    rcases hkeys a ha with ha | ⟨c, hc, ha⟩
    · exact absurd ha List.not_mem_nil
    · exact (hcalls c hc a ha).1
  obtain ⟨path, hpath, helem, -, hsib⟩ := pathFor_spec hpos hd hinv e
  have hroot : (run H calls new).rootHash H = _ := hinv.shape.hash_eq hinv.clean
  refine ⟨path, hpath, by rw [hsib, List.length_map, SparseMerkle.length_path], ?_⟩
  intro x hx hinj
  rw [computeRootHash_eq hd helem hsib, hroot]
  constructor
  · intro hfold
    have hcan := fun {q} hq =>
      canonicalPair_of_mem_hashedPairs (H := H) (e := e) hcanon hx (q := q) hq
    obtain ⟨hx', -⟩ := SparseMerkle.eq_path_of_foldPath_eq_root (merge H) hinj _ (DEPTH - 1)
      (fun q hq => ⟨.inl hq, hcan (.inl hq)⟩) _ 0 (by simp) x
      (fun q hq => ⟨.inr hq, hcan (.inr hq)⟩) hfold
    rw [SparseMerkle.map_snd_path, Bits.ofLE_toLE] at hx'
    rwa [Nat.mod_eq_of_lt (e.slot_lt _)] at hx'
  · rintro rfl
    exact SparseMerkle.foldPath_path (merge H) _ (DEPTH - 1) _ (e.slot_lt _)

/-- Three elements of a tree of depth 4. -/
def sampleInserts : List (Call 4 Unit) :=
  [.insert 5 (), .insertWithPaths [(12, ()), (2, ())]]

/-- The tree of the sample's insertions. -/
lemma keys_sampleInserts : (run sampleHash sampleInserts new).entries.keys = [2, 5, 12] := by
  decide +kernel

/-- The pairs of that tree, the root last. -/
def samplePairs : List (Element × Element) :=
  [(0, 0), (2, 0), (12, 5), (1, 3), (63, 1), (32, 74)]

/-- The pairs on the way of the elements 12 and 0 up the path of the element 5. -/
def otherPairs : List (Element × Element) :=
  [(12, 12), (133, 1), (32, 144), (12, 0), (13, 1), (32, 24)]

/-- The pairs hashed in the tree, and on the way of three elements up the path of 5. -/
lemma mem_of_mem_hashedPairs {x : Element} (hx : x ∈ ([5, 12, 0] : List Element))
    {q : Element × Element}
    (hq : q ∈ hashedPairs sampleHash (run sampleHash sampleInserts new) 5 x) :
    q ∈ samplePairs ++ otherPairs := by
  rw [hashedPairs, keys_sampleInserts] at hq
  rcases hq with ⟨k, i, hk, hi, rfl⟩ | hq
  · refine List.mem_append_left _ ?_
    rcases k with _ | _ | _ | k
    · change i < 4 at hi
      interval_cases i <;> decide +kernel
    · change i < 2 at hi
      interval_cases i <;> decide +kernel
    · change i < 1 at hi
      interval_cases i
      decide +kernel
    · omega
  · have hpath : SparseMerkle.path (merge sampleHash) (occupant (4 - 1) [2, 5, 12]) 0
        ((5 : Element).slot (4 - 1)) (4 - 1) = [(12, true), (1, false), (32, true)] := by
      decide +kernel
    rw [Set.mem_ofPred_eq, hpath] at hq
    simp only [List.mem_cons, List.not_mem_nil, or_false] at hx
    simp only [SparseMerkle.pathPairs, List.mem_cons, List.not_mem_nil, or_false] at hq
    rcases hx with rfl | rfl | rfl <;> rcases hq with rfl | rfl | rfl <;> decide +kernel

/-- The path of the element 5 proves it, and neither its neighbour nor the null element. -/
theorem pathFor_proves_sampleInserts :
    ∃ path, (run sampleHash sampleInserts new).pathFor sampleHash 5 = .ok path ∧
      path.siblingsDeepestFirst.length = 3 ∧
      ∀ x ∈ ([5, 12, 0] : List Element),
        (path.computeRootHash sampleHash x =
            (run sampleHash sampleInserts new).rootHash sampleHash ↔
          x = 5) := by
  have hcanon : ∀ x ∈ ([5, 12, 0] : List Element), x.isCanonical = true := by
    simp only [List.forall_mem_cons]
    exact ⟨by decide, by decide, by decide, by simp⟩
  have hpairwise : (samplePairs ++ otherPairs).Pairwise fun q q' =>
      Function.uncurry (merge sampleHash) q ≠ Function.uncurry (merge sampleHash) q' := by
    decide +kernel
  have : Std.Symm fun q q' : Element × Element =>
      Function.uncurry (merge sampleHash) q ≠ Function.uncurry (merge sampleHash) q' :=
    ⟨fun _ _ => Ne.symm⟩
  have hcalls : ∀ call ∈ sampleInserts, ∀ e ∈ call.elements,
      e.isCanonical = true ∧ e ≠ Element.NULL_HASH := by
    simp only [sampleInserts, Call.elements, List.map_cons, List.map_nil, List.forall_mem_cons]
    exact ⟨⟨⟨by decide, by decide⟩, by simp⟩,
      ⟨⟨by decide, by decide⟩, ⟨by decide, by decide⟩, by simp⟩, by simp⟩
  obtain ⟨path, hpath, hlen, hproves⟩ := pathFor_proves sampleHash (by decide) (by decide)
    sampleInserts hcalls 5
  have hocc : occupant (4 - 1) (run sampleHash sampleInserts new).entries.keys
      ((5 : Element).slot (4 - 1)) = 5 := by
    rw [keys_sampleInserts]
    decide
  rw [hocc] at hproves
  refine ⟨path, hpath, hlen, fun x hx => hproves x (hcanon x hx) ?_⟩
  rintro q ⟨hq, -⟩ q' ⟨hq', -⟩ heq
  by_contra hne
  exact hpairwise.forall (mem_of_mem_hashedPairs hx hq) (mem_of_mem_hashedPairs hx hq') hne heq

end Tree

end TempoRollup.Smirk
