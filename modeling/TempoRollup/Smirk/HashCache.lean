import TempoRollup.Smirk.Tree

set_option relaxedAutoImplicit false
set_option autoImplicit false

/-!
# The hash cache

`smirk/src/hash_cache` and the part of `tree_repr.rs` that uses it: a tree looks its hashes up in a
sorted list of known hashes and in a table that grows, and `recalculate_hashes` goes down both sides
of a node at the same time, with callbacks that collect what the database has to learn.

## Main definitions

* `KnownHash`, `SimpleHashCache`, `SimpleHashCache.hash`, `SimpleHashCache.provideKnownHashes`.
* `Shared` — what the two sides of a `rayon::join` share: the cache and the collected changes.
* `Job`, `Job.step`, `Job.run` — `recalculate_hashes` under a schedule of its two sides.
* `Tree.insertBatchCached` — `Tree::insert_batch` with the cache.

## Main results

* `SimpleHashCache.hash_spec` — a cache of correct hashes answers with `hash_merge`, however its
  list is sorted.
* `Job.run_spec` — under every schedule the recalculation ends, and its result is that of
  `Node.recalculateHashes`.
* `Tree.insertBatchCached_spec` — insertion with a correct cache is insertion without one.

## Design

A schedule says, for each step, which side of every open `join` moves; a step is one callback or
one lookup in the cache, which locks its entry. The metrics of the cache are left out.
-/

open Exec

namespace TempoRollup.Smirk

/-- `KnownHash`. -/
structure KnownHash where
  left : Element
  right : Element
  result : Element
  deriving DecidableEq, Repr

/-- The order of `(hash.left, hash.right)`. -/
def KnownHash.cmpKey (h : KnownHash) (key : Element × Element) : Ordering :=
  (compare h.left key.1).then (compare h.right key.2)

/-- The known hash is that of its two sides. -/
def KnownHash.Correct (H : List Fr → Fr) (h : KnownHash) : Prop :=
  h.result = merge H h.left h.right

/-- `SimpleHashCache`. -/
structure SimpleHashCache where
  inner : Element × Element → Option Element
  initial : List KnownHash

/-! ## Searching -/

/-- The loop of `slice::binary_search_by`, over what is left between two positions. -/
def binarySearchLoop {α : Type} (f : α → Ordering) (l : List α) : ℕ → ℕ → ℕ → Option α
  | 0, _, _ => none
  | fuel + 1, left, right =>
    if left < right then
      let mid := left + (right - left) / 2
      match l[mid]? with
      | none => none
      | some a =>
        match f a with
        | .eq => some a
        | .lt => binarySearchLoop f l fuel (mid + 1) right
        | .gt => binarySearchLoop f l fuel left mid
    else none

/-- `slice::binary_search_by`: the entry found. Each round leaves fewer entries, so that as many
rounds as there are entries are enough. -/
def binarySearchBy {α : Type} (f : α → Ordering) (l : List α) : Option α :=
  binarySearchLoop f l (l.length + 1) 0 l.length

/-- What is found is in the list and compares as equal, whether the list is sorted or not. -/
lemma of_binarySearchLoop {α : Type} {f : α → Ordering} {l : List α} {fuel left right : ℕ}
    {a : α} (h : binarySearchLoop f l fuel left right = some a) : a ∈ l ∧ f a = .eq := by
  induction fuel generalizing left right with
  | zero => cases h
  | succ fuel ih =>
    unfold binarySearchLoop at h
    split at h
    · simp only at h
      split at h
      · cases h
      · next b hb =>
        split at h
        · next heq =>
          cases h
          exact ⟨List.mem_of_getElem? hb, heq⟩
        · exact ih h
        · exact ih h
    · cases h

/-- What a binary search finds is in the list and equal. -/
lemma of_binarySearchBy {α : Type} {f : α → Ordering} {l : List α} {a : α}
    (h : binarySearchBy f l = some a) : a ∈ l ∧ f a = .eq :=
  of_binarySearchLoop h

namespace SimpleHashCache

variable (H : List Fr → Fr)

/-- `SimpleHashCache::new`. -/
def new : SimpleHashCache := ⟨fun _ => none, []⟩

/-- `HashCache::hash`: the answer, and the cache afterwards. -/
def hash (left right : Element) (self : SimpleHashCache) : Element × SimpleHashCache :=
  match binarySearchBy (fun known => known.cmpKey (left, right)) self.initial with
  | some known => (known.result, self)
  | none =>
    match self.inner (left, right) with
    | some result => (result, self)
    | none =>
      let result := hashMerge H [left, right]
      (result, { self with inner := Function.update self.inner (left, right) (some result) })

/-- `SimpleHashCache::provide_known_hashes`. -/
def provideKnownHashes {ε : Type} (hashes : List KnownHash) : Program SimpleHashCache ε Unit := do
  let self ← Program.get
  -- "provide_known_hashes should only be called once"
  Program.assert self.initial.isEmpty
  Program.modify fun self =>
    { self with initial := hashes.mergeSort fun a b => (a.cmpKey (b.left, b.right)).isLE }

/-- `SimpleHashCache::evict`. -/
def evict (left right : Element) (self : SimpleHashCache) : SimpleHashCache :=
  { self with inner := Function.update self.inner (left, right) none }

/-- `SimpleHashCache::evict_all`. -/
def evictAll (self : SimpleHashCache) : SimpleHashCache := { self with inner := fun _ => none }

/-- Every hash that the cache has is right. -/
structure Correct (c : SimpleHashCache) : Prop where
  initial : ∀ known ∈ c.initial, known.Correct H
  inner : ∀ left right result, c.inner (left, right) = some result → result = merge H left right

variable {H} {self : SimpleHashCache}

/-- An empty cache is correct. -/
lemma correct_new : new.Correct H where
  initial known h := absurd h List.not_mem_nil
  inner left right result h := by cases h

/-- Equal keys are of one pair. -/
lemma eq_of_cmpKey_eq {known : KnownHash} {left right : Element}
    (h : known.cmpKey (left, right) = .eq) : known.left = left ∧ known.right = right := by
  rw [KnownHash.cmpKey, Ordering.then_eq_eq] at h
  exact ⟨Std.LawfulEqOrd.eq_of_compare h.1, Std.LawfulEqOrd.eq_of_compare h.2⟩

/-- **A cache of correct hashes answers with `hash_merge`**, and stays correct. -/
theorem hash_spec (h : self.Correct H) (left right : Element) :
    (self.hash H left right).1 = merge H left right ∧ (self.hash H left right).2.Correct H := by
  unfold hash
  split
  · next known hfound =>
    obtain ⟨hmem, hcmp⟩ := of_binarySearchBy hfound
    obtain ⟨rfl, rfl⟩ := eq_of_cmpKey_eq hcmp
    exact ⟨h.initial known hmem, h⟩
  · split
    · next result hinner => exact ⟨h.inner left right result hinner, h⟩
    · refine ⟨rfl, h.initial, fun l r result hres => ?_⟩
      by_cases hkey : (l, r) = (left, right)
      · obtain ⟨rfl, rfl⟩ := Prod.mk.inj hkey
        simp only [Function.update_self, Option.some.injEq] at hres
        exact hres.symm
      · simp only [Function.update_of_ne hkey] at hres
        exact h.inner l r result hres

/-- Sorting known hashes keeps them correct. -/
lemma provideKnownHashes_spec {ε : Type} {hashes : List KnownHash}
    (hhashes : ∀ known ∈ hashes, known.Correct H) :
    ∃ cache, (provideKnownHashes hashes : Program SimpleHashCache ε Unit) new = (.ok (), cache) ∧
      cache.Correct H := by
  refine ⟨_, rfl, fun known hmem => hhashes known ?_, correct_new.inner⟩
  exact (List.mergeSort_perm hashes _).mem_iff.1 hmem

/-- Evicting a hash keeps the cache correct. -/
lemma Correct.evict (h : self.Correct H) (left right : Element) :
    (self.evict left right).Correct H := by
  refine ⟨h.initial, fun l r result hres => ?_⟩
  by_cases hkey : (l, r) = (left, right)
  · simp only [SimpleHashCache.evict, hkey, Function.update_self] at hres
    cases hres
  · simp only [SimpleHashCache.evict, Function.update_of_ne hkey] at hres
    exact h.inner l r result hres

/-- Evicting all hashes keeps the cache correct. -/
lemma Correct.evictAll (h : self.Correct H) : self.evictAll.Correct H :=
  ⟨h.initial, correct_new.inner⟩

end SimpleHashCache

/-! ## Recalculation on two sides -/

/-- What the threads share: the cache, and the map `hash_changes` that the callbacks fill. -/
structure Shared where
  cache : SimpleHashCache
  changes : List ((Element × Element) × Option Element)

namespace Shared

/-- `HashMap::insert` on `hash_changes`. -/
def insertChange (key : Element × Element) (result : Option Element) (self : Shared) : Shared :=
  { self with changes := (key, result) :: self.changes.filter fun change => change.1 ≠ key }

/-- The cache is correct, and so is every hash that the database shall learn. -/
structure Correct (H : List Fr → Fr) (s : Shared) : Prop where
  cache : s.cache.Correct H
  changes : ∀ left right result, ((left, right), some result) ∈ s.changes →
    result = merge H left right

variable {H : List Fr → Fr} {self : Shared}

/-- Recording a right hash keeps the cache correct. -/
lemma Correct.insertChange (h : self.Correct H) {left right : Element} {result : Option Element}
    (hresult : ∀ r, result = some r → r = merge H left right) :
    (self.insertChange (left, right) result).Correct H := by
  refine ⟨h.cache, fun l r x hx => ?_⟩
  rcases List.mem_cons.1 hx with heq | hmem
  · obtain ⟨hkey, rfl⟩ := Prod.mk.inj heq
    obtain ⟨rfl, rfl⟩ := Prod.mk.inj hkey
    exact hresult x rfl
  · exact h.changes l r x (List.mem_filter.1 hmem).1

end Shared

/-- A call of `recalculate_hashes` that is under way. -/
inductive Job
  /-- The call has not begun. -/
  | start (node : Node)
  /-- The two sides of `rayon::join`. -/
  | join (left right : Job)
  /-- The hash is known, and the callback has not been called. -/
  | hashed (left right : Node) (hash : Element)
  /-- The call has returned. -/
  | done (node : Node)

/-- For each step, the sides that move, from the outermost `join` inwards. -/
abbrev Schedule : Type := ℕ → List Bool

namespace Job

variable (H : List Fr → Fr)

/-- The node of a call that has returned. -/
def result : Job → Option Node
  | done node => some node
  | _ => none

/-- One step of a call: a callback, a lookup in the cache, or a step of one of the sides. -/
def step : Job → List Bool → Shared → Job × Shared
  | start (.parent left right _ true), _, shared =>
    (join (start left) (start right),
      shared.insertChange (left.hash H, right.hash H) none)
  | start node, _, shared => (done node, shared)
  | join a b, path, shared =>
    match a.result, b.result with
    | some left, some right =>
      let r := shared.cache.hash H (left.hash H) (right.hash H)
      (hashed left right r.1, { shared with cache := r.2 })
    | some _, none =>
      let r := b.step path.tail shared
      (join a r.1, r.2)
    | none, some _ =>
      let r := a.step path.tail shared
      (join r.1 b, r.2)
    | none, none =>
      if path.headD false then
        let r := b.step path.tail shared
        (join a r.1, r.2)
      else
        let r := a.step path.tail shared
        (join r.1 b, r.2)
  | hashed left right hash, _, shared =>
    (done (.parent left right hash false),
      shared.insertChange (left.hash H, right.hash H) (some hash))
  | done node, _, shared => (done node, shared)

/-- The steps that a call on a node takes. -/
def nodeWork : Node → ℕ
  | .parent left right _ true => nodeWork left + nodeWork right + 3
  | _ => 1

/-- The steps that are left. -/
def work : Job → ℕ
  | start node => nodeWork node
  | join a b => a.work + b.work + 2
  | hashed _ _ _ => 1
  | done _ => 0

/-- A number of steps under a schedule. -/
def run (schedule : Schedule) : ℕ → Job → Shared → Job × Shared
  | 0, job, shared => (job, shared)
  | n + 1, job, shared =>
    let r := job.step H (schedule n) shared
    run schedule n r.1 r.2

/-- The call will return the given node. -/
def Leads : Job → Node → Prop
  | start node, target => target = node.recalculateHashes H
  | join a b, target => ∃ left right, a.Leads left ∧ b.Leads right ∧
      target = .parent left right (merge H (left.hash H) (right.hash H)) false
  | hashed left right hash, target =>
    hash = merge H (left.hash H) (right.hash H) ∧ target = .parent left right hash false
  | done node, target => target = node

variable {H} {shared : Shared}

/-- A job with a result is done. -/
lemma of_result {job : Job} {node : Node} (h : job.result = some node) : job = done node := by
  cases job with
  | done n =>
    cases h
    rfl
  | _ => cases h

/-- A job without a result has work to do. -/
lemma work_pos {job : Job} (h : job.result = none) : 0 < job.work := by
  have hnode : ∀ node, 0 < nodeWork node := by
    intro node
    unfold nodeWork
    split <;> omega
  cases job with
  | start node => exact hnode node
  | join a b => exact Nat.succ_pos _
  | hashed l r hash => exact Nat.one_pos
  | done node => cases h

/-- **One step.** What the call leads to stays, what is shared stays correct, and one step less is
left. By induction on the call, for the steps of the two sides.

**Proof sketch.** A node that is not marked is done at once. A marked one removes its pair, goes on
with both sides, and is done when both are; the result is looked up or computed, which is the same
in a correct cache. -/
lemma step_spec {job : Job} {target : Node} (hlead : job.Leads H target)
    (hshared : shared.Correct H) (path : List Bool) :
    (job.step H path shared).1.Leads H target ∧ (job.step H path shared).2.Correct H ∧
      (job.step H path shared).1.work = job.work - 1 := by
  induction job generalizing target path with
  | start node =>
    have hrest : ∀ node : Node, node.recalculateHashes H = node → nodeWork node = 1 →
        target = node.recalculateHashes H →
        (done node).Leads H target ∧ shared.Correct H ∧ (done node).work = nodeWork node - 1 :=
      fun node hsame hwork htarget => ⟨htarget.trans hsame, hshared, by rw [hwork]; rfl⟩
    cases node with
    | leaf e => exact hrest _ rfl rfl hlead
    | empty depth => exact hrest _ rfl rfl hlead
    | parent l r hash dirty =>
      cases dirty with
      | false => exact hrest _ rfl rfl hlead
      | true =>
        refine ⟨⟨_, _, rfl, rfl, hlead⟩, hshared.insertChange (fun x hx => by cases hx), ?_⟩
        simp only [work, step, nodeWork]
        omega
  | join a b iha ihb =>
    obtain ⟨left, right, ha, hb, rfl⟩ := hlead
    -- a step of one of the sides
    have hleft : a.result = none →
        (join (a.step H path.tail shared).1 b).Leads H
            (.parent left right (merge H (left.hash H) (right.hash H)) false) ∧
          (a.step H path.tail shared).2.Correct H ∧
          (join (a.step H path.tail shared).1 b).work = (join a b).work - 1 := by
      intro hnone
      obtain ⟨hlead, hcorrect, hwork⟩ := iha ha path.tail
      have hpos := work_pos hnone
      refine ⟨⟨left, right, hlead, hb, rfl⟩, hcorrect, ?_⟩
      simp only [work]
      omega
    have hright : b.result = none →
        (join a (b.step H path.tail shared).1).Leads H
            (.parent left right (merge H (left.hash H) (right.hash H)) false) ∧
          (b.step H path.tail shared).2.Correct H ∧
          (join a (b.step H path.tail shared).1).work = (join a b).work - 1 := by
      intro hnone
      obtain ⟨hlead, hcorrect, hwork⟩ := ihb hb path.tail
      have hpos := work_pos hnone
      refine ⟨⟨left, right, ha, hlead, rfl⟩, hcorrect, ?_⟩
      simp only [work]
      omega
    unfold step
    cases hra : a.result with
    | none =>
      cases hrb : b.result with
      | none =>
        simp only
        split_ifs
        · exact hright hrb
        · exact hleft hra
      | some r => exact hleft hra
    | some l =>
      cases hrb : b.result with
      | none => exact hright hrb
      | some r =>
        -- both sides have returned, and the cache is asked
        rw [of_result hra] at ha ⊢
        rw [of_result hrb] at hb ⊢
        obtain rfl : left = l := ha
        obtain rfl : right = r := hb
        obtain ⟨hhash, hcache⟩ :=
          SimpleHashCache.hash_spec hshared.cache (left.hash H) (right.hash H)
        simp only
        exact ⟨⟨hhash, by rw [hhash]⟩, ⟨hcache, hshared.changes⟩, rfl⟩
  | hashed l r hash =>
    obtain ⟨hhash, rfl⟩ := hlead
    refine ⟨rfl, hshared.insertChange fun x hx => ?_, rfl⟩
    rw [← Option.some.inj hx]
    exact hhash
  | done node => exact ⟨hlead, hshared, rfl⟩

/-- **Every schedule ends with the recalculated node.** By induction on the steps that are left. -/
lemma run_leads (schedule : Schedule) {n : ℕ} {job : Job} {target : Node}
    (hlead : job.Leads H target) (hshared : shared.Correct H) (hn : job.work = n) :
    (job.run H schedule n shared).1 = done target ∧
      (job.run H schedule n shared).2.Correct H := by
  induction n generalizing job shared with
  | zero =>
    have hresult : ∃ node, job.result = some node := by
      by_contra hnone
      have hnone' : job.result = none := by
        cases hres : job.result with
        | none => rfl
        | some node => exact absurd ⟨node, hres⟩ hnone
      have := work_pos hnone'
      omega
    obtain ⟨node, hnode⟩ := hresult
    rw [of_result hnode] at hlead ⊢
    obtain rfl : target = node := hlead
    exact ⟨rfl, hshared⟩
  | succ n ih =>
    obtain ⟨hlead', hshared', hwork⟩ := step_spec hlead hshared (schedule n)
    exact ih hlead' hshared' (by omega)

/-- **Recalculation with a cache and callbacks**: the result is that of
`Node.recalculateHashes`, and everything the callbacks recorded is right. -/
theorem run_spec (schedule : Schedule) (node : Node) (hshared : shared.Correct H) :
    ((start node).run H schedule (nodeWork node) shared).1 = done (node.recalculateHashes H) ∧
      ((start node).run H schedule (nodeWork node) shared).2.Correct H :=
  run_leads schedule rfl hshared rfl

end Job

/-! ## Insertion -/

namespace Tree

variable {DEPTH : ℕ} {V : Type} (H : List Fr → Fr)

/-- `Node::recalculate_hashes` on the tree, with the cache and the callbacks. -/
def recalculateHashes (schedule : Schedule) {ε : Type} :
    Program (Tree DEPTH V × Shared) ε Unit := fun self =>
  match (Job.start self.1.tree).run H schedule (Job.nodeWork self.1.tree) self.2 with
  | (.done node, shared) => (.ok (), ({ self.1 with tree := node }, shared))
  | (_, shared) => (.panic, (self.1, shared))

/-- `Tree::insert_batch`, with the cache and the callbacks. -/
def insertBatchCached (schedule : Schedule) (batch : Batch DEPTH V) :
    Program (Tree DEPTH V × Shared) CollisionError Unit := do
  let self ← Program.get
  Program.lift (self.1.checkCollisions batch)
  Program.zoom Prod.fst (fun tree self => (tree, self.2))
    (insertWithoutHashing H batch.entries).unwrap
  recalculateHashes H schedule

variable {H}

/-- **Insertion with a correct cache is insertion without one**, whatever the schedule. An insertion
that does not return has not touched the cache. -/
theorem insertBatchCached_spec (schedule : Schedule) (batch : Batch DEPTH V) (tree : Tree DEPTH V)
    {shared : Shared} (hshared : shared.Correct H) :
    ∃ shared', insertBatchCached H schedule batch (tree, shared) =
        ((insertBatch H batch tree).1, ((insertBatch H batch tree).2, shared')) ∧
      shared'.Correct H ∧ ((insertBatch H batch tree).1 ≠ .ok () → shared' = shared) := by
  unfold insertBatchCached insertBatch
  simp only [Program.run_bind, Program.run_get, Program.run_lift, Program.zoom, Program.run_modify]
  rcases tree.checkCollisions batch with ⟨⟨⟩⟩ | e | _
  · simp only
    rcases (insertWithoutHashing H batch.entries).unwrap tree with ⟨⟨⟨⟩⟩ | e | _, tree'⟩
    · obtain ⟨hjob, hcorrect⟩ := Job.run_spec schedule tree'.tree hshared
      refine ⟨_, ?_, hcorrect, fun hne => absurd rfl hne⟩
      simp only [recalculateHashes]
      rw [← Prod.mk.eta (p := (Job.start tree'.tree).run H schedule _ shared), hjob]
    · exact ⟨shared, rfl, hshared, fun _ => rfl⟩
    · exact ⟨shared, rfl, hshared, fun _ => rfl⟩
  · exact ⟨shared, rfl, hshared, fun _ => rfl⟩
  · exact ⟨shared, rfl, hshared, fun _ => rfl⟩

end Tree

end TempoRollup.Smirk
