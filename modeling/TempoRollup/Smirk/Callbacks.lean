import TempoRollup.Smirk.HashCache

set_option relaxedAutoImplicit false
set_option autoImplicit false

/-!
# What the callbacks of a recalculation leave behind

`recalculate_hashes` calls back once before it goes down from a marked node, with the pair of hashes
below it, and once after, with the pair that it finds then. `insert_batch` of the persistent tree
collects the calls in a map, in whatever order the two sides of each node make them.

## Main definitions

* `Node.removes`, `Node.sets` — the pairs of the two callbacks, over all marked nodes.
* `Node.Separate` — no pair that is removed below one child is set below the other.
* `Job.Follows` — a call that is under way on a node.
* `Job.removed`, `Job.set` — the pairs of the callbacks so far.

## Main results

* `Job.step_changes` — one step makes at most one callback.
* `Job.run_changes` — for separate nodes the map ends up the same under every schedule: the pairs
  that were set with their hash, and the other pairs that were removed without one.
-/

namespace TempoRollup.Smirk

/-- A pair of hashes, the key of a known hash. -/
abbrev HashPair : Type := Element × Element

namespace Node

variable (H : List Fr → Fr)

/-- The pairs of `hash_remove_callback`. -/
def removes : Node → List HashPair
  | parent left right _ true => (left.hash H, right.hash H) :: (removes left ++ removes right)
  | _ => []

/-- The pairs of `hash_set_callback`. -/
def sets : Node → List HashPair
  | parent left right _ true =>
    ((left.recalculateHashes H).hash H, (right.recalculateHashes H).hash H) ::
      (sets left ++ sets right)
  | _ => []

/-- No pair that is removed below one child of a marked node is set below the other. -/
def Separate : Node → Prop
  | parent left right _ true =>
    (∀ q ∈ left.removes H, q ∉ right.sets H) ∧ (∀ q ∈ right.removes H, q ∉ left.sets H) ∧
      Separate left ∧ Separate right
  | _ => True

end Node

namespace Shared

/-- What the map has for a pair: nothing, a removal, or a hash. -/
def lookup (self : Shared) (key : HashPair) : Option (Option Element) :=
  (self.changes.find? fun change => change.1 = key).map Prod.snd

/-- What is recorded last for a pair is found. -/
lemma lookup_insertChange (self : Shared) (key : HashPair) (result : Option Element)
    (q : HashPair) :
    (self.insertChange key result).lookup q = if key = q then some result else self.lookup q := by
  unfold lookup insertChange
  by_cases h : key = q
  · simp [h]
  · rw [if_neg h, List.find?_cons_of_neg (by simpa using h), List.find?_filter]
    congr 2
    funext change
    by_cases hq : change.1 = q
    · simp [hq, Ne.symm h]
    · simp [hq]

/-- A pair is recorded once. -/
lemma nodup_insertChange {self : Shared} (h : (self.changes.map Prod.fst).Nodup) (key : HashPair)
    (result : Option Element) : ((self.insertChange key result).changes.map Prod.fst).Nodup := by
  rw [insertChange, List.map_cons, List.nodup_cons]
  refine ⟨?_, h.sublist (List.filter_sublist.map _)⟩
  rw [List.mem_map]
  rintro ⟨change, hchange, heq⟩
  simpa [heq] using (List.mem_filter.1 hchange).2

/-- A change of the map is what a lookup finds. -/
lemma mem_changes_iff {self : Shared} (h : (self.changes.map Prod.fst).Nodup) (key : HashPair)
    (result : Option Element) : (key, result) ∈ self.changes ↔ self.lookup key = some result := by
  unfold lookup
  generalize self.changes = changes at h ⊢
  induction changes with
  | nil => simp
  | cons change changes ih =>
    rw [List.map_cons, List.nodup_cons] at h
    obtain ⟨k, r⟩ := change
    by_cases hk : k = key
    · subst hk
      have hnot : (k, result) ∉ changes := fun hmem => h.1 (List.mem_map.2 ⟨_, hmem, rfl⟩)
      simp only [List.mem_cons, hnot, or_false, Prod.mk.injEq, true_and, List.find?_cons,
        decide_true, Option.map_some, Option.some.injEq]
      exact eq_comm
    · rw [List.find?_cons_of_neg (by simpa using hk), List.mem_cons, ← ih h.2]
      simp [Ne.symm hk]

end Shared

namespace Job

variable (H : List Fr → Fr)

/-- The call is under way, or has returned, on the given node. -/
def Follows : Job → Node → Prop
  | start node, origin => node = origin
  | join a b, .parent left right _ true => a.Follows left ∧ b.Follows right
  | hashed left right hash, .parent l r _ true =>
    left = l.recalculateHashes H ∧ right = r.recalculateHashes H ∧
      hash = merge H (left.hash H) (right.hash H)
  | done node, origin => node = origin.recalculateHashes H
  | _, _ => False

/-- The pairs that were removed so far. -/
def removed : Job → Node → List HashPair
  | join a b, .parent left right _ _ =>
    (left.hash H, right.hash H) :: (a.removed left ++ b.removed right)
  | hashed _ _ _, origin => origin.removes H
  | done _, origin => origin.removes H
  | _, _ => []

/-- The pairs that were set so far. -/
def set : Job → Node → List HashPair
  | join a b, .parent left right _ _ => a.set left ++ b.set right
  | hashed _ _ _, .parent left right _ _ => left.sets H ++ right.sets H
  | done _, origin => origin.sets H
  | _, _ => []

/-- What one step does to the map, given the pairs of the callbacks before and after it. -/
inductive Calls (H : List Fr → Fr) (shared shared' : Shared) (removed removed' set set' :
    List HashPair) : Prop
  /-- No callback. -/
  | silent (hchanges : shared'.changes = shared.changes)
    (hremoved : ∀ q, q ∈ removed' ↔ q ∈ removed) (hset : ∀ q, q ∈ set' ↔ q ∈ set)
  /-- A pair is removed that was not set before. -/
  | remove (key : HashPair) (hkey : key ∉ set)
    (hchanges : shared'.changes = (shared.insertChange key none).changes)
    (hremoved : ∀ q, q ∈ removed' ↔ q = key ∨ q ∈ removed) (hset : ∀ q, q ∈ set' ↔ q ∈ set)
  /-- A pair is set. -/
  | set (key : HashPair)
    (hchanges : shared'.changes =
      (shared.insertChange key (some (merge H key.1 key.2))).changes)
    (hremoved : ∀ q, q ∈ removed' ↔ q ∈ removed) (hset : ∀ q, q ∈ set' ↔ q = key ∨ q ∈ set)

variable {H} {shared shared' : Shared} {job : Job} {origin : Node}

/-- A call that waits for both sides is on a marked node, and each side is on its child. -/
lemma Follows.join {a b : Job} (hf : (join a b).Follows H origin) :
    ∃ left right hash, origin = .parent left right hash true ∧ a.Follows H left ∧
      b.Follows H right := by
  unfold Follows at hf
  split at hf <;> simp_all

/-- A call that has the hash of the pair is on a marked node, and both children are recalculated. -/
lemma Follows.hashed {l r : Node} {hash : Element} (hf : (hashed l r hash).Follows H origin) :
    ∃ left right old, origin = .parent left right old true ∧ l = left.recalculateHashes H ∧
      r = right.recalculateHashes H ∧ hash = merge H (l.hash H) (r.hash H) := by
  unfold Follows at hf
  split at hf <;> simp_all

/-- What was removed so far is among what is removed. By induction on the call. -/
lemma mem_removes_of_removed (hf : job.Follows H origin) {q : HashPair}
    (hq : q ∈ job.removed H origin) : q ∈ origin.removes H := by
  induction job generalizing origin with
  | start node => exact absurd hq List.not_mem_nil
  | join a b iha ihb =>
    obtain ⟨left, right, hash, rfl, hl, hr⟩ := hf.join
    rcases List.mem_cons.1 hq with rfl | hq
    · exact List.mem_cons_self
    · refine List.mem_cons_of_mem _ ?_
      rcases List.mem_append.1 hq with hq | hq
      · exact List.mem_append_left _ (iha hl hq)
      · exact List.mem_append_right _ (ihb hr hq)
  | hashed left right hash => exact hq
  | done node => exact hq

/-- What was set so far is among what is set. By induction on the call. -/
lemma mem_sets_of_set (hf : job.Follows H origin) {q : HashPair} (hq : q ∈ job.set H origin) :
    q ∈ origin.sets H := by
  induction job generalizing origin with
  | start node => exact absurd hq List.not_mem_nil
  | join a b iha ihb =>
    obtain ⟨left, right, hash, rfl, hl, hr⟩ := hf.join
    refine List.mem_cons_of_mem _ ?_
    rcases List.mem_append.1 hq with hq | hq
    · exact List.mem_append_left _ (iha hl hq)
    · exact List.mem_append_right _ (ihb hr hq)
  | hashed l r hash =>
    obtain ⟨left, right, old, rfl, -⟩ := hf.hashed
    exact List.mem_cons_of_mem _ hq
  | done node => exact hq

section Calls

variable {removed removed' set set' otherRemoved otherSet : List HashPair} {key : HashPair}

/-- A step of the left side, seen from the node above. -/
lemma Calls.left (hcalls : Calls H shared shared' removed removed' set set')
    (hother : ∀ q ∈ removed', q ∉ otherSet) :
    Calls H shared shared' (key :: (removed ++ otherRemoved)) (key :: (removed' ++ otherRemoved))
      (set ++ otherSet) (set' ++ otherSet) := by
  cases hcalls with
  | silent hchanges hremoved hset =>
    refine .silent hchanges (fun q => ?_) fun q => ?_
    · simp only [List.mem_cons, List.mem_append, hremoved]
    · simp only [List.mem_append, hset]
  | remove q hkey hchanges hremoved hset =>
    refine .remove q ?_ hchanges (fun q => ?_) fun q => ?_
    · rw [List.mem_append, not_or]
      exact ⟨hkey, hother q ((hremoved q).2 (.inl rfl))⟩
    · simp only [List.mem_cons, List.mem_append, hremoved]
      tauto
    · simp only [List.mem_append, hset]
  | set q hchanges hremoved hset =>
    refine .set q hchanges (fun q => ?_) fun q => ?_
    · simp only [List.mem_cons, List.mem_append, hremoved]
    · simp only [List.mem_append, hset]
      tauto

/-- A step of the right side, seen from the node above. -/
lemma Calls.right (hcalls : Calls H shared shared' removed removed' set set')
    (hother : ∀ q ∈ removed', q ∉ otherSet) :
    Calls H shared shared' (key :: (otherRemoved ++ removed)) (key :: (otherRemoved ++ removed'))
      (otherSet ++ set) (otherSet ++ set') := by
  have hcomm : ∀ a b c d : List HashPair, ∀ q, (q ∈ key :: (a ++ b) ↔ q ∈ key :: (b ++ a)) ∧
      (q ∈ c ++ d ↔ q ∈ d ++ c) := by
    intro a b c d q
    simp only [List.mem_cons, List.mem_append]
    tauto
  have hleft : Calls H shared shared' (key :: (removed ++ otherRemoved))
      (key :: (removed' ++ otherRemoved)) (set ++ otherSet) (set' ++ otherSet) := hcalls.left hother
  cases hleft with
  | silent hchanges hremoved hset =>
    refine .silent hchanges (fun q => ?_) fun q => ?_
    · rw [(hcomm otherRemoved removed' [] [] q).1, (hcomm otherRemoved removed [] [] q).1, hremoved]
    · rw [(hcomm [] [] otherSet set' q).2, (hcomm [] [] otherSet set q).2, hset]
  | remove q hkey hchanges hremoved hset =>
    refine .remove q ?_ hchanges (fun q => ?_) fun q => ?_
    · rwa [(hcomm [] [] otherSet set q).2]
    · rw [(hcomm otherRemoved removed' [] [] q).1, (hcomm otherRemoved removed [] [] q).1, hremoved]
    · rw [(hcomm [] [] otherSet set' q).2, (hcomm [] [] otherSet set q).2, hset]
  | set q hchanges hremoved hset =>
    refine .set q hchanges (fun q => ?_) fun q => ?_
    · rw [(hcomm otherRemoved removed' [] [] q).1, (hcomm otherRemoved removed [] [] q).1, hremoved]
    · rw [(hcomm [] [] otherSet set' q).2, (hcomm [] [] otherSet set q).2, hset]

end Calls

/-- **One step**: the call goes on on the same node, with at most one callback, and a pair that is
removed was not set before. By induction on the call, for the steps of the two sides.

**Proof sketch.** At the start of a parent that is marked its old pair is removed, and when both
sides are done the new one is set. In between one side makes a step, whose pairs are separate from
those of the other. -/
theorem step_changes (hf : job.Follows H origin) (hsep : origin.Separate H)
    (hshared : shared.Correct H) (path : List Bool) :
    (job.step H path shared).1.Follows H origin ∧
      Calls H shared (job.step H path shared).2 (job.removed H origin)
        ((job.step H path shared).1.removed H origin) (job.set H origin)
        ((job.step H path shared).1.set H origin) := by
  induction job generalizing origin path with
  | start node =>
    obtain rfl : node = origin := hf
    cases node with
    | leaf e => exact ⟨rfl, .silent rfl (fun _ => Iff.rfl) fun _ => Iff.rfl⟩
    | empty depth => exact ⟨rfl, .silent rfl (fun _ => Iff.rfl) fun _ => Iff.rfl⟩
    | parent l r hash dirty =>
      cases dirty with
      | false => exact ⟨rfl, .silent rfl (fun _ => Iff.rfl) fun _ => Iff.rfl⟩
      | true =>
        refine ⟨⟨rfl, rfl⟩, .remove (l.hash H, r.hash H) List.not_mem_nil rfl ?_ ?_⟩
        · intro q
          simp [removed, step]
        · intro q
          simp [set, step]
  | join a b iha ihb =>
    obtain ⟨left, right, hash, rfl, ha, hb⟩ := hf.join
    obtain ⟨hleft, hright, hsepl, hsepr⟩ := hsep
    -- a step of one of the sides
    have hstepl :
        (join (a.step H path.tail shared).1 b).Follows H (.parent left right hash true) ∧
        Calls H shared (a.step H path.tail shared).2
          ((join a b).removed H (.parent left right hash true))
          ((join (a.step H path.tail shared).1 b).removed H (.parent left right hash true))
          ((join a b).set H (.parent left right hash true))
          ((join (a.step H path.tail shared).1 b).set H (.parent left right hash true)) := by
      obtain ⟨hfollows, hcalls⟩ := iha ha hsepl path.tail
      refine ⟨⟨hfollows, hb⟩, hcalls.left fun q hq hset => ?_⟩
      exact hleft q (mem_removes_of_removed hfollows hq) (mem_sets_of_set hb hset)
    have hstepr :
        (join a (b.step H path.tail shared).1).Follows H (.parent left right hash true) ∧
        Calls H shared (b.step H path.tail shared).2
          ((join a b).removed H (.parent left right hash true))
          ((join a (b.step H path.tail shared).1).removed H (.parent left right hash true))
          ((join a b).set H (.parent left right hash true))
          ((join a (b.step H path.tail shared).1).set H (.parent left right hash true)) := by
      obtain ⟨hfollows, hcalls⟩ := ihb hb hsepr path.tail
      refine ⟨⟨ha, hfollows⟩, hcalls.right fun q hq hset => ?_⟩
      exact hright q (mem_removes_of_removed hfollows hq) (mem_sets_of_set ha hset)
    unfold step
    cases hra : a.result with
    | none =>
      cases hrb : b.result with
      | none =>
        simp only
        split_ifs
        · exact hstepr
        · exact hstepl
      | some r => exact hstepl
    | some l =>
      cases hrb : b.result with
      | none => exact hstepr
      | some r =>
        -- both sides have returned, and the cache is asked
        rw [of_result hra] at ha ⊢
        rw [of_result hrb] at hb ⊢
        have hhash := (SimpleHashCache.hash_spec hshared.cache (l.hash H) (r.hash H)).1
        exact ⟨⟨ha, hb, hhash⟩, .silent rfl (fun _ => Iff.rfl) fun _ => Iff.rfl⟩
  | hashed l r hash =>
    obtain ⟨left, right, old, rfl, rfl, rfl, rfl⟩ := hf.hashed
    refine ⟨?_, .set _ rfl (fun _ => Iff.rfl) fun q => ?_⟩
    · simp only [step, Follows, Node.recalculateHashes, if_true]
    · simp only [step, set, Node.sets, List.mem_cons]
  | done node => exact ⟨hf, .silent rfl (fun _ => Iff.rfl) fun _ => Iff.rfl⟩

/-- The map has the last callback of each pair, where a pair is not removed after it was set. -/
structure Collected (H : List Fr → Fr) (shared : Shared) (removed set : List HashPair) : Prop where
  nodup : (shared.changes.map Prod.fst).Nodup
  lookup : ∀ q, shared.lookup q = if q ∈ set then some (some (merge H q.1 q.2))
    else if q ∈ removed then some none else none

/-- One step, seen in the map. -/
lemma Collected.calls {removed removed' set set' : List HashPair}
    (h : Collected H shared removed set)
    (hcalls : Calls H shared shared' removed removed' set set') :
    Collected H shared' removed' set' := by
  have hlookup : ∀ {a b : Shared}, a.changes = b.changes → ∀ q, a.lookup q = b.lookup q := by
    intro a b hab q
    rw [Shared.lookup, Shared.lookup, hab]
  cases hcalls with
  | silent hchanges hremoved hset =>
    refine ⟨hchanges ▸ h.nodup, fun q => ?_⟩
    rw [hlookup hchanges q, h.lookup q]
    simp only [hremoved, hset]
  | remove key hkey hchanges hremoved hset =>
    refine ⟨hchanges ▸ Shared.nodup_insertChange h.nodup _ _, fun q => ?_⟩
    rw [hlookup hchanges q, Shared.lookup_insertChange]
    simp only [hremoved, hset]
    by_cases hq : key = q
    · subst hq
      simp [hkey]
    · rw [if_neg hq, h.lookup q]
      simp only [Ne.symm hq, false_or]
  | set key hchanges hremoved hset =>
    refine ⟨hchanges ▸ Shared.nodup_insertChange h.nodup _ _, fun q => ?_⟩
    rw [hlookup hchanges q, Shared.lookup_insertChange]
    simp only [hremoved, hset]
    by_cases hq : key = q
    · subst hq
      simp
    · rw [if_neg hq, h.lookup q]
      simp only [Ne.symm hq, false_or]

/-- **A run**, from any point of the call on. By induction on the number of steps. -/
lemma follows_run (schedule : Schedule) (n : ℕ) (hf : job.Follows H origin)
    (hsep : origin.Separate H) {target : Node} (hlead : job.Leads H target)
    (hshared : shared.Correct H)
    (hcollected : Collected H shared (job.removed H origin) (job.set H origin)) :
    (job.run H schedule n shared).1.Follows H origin ∧
      Collected H (job.run H schedule n shared).2
        ((job.run H schedule n shared).1.removed H origin)
        ((job.run H schedule n shared).1.set H origin) := by
  induction n generalizing job shared with
  | zero => exact ⟨hf, hcollected⟩
  | succ n ih =>
    obtain ⟨hfollows, hcalls⟩ := step_changes hf hsep hshared (schedule n)
    obtain ⟨hlead', hshared', -⟩ := step_spec hlead hshared (schedule n)
    exact ih hfollows hlead' hshared' (hcollected.calls hcalls)

/-- **What the callbacks leave behind**, whatever the schedule is: every pair that was set has its
hash, and every other pair that was removed is marked as such. -/
theorem run_changes (schedule : Schedule) {cache : SimpleHashCache} (hcache : cache.Correct H)
    (hsep : origin.Separate H) :
    Collected H ((start origin).run H schedule (nodeWork origin) ⟨cache, []⟩).2 (origin.removes H)
      (origin.sets H) := by
  have hshared : Shared.Correct H ⟨cache, []⟩ :=
    ⟨hcache, fun left right result hmem => absurd hmem List.not_mem_nil⟩
  have hcollected : Collected H ⟨cache, []⟩ [] [] := ⟨List.nodup_nil, fun q => rfl⟩
  have hstart : (start origin).Follows H origin := rfl
  obtain ⟨-, hrun⟩ := follows_run schedule (nodeWork origin) hstart hsep rfl hshared hcollected
  rwa [(run_spec schedule origin hshared).1] at hrun

end Job

/-- **An insertion with callbacks**: where the entries are inserted and leave separate nodes, the
callbacks are those of the marked nodes. -/
lemma Tree.insertBatchCached_collected {DEPTH : ℕ} {V : Type} {H : List Fr → Fr}
    (schedule : Schedule) {batch : Batch DEPTH V} {tree tree' : Tree DEPTH V}
    {cache : SimpleHashCache} (hcache : cache.Correct H)
    (hcheck : tree.checkCollisions batch = .ok ())
    (hinsert : insertWithoutHashing H batch.entries tree = (.ok (), tree'))
    (hsep : tree'.tree.Separate H) :
    Job.Collected H (insertBatchCached H schedule batch (tree, ⟨cache, []⟩)).2.2
      (tree'.tree.removes H) (tree'.tree.sets H) := by
  have hcollected := Job.run_changes schedule hcache hsep
  have hshared : Shared.Correct H ⟨cache, []⟩ :=
    ⟨hcache, fun left right result hmem => absurd hmem List.not_mem_nil⟩
  have hdone := (Job.run_spec schedule tree'.tree hshared).1
  simp only [insertBatchCached, Exec.Program.run_bind, Exec.Program.run_get, Exec.Program.run_lift,
    Exec.Program.zoom, hcheck, Exec.Program.unwrap, hinsert, Exec.Outcome.unwrap,
    recalculateHashes]
  rcases hrun : (Job.start tree'.tree).run H schedule (Job.nodeWork tree'.tree) ⟨cache, []⟩ with
    ⟨job, shared⟩
  rw [hrun] at hcollected hdone
  simp only at hdone
  rw [hdone]
  exact hcollected

end TempoRollup.Smirk
