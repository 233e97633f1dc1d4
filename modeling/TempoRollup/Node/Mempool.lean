import Mathlib.Data.List.Nodup
import Mathlib.Data.List.Perm.Basic
import Mathlib.Logic.Function.Basic
import TempoRollup.Lib.Exec
import TempoRollup.Lib.Runs

set_option relaxedAutoImplicit false
set_option autoImplicit false
set_option linter.unusedSectionVars false

/-!
# The mempool

`node/src/mempool.rs`: the transactions that wait for a block. A proposal leases transactions
from the queue; a commit removes those it settles and gives the others back.

## Main definitions

* `Mempool`, `Mempool.add`, `Mempool.addWait`, `Mempool.commit`, `Mempool.free`,
  `Mempool.leaseTxns`, `Mempool.leaseBatch`.
* `Mempool.Idle` — every transaction is in the queue, once, and nothing is leased.
* `Mempool.Held` — the same with one lease outstanding.
* `Mempool.Accounted` — every transaction is in the queue or in exactly one of any number of
  leases.
* `Mempool.Call`, `Mempool.step`, `Mempool.Orderly` — sequences of calls, and what a call must
  find.

## Main results

* `Mempool.leaseBatch_spec` — a batch of transactions without common changes is leased.
* `Mempool.Held.commit_idle` — after a commit nothing is leased.
* `Mempool.accounted_iff_orderly` — the mempool is accounted for throughout a run exactly when
  all its calls are orderly.

## Design

The maps are functions; a set of leased keys is a list without duplicates. `free` goes over a
hash set, so that the order in which keys return to the queue is a parameter. The channel that
a caller waits on is a value of type `W`; `commit` returns what it sends. A lookup of
`lease_batch` that fails is a panic, after which nothing is said about the mempool.
-/

open Exec

namespace TempoRollup.Node

/-- `MempoolTxn`. -/
structure MempoolTxn (V C W : Type) where
  txn : V
  sender : Option W
  changes : List C

/-- `MempoolState`. -/
structure Mempool (K V L C W : Type) where
  txns : K → Option (MempoolTxn V C W)
  pool : List K
  leased : L → Option (List K)

namespace Mempool

variable {K V L C W R ε : Type} [DecidableEq K] [DecidableEq L] [DecidableEq C]

/-- `Mempool::default`. -/
def empty : Mempool K V L C W := ⟨fun _ => none, [], fun _ => none⟩

/-- `_add`. -/
def addWith (key : K) (txn : V) (changes : List C) (sender : Option W)
    (state : Mempool K V L C W) : Mempool K V L C W :=
  if (state.txns key).isSome then state
  else
    { state with
      txns := Function.update state.txns key (some ⟨txn, sender, changes⟩)
      pool := state.pool ++ [key] }

/-- `add`. -/
def add (key : K) (txn : V) (changes : List C) (state : Mempool K V L C W) :
    Mempool K V L C W :=
  state.addWith key txn changes none

/-- `add_wait`, up to the wait. -/
def addWait (key : K) (txn : V) (changes : List C) (sender : W) (state : Mempool K V L C W) :
    Mempool K V L C W :=
  state.addWith key txn changes (some sender)

/-- `free`, with the order in which the keys of a lease are visited. -/
def free (order : List K → List K) (lease : L) (state : Mempool K V L C W) :
    Mempool K V L C W :=
  { state with
    pool := (order ((state.leased lease).getD [])).foldl (fun pool k => k :: pool) state.pool
    leased := Function.update state.leased lease none }

/-- The body of the loop of `commit`. -/
def commitKey (lease : L) (key : K) (state : Mempool K V L C W) : Mempool K V L C W where
  txns := Function.update state.txns key none
  leased := Function.update state.leased lease ((state.leased lease).map fun keys => keys.erase key)
  pool := state.pool.erase key

/-- Committing a key removes its transaction. -/
@[simp] lemma commitKey_txns (lease : L) (key : K) (m : Mempool K V L C W) :
    (m.commitKey lease key).txns = Function.update m.txns key none := rfl

/-- Committing a key takes it from its lease. -/
@[simp] lemma commitKey_leased (lease : L) (key : K) (m : Mempool K V L C W) :
    (m.commitKey lease key).leased =
      Function.update m.leased lease ((m.leased lease).map fun keys => keys.erase key) := rfl

/-- Committing a key takes it from the pool. -/
@[simp] lemma commitKey_pool (lease : L) (key : K) (m : Mempool K V L C W) :
    (m.commitKey lease key).pool = m.pool.erase key := rfl

/-- What the loop of `commit` sends for a key. -/
def reply (state : Mempool K V L C W) (key : K) (result : R) : List (W × R) :=
  match state.txns key with
  | some ⟨_, some sender, _⟩ => [(sender, result)]
  | _ => []

/-- The loop of `commit`. -/
def commitKeys (lease : L) :
    List (K × R) → Mempool K V L C W → Mempool K V L C W × List (W × R)
  | [], state => (state, [])
  | (key, result) :: rest, state =>
    let r := commitKeys lease rest (state.commitKey lease key)
    (r.1, state.reply key result ++ r.2)

/-- `commit`. -/
def commit (order : List K → List K) (lease : L) (keysWithResults : List (K × R))
    (state : Mempool K V L C W) : Mempool K V L C W × List (W × R) :=
  let r := commitKeys lease keysWithResults state
  (r.1.free order lease, r.2)

/-- The body of the loop of `lease_txns`. -/
def leaseTxn (lease : L) (state : Mempool K V L C W) (key : K) : Mempool K V L C W :=
  { state with
    pool := state.pool.erase key
    leased := Function.update state.leased lease
      (some (((state.leased lease).getD []).insert key)) }

/-- `lease_txns`. -/
def leaseTxns (lease : L) (keys : List K) (state : Mempool K V L C W) : Mempool K V L C W :=
  keys.foldl (leaseTxn lease) state

/-- The loop of `lease_batch` over the queue: the transactions taken and the queue that is left,
with the discarded keys at its end. -/
def leaseLoop (txns : K → Option (MempoolTxn V C W)) (maxCount : ℕ) :
    List K → List (K × V) → List K → List C → Outcome ε (List (K × V) × List K)
  | [], taken, discard, _ => .ok (taken, discard)
  | key :: pool, taken, discard, conflictCheck =>
    match txns key with
    | none => .panic
    | some t =>
      -- a change key has already been included in a previously added transaction
      if t.changes.any fun c => conflictCheck.contains c then
        leaseLoop txns maxCount pool taken (discard ++ [key]) conflictCheck
      else if (taken ++ [(key, t.txn)]).length ≥ maxCount then
        .ok (taken ++ [(key, t.txn)], pool ++ discard)
      else
        leaseLoop txns maxCount pool (taken ++ [(key, t.txn)]) discard (conflictCheck ++ t.changes)

/-- The lease with the keys taken. -/
def leaseKeys (leased : Option (List K)) (taken : List (K × V)) : Option (List K) :=
  taken.foldl (fun leased kv => some ((leased.getD []).insert kv.1)) leased

/-- `lease_batch`. -/
def leaseBatch (lease : L) (maxCount : ℕ) : Program (Mempool K V L C W) ε (List (K × V)) :=
  fun state =>
    match (leaseLoop state.txns maxCount state.pool [] [] [] :
      Outcome ε (List (K × V) × List K)) with
    | .ok (taken, pool) =>
      (.ok taken,
        { state with
          pool := pool
          leased := Function.update state.leased lease (leaseKeys (state.leased lease) taken) })
    | .err e => (.err e, state)
    | .panic => (.panic, state)

/-! ## Invariants -/

/-- Every transaction is in the queue, once, and nothing is leased. -/
structure Idle (m : Mempool K V L C W) : Prop where
  nodup : m.pool.Nodup
  known : ∀ k, k ∈ m.pool ↔ (m.txns k).isSome
  free : ∀ l, m.leased l = none

/-- Every transaction is in the queue or in the given lease, once, and there is no other
lease. -/
structure Held (m : Mempool K V L C W) (lease : L) : Prop where
  nodup : ((m.leased lease).getD [] ++ m.pool).Nodup
  known : ∀ k, k ∈ (m.leased lease).getD [] ++ m.pool ↔ (m.txns k).isSome
  only : ∀ l, l ≠ lease → m.leased l = none

variable {m : Mempool K V L C W} {lease : L}

/-- A new mempool is idle. -/
lemma idle_empty : (empty : Mempool K V L C W).Idle :=
  ⟨List.nodup_nil, fun k => by simp [empty], fun _ => rfl⟩

/-- A transaction that is added is in the queue. -/
lemma Idle.addWith (h : m.Idle) (key : K) (txn : V) (changes : List C) (sender : Option W) :
    (m.addWith key txn changes sender).Idle := by
  unfold Mempool.addWith
  split
  · exact h
  · next hnew =>
    have hkey : key ∉ m.pool := fun hmem => hnew ((h.known key).1 hmem)
    refine ⟨?_, fun k => ?_, h.free⟩
    · rw [List.nodup_append]
      exact ⟨h.nodup, by simp, fun a ha b hb => by rintro rfl; simp_all⟩
    · by_cases hk : k = key
      · subst hk
        simp
      · simp [h.known k, hk]

/-- What is known after an addition was known before or is what was added. -/
lemma txns_addWith {key k : K} {txn : V} {changes : List C} {sender : Option W}
    {t : MempoolTxn V C W} (h : (m.addWith key txn changes sender).txns k = some t) :
    m.txns k = some t ∨ t = ⟨txn, sender, changes⟩ := by
  unfold addWith at h
  split at h
  · exact .inl h
  · by_cases hk : k = key
    · subst hk
      simp only [Function.update_self] at h
      exact .inr (Option.some.inj h).symm
    · simp only [Function.update_of_ne hk] at h
      exact .inl h

/-- A committed key is nowhere. -/
lemma Held.commitKey (h : m.Held lease) (key : K) : (m.commitKey lease key).Held lease := by
  have hleased : ((m.commitKey lease key).leased lease).getD [] =
      ((m.leased lease).getD []).erase key := by
    rw [commitKey_leased, Function.update_self]
    cases m.leased lease <;> rfl
  have hnl : ((m.leased lease).getD []).Nodup := List.Nodup.of_append_left h.nodup
  have hnp : m.pool.Nodup := List.Nodup.of_append_right h.nodup
  refine ⟨?_, fun k => ?_, fun l hl => ?_⟩
  · rw [hleased]
    exact h.nodup.sublist (List.Sublist.append List.erase_sublist List.erase_sublist)
  · rw [hleased, commitKey_pool, commitKey_txns, List.mem_append, hnl.mem_erase_iff,
      hnp.mem_erase_iff,
      ← and_or_left, ← List.mem_append, h.known k]
    by_cases hk : k = key
    · subst hk
      simp
    · simp [hk]
  · rw [commitKey_leased, Function.update_of_ne hl]
    exact h.only l hl

/-- **The loop of a commit** keeps the lease together. -/
lemma Held.commitKeys (h : m.Held lease) (keys : List (K × R)) :
    (m.commitKeys lease keys).1.Held lease := by
  induction keys generalizing m with
  | nil => exact h
  | cons key rest ih => exact ih (h.commitKey key.1)

/-- Keys that go back to the pool come before those that are there, in some order. -/
lemma foldl_cons_perm (keys pool : List K) :
    (keys.foldl (fun pool k => k :: pool) pool).Perm (keys ++ pool) := by
  induction keys generalizing pool with
  | nil => exact .refl _
  | cons k keys ih => exact (ih (k :: pool)).trans List.perm_middle

/-- A lease that is freed returns its keys to the queue. -/
lemma Held.free_idle (h : m.Held lease) {order : List K → List K}
    (horder : ∀ l, (order l).Perm l) : (m.free order lease).Idle := by
  have hperm : (m.free order lease).pool.Perm ((m.leased lease).getD [] ++ m.pool) :=
    (foldl_cons_perm _ _).trans ((horder _).append_right _)
  refine ⟨hperm.nodup_iff.2 h.nodup, fun k => ?_, fun l => ?_⟩
  · rw [hperm.mem_iff]
    exact h.known k
  · by_cases hl : l = lease
    · subst hl
      simp [Mempool.free]
    · simp [Mempool.free, Function.update_of_ne hl, h.only l hl]

/-- **After a commit nothing is leased**, and every transaction left is in the queue. -/
theorem Held.commit_idle (h : m.Held lease) {order : List K → List K}
    (horder : ∀ l, (order l).Perm l) (keys : List (K × R)) :
    (m.commit order lease keys).1.Idle :=
  (h.commitKeys keys).free_idle horder

/-- A commit adds no transaction. -/
lemma txns_commit {order : List K → List K} {keys : List (K × R)} {k : K}
    {t : MempoolTxn V C W} (h : (m.commit order lease keys).1.txns k = some t) :
    m.txns k = some t := by
  have hkeys : ∀ (keys : List (K × R)) (m : Mempool K V L C W),
      (m.commitKeys lease keys).1.txns k = some t → m.txns k = some t := by
    intro keys
    induction keys with
    | nil => exact fun m h => h
    | cons key rest ih =>
      intro m h
      have hrest := ih _ h
      by_cases hk : k = key.1
      · rw [commitKey_txns, hk, Function.update_self] at hrest
        exact absurd hrest (by simp)
      · rwa [commitKey_txns, Function.update_of_ne hk] at hrest
  exact hkeys keys m h

/-! ## Leasing a batch -/

/-- The changes of a key. -/
def changesOf (txns : K → Option (MempoolTxn V C W)) (k : K) : List C :=
  ((txns k).map MempoolTxn.changes).getD []

/-- What the loop takes: transactions of the map that share no change, neither with each other
nor with what was taken before. -/
structure Taken (txns : K → Option (MempoolTxn V C W)) (conflictCheck : List C)
    (taken : List (K × V)) : Prop where
  known : ∀ kv ∈ taken, ∃ t, txns kv.1 = some t ∧ t.txn = kv.2
  fresh : ∀ kv ∈ taken, ∀ c ∈ changesOf txns kv.1, c ∉ conflictCheck
  disjoint : taken.Pairwise fun a b =>
    ∀ c ∈ changesOf txns a.1, c ∉ changesOf txns b.1

/-- Taking nothing conflicts with nothing. -/
lemma taken_nil (txns : K → Option (MempoolTxn V C W)) (conflictCheck : List C) :
    Taken txns conflictCheck [] :=
  ⟨by simp, by simp, List.Pairwise.nil⟩

/-- One more transaction in front. -/
lemma Taken.cons {txns : K → Option (MempoolTxn V C W)} {conflictCheck : List C} {key : K}
    {t : MempoolTxn V C W} {more : List (K × V)} (hkey : txns key = some t)
    (hfresh : ∀ c ∈ t.changes, c ∉ conflictCheck)
    (h : Taken txns (conflictCheck ++ t.changes) more) :
    Taken txns conflictCheck ((key, t.txn) :: more) := by
  have hchanges : changesOf txns key = t.changes := by simp [changesOf, hkey]
  refine ⟨?_, ?_, List.pairwise_cons.2 ⟨?_, h.disjoint⟩⟩
  · intro kv hkv
    rcases List.mem_cons.1 hkv with rfl | hkv
    · exact ⟨t, hkey, rfl⟩
    · exact h.known kv hkv
  · intro kv hkv c hc
    rcases List.mem_cons.1 hkv with rfl | hkv
    · exact hfresh c (hchanges ▸ hc)
    · exact fun hmem => h.fresh kv hkv c hc (List.mem_append_left _ hmem)
  · intro kv hkv c hc hmem
    rw [hchanges] at hc
    exact h.fresh kv hkv c hmem (List.mem_append_right _ hc)

/-- **The loop of `lease_batch`** on a queue of known keys. By induction on the queue, with what
was taken and discarded before. -/
lemma leaseLoop_spec {txns : K → Option (MempoolTxn V C W)} (maxCount : ℕ) {pool : List K}
    (hknown : ∀ k ∈ pool, (txns k).isSome) (taken : List (K × V)) (discard : List K)
    (conflictCheck : List C) :
    ∃ more pool', (leaseLoop txns maxCount pool taken discard conflictCheck :
          Outcome ε (List (K × V) × List K)) = .ok (taken ++ more, pool') ∧
      (more.map Prod.fst ++ pool').Perm (pool ++ discard) ∧ Taken txns conflictCheck more := by
  induction pool generalizing taken discard conflictCheck with
  | nil => exact ⟨[], discard, by simp [leaseLoop], .refl _, taken_nil _ _⟩
  | cons key pool ih =>
    obtain ⟨t, ht⟩ := Option.isSome_iff_exists.1 (hknown key List.mem_cons_self)
    have hrest : ∀ k ∈ pool, (txns k).isSome := fun k hk => hknown k (List.mem_cons_of_mem _ hk)
    unfold leaseLoop
    rw [ht]
    simp only
    split
    · obtain ⟨more, pool', hok, hperm, htaken⟩ := ih hrest taken (discard ++ [key]) conflictCheck
      refine ⟨more, pool', hok, hperm.trans ?_, htaken⟩
      rw [← List.append_assoc]
      exact List.perm_append_comm
    · next hconflict =>
      have hfresh : ∀ c ∈ t.changes, c ∉ conflictCheck := by
        intro c hc hmem
        exact hconflict (List.any_eq_true.2 ⟨c, hc, List.contains_iff_mem.2 hmem⟩)
      split
      · exact ⟨[(key, t.txn)], pool ++ discard, rfl, .refl _, .cons ht hfresh (taken_nil _ _)⟩
      · obtain ⟨more, pool', hok, hperm, htaken⟩ :=
          ih hrest (taken ++ [(key, t.txn)]) discard (conflictCheck ++ t.changes)
        refine ⟨(key, t.txn) :: more, pool', ?_, hperm.cons key, .cons ht hfresh htaken⟩
        rw [hok, List.append_assoc, List.singleton_append]

/-- The keys of a new lease. -/
lemma leaseKeys_perm {taken : List (K × V)} {keys : List K}
    (h : (taken.map Prod.fst ++ keys).Nodup) :
    ((leaseKeys (some keys) taken).getD []).Perm (taken.map Prod.fst ++ keys) := by
  induction taken generalizing keys with
  | nil => exact .refl _
  | cons kv taken ih =>
    have hnot : kv.1 ∉ keys := fun hmem =>
      (List.nodup_cons.1 h).1 (List.mem_append_right _ hmem)
    have hperm : (taken.map Prod.fst ++ kv.1 :: keys).Perm
        (kv.1 :: (taken.map Prod.fst ++ keys)) := List.perm_middle
    rw [leaseKeys, List.foldl_cons, Option.getD_some, List.insert_of_not_mem hnot]
    exact (ih (hperm.nodup_iff.2 h)).trans hperm

/-- No lease and an empty one take the same keys. -/
lemma leaseKeys_none (taken : List (K × V)) :
    (leaseKeys none taken).getD [] = (leaseKeys (some []) taken).getD [] := by
  cases taken <;> rfl

/-- **Leasing a batch.** From a mempool without leases, transactions of the map that share no
change are leased; everything else stays in the queue. -/
theorem leaseBatch_spec (h : m.Idle) (lease : L) (maxCount : ℕ) :
    ∃ taken m', leaseBatch (ε := ε) lease maxCount m = (.ok taken, m') ∧ m'.Held lease ∧
      m'.txns = m.txns ∧ Taken m.txns [] taken := by
  obtain ⟨taken, pool', hok, hperm, htaken⟩ :=
    leaseLoop_spec (ε := ε) maxCount (fun k hk => (h.known k).1 hk) [] [] []
  rw [List.append_nil] at hperm
  have hnodup : (taken.map Prod.fst ++ pool').Nodup := hperm.nodup_iff.2 h.nodup
  refine ⟨taken,
    { m with
      pool := pool'
      leased := Function.update m.leased lease (leaseKeys (m.leased lease) taken) },
    ?_, ?_, rfl, htaken⟩
  · simp only [leaseBatch, hok, List.nil_append]
  · have hkeys : (((Function.update m.leased lease
        (leaseKeys (m.leased lease) taken)) lease).getD []).Perm (taken.map Prod.fst) := by
      rw [Function.update_self, h.free lease, leaseKeys_none]
      have hkeys : (taken.map Prod.fst ++ []).Nodup := by
        rw [List.append_nil]
        exact List.Nodup.of_append_left hnodup
      have hperm := leaseKeys_perm hkeys
      rwa [List.append_nil] at hperm
    have happ := hkeys.append_right pool'
    refine ⟨happ.nodup_iff.2 hnodup, fun k => ?_, fun l hl => ?_⟩
    · rw [happ.mem_iff, hperm.mem_iff]
      exact h.known k
    · simp only [Function.update_of_ne hl]
      exact h.free l

/-! ## Sequences of calls -/

/-- The keys of a lease. -/
def held (state : Mempool K V L C W) (lease : L) : List K := (state.leased lease).getD []

/-- The order in which the keys of a hash set are visited: each key once. -/
structure VisitOrder (K : Type) where
  visit : List K → List K
  perm : ∀ keys, (visit keys).Perm keys

/-- A call of the mempool. -/
inductive Call (K V L C W R : Type) where
  | add (key : K) (txn : V) (changes : List C)
  | addWait (key : K) (txn : V) (changes : List C) (sender : W)
  | leaseTxns (lease : L) (keys : List K)
  | leaseBatch (lease : L) (maxCount : ℕ)
  | commit (order : VisitOrder K) (lease : L) (keysWithResults : List (K × R))

/-- The mempool after a call. -/
def step (state : Mempool K V L C W) : Call K V L C W R → Mempool K V L C W
  | .add key txn changes => state.add key txn changes
  | .addWait key txn changes sender => state.addWait key txn changes sender
  | .leaseTxns lease keys => state.leaseTxns lease keys
  | .leaseBatch lease maxCount => (leaseBatch (ε := Empty) lease maxCount state).2
  | .commit order lease keysWithResults => (state.commit order.visit lease keysWithResults).1

/-- Every key of the queue is in the map, and every key of the map is either in the queue, once,
or held by exactly one lease. -/
structure Accounted (m : Mempool K V L C W) : Prop where
  nodup : m.pool.Nodup
  known : ∀ k ∈ m.pool, (m.txns k).isSome
  place : ∀ k, (m.txns k).isSome →
    (m.pool.count k = 1 ∧ ∀ l, k ∉ m.held l) ∨ (k ∉ m.pool ∧ ∃! l, k ∈ m.held l)

/-- `lease_batch` finds every transaction it looks up, and takes none that is already leased. -/
def LeasesOnce (m : Mempool K V L C W) : Prop :=
  ∀ (lease : L) (maxCount : ℕ), ∃ taken, (leaseBatch (ε := Empty) lease maxCount m).1 = .ok taken ∧
    ∀ kv ∈ taken, ∀ l, kv.1 ∉ m.held l

/-- What a call must find so that the mempool stays accounted for: a new transaction is not
leased under its key already, a transaction that is leased is not held by another lease, and a
key that a commit gives back has a transaction. -/
def Orderly (m : Mempool K V L C W) : Call K V L C W R → Prop
  | .add key _ _ => (m.txns key).isSome ∨ ∀ l, key ∉ m.held l
  | .addWait key _ _ _ => (m.txns key).isSome ∨ ∀ l, key ∉ m.held l
  | .leaseTxns lease keys => ∀ k ∈ keys, (m.txns k).isSome → ∀ l, k ∈ m.held l → l = lease
  | .leaseBatch _ _ => True
  | .commit _ lease keysWithResults =>
    ∀ k ∈ m.held lease, k ∉ keysWithResults.map Prod.fst → (m.txns k).isSome

/-- The invariant of the runs: as the leases are sets, their lists have no duplicates. -/
structure Invariant (m : Mempool K V L C W) : Prop extends Accounted m where
  sets : ∀ l, (m.held l).Nodup

/-- A new mempool has the invariant. -/
lemma invariant_empty : (empty : Mempool K V L C W).Invariant where
  nodup := List.nodup_nil
  known k hk := absurd hk List.not_mem_nil
  place k hk := absurd hk (by simp [empty])
  sets l := List.nodup_nil

/-- A key of the queue is held by no lease. -/
lemma Accounted.not_held (h : m.Accounted) {k : K} (hk : k ∈ m.pool) (l : L) :
    k ∉ m.held l := by
  rcases h.place k (h.known k hk) with hpool | hheld
  · exact hpool.2 l
  · exact absurd hk hheld.1

/-- A transaction that a lease holds is in no other lease, and not in the queue. -/
lemma Accounted.of_held (h : m.Accounted) {k : K} {l : L} (hk : (m.txns k).isSome)
    (hl : k ∈ m.held l) : k ∉ m.pool ∧ ∀ l', k ∈ m.held l' → l' = l := by
  rcases h.place k hk with hpool | ⟨hnot, hone⟩
  · exact absurd hl (hpool.2 l)
  · exact ⟨hnot, fun l' hl' => hone.unique hl' hl⟩

/-- A transaction outside of the queue is in exactly one lease. -/
lemma Accounted.of_not_mem (h : m.Accounted) {k : K} (hk : (m.txns k).isSome)
    (hpool : k ∉ m.pool) : ∃! l, k ∈ m.held l := by
  rcases h.place k hk with ⟨hcount, -⟩ | hheld
  · rw [List.count_eq_zero_of_not_mem hpool] at hcount
    exact absurd hcount Nat.zero_ne_one
  · exact hheld.2

/-- A queue of different keys, all known, with the leases of every transaction outside of it. -/
lemma accounted_of (hnodup : m.pool.Nodup) (hknown : ∀ k ∈ m.pool, (m.txns k).isSome)
    (hpool : ∀ k ∈ m.pool, ∀ l, k ∉ m.held l)
    (hheld : ∀ k, (m.txns k).isSome → k ∉ m.pool → ∃! l, k ∈ m.held l) : m.Accounted := by
  refine ⟨hnodup, hknown, fun k hk => ?_⟩
  by_cases hmem : k ∈ m.pool
  · exact .inl ⟨List.count_eq_one_of_mem hnodup hmem, hpool k hmem⟩
  · exact .inr ⟨hmem, hheld k hk hmem⟩

/-! ### Additions -/

/-- Adding a known key changes nothing. -/
lemma addWith_of_isSome {key : K} {txn : V} {changes : List C} {sender : Option W}
    (h : (m.txns key).isSome) : m.addWith key txn changes sender = m := by
  simp [addWith, h]

/-- Adding a new key records the transaction and puts it in the pool. -/
lemma addWith_of_new {key : K} {txn : V} {changes : List C} {sender : Option W}
    (h : ¬ (m.txns key).isSome) :
    m.addWith key txn changes sender =
      { m with
        txns := Function.update m.txns key (some ⟨txn, sender, changes⟩)
        pool := m.pool ++ [key] } := by
  simp [addWith, h]

/-- **Additions.** The mempool stays accounted for exactly when a new key is not leased. -/
lemma Invariant.addWith_iff (h : m.Invariant) (key : K) (txn : V) (changes : List C)
    (sender : Option W) :
    ((m.addWith key txn changes sender).Accounted ↔
        (m.txns key).isSome ∨ ∀ l, key ∉ m.held l) ∧
      ∀ l, (m.addWith key txn changes sender).held l = m.held l := by
  by_cases hkey : (m.txns key).isSome
  · rw [addWith_of_isSome hkey]
    exact ⟨⟨fun _ => .inl hkey, fun _ => h.toAccounted⟩, fun l => rfl⟩
  · rw [addWith_of_new hkey]
    have hnew : key ∉ m.pool := fun hmem => hkey (h.known key hmem)
    refine ⟨⟨fun hafter => .inr fun l => ?_, fun hfree => ?_⟩, fun l => rfl⟩
    · exact hafter.not_held (List.mem_append_right _ (List.mem_singleton.2 rfl)) l
    · replace hfree := hfree.resolve_left hkey
      refine accounted_of ?_ (fun k hk => ?_) (fun k hk => ?_) (fun k hk hmem => ?_)
      · rw [← List.concat_eq_append]
        exact h.nodup.concat hnew
      · by_cases hkk : k = key
        · simp [hkk]
        · simp only [List.mem_append, List.mem_singleton, hkk, or_false] at hk
          simpa [hkk] using h.known k hk
      · rcases List.mem_append.1 hk with hk | hk
        · exact h.not_held hk
        · rw [List.mem_singleton.1 hk]
          exact hfree
      · simp only [List.mem_append, List.mem_singleton, not_or] at hmem
        simp only [Function.update_of_ne hmem.2] at hk
        exact h.of_not_mem hk hmem.1

/-! ### Leases of given keys -/

/-- A leased transaction is held by its lease. -/
@[simp] lemma held_leaseTxn_self (lease : L) (m : Mempool K V L C W) (key : K) :
    (m.leaseTxn lease key).held lease = (m.held lease).insert key := by
  simp [held, leaseTxn]

/-- Other leases hold what they held. -/
lemma held_leaseTxn_of_ne {l lease : L} (hl : l ≠ lease) (m : Mempool K V L C W) (key : K) :
    (m.leaseTxn lease key).held l = m.held l := by
  simp [held, leaseTxn, Function.update_of_ne hl]

/-- **What `lease_txns` does**: the keys leave the queue and are in the lease. By induction on the
keys. -/
lemma leaseTxns_spec (lease : L) (keys : List K) (hnodup : m.pool.Nodup)
    (hset : (m.held lease).Nodup) :
    (m.leaseTxns lease keys).txns = m.txns ∧
      (m.leaseTxns lease keys).pool.Nodup ∧
      (∀ k, k ∈ (m.leaseTxns lease keys).pool ↔ k ∈ m.pool ∧ k ∉ keys) ∧
      ((m.leaseTxns lease keys).held lease).Nodup ∧
      (∀ k, k ∈ (m.leaseTxns lease keys).held lease ↔ k ∈ m.held lease ∨ k ∈ keys) ∧
      ∀ l, l ≠ lease → (m.leaseTxns lease keys).held l = m.held l := by
  induction keys generalizing m with
  | nil => exact ⟨rfl, hnodup, by simp [leaseTxns], hset, by simp [leaseTxns], fun l _ => rfl⟩
  | cons key keys ih =>
    have hset' : ((m.leaseTxn lease key).held lease).Nodup := by
      rw [held_leaseTxn_self]
      exact hset.insert
    obtain ⟨htxns, hpool, hmem, hsets, hheld, hother⟩ :=
      @ih (m.leaseTxn lease key) (hnodup.erase key) hset'
    refine ⟨htxns, hpool, fun k => ?_, hsets, fun k => ?_, fun l hl => ?_⟩
    · rw [leaseTxns, List.foldl_cons]
      refine (hmem k).trans ?_
      rw [leaseTxn, hnodup.mem_erase_iff, List.mem_cons]
      tauto
    · rw [leaseTxns, List.foldl_cons]
      refine (hheld k).trans ?_
      rw [held_leaseTxn_self, List.mem_insert_iff, List.mem_cons]
      tauto
    · rw [leaseTxns, List.foldl_cons]
      exact (hother l hl).trans (held_leaseTxn_of_ne hl m key)

/-- **Leases of given keys.** The mempool stays accounted for exactly when no transaction among
them is held by another lease. -/
lemma Invariant.leaseTxns_iff (h : m.Invariant) (lease : L) (keys : List K) :
    (m.leaseTxns lease keys).Accounted ↔
      ∀ k ∈ keys, (m.txns k).isSome → ∀ l, k ∈ m.held l → l = lease := by
  obtain ⟨htxns, hnodup, hmem, -, hheld, hother⟩ := leaseTxns_spec lease keys h.nodup (h.sets lease)
  constructor
  · intro hafter k hk hknown l hl
    by_contra hne
    rw [← hother l hne] at hl
    rw [← htxns] at hknown
    exact hne ((hafter.of_held hknown ((hheld k).2 (.inr hk))).2 l hl)
  · intro hgood
    refine accounted_of hnodup (fun k hk => ?_) (fun k hk l => ?_) (fun k hk hpool => ?_)
    · rw [htxns]
      exact h.known k ((hmem k).1 hk).1
    · obtain ⟨hk, hkeys⟩ := (hmem k).1 hk
      by_cases hl : l = lease
      · rw [hl, hheld]
        exact not_or.2 ⟨h.not_held hk lease, hkeys⟩
      · rw [hother l hl]
        exact h.not_held hk l
    · rw [htxns] at hk
      rw [hmem] at hpool
      by_cases hkeys : k ∈ keys
      · refine ⟨lease, (hheld k).2 (.inr hkeys), fun l (hl : k ∈ _) => ?_⟩
        by_contra hne
        rw [hother l hne] at hl
        exact hne (hgood k hkeys hk l hl)
      · -- the key was in a lease before, and still is
        have hnot : k ∉ m.pool := fun hk => hpool ⟨hk, hkeys⟩
        have hsame : ∀ l, k ∈ (m.leaseTxns lease keys).held l ↔ k ∈ m.held l := by
          intro l
          by_cases hl : l = lease
          · rw [hl, hheld]
            simp [hkeys]
          · rw [hother l hl]
        simpa only [hsame] using h.of_not_mem hk hnot


/-! ### Batches -/

/-- The keys of a lease after a batch. -/
lemma mem_leaseKeys (leased : Option (List K)) (taken : List (K × V)) (k : K) :
    k ∈ (leaseKeys leased taken).getD [] ↔ k ∈ leased.getD [] ∨ k ∈ taken.map Prod.fst := by
  induction taken generalizing leased with
  | nil => simp [leaseKeys]
  | cons kv taken ih =>
    rw [leaseKeys, List.foldl_cons]
    refine (ih _).trans ?_
    rw [Option.getD_some, List.mem_insert_iff, List.map_cons, List.mem_cons]
    tauto

/-- A lease holds no key twice. -/
lemma nodup_leaseKeys {leased : Option (List K)} (h : (leased.getD []).Nodup)
    (taken : List (K × V)) : ((leaseKeys leased taken).getD []).Nodup := by
  induction taken generalizing leased with
  | nil => exact h
  | cons kv taken ih =>
    rw [leaseKeys, List.foldl_cons]
    exact ih h.insert

/-- **Batches.** `lease_batch` looks up only keys that it finds, takes only what is in no lease,
and the mempool stays accounted for.

**Proof sketch.** The taken keys and those that stay in the queue are together those of the queue
(`leaseLoop_spec`), and the taken ones are added to the lease, where they were not. -/
lemma Invariant.leaseBatch (h : m.Invariant) (lease : L) (maxCount : ℕ) :
    ∃ taken m', Mempool.leaseBatch (ε := ε) lease maxCount m = (.ok taken, m') ∧
      (∀ kv ∈ taken, ∀ l, kv.1 ∉ m.held l) ∧ m'.Invariant := by
  obtain ⟨taken, pool', hok, hperm, -⟩ := leaseLoop_spec (ε := ε) maxCount h.known [] [] []
  rw [List.append_nil] at hperm
  rw [List.nil_append] at hok
  have hnodup : (taken.map Prod.fst ++ pool').Nodup := hperm.nodup_iff.2 h.nodup
  have hpool : ∀ k ∈ pool', k ∈ m.pool := fun k hk => hperm.mem_iff.1 (List.mem_append_right _ hk)
  have htaken : ∀ k ∈ taken.map Prod.fst, k ∈ m.pool := fun k hk =>
    hperm.mem_iff.1 (List.mem_append_left _ hk)
  refine ⟨taken,
    { m with
      pool := pool'
      leased := Function.update m.leased lease (leaseKeys (m.leased lease) taken) },
    by simp only [Mempool.leaseBatch, hok],
    fun kv hkv => h.not_held (htaken _ (List.mem_map_of_mem hkv)), ?_, fun l => ?_⟩
  · have hself : ∀ k, k ∈ (Function.update m.leased lease
        (leaseKeys (m.leased lease) taken) lease).getD [] ↔
        k ∈ m.held lease ∨ k ∈ taken.map Prod.fst := by
      intro k
      rw [Function.update_self]
      exact mem_leaseKeys _ _ k
    refine accounted_of (List.Nodup.of_append_right hnodup) (fun k hk => h.known k (hpool k hk))
      (fun k hk l => ?_) (fun k hk hnot => ?_)
    · by_cases hl : l = lease
      · rw [hl, held, hself]
        exact not_or.2 ⟨h.not_held (hpool k hk) lease, fun hmem =>
          (List.nodup_append.1 hnodup).2.2 k hmem k hk rfl⟩
      · simp only [held, Function.update_of_ne hl]
        exact h.not_held (hpool k hk) l
    · by_cases hmem : k ∈ m.pool
      · -- the key was taken, so it was in no other lease
        have hkey : k ∈ taken.map Prod.fst :=
          (List.mem_append.1 (hperm.mem_iff.2 hmem)).resolve_right hnot
        refine ⟨lease, (hself k).2 (.inr hkey), fun l (hl : k ∈ Option.getD _ []) => ?_⟩
        by_contra hne
        simp only [Function.update_of_ne hne] at hl
        exact h.not_held hmem l hl
      · have hsame : ∀ l, k ∈ (Function.update m.leased lease
            (leaseKeys (m.leased lease) taken) l).getD [] ↔ k ∈ m.held l := by
          intro l
          by_cases hl : l = lease
          · rw [hl, hself]
            exact or_iff_left fun hkey => hmem (htaken k hkey)
          · rw [Function.update_of_ne hl, held]
        simpa only [held, hsame] using h.of_not_mem hk hmem
  · by_cases hl : l = lease
    · simp only [hl, held, Function.update_self]
      exact nodup_leaseKeys (h.sets lease) taken
    · simp only [held, Function.update_of_ne hl]
      exact h.sets l

/-! ### Commits -/

/-- A committed key is no longer held by its lease. -/
lemma held_commitKey_self (lease : L) (key : K) (m : Mempool K V L C W) :
    (m.commitKey lease key).held lease = (m.held lease).erase key := by
  rw [held, commitKey_leased, Function.update_self, held]
  cases m.leased lease <;> rfl

/-- Other leases hold what they held. -/
lemma held_commitKey_of_ne {l lease : L} (hl : l ≠ lease) (key : K) (m : Mempool K V L C W) :
    (m.commitKey lease key).held l = m.held l := by
  rw [held, commitKey_leased, Function.update_of_ne hl, held]

/-- **What the loop of `commit` does**: the keys leave the map, the queue and the lease. By
induction on the keys. -/
lemma commitKeys_spec (lease : L) (keys : List (K × R)) (hnodup : m.pool.Nodup)
    (hset : (m.held lease).Nodup) :
    (∀ k, ((m.commitKeys lease keys).1.txns k).isSome ↔
        (m.txns k).isSome ∧ k ∉ keys.map Prod.fst) ∧
      (m.commitKeys lease keys).1.pool.Nodup ∧
      (∀ k, k ∈ (m.commitKeys lease keys).1.pool ↔ k ∈ m.pool ∧ k ∉ keys.map Prod.fst) ∧
      ((m.commitKeys lease keys).1.held lease).Nodup ∧
      (∀ k, k ∈ (m.commitKeys lease keys).1.held lease ↔
        k ∈ m.held lease ∧ k ∉ keys.map Prod.fst) ∧
      ∀ l, l ≠ lease → (m.commitKeys lease keys).1.held l = m.held l := by
  induction keys generalizing m with
  | nil => exact ⟨by simp [commitKeys], hnodup, by simp [commitKeys], hset, by simp [commitKeys],
      fun l _ => rfl⟩
  | cons key rest ih =>
    have hset' : ((m.commitKey lease key.1).held lease).Nodup := by
      rw [held_commitKey_self]
      exact hset.erase _
    obtain ⟨htxns, hpool, hmem, hsets, hheld, hother⟩ :=
      @ih (m.commitKey lease key.1) (hnodup.erase key.1) hset'
    refine ⟨fun k => ?_, hpool, fun k => ?_, hsets, fun k => ?_, fun l hl => ?_⟩
    · refine (htxns k).trans ?_
      rw [commitKey_txns, List.map_cons, List.mem_cons]
      by_cases hk : k = key.1
      · simp [hk]
      · simp [hk]
    · refine (hmem k).trans ?_
      rw [commitKey_pool, hnodup.mem_erase_iff, List.map_cons, List.mem_cons]
      tauto
    · refine (hheld k).trans ?_
      rw [held_commitKey_self, hset.mem_erase_iff, List.map_cons, List.mem_cons]
      tauto
    · exact (hother l hl).trans (held_commitKey_of_ne hl key.1 m)

/-- A lease that is freed holds nothing. -/
lemma held_free_self (order : List K → List K) (lease : L) (m : Mempool K V L C W) :
    (m.free order lease).held lease = [] := by
  simp [held, free]

/-- Other leases hold what they held. -/
lemma held_free_of_ne (order : List K → List K) {l lease : L} (hl : l ≠ lease)
    (m : Mempool K V L C W) : (m.free order lease).held l = m.held l := by
  simp [held, free, Function.update_of_ne hl]

/-- What a lease held is in the pool once it is freed. -/
lemma pool_free_perm (order : VisitOrder K) (lease : L) (m : Mempool K V L C W) :
    (m.free order.visit lease).pool.Perm (m.held lease ++ m.pool) :=
  (foldl_cons_perm _ _).trans ((order.perm _).append_right _)

/-- **Commits.** The mempool stays accounted for exactly when every key that is given back has a
transaction. -/
lemma Invariant.commit_iff (h : m.Invariant) (order : VisitOrder K) (lease : L)
    (keys : List (K × R)) :
    ((m.commit order.visit lease keys).1.Accounted ↔
        ∀ k ∈ m.held lease, k ∉ keys.map Prod.fst → (m.txns k).isSome) ∧
      ∀ l, ((m.commit order.visit lease keys).1.held l).Nodup := by
  obtain ⟨htxns, hnodup, hmem, hset, hheld, hother⟩ :=
    commitKeys_spec lease keys h.nodup (h.sets lease)
  have hperm := pool_free_perm order lease (m.commitKeys lease keys).1
  have hpool : ∀ k, k ∈ (m.commit order.visit lease keys).1.pool ↔
      (k ∈ m.held lease ∨ k ∈ m.pool) ∧ k ∉ keys.map Prod.fst := by
    intro k
    refine hperm.mem_iff.trans ?_
    rw [List.mem_append, hheld, hmem, or_and_right]
  have hself : (m.commit order.visit lease keys).1.held lease = [] := held_free_self _ _ _
  have hne : ∀ l, l ≠ lease → (m.commit order.visit lease keys).1.held l = m.held l :=
    fun l hl => (held_free_of_ne _ hl _).trans (hother l hl)
  refine ⟨⟨fun hafter k hk hkeys => ?_, fun hgood => ?_⟩, fun l => ?_⟩
  · exact ((htxns k).1 (hafter.known k ((hpool k).2 ⟨.inl hk, hkeys⟩))).1
  · refine accounted_of ?_ (fun k hk => ?_) (fun k hk l => ?_) (fun k hk hnot => ?_)
    · refine hperm.nodup_iff.2 (List.nodup_append.2 ⟨hset, hnodup, fun a ha b hb => ?_⟩)
      rintro rfl
      exact h.not_held ((hmem a).1 hb).1 lease ((hheld a).1 ha).1
    · obtain ⟨hplace, hkeys⟩ := (hpool k).1 hk
      refine (htxns k).2 ⟨?_, hkeys⟩
      rcases hplace with hk | hk
      · exact hgood k hk hkeys
      · exact h.known k hk
    · by_cases hl : l = lease
      · rw [hl, hself]
        exact List.not_mem_nil
      · rw [hne l hl]
        obtain ⟨hplace, hkeys⟩ := (hpool k).1 hk
        rcases hplace with hk | hk
        · exact fun hmem => hl ((h.of_held (hgood k hk hkeys) hk).2 l hmem)
        · exact h.not_held hk l
    · obtain ⟨hknown, hkeys⟩ := (htxns k).1 hk
      rw [hpool] at hnot
      have hqueue : k ∉ m.pool := fun hk => hnot ⟨.inr hk, hkeys⟩
      have hlease : k ∉ m.held lease := fun hk => hnot ⟨.inl hk, hkeys⟩
      obtain ⟨l, hl, hone⟩ := h.of_not_mem hknown hqueue
      have hll : l ≠ lease := by
        rintro rfl
        exact hlease hl
      refine ⟨l, ?_, fun l' (hl' : k ∈ _) => ?_⟩
      · simp only [hne l hll]
        exact hl
      · by_cases heq : l' = lease
        · rw [heq, hself] at hl'
          exact absurd hl' List.not_mem_nil
        · rw [hne l' heq] at hl'
          exact hone l' hl'
  · by_cases hl : l = lease
    · rw [hl, hself]
      exact List.nodup_nil
    · rw [hne l hl]
      exact h.sets l

/-! ### Runs -/

/-- **One call** keeps the mempool accounted for exactly when it is orderly, and the leases stay
sets. -/
lemma Invariant.step_iff (h : m.Invariant) (call : Call K V L C W R) :
    ((m.step call).Accounted ↔ m.Orderly call) ∧ ∀ l, ((m.step call).held l).Nodup := by
  cases call with
  | add key txn changes =>
    obtain ⟨hiff, hheld⟩ := h.addWith_iff key txn changes none
    exact ⟨hiff, fun l => (hheld l).symm ▸ h.sets l⟩
  | addWait key txn changes sender =>
    obtain ⟨hiff, hheld⟩ := h.addWith_iff key txn changes (some sender)
    exact ⟨hiff, fun l => (hheld l).symm ▸ h.sets l⟩
  | leaseTxns lease keys =>
    refine ⟨h.leaseTxns_iff lease keys, fun l => ?_⟩
    obtain ⟨-, -, -, hset, -, hother⟩ := leaseTxns_spec lease keys h.nodup (h.sets lease)
    by_cases hl : l = lease
    · rw [hl]
      exact hset
    · have hheld := hother l hl
      exact hheld.symm ▸ h.sets l
  | leaseBatch lease maxCount =>
    obtain ⟨taken, m', hok, -, hm'⟩ := h.leaseBatch (ε := Empty) lease maxCount
    have hstep : m.step (.leaseBatch lease maxCount : Call K V L C W R) = m' :=
      congrArg Prod.snd hok
    rw [hstep]
    exact ⟨⟨fun _ => trivial, fun _ => hm'.toAccounted⟩, hm'.sets⟩
  | commit order lease keys => exact h.commit_iff order lease keys

/-- **The mempool over whole runs.** In every state of a run the queue has no duplicates and only
known keys, every transaction is in the queue or in exactly one lease, and `lease_batch` finds
what it looks up and leases nothing twice, exactly when all calls of the run are orderly.

**Proof sketch.** By `Runs.forall_states_iff` with the invariant `Invariant`: a commit keeps it
exactly if it is orderly (`Invariant.commit_iff`), and so do leases of named keys; the other calls
always keep it. -/
theorem accounted_iff_orderly (calls : List (Call K V L C W R)) :
    (∀ m ∈ Runs.states step (empty : Mempool K V L C W) calls, m.Accounted ∧ m.LeasesOnce) ↔
      Runs.Along step Orderly (empty : Mempool K V L C W) calls := by
  refine @Runs.forall_states_iff _ _ step Invariant _ Orderly (fun _ => True) (fun m h => ?_)
    (fun m call _ h hgood => ?_) (fun m call _ h hafter => ?_) _ invariant_empty _
    (fun _ _ => trivial)
  · refine ⟨h.toAccounted, fun lease maxCount => ?_⟩
    obtain ⟨taken, m', hok, hfree, -⟩ := h.leaseBatch (ε := Empty) lease maxCount
    exact ⟨taken, congrArg Prod.fst hok, hfree⟩
  · obtain ⟨hiff, hsets⟩ := h.step_iff call
    exact ⟨hiff.2 hgood, hsets⟩
  · exact (h.step_iff call).1.1 hafter.1

/-- A proposal names a transaction that the node does not have; the lease is given back, and the
next batch does not find the transaction. -/
theorem leaseBatch_unknown_key :
    ∃ m ∈ Runs.states step (empty : Mempool ℕ ℕ ℕ ℕ ℕ)
        [(.leaseTxns 7 [3] : Call ℕ ℕ ℕ ℕ ℕ ℕ), .commit ⟨id, fun _ => .refl _⟩ 7 []],
      m.pool = [3] ∧ m.txns 3 = none ∧ ¬ m.Accounted ∧
        (leaseBatch (ε := Empty) 8 1 m).1 = .panic := by
  refine ⟨_, List.mem_cons_of_mem _ (List.mem_cons_of_mem _ (List.mem_singleton.2 rfl)), rfl, rfl,
    fun h => ?_, rfl⟩
  have hknown := h.known 3 (List.mem_singleton.2 rfl)
  exact absurd hknown (by decide)

end Mempool

end TempoRollup.Node
