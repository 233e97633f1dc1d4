import TempoRollup.Node.Proposal

set_option relaxedAutoImplicit false
set_option autoImplicit false
set_option maxRecDepth 20000

/-!
# Batches of transactions

Which transactions the node can lease together. It adds a transaction to the mempool with all four
leaves as its changes, the zeros that stand for notes that are not there among them.

## Main definitions

* `SharesNonNull`, `Padded` — two transactions have a note in common; a transaction has a leaf that
  stands for no note.
* `LeafChanges` — the changes of the transactions of a mempool are their leaves.
* `LeasesBatches` — every batch is large enough.

## Main results

* `Mempool.leaseLoop_maximal` — a batch that is not full leaves out only what conflicts with it.
* `leasesBatches_iff` — when every batch of a mempool is large enough.
* `not_leasesBatches_of_padding` — two unrelated transactions that are not leased together.
-/

open Exec

namespace TempoRollup.Node

/-! ## What the loop leaves out -/

namespace Mempool

variable {K V C W ε : Type} [DecidableEq C]

/-- **A batch that is not full.** It is never longer than asked for, and if it is shorter, each
transaction that stays in the queue shares a change with one that was taken before or in the loop,
or was discarded before. By induction on the queue, with what was taken and discarded before.

**Proof sketch.** A transaction of the queue is either discarded, because it shares a change with
what was taken, or taken, and then what follows it is compared with its changes, too. -/
theorem leaseLoop_maximal {txns : K → Option (MempoolTxn V C W)} {maxCount : ℕ} {pool : List K}
    {taken taken' : List (K × V)} {discard pool' : List K} {conflictCheck : List C}
    (hok : (leaseLoop txns maxCount pool taken discard conflictCheck :
      Outcome ε (List (K × V) × List K)) = .ok (taken', pool'))
    (hlen : taken.length < maxCount) :
    taken <+: taken' ∧ taken'.length ≤ maxCount ∧
      (taken'.length < maxCount → ∀ k ∈ pool', k ∈ discard ∨
        ∃ c ∈ changesOf txns k, c ∈ conflictCheck ∨
          ∃ kv ∈ taken', c ∈ changesOf txns kv.1) := by
  induction pool generalizing taken discard conflictCheck with
  | nil =>
    obtain ⟨rfl, rfl⟩ := Prod.mk.inj (Outcome.ok.inj hok)
    exact ⟨List.prefix_refl _, hlen.le, fun _ k hk => .inl hk⟩
  | cons key pool ih =>
    unfold leaseLoop at hok
    split at hok
    · cases hok
    next t ht =>
    have hchanges : changesOf txns key = t.changes := by simp [changesOf, ht]
    split at hok
    · -- the transaction is discarded: it shares a change with what was taken before
      next hconflict =>
      obtain ⟨hextends, hle, hleft⟩ := ih hok hlen
      refine ⟨hextends, hle, fun hshort k hk => ?_⟩
      rcases hleft hshort k hk with hmem | hshares
      · rcases List.mem_append.1 hmem with hmem | hmem
        · exact .inl hmem
        · obtain ⟨c, hc, hmem'⟩ := List.any_eq_true.1 hconflict
          rw [List.mem_singleton.1 hmem]
          exact .inr ⟨c, hchanges ▸ hc, .inl (List.contains_iff_mem.1 hmem')⟩
      · exact .inr hshares
    · split at hok
      · -- the last transaction of a full batch
        next hfull =>
        obtain ⟨rfl, rfl⟩ := Prod.mk.inj (Outcome.ok.inj hok)
        refine ⟨List.prefix_append _ _, ?_, fun hshort => absurd hshort (not_lt.2 hfull)⟩
        rw [List.length_append, List.length_singleton]
        exact hlen
      · next hroom =>
        obtain ⟨hextends, hle, hleft⟩ := ih hok (not_le.1 hroom)
        refine ⟨(List.prefix_append _ _).trans hextends, hle, fun hshort k hk => ?_⟩
        rcases hleft hshort k hk with hmem | ⟨c, hc, hmem | hmem⟩
        · exact .inl hmem
        · rcases List.mem_append.1 hmem with hmem | hmem
          · exact .inr ⟨c, hc, .inl hmem⟩
          · have hkey : (key, t.txn) ∈ taken' :=
              hextends.subset (List.mem_append_right _ List.mem_cons_self)
            exact .inr ⟨c, hc, .inr ⟨_, hkey, hchanges ▸ hmem⟩⟩
        · exact .inr ⟨c, hc, .inr hmem⟩

end Mempool

/-! ## The mempool of a node -/

/-- The mempool of a node. -/
abbrev NodeMempool : Type := Mempool CryptoHash UtxoProof BlockHeight Element Waiter

/-- Two transactions have a leaf in common that is not zero. -/
def SharesNonNull (a b : UtxoProof) : Prop := ∃ leaf ∈ a.leavesNonNull, leaf ∈ b.leavesNonNull

/-- A transaction has a leaf that is zero. -/
def Padded (txn : UtxoProof) : Prop := Element.NULL_HASH ∈ txn.leaves

/-- The changes of every transaction are its leaves. -/
def LeafChanges (m : NodeMempool) : Prop := ∀ k t, m.txns k = some t → t.changes = t.txn.leaves

/-- A condition on every two transactions of the queue, in their order. -/
def ForQueued (m : NodeMempool) (R : CryptoHash × UtxoProof → CryptoHash × UtxoProof → Prop) :
    Prop :=
  m.pool.Pairwise fun a b => ∀ t t', m.txns a = some t → m.txns b = some t' →
    R (a, t.txn) (b, t'.txn)

/-- **Every batch is large enough.** A batch has no more transactions than asked for, no two that
share a note, and all of them from the queue, in which the others stay; one that could be larger
leaves out only transactions that share a note with one in it. In particular any two transactions of
the queue that share no note are leased together where there are no others. -/
structure LeasesBatches (m : NodeMempool) : Prop where
  batch : ∀ (lease : BlockHeight) (maxCount : ℕ), 1 ≤ maxCount → ∃ txns m',
    Mempool.leaseBatch (ε := Error) lease maxCount m = (.ok txns, m') ∧
      txns.length ≤ maxCount ∧
      (txns.Pairwise fun a b => ¬ SharesNonNull a.2 b.2) ∧
      (∀ kv ∈ txns, ∃ t, m.txns kv.1 = some t ∧ t.txn = kv.2) ∧
      (txns.map Prod.fst ++ m'.pool).Perm m.pool ∧
      (txns.length < maxCount → ∀ k ∈ m'.pool, ∃ t, m.txns k = some t ∧
        ∃ kv ∈ txns, SharesNonNull t.txn kv.2)
  pair : ForQueued m fun a b => ¬ SharesNonNull a.2 b.2 →
    ∀ (lease : BlockHeight) (maxCount : ℕ), 2 ≤ maxCount →
      (Mempool.leaseBatch (ε := Error) lease maxCount { m with pool := [a.1, b.1] }).1 =
        .ok [a, b]

/-- When two transactions of the queue both have a leaf that stands for no note, they share a note;
and all transactions of the queue are known. -/
structure PaddedShare (m : NodeMempool) : Prop where
  known : ∀ k ∈ m.pool, (m.txns k).isSome
  share : ForQueued m fun a b => Padded a.2 → Padded b.2 → SharesNonNull a.2 b.2

/-- To share a leaf is symmetric. -/
lemma SharesNonNull.symm {a b : UtxoProof} (h : SharesNonNull a b) : SharesNonNull b a := by
  obtain ⟨leaf, ha, hb⟩ := h
  exact ⟨leaf, hb, ha⟩

/-- Transactions share a leaf if they share one that is not zero or if both have one that is. -/
lemma exists_leaf_iff (a b : UtxoProof) :
    (∃ leaf ∈ a.leaves, leaf ∈ b.leaves) ↔ SharesNonNull a b ∨ (Padded a ∧ Padded b) := by
  constructor
  · rintro ⟨leaf, ha, hb⟩
    by_cases hzero : leaf = Element.NULL_HASH
    · subst hzero
      exact .inr ⟨ha, hb⟩
    · have hne : (leaf != Element.NULL_HASH) = true := by simpa using hzero
      exact .inl ⟨leaf, List.mem_filter.2 ⟨ha, hne⟩, List.mem_filter.2 ⟨hb, hne⟩⟩
  · rintro (⟨leaf, ha, hb⟩ | ⟨ha, hb⟩)
    · exact ⟨leaf, List.mem_of_mem_filter ha, List.mem_of_mem_filter hb⟩
    · exact ⟨_, ha, hb⟩

/-! ## When batches are large enough -/

section Batches

variable {m : NodeMempool}

/-- A symmetric condition holds between what is taken and what stays. -/
lemma ForQueued.of_perm {R : CryptoHash × UtxoProof → CryptoHash × UtxoProof → Prop}
    (h : ForQueued m R) (hsymm : ∀ a b, R a b → R b a) {taken pool : List CryptoHash}
    (hperm : (taken ++ pool).Perm m.pool) {a b : CryptoHash} (ha : a ∈ taken) (hb : b ∈ pool)
    {t t' : MempoolTxn UtxoProof Element Waiter} (ht : m.txns a = some t)
    (ht' : m.txns b = some t') : R (a, t.txn) (b, t'.txn) := by
  have hpairwise := (hperm.pairwise_iff fun {a b} hab t t' ht ht' =>
    hsymm _ _ (hab t' t ht' ht)).2 h
  exact (List.pairwise_append.1 hpairwise).2.2 a ha b hb t t' ht ht'

/-- The changes of a transaction are its leaves. -/
lemma changesOf_eq (hchanges : LeafChanges m) {k : CryptoHash}
    {t : MempoolTxn UtxoProof Element Waiter} (ht : m.txns k = some t) :
    Mempool.changesOf m.txns k = t.txn.leaves := by
  rw [Mempool.changesOf, ht, Option.map_some, Option.getD_some, hchanges k t ht]

/-- Two transactions that share no leaf are leased together. -/
lemma leaseBatch_pair {a b : CryptoHash} {t t' : MempoolTxn UtxoProof Element Waiter}
    (ht : m.txns a = some t) (ht' : m.txns b = some t')
    (hdisjoint : ∀ c ∈ t'.changes, c ∉ t.changes) (lease : BlockHeight) {maxCount : ℕ}
    (hcount : 2 ≤ maxCount) :
    (Mempool.leaseBatch (ε := Error) lease maxCount { m with pool := [a, b] }).1 =
      .ok [(a, t.txn), (b, t'.txn)] := by
  have hnone : (t'.changes.any fun c => ([] ++ t.changes).contains c) = false := by
    rw [List.any_eq_false]
    intro c hc hmem
    exact hdisjoint c hc (List.contains_iff_mem.1 hmem)
  have hloop : (Mempool.leaseLoop m.txns maxCount [a, b] [] [] [] :
      Outcome Error (List (CryptoHash × UtxoProof) × List CryptoHash)) =
        .ok ([(a, t.txn), (b, t'.txn)], []) := by
    have hone : ¬ ([] ++ [(a, t.txn)] : List (CryptoHash × UtxoProof)).length ≥ maxCount := by
      rw [List.nil_append, List.length_singleton]
      omega
    have hnil : (t.changes.any fun c => ([] : List Element).contains c) = false := by
      rw [List.any_eq_false]
      intro c _ hmem
      cases List.contains_iff_mem.1 hmem
    rw [Mempool.leaseLoop, ht]
    simp only [hnil, Bool.false_eq_true, if_false, hone]
    rw [Mempool.leaseLoop, ht']
    simp only [hnone, Bool.false_eq_true, if_false]
    split
    · rfl
    · rfl
  unfold Mempool.leaseBatch
  simp only [hloop]

/-- **Batches of a node.** Every batch is large enough exactly if all transactions of the queue are
known, and any two of them that have a leaf standing for no note share a note.

**Proof sketch.** A batch for more transactions than there are goes over the whole queue, so that
all are known; a batch of two takes any two that share no note, unless they share a leaf that stands
for none. The other way round, what a batch leaves in the queue shares a note with what it took
(`leaseLoop_maximal`). -/
theorem leasesBatches_iff (hchanges : LeafChanges m) : LeasesBatches m ↔ PaddedShare m := by
  constructor
  · intro h
    have hknown : ∀ k ∈ m.pool, (m.txns k).isSome := by
      -- a batch for more transactions than there are goes over the whole queue
      obtain ⟨txns, m', -, -, -, htxns, hperm, hleft⟩ := h.batch 0 (m.pool.length + 1) (by omega)
      have hlen := hperm.length_eq
      rw [List.length_append, List.length_map] at hlen
      intro k hk
      rcases List.mem_append.1 (hperm.mem_iff.2 hk) with hk | hk
      · obtain ⟨kv, hkv, rfl⟩ := List.mem_map.1 hk
        obtain ⟨t, ht, -⟩ := htxns kv hkv
        exact Option.isSome_iff_exists.2 ⟨t, ht⟩
      · obtain ⟨t, ht, -⟩ := hleft (by omega) k hk
        exact Option.isSome_iff_exists.2 ⟨t, ht⟩
    refine ⟨hknown, h.pair.imp_of_mem fun {a b} ha hb hpair t t' ht ht' hpadded hpadded' => ?_⟩
    by_contra hshares
    have hok := hpair t t' ht ht' hshares 0 2 le_rfl
    have hboth : ∀ k ∈ [a, b], (m.txns k).isSome := by
      intro k hk
      rcases List.mem_pair.1 hk with rfl | rfl
      · exact hknown _ ha
      · exact hknown _ hb
    obtain ⟨taken, pool', hloop, -, htaken⟩ :=
      Mempool.leaseLoop_spec (ε := Error) 2 hboth [] [] []
    unfold Mempool.leaseBatch at hok
    simp only [hloop, List.nil_append, Outcome.ok.injEq] at hok
    -- what is taken shares no leaf, but both have the zero leaf
    have hdisjoint := htaken.disjoint
    rw [hok, List.pairwise_pair] at hdisjoint
    rw [changesOf_eq hchanges ht, changesOf_eq hchanges ht'] at hdisjoint
    exact hdisjoint _ hpadded hpadded'
  · intro h
    have hsymm : ∀ a b : CryptoHash × UtxoProof, (Padded a.2 → Padded b.2 → SharesNonNull a.2 b.2) →
        Padded b.2 → Padded a.2 → SharesNonNull b.2 a.2 :=
      fun a b hab hb ha => (hab ha hb).symm
    refine ⟨fun lease maxCount hcount => ?_, h.share.imp_of_mem
      fun {a b} ha hb hshare t t' ht ht' hnot lease maxCount hcount => ?_⟩
    · obtain ⟨taken, pool', hloop, hperm, htaken⟩ :=
        Mempool.leaseLoop_spec (ε := Error) maxCount h.known [] [] []
      obtain ⟨-, hle, hleft⟩ := Mempool.leaseLoop_maximal hloop hcount
      rw [List.nil_append] at hle hleft
      rw [List.append_nil] at hperm
      refine ⟨taken,
        { m with
          pool := pool'
          leased := Function.update m.leased lease
            (Mempool.leaseKeys (m.leased lease) taken) },
        by simp only [Mempool.leaseBatch, hloop, List.nil_append], hle, ?_, htaken.known, hperm,
        fun hshort k hk => ?_⟩
      · refine htaken.disjoint.imp_of_mem fun {a b} ha hb hab => ?_
        obtain ⟨t, ht, hta⟩ := htaken.known a ha
        obtain ⟨t', ht', htb⟩ := htaken.known b hb
        rw [changesOf_eq hchanges ht, changesOf_eq hchanges ht', hta, htb] at hab
        rintro ⟨leaf, hleaf, hleaf'⟩
        exact hab leaf (List.mem_of_mem_filter hleaf) (List.mem_of_mem_filter hleaf')
      · -- what is left out shares a leaf with a transaction of the batch
        have hk' : k ∈ m.pool := hperm.mem_iff.1 (List.mem_append_right _ hk)
        obtain ⟨t, ht⟩ := Option.isSome_iff_exists.1 (h.known k hk')
        refine ⟨t, ht, ?_⟩
        rcases hleft hshort k hk with hnil | ⟨c, hc, hnil | ⟨kv, hkv, hc'⟩⟩
        · cases hnil
        · cases hnil
        · obtain ⟨t', ht', htxn⟩ := htaken.known kv hkv
          rw [changesOf_eq hchanges ht] at hc
          rw [changesOf_eq hchanges ht', htxn] at hc'
          refine ⟨kv, hkv, ?_⟩
          rcases (exists_leaf_iff _ _).1 ⟨c, hc, hc'⟩ with hshares | ⟨hpadded, hpadded'⟩
          · exact hshares
          · have hshares := h.share.of_perm hsymm hperm (List.mem_map_of_mem hkv) hk ht' ht
            rw [htxn] at hshares
            exact (hshares hpadded' hpadded).symm
    · refine leaseBatch_pair ht ht' (fun c hc hc' => ?_) lease hcount
      rw [hchanges a t ht] at hc'
      rw [hchanges b t' ht'] at hc
      rcases (exists_leaf_iff _ _).1 ⟨c, hc', hc⟩ with hshares | ⟨hpadded, hpadded'⟩
      · exact hnot hshares
      · exact hnot (hshare t t' ht ht' hpadded hpadded')

end Batches

/-! ### Two unrelated transactions -/

namespace Unrelated

/-- A transaction with one note in and one note out. -/
def pay (input output : Element) : UtxoProof := ⟨5, 0, 0, (input, 0), (output, 0), []⟩

/-- A transaction with two notes in and two notes out. -/
def join : UtxoProof := ⟨5, 0, 0, (11, 12), (13, 14), []⟩

/-- A mempool that has received two transactions, with hashes 1 and 2. -/
def received (a b : UtxoProof) : NodeMempool :=
  (Mempool.empty.add 1 a a.leaves).add 2 b b.leaves

/-- The mempool of two received transactions has their leaves as changes. -/
lemma leafChanges_received (a b : UtxoProof) : LeafChanges (received a b) := by
  intro k t ht
  unfold received Mempool.add at ht
  rcases Mempool.txns_addWith ht with ht | rfl
  · rcases Mempool.txns_addWith ht with ht | rfl
    · cases ht
    · rfl
  · rfl

/-- What the mempool has after both were received. -/
lemma received_eq (a b : UtxoProof) :
    (received a b).pool = [1, 2] ∧ (received a b).txns 1 = some ⟨a, none, a.leaves⟩ ∧
      (received a b).txns 2 = some ⟨b, none, b.leaves⟩ :=
  ⟨rfl, rfl, rfl⟩

end Unrelated

open Unrelated in
/-- A transaction without zero leaves is leased with any other that it shares no note with. -/
theorem leasesBatches_join : LeasesBatches (received (pay 1 2) join) := by
  obtain ⟨hpool, hone, htwo⟩ := received_eq (pay 1 2) join
  refine (leasesBatches_iff (leafChanges_received _ _)).2 ⟨?_, ?_⟩
  · rw [hpool]
    intro k hk
    rcases List.mem_pair.1 hk with rfl | rfl
    · rw [hone]
      rfl
    · rw [htwo]
      rfl
  · rw [ForQueued, hpool, List.pairwise_pair]
    intro t t' _ ht' _ hpadded
    rw [htwo] at ht'
    obtain rfl := Option.some.inj ht'
    exact absurd hpadded (by unfold Padded; decide)

open Unrelated in
/-- **Padding conflicts with padding.** Two transactions that share no note are not leased
together, as both have zero leaves. -/
theorem not_leasesBatches_of_padding :
    ¬ SharesNonNull (pay 1 2) (pay 3 4) ∧
      (Mempool.leaseBatch (ε := Empty) (7 : BlockHeight) 2 (received (pay 1 2) (pay 3 4))).1 =
        .ok [(1, pay 1 2)] ∧
      ¬ LeasesBatches (received (pay 1 2) (pay 3 4)) := by
  have hshares : ¬ SharesNonNull (pay 1 2) (pay 3 4) := by
    have hfirst : (pay 1 2).leavesNonNull = [1, 2] := by decide
    have hsecond : (pay 3 4).leavesNonNull = [3, 4] := by decide
    rintro ⟨leaf, hleaf, hleaf'⟩
    rw [hfirst, List.mem_pair] at hleaf
    rw [hsecond, List.mem_pair] at hleaf'
    rcases hleaf with rfl | rfl
    · exact absurd hleaf' (by decide)
    · exact absurd hleaf' (by decide)
  refine ⟨hshares, by rfl, fun h => ?_⟩
  obtain ⟨hpool, hone, htwo⟩ := received_eq (pay 1 2) (pay 3 4)
  have hpair := h.pair
  rw [ForQueued, hpool, List.pairwise_pair] at hpair
  exact absurd (hpair _ _ hone htwo hshares 7 2 le_rfl) (by decide)

end TempoRollup.Node
