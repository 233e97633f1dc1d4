import TempoRollup.Node.Mempool

set_option relaxedAutoImplicit false
set_option autoImplicit false
set_option linter.unusedSectionVars false

/-!
# The callers of `add_wait`

`add_wait` in `node/src/mempool.rs` makes a `oneshot` channel, hands its sender to `_add` and
waits for the receiver. The sender is either put into the map of the mempool, from where `commit`
takes it, or dropped at the end of `_add`. This module follows every channel through a sequence of
calls.

## Main definitions

* `Mempool.Channel`, `Mempool.Channel.await` — a channel, and what the caller sees of it.
* `Mempool.Callers`, `Mempool.Callers.step` — the mempool with the channels of all callers.
* `Mempool.Answered`, `Mempool.NeverClosed` — every caller whose key is committed later has the
  result of that commit; no channel is closed without a result.
* `Mempool.Callers.FreshWait` — a call of `add_wait` finds its key absent.

## Main results

* `Mempool.Callers.Linked.step` — every sender in the map belongs to one waiting channel.
* `Mempool.Callers.Linked.run_received` — a sender in the map is sent the first result with which
  its key is committed.
* `Mempool.answered_iff_freshWait` — the callers are served exactly in those runs in which every
  `add_wait` finds its key absent.

## Design

A caller is a number, given out in the order of the calls, so that two callers never share a
channel. What a caller receives does not depend on the queue and the leases, but the sequences of
calls include the calls that lease.
-/

open Exec

namespace TempoRollup.Node.Mempool

/-- A `oneshot` channel, as its receiver sees it. -/
inductive Channel (R : Type) where
  | waiting
  | received (result : R)
  | closed

/-- `recv.await.expect("recv error")`: nothing while the caller waits. -/
def Channel.await {R : Type} : Channel R → Option (Outcome Empty R)
  | .waiting => none
  | .received result => some (.ok result)
  | .closed => some .panic

variable {K V L C W R : Type} [DecidableEq K] [DecidableEq L] [DecidableEq C]

/-- The mempool with the channels of the callers of `add_wait`. -/
structure Callers (K V L C R : Type) where
  mempool : Mempool K V L C ℕ
  opened : ℕ
  channel : ℕ → Channel R

/-- The channels after `sender.send(result)` for each pair. -/
def deliver (sent : List (ℕ × R)) (channel : ℕ → Channel R) (caller : ℕ) : Channel R :=
  match sent.lookup caller with
  | some result => .received result
  | none => channel caller

namespace Callers

/-- No caller yet. -/
def empty : Callers K V L C R := ⟨.empty, 0, fun _ => .waiting⟩

/-- The mempool and the channels after a call. -/
def step (state : Callers K V L C R) : Call K V L C Unit R → Callers K V L C R
  | .add key txn changes => { state with mempool := state.mempool.add key txn changes }
  | .addWait key txn changes _ =>
    { mempool := state.mempool.addWait key txn changes state.opened
      opened := state.opened + 1
      -- a sender that is not put into the map is dropped when `_add` returns
      channel := Function.update state.channel state.opened
        (if (state.mempool.txns key).isSome then .closed else .waiting) }
  | .leaseTxns lease keys => { state with mempool := state.mempool.leaseTxns lease keys }
  | .leaseBatch lease maxCount =>
    { state with mempool := (leaseBatch (ε := Empty) lease maxCount state.mempool).2 }
  | .commit order lease keysWithResults =>
    { state with
      mempool := (state.mempool.commit order.visit lease keysWithResults).1
      channel := deliver (state.mempool.commit order.visit lease keysWithResults).2 state.channel }

/-- The mempool and the channels after a sequence of calls. -/
def run (state : Callers K V L C R) (calls : List (Call K V L C Unit R)) : Callers K V L C R :=
  calls.foldl step state

/-- A call of `add_wait` finds its key absent. -/
def FreshWait (state : Callers K V L C R) : Call K V L C Unit R → Prop
  | .addWait key _ _ _ => state.mempool.txns key = none
  | _ => True

end Callers

/-- The keys that a call commits, with their results. -/
def Call.results : Call K V L C W R → List (K × R)
  | .commit _ _ keysWithResults => keysWithResults
  | _ => []

/-- The first result with which a key is committed. -/
def committedWith (key : K) (calls : List (Call K V L C W R)) : Option R :=
  (calls.flatMap Call.results).lookup key

/-- Every caller of `add_wait` whose key is committed later receives the result of that
commit. -/
def Answered (calls : List (Call K V L C Unit R)) : Prop :=
  ∀ before key txn changes after result,
    calls = before ++ .addWait key txn changes () :: after →
    committedWith key after = some result →
    ((Callers.empty.run calls).channel (Callers.empty.run before).opened).await =
      some (.ok result)

/-- At no time is a channel closed without a result. -/
def NeverClosed (calls : List (Call K V L C Unit R)) : Prop :=
  ∀ state ∈ Runs.states Callers.step Callers.empty calls, ∀ caller,
    (state.channel caller).await ≠ some .panic

/-! ## The map of transactions -/

/-- An entry of another key does not change what is found. -/
lemma lookup_cons_of_ne {α β : Type} [DecidableEq α] {a k : α} (h : k ≠ a) (b : β)
    (l : List (α × β)) : ((a, b) :: l).lookup k = l.lookup k := by
  simp [List.lookup_cons, beq_false_of_ne h]

/-- Leasing does not change the transactions. -/
lemma txns_leaseTxns (lease : L) (keys : List K) (m : Mempool K V L C W) :
    (m.leaseTxns lease keys).txns = m.txns := by
  induction keys generalizing m with
  | nil => rfl
  | cons key keys ih => exact ih (m.leaseTxn lease key)

/-- Leasing a batch does not change the transactions. -/
lemma txns_leaseBatch (lease : L) (maxCount : ℕ) (m : Mempool K V L C W) :
    (leaseBatch (ε := Empty) lease maxCount m).2.txns = m.txns := by
  unfold leaseBatch
  split <;> rfl

/-- A key that is committed leaves the map. -/
lemma txns_commitKeys (lease : L) (keys : List (K × R)) (m : Mempool K V L C W) (k : K) :
    (m.commitKeys lease keys).1.txns k = if (keys.lookup k).isSome then none else m.txns k := by
  induction keys generalizing m with
  | nil => rfl
  | cons key rest ih =>
    obtain ⟨key, result⟩ := key
    rw [commitKeys, ih, commitKey_txns]
    by_cases hk : k = key
    · simp [hk]
    · rw [lookup_cons_of_ne hk, Function.update_of_ne hk]

/-! ## Senders -/

/-- The caller that waits for a key. -/
def senderOf (m : Mempool K V L C W) (k : K) : Option W := (m.txns k).bind MempoolTxn.sender

/-- No two keys have the same sender. -/
def DistinctSenders (m : Mempool K V L C W) : Prop :=
  ∀ k k' w, m.senderOf k = some w → m.senderOf k' = some w → k = k'

variable {m : Mempool K V L C ℕ}

/-- The sender of a key is the one that added it first. -/
lemma senderOf_addWith (m : Mempool K V L C W) (key k : K) (txn : V) (changes : List C)
    (sender : Option W) :
    (m.addWith key txn changes sender).senderOf k =
      if k = key ∧ m.txns key = none then sender else m.senderOf k := by
  cases hkey : m.txns key with
  | some t =>
    have hsome : (m.txns key).isSome := by rw [hkey]; rfl
    simp [addWith_of_isSome hsome]
  | none =>
    rw [addWith_of_new (by simp [hkey])]
    by_cases hk : k = key
    · simp [hk, senderOf]
    · simp [hk, senderOf]

/-- Committed keys lose their senders, and the others keep them. -/
lemma senderOf_commit (order : List K → List K) (lease : L) (keys : List (K × R))
    (m : Mempool K V L C W) (k : K) :
    (m.commit order lease keys).1.senderOf k =
      if (keys.lookup k).isSome then none else m.senderOf k := by
  simp only [commit, free, senderOf, txns_commitKeys]
  split <;> rfl

/-- A committed key loses its sender, and the others keep theirs. -/
lemma senderOf_commitKey (lease : L) (key k : K) (m : Mempool K V L C W) :
    (m.commitKey lease key).senderOf k = if k = key then none else m.senderOf k := by
  rw [senderOf, commitKey_txns]
  by_cases hk : k = key
  · simp [hk]
  · simp [hk, senderOf]

/-- A commit keeps the senders apart. -/
lemma DistinctSenders.commitKey {m : Mempool K V L C W} (h : m.DistinctSenders) (lease : L)
    (key : K) : (m.commitKey lease key).DistinctSenders := by
  intro k k' w hk hk'
  rw [senderOf_commitKey] at hk hk'
  split at hk
  · cases hk
  · split at hk'
    · cases hk'
    · exact h k k' w hk hk'

/-- A reply goes to the sender of the key, if there is one. -/
lemma reply_eq (m : Mempool K V L C W) (key : K) (result : R) :
    m.reply key result = ((m.senderOf key).map fun w => (w, result)).toList := by
  unfold reply senderOf
  rcases m.txns key with _ | ⟨txn, _ | sender, changes⟩ <;> rfl

/-- **What a commit sends**: a caller gets the first result of the key it waits for. By induction
on the keys; a key that is committed is not found again. -/
lemma lookup_commitKeys (lease : L) (keys : List (K × R)) (hm : m.DistinctSenders) (w : ℕ)
    (result : R) :
    (m.commitKeys lease keys).2.lookup w = some result ↔
      ∃ k, m.senderOf k = some w ∧ keys.lookup k = some result := by
  induction keys generalizing m with
  | nil => simp [commitKeys]
  | cons key rest ih =>
    obtain ⟨key, r⟩ := key
    rw [commitKeys, reply_eq]
    by_cases hw : m.senderOf key = some w
    · -- the caller waits for this key, and for no other
      simp only [hw, Option.map_some, Option.toList_some, List.singleton_append,
        List.lookup_cons_self, Option.some.injEq]
      constructor
      · rintro rfl
        exact ⟨key, hw, List.lookup_cons_self⟩
      · rintro ⟨k, hk, hlookup⟩
        rw [hm k key w hk hw, List.lookup_cons_self] at hlookup
        exact Option.some.inj hlookup
    · have hskip : (((m.senderOf key).map fun w => (w, r)).toList ++
          (commitKeys lease rest (m.commitKey lease key)).2).lookup w =
          (commitKeys lease rest (m.commitKey lease key)).2.lookup w := by
        cases hs : m.senderOf key with
        | none => rfl
        | some w' =>
          have hne : w ≠ w' := fun h => hw (by rw [hs, h])
          exact lookup_cons_of_ne hne r _
      rw [hskip, ih (hm.commitKey lease key)]
      refine exists_congr fun k => ?_
      rw [senderOf_commitKey]
      by_cases hk : k = key
      · simp [hk, hw]
      · rw [if_neg hk, lookup_cons_of_ne hk]

namespace Callers

variable {state : Callers K V L C R}

/-- Every sender in the map belongs to a caller that waits, and no two keys have the same. -/
structure Linked (state : Callers K V L C R) : Prop where
  waiting : ∀ k caller, state.mempool.senderOf k = some caller →
    state.channel caller = .waiting ∧ caller < state.opened
  distinct : state.mempool.DistinctSenders

/-- New callers are linked. -/
lemma linked_empty : (empty : Callers K V L C R).Linked where
  waiting k caller h := by cases h
  distinct k k' caller h := by cases h

/-- A key that is not committed keeps its sender. -/
lemma senderOf_step_of_known {k : K} {caller : ℕ} (h : state.mempool.senderOf k = some caller)
    {call : Call K V L C Unit R} (hnone : call.results.lookup k = none) :
    (state.step call).mempool.senderOf k = some caller := by
  have hadd : ∀ key txn changes sender,
      (state.mempool.addWith key txn changes sender).senderOf k = some caller := by
    intro key txn changes sender
    rw [senderOf_addWith, if_neg, h]
    rintro ⟨rfl, hkey⟩
    rw [senderOf, hkey] at h
    cases h
  cases call with
  | add key txn changes => exact hadd key txn changes none
  | addWait key txn changes _ => exact hadd key txn changes _
  | leaseTxns lease keys =>
    simp only [step, senderOf, txns_leaseTxns]
    exact h
  | leaseBatch lease maxCount =>
    simp only [step, senderOf, txns_leaseBatch]
    exact h
  | commit order lease keys =>
    have hkeys : keys.lookup k = none := hnone
    simp only [step, senderOf_commit, hkeys]
    exact h

/-- A caller that no key waits for hears nothing of a commit. -/
lemma Linked.deliver_of_not_sent (h : state.Linked) {lease : L} {keys : List (K × R)}
    {order : VisitOrder K} {caller : ℕ}
    (hnot : ∀ k result, state.mempool.senderOf k = some caller → keys.lookup k ≠ some result) :
    deliver (state.mempool.commit order.visit lease keys).2 state.channel caller =
      state.channel caller := by
  unfold deliver
  split
  · next result hlookup =>
    obtain ⟨k, hk, hresult⟩ := (lookup_commitKeys lease keys h.distinct caller result).1 hlookup
    exact absurd hresult (hnot k result hk)
  · rfl

/-- **One call** keeps the senders in the map with their channels.

**Proof sketch.** By cases on the call. A new caller is in the map under its own key only, and only
if the key was absent; a commit takes the senders it replies to out of the map, and the others keep
their channels. -/
theorem Linked.step (h : state.Linked) (call : Call K V L C Unit R) :
    (state.step call).Linked := by
  cases call with
  | add key txn changes =>
    have hsender : ∀ k caller, (state.mempool.add key txn changes).senderOf k = some caller →
        state.mempool.senderOf k = some caller := by
      intro k caller hk
      rw [add, senderOf_addWith] at hk
      split at hk
      · cases hk
      · exact hk
    exact ⟨fun k caller hk => h.waiting k caller (hsender k caller hk),
      fun k k' caller hk hk' => h.distinct k k' caller (hsender k caller hk)
        (hsender k' caller hk')⟩
  | addWait key txn changes _ =>
    -- the new caller is in the map only under its own key, and only if the key was absent
    have hsender : ∀ k caller,
        (state.mempool.addWait key txn changes state.opened).senderOf k = some caller →
        (k = key ∧ state.mempool.txns key = none ∧ caller = state.opened) ∨
          state.mempool.senderOf k = some caller := by
      intro k caller hk
      rw [addWait, senderOf_addWith] at hk
      split at hk
      · next hnew => exact .inl ⟨hnew.1, hnew.2, (Option.some.inj hk).symm⟩
      · exact .inr hk
    refine ⟨fun k caller hk => ?_, fun k k' caller hk hk' => ?_⟩
    · rcases hsender k caller hk with ⟨rfl, hnone, rfl⟩ | hold
      · simp [Callers.step, hnone]
      · obtain ⟨hwait, hlt⟩ := h.waiting k caller hold
        refine ⟨?_, Nat.lt_succ_of_lt hlt⟩
        simp only [Callers.step, Function.update_of_ne (Nat.ne_of_lt hlt)]
        exact hwait
    · have hlt : ∀ k caller, state.mempool.senderOf k = some caller → caller ≠ state.opened :=
        fun k caller hk => Nat.ne_of_lt (h.waiting k caller hk).2
      rcases hsender k caller hk with ⟨rfl, -, rfl⟩ | hold
      · rcases hsender k' _ hk' with ⟨rfl, -, -⟩ | hold'
        · rfl
        · exact absurd rfl (hlt k' _ hold')
      · rcases hsender k' _ hk' with ⟨rfl, -, rfl⟩ | hold'
        · exact absurd rfl (hlt k _ hold)
        · exact h.distinct k k' caller hold hold'
  | leaseTxns lease keys =>
    have hsame : (state.mempool.leaseTxns lease keys).senderOf = state.mempool.senderOf := by
      funext k
      simp only [senderOf, txns_leaseTxns]
    exact ⟨fun k caller hk => h.waiting k caller (hsame ▸ hk),
      fun k k' caller hk hk' => h.distinct k k' caller (hsame ▸ hk) (hsame ▸ hk')⟩
  | leaseBatch lease maxCount =>
    have hsame : (leaseBatch (ε := Empty) lease maxCount state.mempool).2.senderOf =
        state.mempool.senderOf := by
      funext k
      simp only [senderOf, txns_leaseBatch]
    exact ⟨fun k caller hk => h.waiting k caller (hsame ▸ hk),
      fun k k' caller hk hk' => h.distinct k k' caller (hsame ▸ hk) (hsame ▸ hk')⟩
  | commit order lease keys =>
    have hsender : ∀ k caller,
        (state.mempool.commit order.visit lease keys).1.senderOf k = some caller →
        keys.lookup k = none ∧ state.mempool.senderOf k = some caller := by
      intro k caller hk
      rw [senderOf_commit] at hk
      split at hk
      · cases hk
      · next hnone => exact ⟨Option.not_isSome_iff_eq_none.1 hnone, hk⟩
    refine ⟨fun k caller hk => ?_, fun k k' caller hk hk' =>
      h.distinct k k' caller (hsender k caller hk).2 (hsender k' caller hk').2⟩
    obtain ⟨hnone, hold⟩ := hsender k caller hk
    obtain ⟨hwait, hlt⟩ := h.waiting k caller hold
    refine ⟨Eq.trans (h.deliver_of_not_sent fun k' result hk' => ?_) hwait, hlt⟩
    rw [h.distinct k' k caller hk' hold, hnone]
    exact Option.some_ne_none result |>.symm

/-- A channel that has its result keeps it. -/
lemma Linked.channel_step_of_received (h : state.Linked) {caller : ℕ} {result : R}
    (hlt : caller < state.opened) (hres : state.channel caller = .received result)
    (call : Call K V L C Unit R) :
    (state.step call).channel caller = .received result ∧ caller < (state.step call).opened := by
  cases call with
  | add key txn changes => exact ⟨hres, hlt⟩
  | addWait key txn changes _ =>
    refine ⟨?_, Nat.lt_succ_of_lt hlt⟩
    simp only [Callers.step, Function.update_of_ne (Nat.ne_of_lt hlt)]
    exact hres
  | leaseTxns lease keys => exact ⟨hres, hlt⟩
  | leaseBatch lease maxCount => exact ⟨hres, hlt⟩
  | commit order lease keys =>
    refine ⟨Eq.trans (h.deliver_of_not_sent fun k result' hk => ?_) hres, hlt⟩
    rw [(h.waiting k caller hk).1] at hres
    cases hres

/-- The caller whose key is committed receives the result. -/
lemma Linked.channel_step_of_committed (h : state.Linked) {k : K} {caller : ℕ} {result : R}
    (hk : state.mempool.senderOf k = some caller) {call : Call K V L C Unit R}
    (hresult : call.results.lookup k = some result) :
    (state.step call).channel caller = .received result := by
  cases call with
  | commit order lease keys =>
    have hsent : (state.mempool.commit order.visit lease keys).2.lookup caller = some result :=
      (lookup_commitKeys lease keys h.distinct caller result).2 ⟨k, hk, hresult⟩
    simp only [Callers.step, deliver, hsent]
  | _ => cases hresult

/-! ## Runs -/

/-- Every run keeps the callers linked. -/
lemma Linked.run (h : state.Linked) (calls : List (Call K V L C Unit R)) :
    (state.run calls).Linked := by
  induction calls generalizing state with
  | nil => exact h
  | cons call calls ih => exact ih (h.step call)

/-- A reply that was received stays. -/
lemma Linked.run_of_received (h : state.Linked) {caller : ℕ} {result : R}
    (hlt : caller < state.opened) (hres : state.channel caller = .received result)
    (calls : List (Call K V L C Unit R)) : (state.run calls).channel caller = .received result := by
  induction calls generalizing state with
  | nil => exact hres
  | cons call calls ih =>
    obtain ⟨hres', hlt'⟩ := h.channel_step_of_received hlt hres call
    exact ih (h.step call) hlt' hres'

/-- **A sender in the map is sent the first result with which its key is committed.** By induction
on the calls: a call that does not commit the key leaves the sender in the map. -/
theorem Linked.run_received (h : state.Linked) {k : K} {caller : ℕ} {result : R}
    (hk : state.mempool.senderOf k = some caller) {calls : List (Call K V L C Unit R)}
    (hresult : committedWith k calls = some result) :
    (state.run calls).channel caller = .received result := by
  induction calls generalizing state with
  | nil => cases hresult
  | cons call calls ih =>
    rw [committedWith, List.flatMap_cons, List.lookup_append] at hresult
    cases hnow : call.results.lookup k with
    | some r =>
      rw [hnow] at hresult
      cases hresult
      have hlt := (h.waiting k caller hk).2
      have hlt' : caller < (state.step call).opened := by
        cases call with
        | addWait key txn changes _ => exact Nat.lt_succ_of_lt hlt
        | _ => exact hlt
      exact (h.step call).run_of_received hlt' (h.channel_step_of_committed hk hnow) calls
    | none =>
      rw [hnow, Option.none_or] at hresult
      exact ih (h.step call) (senderOf_step_of_known hk hnow) hresult

end Callers

/-- A call that finds its key absent leaves no channel closed. -/
lemma Callers.not_closed_step_iff {state : Callers K V L C R}
    (h : ∀ caller, (state.channel caller).await ≠ some .panic) (call : Call K V L C Unit R) :
    (∀ caller, ((state.step call).channel caller).await ≠ some .panic) ↔ state.FreshWait call := by
  cases call with
  | addWait key txn changes _ =>
    constructor
    · intro hafter
      by_contra hkey
      have hsome : (state.mempool.txns key).isSome := Option.isSome_iff_ne_none.2 hkey
      apply hafter state.opened
      simp [Callers.step, hsome, Channel.await]
    · intro hkey caller
      by_cases hc : caller = state.opened
      · have hnone : state.mempool.txns key = none := hkey
        simp [Callers.step, hc, hnone, Channel.await]
      · simp only [Callers.step, Function.update_of_ne hc]
        exact h caller
  | commit order lease keys =>
    refine ⟨fun _ => trivial, fun _ caller => ?_⟩
    simp only [Callers.step, deliver]
    split
    · simp [Channel.await]
    · exact h caller
  | _ => exact ⟨fun _ => trivial, fun _ => h⟩

/-- **The callers of `add_wait` over whole runs.** Every caller whose key is committed later
receives the result of that commit, and no channel is closed without a result, exactly in those
runs in which every `add_wait` finds its key absent from the mempool.

**Proof sketch.** A channel is closed exactly by an `add_wait` that finds its key
(`not_closed_step_iff`). A caller that found its key absent has its sender in the map until the key
is committed (`Linked.run`), and is sent the result then. -/
theorem answered_iff_freshWait (calls : List (Call K V L C Unit R)) :
    Answered calls ∧ NeverClosed calls ↔
      Runs.Along Callers.step Callers.FreshWait Callers.empty calls := by
  have hclosed : NeverClosed calls ↔
      Runs.Along Callers.step Callers.FreshWait Callers.empty calls := by
    refine @Runs.forall_states_iff _ _ Callers.step
      (fun state => ∀ caller, (state.channel caller).await ≠ some .panic) _ Callers.FreshWait
      (fun _ => True) (fun _ h => h) (fun state call _ h => (state.not_closed_step_iff h call).2)
      (fun state call _ h => (state.not_closed_step_iff h call).1) _ (fun caller => ?_) _
      (fun _ _ => trivial)
    simp [Callers.empty, Channel.await]
  refine ⟨fun h => hclosed.1 h.2, fun h => ⟨?_, hclosed.2 h⟩⟩
  rintro before key txn changes after result rfl hresult
  have hfresh : (Callers.empty.run before).mempool.txns key = none :=
    ((Runs.along_append _ _ _).1 h).2.1
  have hlinked : (Callers.empty.run before : Callers K V L C R).Linked :=
    Callers.linked_empty.run before
  -- the sender is in the map after the call
  have hsender : ((Callers.empty.run before).step (.addWait key txn changes ())).mempool.senderOf
      key = some (Callers.empty.run before : Callers K V L C R).opened := by
    simp only [Callers.step, addWait, senderOf_addWith, hfresh, and_self, if_true]
  have hreceived := (hlinked.step (.addWait key txn changes ())).run_received hsender hresult
  have hrun : (Callers.empty.run (before ++ .addWait key txn changes () :: after)) =
      ((Callers.empty.run before : Callers K V L C R).step (.addWait key txn changes ())).run
        after := by
    simp only [Callers.run, List.foldl_append, List.foldl_cons]
  rw [hrun, hreceived]
  rfl

/-- A transaction arrives from another node before the client submits it: the client's channel is
closed, and the commit of the transaction does not answer it. -/
theorem addWait_after_add_closed :
    ¬ NeverClosed [(.add 3 0 [] : Call ℕ ℕ ℕ ℕ Unit ℕ), .addWait 3 0 [] ()] ∧
      ¬ Answered [(.add 3 0 [] : Call ℕ ℕ ℕ ℕ Unit ℕ), .addWait 3 0 [] (),
        .commit ⟨id, fun _ => .refl _⟩ 7 [(3, 5)]] := by
  refine ⟨fun h => ?_, fun h => ?_⟩
  · exact h _ (List.mem_cons_of_mem _ (List.mem_cons_of_mem _ (List.mem_singleton.2 rfl))) 0 rfl
  · have hpanic : some (Outcome.panic : Outcome Empty ℕ) = some (.ok 5) :=
      h [.add 3 0 []] 3 0 [] [.commit ⟨id, fun _ => .refl _⟩ 7 [(3, 5)]] 5 rfl rfl
    cases hpanic

end TempoRollup.Node.Mempool
