import Mathlib.Data.List.Nodup
import Mathlib.Data.List.Perm.Basic
import Mathlib.Logic.Function.Iterate
import TempoRollup.Lib.Runs

set_option relaxedAutoImplicit false
set_option autoImplicit false

/-!
# The pool

`primitives/src/pool.rs`: values that are handed out in guards. The drop of a guard hands its value
on to a `get` that waits, inside another guard, or puts it back; it holds the lock of the pool
all the while.

## Main definitions

* `PoolState`, `Phase`, `System` — the pool, the drop that holds its lock, and everything around.
* `Op`, `step` — the interleaved steps of `get`, of drops and of cancellations.
* `Safe` — the lock is released, no value is lost, and none is idle while someone waits.
* `NotBetween` — no receiver is dropped between the test and the send.

## Main results

* `Inv.step` — the invariant of the steps that are not in between.
* `Inv.released` — the drop that holds the lock ends.
* `safe_iff` — the runs in which everything is safe.
* `not_safe_cancelled` — a drop that waits for its own lock.

## Design

The part of `get` under the lock is one step. A drop takes one step for each waiter that it tests
and one for a send, so that others can come in between: those that do not need the lock. A channel
gets at most one guard. When the receiver of a channel is dropped, so is the guard in it.
-/

namespace TempoRollup.Pool

variable {T : Type}

/-! ## The pool -/

/-- `PoolState`. A waiter is the number of its channel. -/
structure PoolState (T : Type) where
  values : List T
  waiters : List ℕ

/-- Where the `PoolGuard::drop` is that holds the lock. -/
inductive Phase (T : Type)
  /-- At the head of the loop. -/
  | next (value : T)
  /-- The sender was not closed, and a guard with the value is sent to it next. -/
  | send (value : T) (waiter : ℕ)
  /-- The send failed. The value was taken out of the guard that came back; the drop of that guard
  waits for the lock, which its own thread holds. -/
  | relock (value : T)

/-- The value that a drop has not handed on yet. -/
def Phase.value : Phase T → T
  | next value => value
  | send value _ => value
  | relock value => value

/-- The pool and everything around it. -/
structure System (T : Type) where
  state : PoolState T
  /-- The drop that holds the lock. -/
  lock : Option (Phase T)
  /-- The guards whose drop waits for the lock. -/
  dropping : List T
  /-- The guards in the hands of callers. -/
  guards : List T
  /-- The receivers of the `get`s that wait, with the guards that were sent to them. -/
  receivers : List (ℕ × Option T)
  nextChannel : ℕ

namespace System

/-- `Pool::new`. -/
def new (values : List T) : System T where
  state := ⟨values, []⟩
  lock := none
  dropping := []
  guards := []
  receivers := []
  nextChannel := 0

/-- `is_closed`: the receiver was dropped. -/
def isClosed (self : System T) (waiter : ℕ) : Bool :=
  self.receivers.all fun receiver => receiver.1 != waiter

/-- The values in live guards. -/
def live (self : System T) : List T :=
  self.guards ++ self.dropping ++ self.receivers.filterMap Prod.snd ++
    (self.lock.map Phase.value).toList

/-! ## Steps -/

/-- `Pool::get`, up to the wait for its receiver. -/
def get (self : System T) : System T :=
  match self.lock with
  | some _ => self
  | none =>
    match self.state.values with
    | value :: values =>
      { self with state := { self.state with values := values }, guards := self.guards ++ [value] }
    | [] =>
      { self with
        state := { self.state with waiters := self.state.waiters ++ [self.nextChannel] }
        receivers := self.receivers ++ [(self.nextChannel, none)]
        nextChannel := self.nextChannel + 1 }

/-- The channel of a receiver, and the others. -/
def without (self : System T) (waiter : ℕ) : List (ℕ × Option T) :=
  self.receivers.filter fun receiver => receiver.1 != waiter

/-- The end of `Pool::get` for one that waited. -/
def receive (self : System T) (waiter : ℕ) : System T :=
  match self.receivers.lookup waiter with
  | some (some value) =>
    { self with receivers := self.without waiter, guards := self.guards ++ [value] }
  | _ => self

/-- A `get` that waits is cancelled; a guard that was sent to it is dropped. -/
def cancel (self : System T) (waiter : ℕ) : System T :=
  match self.receivers.lookup waiter with
  | some guard =>
    { self with
      receivers := self.without waiter, dropping := self.dropping ++ guard.toList }
  | none => self

/-- A caller drops a guard. -/
def drop (self : System T) (index : ℕ) : System T :=
  match self.guards[index]? with
  | some value =>
    { self with guards := self.guards.eraseIdx index, dropping := self.dropping ++ [value] }
  | none => self

/-- A drop takes the lock. -/
def acquire (self : System T) (index : ℕ) : System T :=
  match self.lock, self.dropping[index]? with
  | none, some value =>
    { self with lock := some (.next value), dropping := self.dropping.eraseIdx index }
  | _, _ => self

/-- The drop that holds the lock goes on. -/
def advance (self : System T) : System T :=
  match self.lock with
  | none => self
  | some (.next value) =>
    match self.state.waiters with
    | [] =>
      -- no one is waiting
      { self with
        state := { self.state with values := self.state.values ++ [value] }, lock := none }
    | waiter :: waiters =>
      { self with
        state := { self.state with waiters := waiters }
        lock := some (if self.isClosed waiter then .next value else .send value waiter) }
  | some (.send value waiter) =>
    if self.isClosed waiter then { self with lock := some (.relock value) }
    else
      { self with
        receivers := self.without waiter ++ [(waiter, some value)], lock := none }
  | some (.relock _) => self

end System

/-- A step. -/
inductive Op
  | get
  | receive (waiter : ℕ)
  | cancel (waiter : ℕ)
  | drop (index : ℕ)
  | acquire (index : ℕ)
  | advance

/-- Take a step. -/
def step (self : System T) : Op → System T
  | .get => self.get
  | .receive waiter => self.receive waiter
  | .cancel waiter => self.cancel waiter
  | .drop index => self.drop index
  | .acquire index => self.acquire index
  | .advance => self.advance

/-- **What a state should be like**, for a pool of the given values: the drop that holds the lock
releases it; every value is in the pool or in one live guard; and a value is left in the pool only
when no one waits. -/
structure Safe (values : List T) (s : System T) : Prop where
  released : ∃ n, (System.advance^[n] s).lock = none
  conserved : (s.state.values ++ s.live).Perm values
  idle : s.lock = none → s.state.values ≠ [] →
    ∀ waiter ∈ s.state.waiters, s.isClosed waiter = true

/-- **The condition on a step**: a receiver is not dropped between the test of its sender and the
send. -/
def NotBetween (self : System T) : Op → Prop
  | .cancel waiter => ∀ value, self.lock ≠ some (.send value waiter)
  | _ => True

/-! ## The invariant -/

/-- **The invariant**: every value is somewhere, and idle values and waiters exclude each other;
every channel is used once; a drop that is about to send has an open channel, and none waits for its
own lock. -/
structure Inv (values : List T) (s : System T) : Prop where
  conserved : (s.state.values ++ s.live).Perm values
  idle : s.state.values ≠ [] → s.state.waiters = []
  waiters : s.state.waiters.Nodup
  receivers : (s.receivers.map Prod.fst).Nodup
  waiters_lt : ∀ waiter ∈ s.state.waiters, waiter < s.nextChannel
  receivers_lt : ∀ receiver ∈ s.receivers, receiver.1 < s.nextChannel
  unsent : ∀ waiter ∈ s.state.waiters, ∀ value, (waiter, some value) ∉ s.receivers
  sending : ∀ value waiter, s.lock = some (.send value waiter) →
    (waiter, none) ∈ s.receivers ∧ waiter ∉ s.state.waiters
  not_relock : ∀ value, s.lock ≠ some (.relock value)

section Receivers

variable {self : System T} {waiter : ℕ} {guard : Option T}

/-- A waiter is closed when it has no receiver. -/
lemma isClosed_eq_true_iff :
    self.isClosed waiter = true ↔ ∀ guard, (waiter, guard) ∉ self.receivers := by
  rw [System.isClosed, List.all_eq_true]
  constructor
  · intro h guard hmem
    simpa using h _ hmem
  · rintro h ⟨channel, guard⟩ hmem
    rw [bne_iff_ne]
    rintro rfl
    exact h guard hmem

/-- What is found is in the list. -/
lemma mem_of_lookup (h : self.receivers.lookup waiter = some guard) :
    (waiter, guard) ∈ self.receivers := by
  obtain ⟨before, after, heq, -⟩ := List.lookup_eq_some_iff.1 h
  rw [heq]
  exact List.mem_append_right _ List.mem_cons_self

/-- Dropping the receivers of a waiter leaves the others. -/
lemma mem_without {receiver : ℕ × Option T} :
    receiver ∈ self.without waiter ↔ receiver ∈ self.receivers ∧ receiver.1 ≠ waiter := by
  rw [System.without, List.mem_filter, bne_iff_ne]

/-- One channel and the others. By induction on the receivers. -/
lemma perm_without (hnodup : (self.receivers.map Prod.fst).Nodup)
    (hmem : (waiter, guard) ∈ self.receivers) :
    self.receivers.Perm ((waiter, guard) :: self.without waiter) := by
  unfold System.without
  generalize self.receivers = receivers at hnodup hmem ⊢
  induction receivers with
  | nil => cases hmem
  | cons receiver receivers ih =>
    rw [List.map_cons, List.nodup_cons] at hnodup
    rcases List.mem_cons.1 hmem with rfl | hmem
    · -- the others have other channels
      have hothers : receivers.filter (fun receiver => receiver.1 != waiter) = receivers := by
        rw [List.filter_eq_self]
        intro receiver hreceiver
        rw [bne_iff_ne]
        intro heq
        exact hnodup.1 (List.mem_map.2 ⟨receiver, hreceiver, heq⟩)
      rw [List.filter_cons_of_neg (by simp), hothers]
    · have hne : receiver.1 ≠ waiter := by
        intro heq
        exact hnodup.1 (List.mem_map.2 ⟨_, hmem, heq.symm⟩)
      rw [List.filter_cons_of_pos (by simpa using hne)]
      exact ((ih hnodup.2 hmem).cons receiver).trans (List.Perm.swap _ _ _)

/-- Dropping receivers keeps the waiters apart. -/
lemma nodup_without (hnodup : (self.receivers.map Prod.fst).Nodup) :
    ((self.without waiter).map Prod.fst).Nodup :=
  hnodup.sublist (List.filter_sublist.map Prod.fst)

end Receivers

section Step

variable {values : List T} {self : System T}

/-- A new pool has the invariant. -/
lemma inv_new (values : List T) : Inv values (System.new values) where
  conserved := by
    show (values ++ []).Perm values
    rw [List.append_nil]
  idle _ := rfl
  waiters := List.nodup_nil
  receivers := List.nodup_nil
  waiters_lt _ h := absurd h List.not_mem_nil
  receivers_lt _ h := absurd h List.not_mem_nil
  unsent _ h := absurd h List.not_mem_nil
  sending _ _ h := by cases h
  not_relock _ h := by cases h

/-- A `get` takes a value, or waits.

**Proof sketch.** By whether a value is there: it is taken, or the caller becomes a waiter with a
receiver of its own. -/
lemma Inv.get (h : Inv values self) : Inv values self.get := by
  classical
  obtain ⟨⟨idle, waiters⟩, lock, dropping, guards, receivers, nextChannel⟩ := self
  cases lock with
  | some phase => exact h
  | none =>
    cases idle with
    | cons value rest =>
      refine ⟨?_, fun _ => h.idle (List.cons_ne_nil _ _), h.waiters, h.receivers, h.waiters_lt,
        h.receivers_lt, h.unsent, h.sending, h.not_relock⟩
      refine List.Perm.trans ?_ h.conserved
      rw [List.perm_iff_count]
      intro a
      simp only [System.get, System.live, List.count_append, List.count_cons, List.count_nil]
      omega
    | nil =>
      have hfresh : nextChannel ∉ receivers.map Prod.fst := by
        intro hmem
        obtain ⟨receiver, hreceiver, heq⟩ := List.mem_map.1 hmem
        exact absurd (h.receivers_lt receiver hreceiver) (heq ▸ Nat.lt_irrefl _)
      refine ⟨?_, fun hne => absurd rfl hne, ?_, ?_, ?_, ?_, ?_, ?_, h.not_relock⟩
      · simpa [System.get, System.live] using h.conserved
      · refine List.Nodup.append h.waiters (List.nodup_singleton _) ?_
        intro waiter hwaiter hlast
        rw [List.mem_singleton.1 hlast] at hwaiter
        exact absurd (h.waiters_lt _ hwaiter) (Nat.lt_irrefl _)
      · show ((receivers ++ [(nextChannel, none)]).map Prod.fst).Nodup
        rw [List.map_append]
        refine List.Nodup.append h.receivers (List.nodup_singleton _) ?_
        intro waiter hwaiter hlast
        rw [List.mem_singleton.1 hlast] at hwaiter
        exact hfresh hwaiter
      · intro waiter hwaiter
        rcases List.mem_append.1 hwaiter with hwaiter | hlast
        · exact Nat.lt_succ_of_lt (h.waiters_lt waiter hwaiter)
        · rw [List.mem_singleton.1 hlast]
          exact Nat.lt_succ_self _
      · intro receiver hreceiver
        rcases List.mem_append.1 hreceiver with hreceiver | hlast
        · exact Nat.lt_succ_of_lt (h.receivers_lt receiver hreceiver)
        · rw [List.mem_singleton.1 hlast]
          exact Nat.lt_succ_self _
      · intro waiter hwaiter value hmem
        rcases List.mem_append.1 hmem with hmem | hlast
        · rcases List.mem_append.1 hwaiter with hwaiter | hnew
          · exact h.unsent waiter hwaiter value hmem
          · rw [List.mem_singleton.1 hnew] at hmem
            exact hfresh (List.mem_map.2 ⟨_, hmem, rfl⟩)
        · simp at hlast
      · intro value waiter hsend
        cases hsend

/-- A channel is taken away, with the guard in it. -/
lemma Inv.take (h : Inv values self) {waiter : ℕ} {guard : Option T}
    (hlookup : self.receivers.lookup waiter = some guard)
    (hnot : ∀ value, self.lock ≠ some (.send value waiter)) {guards dropping : List T}
    (hperm : (guards ++ dropping).Perm (self.guards ++ self.dropping ++ guard.toList)) :
    Inv values { self with
      receivers := self.without waiter, guards := guards, dropping := dropping } := by
  classical
  have hwithout := perm_without h.receivers (mem_of_lookup hlookup)
  refine ⟨?_, h.idle, h.waiters, nodup_without h.receivers, h.waiters_lt,
    fun receiver hreceiver => h.receivers_lt receiver (mem_without.1 hreceiver).1,
    fun waiter hwaiter value hmem => h.unsent waiter hwaiter value (mem_without.1 hmem).1,
    fun value sent hsend => ?_, h.not_relock⟩
  · refine List.Perm.trans ?_ h.conserved
    rw [List.perm_iff_count] at hperm ⊢
    intro a
    have hcount := (hwithout.filterMap Prod.snd).count_eq a
    have hguards := hperm a
    cases guard with
    | none =>
      rw [List.filterMap_cons_none rfl] at hcount
      simp only [System.live, List.count_append, Option.toList_none, List.count_nil] at hguards ⊢
      omega
    | some value =>
      simp only [List.filterMap_cons, List.count_cons] at hcount
      simp only [System.live, List.count_append, Option.toList_some, List.count_cons,
        List.count_nil] at hguards ⊢
      omega
  · obtain ⟨hmem, hnotMem⟩ := h.sending value sent hsend
    refine ⟨mem_without.2 ⟨hmem, ?_⟩, hnotMem⟩
    rintro rfl
    exact hnot value hsend

/-- A receipt keeps the invariant. -/
lemma Inv.receive (h : Inv values self) (waiter : ℕ) : Inv values (self.receive waiter) := by
  unfold System.receive
  rcases hlookup : self.receivers.lookup waiter with _ | _ | value
  · exact h
  · exact h
  · refine h.take hlookup (fun sent hsend => ?_) ?_
    · -- a channel that a guard is sent to is empty
      obtain ⟨hmem, -⟩ := h.sending sent waiter hsend
      have hsame := List.inj_on_of_nodup_map h.receivers hmem (mem_of_lookup hlookup) rfl
      cases hsame
    · rw [List.append_assoc, List.append_assoc]
      exact List.Perm.append_left _ List.perm_append_comm

/-- A receiver that is not between the test and the send may be dropped. -/
lemma Inv.cancel (h : Inv values self) {waiter : ℕ}
    (hnot : ∀ value, self.lock ≠ some (.send value waiter)) : Inv values (self.cancel waiter) := by
  unfold System.cancel
  cases hlookup : self.receivers.lookup waiter with
  | none => exact h
  | some guard =>
    refine h.take hlookup hnot ?_
    rw [List.append_assoc]

/-- An entry and the others. -/
lemma perm_eraseIdx {l : List T} {index : ℕ} {value : T} (h : l[index]? = some value) :
    (value :: l.eraseIdx index).Perm l := by
  obtain ⟨hlt, rfl⟩ := List.getElem?_eq_some_iff.1 h
  exact List.getElem_cons_eraseIdx_perm hlt

/-- A drop keeps the invariant. -/
lemma Inv.drop (h : Inv values self) (index : ℕ) : Inv values (self.drop index) := by
  classical
  unfold System.drop
  cases hget : self.guards[index]? with
  | none => exact h
  | some value =>
    refine ⟨?_, h.idle, h.waiters, h.receivers, h.waiters_lt, h.receivers_lt, h.unsent, h.sending,
      h.not_relock⟩
    refine List.Perm.trans ?_ h.conserved
    rw [List.perm_iff_count]
    intro a
    have hcount := (perm_eraseIdx hget).count_eq a
    simp only [List.count_cons] at hcount
    simp only [System.live, List.count_append, List.count_cons, List.count_nil]
    omega

/-- An acquisition keeps the invariant. -/
lemma Inv.acquire (h : Inv values self) (index : ℕ) : Inv values (self.acquire index) := by
  classical
  obtain ⟨⟨idle, waiters⟩, lock, dropping, guards, receivers, nextChannel⟩ := self
  unfold System.acquire
  rcases lock with _ | phase
  · cases hget : dropping[index]? with
    | none => exact h
    | some value =>
      refine ⟨?_, h.idle, h.waiters, h.receivers, h.waiters_lt, h.receivers_lt, h.unsent, ?_, ?_⟩
      · refine List.Perm.trans ?_ h.conserved
        rw [List.perm_iff_count]
        intro a
        have hcount := (perm_eraseIdx hget).count_eq a
        simp only [List.count_cons] at hcount
        simp only [System.live, List.count_append, Option.map_some, Option.map_none,
          Option.toList_some, Option.toList_none, List.count_cons, List.count_nil, Phase.value]
        omega
      · intro value' waiter hsend
        cases hsend
      · intro value' hrelock
        cases hrelock
  · exact h

/-- The drop that holds the lock goes on: it tests a waiter, sends to one that waits, or puts the
value back.

**Proof sketch.** By the phase of the drop. A waiter whose receiver was dropped is passed over; a
value that is sent is held by the receiver of its waiter, which is still there by the invariant. -/
lemma Inv.advance (h : Inv values self) : Inv values self.advance := by
  classical
  obtain ⟨⟨idle, waiters⟩, lock, dropping, guards, receivers, nextChannel⟩ := self
  rcases lock with _ | value | ⟨value, waiter⟩ | value
  · exact h
  · cases waiters with
    | nil =>
      refine ⟨?_, fun _ => rfl, List.nodup_nil, h.receivers, h.waiters_lt, h.receivers_lt, h.unsent,
        (fun _ _ hsend => by cases hsend), fun _ hrelock => by cases hrelock⟩
      refine List.Perm.trans ?_ h.conserved
      rw [List.perm_iff_count]
      intro a
      simp only [System.advance, System.live, List.count_append, Option.map_some, Option.map_none,
        Option.toList_some, Option.toList_none, List.count_cons, List.count_nil, Phase.value]
      omega
    | cons waiter waiters =>
      have hidle : idle = [] := by
        by_contra hne
        cases h.idle hne
      have hnodup := List.nodup_cons.1 h.waiters
      refine ⟨?_, fun hne => absurd hidle hne, hnodup.2, h.receivers,
        fun w hw => h.waiters_lt w (List.mem_cons_of_mem _ hw), h.receivers_lt,
        fun w hw => h.unsent w (List.mem_cons_of_mem _ hw), ?_, ?_⟩
      · refine List.Perm.trans ?_ h.conserved
        rw [List.perm_iff_count]
        intro a
        simp only [System.advance, System.live, List.count_append, Option.map_some]
        split_ifs
        · rfl
        · rfl
      · intro sent w hsend
        simp only [System.advance] at hsend
        split_ifs at hsend with hclosed
        · cases hsend
        · cases hsend
          refine ⟨?_, hnodup.1⟩
          rw [isClosed_eq_true_iff] at hclosed
          push Not at hclosed
          obtain ⟨guard, hguard⟩ := hclosed
          cases guard with
          | none => exact hguard
          | some other => exact absurd hguard (h.unsent waiter List.mem_cons_self other)
      · intro sent hrelock
        simp only [System.advance] at hrelock
        split_ifs at hrelock
        · cases hrelock
        · cases hrelock
  · obtain ⟨hmem, hnotMem⟩ := h.sending value waiter rfl
    have hopen : (⟨⟨idle, waiters⟩, some (.send value waiter), dropping, guards, receivers,
        nextChannel⟩ : System T).isClosed waiter = false := by
      rw [← Bool.not_eq_true, isClosed_eq_true_iff]
      intro hclosed
      exact hclosed none hmem
    have hwithout := perm_without h.receivers hmem
    unfold System.advance
    simp only [hopen, Bool.false_eq_true, if_false]
    refine ⟨?_, h.idle, h.waiters, ?_, h.waiters_lt, ?_, ?_, (fun _ _ hsend => by cases hsend),
      fun _ hrelock => by cases hrelock⟩
    · refine List.Perm.trans ?_ h.conserved
      rw [List.perm_iff_count]
      intro a
      have hcount : (receivers.filterMap Prod.snd).count a = _ :=
        (hwithout.filterMap Prod.snd).count_eq a
      rw [List.filterMap_cons_none rfl] at hcount
      simp only [System.live, List.count_append, List.filterMap_append, List.filterMap_cons,
        List.filterMap_nil, Option.map_some, Option.map_none, Option.toList_some,
        Option.toList_none, List.count_cons, List.count_nil, Phase.value]
      omega
    · rw [List.map_append]
      refine List.Nodup.append (nodup_without h.receivers) (List.nodup_singleton _) ?_
      intro w hw hlast
      rw [List.mem_singleton.1 hlast] at hw
      obtain ⟨receiver, hreceiver, heq⟩ := List.mem_map.1 hw
      exact (mem_without.1 hreceiver).2 heq
    · intro receiver hreceiver
      rcases List.mem_append.1 hreceiver with hreceiver | hlast
      · exact h.receivers_lt receiver (mem_without.1 hreceiver).1
      · rw [List.mem_singleton.1 hlast]
        exact h.receivers_lt (waiter, none) hmem
    · intro w hw other hother
      rcases List.mem_append.1 hother with hother | hlast
      · exact h.unsent w hw other (mem_without.1 hother).1
      · cases List.mem_singleton.1 hlast
        exact hnotMem hw
  · exact absurd rfl (h.not_relock value)

/-- **Every step that is not between a test and its send keeps the invariant.** -/
theorem Inv.step (h : Inv values self) {op : Op} (hnot : NotBetween self op) :
    Inv values (step self op) := by
  cases op with
  | get => exact h.get
  | receive waiter => exact h.receive waiter
  | cancel waiter => exact h.cancel hnot
  | drop index => exact h.drop index
  | acquire index => exact h.acquire index
  | advance => exact h.advance

/-! ## The lock is released -/

/-- A bound for the steps that the drop with the lock still takes. -/
def System.remaining (self : System T) : ℕ :=
  match self.lock with
  | none => 0
  | some (.next _) => 2 * self.state.waiters.length + 1
  | some (.send _ _) => 2 * self.state.waiters.length + 2
  | some (.relock _) => 0

/-- A drop that holds the lock comes nearer to its end. -/
lemma Inv.remaining_advance (h : Inv values self) (hlock : self.lock ≠ none) :
    self.advance.remaining < self.remaining := by
  obtain ⟨⟨idle, waiters⟩, lock, dropping, guards, receivers, nextChannel⟩ := self
  rcases lock with _ | value | ⟨value, waiter⟩ | value
  · exact absurd rfl hlock
  · cases waiters with
    | nil => simp [System.advance, System.remaining]
    | cons waiter waiters =>
      simp only [System.advance, System.remaining, List.length_cons]
      split_ifs
      · show 2 * waiters.length + 1 < _
        omega
      · show 2 * waiters.length + 2 < _
        omega
  · -- the channel is open
    obtain ⟨hmem, -⟩ := h.sending value waiter rfl
    unfold System.advance
    dsimp only
    split_ifs with hclosed
    · exact absurd hmem (isClosed_eq_true_iff.1 hclosed none)
    · simp [System.remaining]
  · exact absurd rfl (h.not_relock value)

/-- **The lock is released.** By induction on the bound. -/
theorem Inv.released (h : Inv values self) : ∃ n, (System.advance^[n] self).lock = none := by
  induction hremaining : self.remaining using Nat.strongRecOn generalizing self with
  | ind remaining ih =>
    by_cases hlock : self.lock = none
    · exact ⟨0, hlock⟩
    · obtain ⟨n, hn⟩ := ih _ (hremaining ▸ h.remaining_advance hlock) h.advance rfl
      exact ⟨n + 1, hn⟩

/-- A drop that waits for its own lock waits forever. -/
lemma lock_iterate_of_relock {value : T} (hlock : self.lock = some (.relock value)) (n : ℕ) :
    System.advance^[n] self = self := by
  apply Function.iterate_fixed
  unfold System.advance
  rw [hlock]

/-- A drop whose receiver was dropped after the test does not release the lock. -/
lemma lock_iterate_of_closed {value : T} {waiter : ℕ}
    (hlock : self.lock = some (.send value waiter)) (hclosed : self.isClosed waiter = true)
    (n : ℕ) : (System.advance^[n] self).lock ≠ none := by
  have hadvance : self.advance = { self with lock := some (.relock value) } := by
    unfold System.advance
    rw [hlock]
    simp only [hclosed, if_true]
  cases n with
  | zero =>
    rw [Function.iterate_zero_apply, hlock]
    exact Option.some_ne_none _
  | succ n =>
    rw [Function.iterate_succ_apply, hadvance, lock_iterate_of_relock rfl]
    exact Option.some_ne_none _

/-! ## Runs -/

/-- The invariant makes a pool safe. -/
lemma Inv.safe (h : Inv values self) : Safe values self := by
  refine ⟨h.released, h.conserved, fun _ hne => ?_⟩
  rw [h.idle hne]
  exact fun _ hwaiter => absurd hwaiter List.not_mem_nil

/-- After a cancellation between a test and its send the lock is not released. -/
lemma notBetween_of_safe (h : Inv values self) {op : Op} (hsafe : Safe values (step self op)) :
    NotBetween self op := by
  cases op with
  | cancel waiter =>
    intro value hlock
    obtain ⟨hmem, -⟩ := h.sending value waiter hlock
    have hlookup : ∃ guard, self.receivers.lookup waiter = some guard := by
      rw [← Option.isSome_iff_exists, ← Option.ne_none_iff_isSome]
      intro hnone
      exact absurd rfl (bne_iff_ne.1 (List.lookup_eq_none_iff.1 hnone _ hmem))
    obtain ⟨guard, hguard⟩ := hlookup
    have hcancel : self.cancel waiter =
        { self with
          receivers := self.without waiter, dropping := self.dropping ++ guard.toList } := by
      rw [System.cancel, hguard]
    obtain ⟨n, hn⟩ := hsafe.released
    refine @lock_iterate_of_closed T (self.cancel waiter) value waiter ?_ ?_ n hn
    · rw [hcancel]
      exact hlock
    · rw [hcancel, isClosed_eq_true_iff]
      intro guard hmem
      exact (mem_without.1 hmem).2 rfl
  | get => trivial
  | receive waiter => trivial
  | drop index => trivial
  | acquire index => trivial
  | advance => trivial

end Step

/-- **When a pool is safe**: in every interleaving of `get`s, drops and cancellations, every state
is safe exactly when no receiver is dropped between the test of its sender and the send.

**Proof sketch.** By `Runs.forall_states_iff` with the invariant `Inv`: a step keeps it unless it
drops a receiver between the test of its sender and the send, and then the value is lost. -/
theorem safe_iff (values : List T) (ops : List Op) :
    (∀ self ∈ Runs.states step (System.new values) ops, Safe values self) ↔
      Runs.Along step NotBetween (System.new values) ops :=
  @Runs.forall_states_iff _ _ step (Inv values) (Safe values) NotBetween (fun _ => True)
    (fun _ h => h.safe) (fun _ _ _ h hnot => h.step hnot) (fun _ _ _ h => notBetween_of_safe h)
    _ (inv_new values) _ fun _ _ => trivial

/-- A value, a guard, a `get` that waits for it, and its cancellation while the guard is dropped. -/
def cancelled : List Op := [.get, .get, .drop 0, .acquire 0, .advance, .cancel 0]

/-- **A drop that waits for its own lock**: the one `get` that waits is cancelled after its sender
was tested. The lock is not released, whatever the drop does. -/
theorem not_safe_cancelled :
    ¬ ∀ self ∈ Runs.states step (System.new [()]) cancelled, Safe [()] self := by
  intro h
  have hlast : (⟨⟨[], []⟩, some (.send () 0), [], [], [], 1⟩ : System Unit) ∈
      Runs.states step (System.new [()]) cancelled := by
    simp [cancelled, Runs.states, step, System.new, System.get, System.drop, System.acquire,
      System.advance, System.cancel, System.isClosed, System.without]
  obtain ⟨n, hn⟩ := (h _ hlast).released
  exact lock_iterate_of_closed rfl rfl n hn

end TempoRollup.Pool
