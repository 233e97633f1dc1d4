import TempoRollup.Node.Commit

set_option relaxedAutoImplicit false
set_option autoImplicit false

/-!
# The commit stream

`commit_stream` in `node/src/node.rs` and the end of `commit_proposal`: a subscriber registers a
channel, waits for the first commit on it, reads the blocks before that commit from the store and
goes on with the channel. The steps of a commit (store, then notify) and those of the subscriber
are interleaved in any order.

## Main definitions

* `Feed`, `Feed.step` — the store, the commit under way and the subscriber.
* `Feed.Covers` — a list is what the store has between two heights, lowest first.
* `Feed.Heard` — the run notifies the subscriber of a commit.

## Main results

* `Feed.Inv.step` — what was yielded and what is still queued cover the store from the first height
  on, up to the commit under way.
* `Feed.commitStream_yields` — the stream yields the committed blocks in order and without gap or
  duplicate, and all of them once it has heard of a commit.
* `commitProposal_notifies` — a commit of the node is a `store` and then a `notify`.

## Design

Commits happen one after the other, on the task of the ticker, with increasing heights; nothing
needs them to be consecutive. Reads of the store succeed. An event that is not enabled changes
nothing.
-/

open Exec

namespace TempoRollup.Node

/-- A caller of `commit_stream(Some(from_height))`. -/
inductive Subscriber
  /-- Before the call. -/
  | idle
  /-- The channel is registered, and `rx.recv()` is awaited. -/
  | waiting (rx : List Block)
  /-- The first commit is there, and the store has not been read. -/
  | received (firstCommit : Block) (rx : List Block)
  /-- The stream: the blocks before and the first commit, then the channel. -/
  | streaming (items rx : List Block)

/-- The node as its subscriber sees it, with what the stream has yielded. -/
structure Feed where
  store : BlockStore
  /-- The commit that is stored, and has not been notified. -/
  committing : Option Block
  /-- The heights of later commits are not smaller. -/
  next : BlockHeight
  subscriber : Subscriber
  yielded : List Block

namespace Feed

/-- A step of the node or of the subscriber. -/
inductive Event
  /-- `block_store.set` of `commit_proposal`. -/
  | store (block : Block)
  /-- The end of `commit_proposal`. -/
  | notify
  /-- `listeners.push(tx)`. -/
  | subscribe
  /-- `rx.recv().await` returns. -/
  | recv
  /-- `fetch_blocks` and the end of `commit_stream`. -/
  | fetch
  /-- The stream is polled. -/
  | poll

/-- A send on the channel. -/
def Subscriber.send (block : Block) : Subscriber → Subscriber
  | .idle => .idle
  | .waiting rx => .waiting (rx ++ [block])
  | .received firstCommit rx => .received firstCommit (rx ++ [block])
  | .streaming items rx => .streaming items (rx ++ [block])

/-- `filter` of the stream, on the next item. -/
def yieldFrom (fromHeight : BlockHeight) (block : Block) (yielded : List Block) : List Block :=
  if fromHeight ≤ block.height then yielded ++ [block] else yielded

/-- One step; a commit has a height that was not used before. -/
def step (fromHeight : BlockHeight) (self : Feed) : Event → Feed
  | .store block =>
    if self.committing.isNone ∧ self.next ≤ block.height then
      { self with
        store := self.store.set block
        committing := some block
        next := block.height + 1 }
    else self
  | .notify =>
    match self.committing with
    | some block =>
      { self with committing := none, subscriber := Subscriber.send block self.subscriber }
    | none => self
  | .subscribe =>
    match self.subscriber with
    | .idle => { self with subscriber := .waiting [] }
    | _ => self
  | .recv =>
    match self.subscriber with
    | .waiting (firstCommit :: rx) => { self with subscriber := .received firstCommit rx }
    | _ => self
  | .fetch =>
    match self.subscriber with
    | .received firstCommit rx =>
      { self with
        subscriber :=
          .streaming (self.store.list fromHeight firstCommit.height ++ [firstCommit]) rx }
    | _ => self
  | .poll =>
    match self.subscriber with
    | .streaming (block :: items) rx =>
      { self with
        subscriber := .streaming items rx
        yielded := yieldFrom fromHeight block self.yielded }
    | .streaming [] (block :: rx) =>
      { self with
        subscriber := .streaming [] rx
        yielded := yieldFrom fromHeight block self.yielded }
    | _ => self

/-- A node with a store, before anybody subscribes. -/
def start (store : BlockStore) (next : BlockHeight) : Feed := ⟨store, none, next, .idle, []⟩

/-- A sequence of steps. -/
def run (fromHeight : BlockHeight) (events : List Event) (self : Feed) : Feed :=
  events.foldl (step fromHeight) self

/-- Some step of the run notifies the subscriber of a commit. -/
def Heard (fromHeight : BlockHeight) : Feed → List Event → Prop
  | _, [] => False
  | self, event :: events =>
    (event matches .notify ∧ self.committing.isSome ∧ ¬ (self.subscriber matches .idle)) ∨
      Heard fromHeight (self.step fromHeight event) events

/-- The steps of a subscriber that takes all that is there. -/
def catchUp (polls : ℕ) : List Event := [.recv, .fetch] ++ List.replicate polls .poll

/-! ## What a list of blocks covers -/

/-- The list is what the store has from one height up to another, lowest first. -/
structure Covers (store : BlockStore) (blocks : List Block) (lo hi : ℕ) : Prop where
  sorted : blocks.Pairwise fun a b => (a.height : ℕ) < b.height
  mem_iff : ∀ block, block ∈ blocks ↔
    store.get block.height = some block ∧ lo ≤ (block.height : ℕ) ∧ (block.height : ℕ) < hi

variable {store : BlockStore} {blocks blocks' : List Block} {lo mid hi : ℕ}

/-- `fetch_blocks`. -/
lemma covers_list (h : store.Wf) (lo hi : BlockHeight) : Covers store (store.list lo hi) lo hi := by
  have hmem : ∀ k (block : Block), (k, block) ∈ store.blocks.toList ↔ store.get k = some block :=
    fun k block => Std.TreeMap.mem_toList_iff_getElem?_eq_some
  have hsorted : (store.blocks.toList.filter fun entry => lo ≤ entry.1 ∧ entry.1 < hi).Pairwise
      fun a b => (a.2.height : ℕ) < b.2.height := by
    refine List.Pairwise.filter _ ?_
    refine (Std.TreeMap.ordered_keys_toList (t := store.blocks)).imp_of_mem ?_
    rintro ⟨k, b⟩ ⟨k', b'⟩ hb hb' hlt
    have hkey : b.height = k := h.keyed k b ((hmem k b).1 hb)
    have hkey' : b'.height = k' := h.keyed k' b' ((hmem k' b').1 hb')
    simp only [hkey, hkey']
    exact Nat.compare_eq_lt.1 hlt
  refine ⟨List.pairwise_map.2 hsorted, fun block => ?_⟩
  rw [BlockStore.list, List.mem_map]
  constructor
  · rintro ⟨⟨k, b⟩, hin, rfl⟩
    obtain ⟨hin, hrange⟩ := List.mem_filter.1 hin
    have hget := (hmem k b).1 hin
    obtain rfl := h.keyed k b hget
    exact ⟨hget, by simpa using hrange⟩
  · rintro ⟨hget, hrange⟩
    refine ⟨(block.height, block), List.mem_filter.2 ⟨(hmem _ _).2 hget, ?_⟩, rfl⟩
    simpa using hrange

/-- Nothing covers an empty range. -/
lemma covers_nil (store : BlockStore) (h : hi ≤ lo) : Covers store [] lo hi where
  sorted := List.Pairwise.nil
  mem_iff block := by
    simp only [List.not_mem_nil, false_iff, not_and]
    exact fun _ hlo => not_lt.2 (h.trans hlo)

/-- Two ranges, one after the other. -/
lemma Covers.append (h : Covers store blocks lo mid) (h' : Covers store blocks' mid hi)
    (hlo : lo ≤ mid) (hhi : mid ≤ hi) : Covers store (blocks ++ blocks') lo hi := by
  refine ⟨List.pairwise_append.2 ⟨h.sorted, h'.sorted, fun a ha b hb => ?_⟩, fun block => ?_⟩
  · have hlt := ((h.mem_iff a).1 ha).2.2
    have hle := ((h'.mem_iff b).1 hb).2.1
    exact lt_of_lt_of_le hlt hle
  · have hranges : ∀ x : ℕ, (lo ≤ x ∧ x < mid) ∨ (mid ≤ x ∧ x < hi) ↔ lo ≤ x ∧ x < hi := by omega
    rw [List.mem_append, h.mem_iff, h'.mem_iff, ← and_or_left]
    exact and_congr_right fun _ => hranges block.height

/-- The filter of the stream. -/
lemma Covers.filter (h : Covers store blocks lo hi) (fromHeight : BlockHeight) :
    Covers store (blocks.filter fun block => fromHeight ≤ block.height) (max fromHeight lo) hi := by
  refine ⟨h.sorted.filter _, fun block => ?_⟩
  rw [List.mem_filter, h.mem_iff, decide_eq_true_eq]
  have hmax : max fromHeight lo ≤ (block.height : ℕ) ↔
      fromHeight ≤ block.height ∧ lo ≤ (block.height : ℕ) := max_le_iff
  rw [hmax]
  tauto

/-- The list may be said to begin at its first block. -/
lemma Covers.from_head {block : Block} (h : Covers store (block :: blocks) lo hi) :
    Covers store (block :: blocks) block.height hi := by
  refine ⟨h.sorted, fun b => ?_⟩
  rw [h.mem_iff]
  constructor
  · rintro ⟨hget, hlo, hhi⟩
    have hb := (h.mem_iff b).2 ⟨hget, hlo, hhi⟩
    refine ⟨hget, ?_, hhi⟩
    rcases List.mem_cons.1 hb with rfl | hb
    · exact le_rfl
    · exact (List.rel_of_pairwise_cons h.sorted hb).le
  · rintro ⟨hget, hle, hhi⟩
    exact ⟨hget, ((h.mem_iff block).1 List.mem_cons_self).2.1.trans hle, hhi⟩

/-- A range in which there is nothing. -/
lemma Covers.of_le (h : Covers store blocks lo hi) (hle : hi ≤ lo) {hi' : ℕ} (hle' : hi' ≤ lo) :
    Covers store blocks lo hi' := by
  refine ⟨h.sorted, fun block => ?_⟩
  have hranges : ∀ x : ℕ, (lo ≤ x ∧ x < hi) ↔ (lo ≤ x ∧ x < hi') := by omega
  rw [h.mem_iff]
  exact and_congr_right fun _ => hranges block.height

/-- A new block on top does not change what is below it. -/
lemma Covers.set (h : Covers store blocks lo hi) {block : Block}
    (hbelow : ∀ height b, store.get height = some b → (height : ℕ) < hi)
    (hhi : hi ≤ block.height) : Covers (store.set block) blocks lo block.height := by
  refine ⟨h.sorted, fun b => ?_⟩
  rw [h.mem_iff, BlockStore.get_set]
  constructor
  · rintro ⟨hget, hlo, hlt⟩
    have hne : block.height ≠ b.height := fun heq => not_lt.2 hhi (heq ▸ hlt)
    rw [if_neg hne]
    exact ⟨hget, hlo, lt_of_lt_of_le hlt hhi⟩
  · rintro ⟨hget, hlo, hlt⟩
    rw [if_neg (Ne.symm (ne_of_lt hlt))] at hget
    exact ⟨hget, hlo, hbelow _ _ hget⟩

/-- The next block of the store. -/
lemma Covers.push (h : Covers store blocks lo hi) {block : Block}
    (hget : store.get block.height = some block) (hle : lo ≤ hi) (hhi : hi ≤ block.height)
    (hgap : ∀ height b, store.get height = some b → hi ≤ (height : ℕ) → height = block.height) :
    Covers store (blocks ++ [block]) lo (block.height + 1) := by
  refine h.append ⟨List.pairwise_singleton _ _, fun b => ?_⟩ hle (Nat.le_succ_of_le hhi)
  rw [List.mem_singleton]
  constructor
  · rintro rfl
    exact ⟨hget, hhi, Nat.lt_succ_self _⟩
  · rintro ⟨hb, hlo, -⟩
    rw [hgap b.height b hb hlo, hget] at hb
    exact (Option.some.inj hb).symm

/-! ## The invariant -/

/-- The commits below this height have been notified. -/
def live (self : Feed) : ℕ :=
  match self.committing with
  | some block => block.height
  | none => self.next

/-- What the subscriber has, between what it asked for and the commits that were notified. -/
def Follows (fromHeight : BlockHeight) (store : BlockStore) (live : ℕ) (yielded : List Block) :
    Subscriber → Prop
  | .idle => yielded = []
  | .waiting rx => yielded = [] ∧ ∃ lo ≤ live, Covers store rx lo live
  | .received firstCommit rx => yielded = [] ∧ ∃ lo ≤ live, Covers store (firstCommit :: rx) lo live
  | .streaming items rx =>
    Covers store (yielded ++ (items ++ rx).filter fun block => fromHeight ≤ block.height)
      fromHeight live

/-- **The invariant**: heights grow, a commit under way is the last one that is stored, and the
subscriber has not missed anything. -/
structure Inv (fromHeight : BlockHeight) (feed : Feed) : Prop where
  wf : feed.store.Wf
  below : ∀ height block, feed.store.get height = some block → (height : ℕ) < feed.next
  pending : ∀ block, feed.committing = some block →
    feed.store.get block.height = some block ∧ feed.next = block.height + 1
  follows : Follows fromHeight feed.store feed.live feed.yielded feed.subscriber

variable {self : Feed} {fromHeight : BlockHeight} {next : BlockHeight}

/-- A stream that starts has the invariant. -/
lemma inv_start (hstore : store.Wf)
    (hbelow : ∀ height block, store.get height = some block → (height : ℕ) < next) :
    Inv fromHeight (start store next) :=
  ⟨hstore, hbelow, (fun block h => by cases h), rfl⟩

/-- A block is stored on top: nobody hears of it yet. -/
lemma Follows.set {yielded : List Block} {subscriber : Subscriber} {hi : ℕ}
    (h : Follows fromHeight store hi yielded subscriber) {block : Block}
    (hbelow : ∀ height b, store.get height = some b → (height : ℕ) < hi)
    (hhi : hi ≤ block.height) :
    Follows fromHeight (store.set block) block.height yielded subscriber := by
  cases subscriber with
  | idle => exact h
  | waiting rx =>
    obtain ⟨hy, lo, hlo, hcovers⟩ := h
    exact ⟨hy, lo, hlo.trans hhi, hcovers.set hbelow hhi⟩
  | received firstCommit rx =>
    obtain ⟨hy, lo, hlo, hcovers⟩ := h
    exact ⟨hy, lo, hlo.trans hhi, hcovers.set hbelow hhi⟩
  | streaming items rx => exact Covers.set h hbelow hhi

/-- The block on top is notified. -/
lemma Follows.send {yielded : List Block} {subscriber : Subscriber} {block : Block}
    (h : Follows fromHeight store block.height yielded subscriber)
    (hget : store.get block.height = some block)
    (hbelow : ∀ height b, store.get height = some b → (height : ℕ) < block.height + 1) :
    Follows fromHeight store (block.height + 1) yielded (Subscriber.send block subscriber) := by
  have hgap : ∀ height b, store.get height = some b → (block.height : ℕ) ≤ height →
      height = block.height :=
    fun height b hb hle => le_antisymm (Nat.le_of_lt_succ (hbelow height b hb)) hle
  cases subscriber with
  | idle => exact h
  | waiting rx =>
    obtain ⟨hy, lo, hlo, hcovers⟩ := h
    exact ⟨hy, lo, Nat.le_succ_of_le hlo, hcovers.push hget hlo le_rfl hgap⟩
  | received firstCommit rx =>
    obtain ⟨hy, lo, hlo, hcovers⟩ := h
    exact ⟨hy, lo, Nat.le_succ_of_le hlo, hcovers.push hget hlo le_rfl hgap⟩
  | streaming items rx =>
    have hcovers : Covers store
        (yielded ++ (items ++ rx).filter fun b => fromHeight ≤ b.height) fromHeight
        block.height := h
    rw [List.filter_append] at hcovers
    simp only [Subscriber.send, Follows, List.filter_append]
    rw [← List.append_assoc, ← List.append_assoc]
    rw [← List.append_assoc] at hcovers
    by_cases hfrom : fromHeight ≤ block.height
    · rw [List.filter_cons_of_pos (by simpa using hfrom), List.filter_nil]
      exact hcovers.push hget hfrom le_rfl hgap
    · -- the block is below what the subscriber asked for, and so is everything before
      have hlt : block.height < fromHeight := not_le.1 hfrom
      rw [List.filter_cons_of_neg (by simpa using hfrom), List.filter_nil, List.append_nil]
      exact hcovers.of_le hlt.le hlt

/-- **One step** keeps the invariant.

**Proof sketch.** By cases on the event. The blocks between the cursor of the subscriber and the
next height are, in order, in the history it reads, in the queue of its subscription, or about to be
notified; each event moves a block from one of these to the next. -/
theorem Inv.step (h : Inv fromHeight self) (event : Event) :
    Inv fromHeight (self.step fromHeight event) := by
  cases event with
  | store block =>
    simp only [Feed.step]
    split_ifs with hok
    · have hlive : self.live = self.next := by rw [live, Option.isNone_iff_eq_none.1 hok.1]
      refine ⟨h.wf.set block, fun height b hb => ?_, fun b hb => ?_, ?_⟩
      · rw [BlockStore.get_set] at hb
        split_ifs at hb with heq
        · exact heq ▸ Nat.lt_succ_self _
        · exact (h.below height b hb).trans (Nat.lt_succ_of_le hok.2)
      · obtain rfl := Option.some.inj hb
        exact ⟨by rw [BlockStore.get_set, if_pos rfl], rfl⟩
      · have hfollows := h.follows
        rw [hlive] at hfollows
        exact hfollows.set h.below hok.2
    · exact h
  | notify =>
    simp only [Feed.step]
    split
    · next block hblock =>
      obtain ⟨hget, hnext⟩ := h.pending block hblock
      have hbelow : ∀ height b, self.store.get height = some b →
          (height : ℕ) < block.height + 1 := fun height b hb => hnext ▸ h.below height b hb
      have hfollows := h.follows
      rw [live, hblock] at hfollows
      refine ⟨h.wf, h.below, (fun b hb => by cases hb), ?_⟩
      have hlive : live { self with
          committing := none, subscriber := Subscriber.send block self.subscriber } =
          block.height + 1 := hnext
      rw [hlive]
      exact hfollows.send hget hbelow
    · exact h
  | subscribe =>
    simp only [Feed.step]
    split
    · next hidle =>
      have hfollows := h.follows
      rw [hidle] at hfollows
      exact ⟨h.wf, h.below, h.pending, hfollows, self.live, le_rfl, covers_nil _ le_rfl⟩
    · exact h
  | recv =>
    simp only [Feed.step]
    split
    · next firstCommit rx hwait =>
      have hfollows := h.follows
      rw [hwait] at hfollows
      exact ⟨h.wf, h.below, h.pending, hfollows⟩
    · exact h
  | fetch =>
    simp only [Feed.step]
    split
    · next firstCommit rx hrecv =>
      have hfollows := h.follows
      rw [hrecv] at hfollows
      obtain ⟨hy, lo, -, hcovers⟩ := hfollows
      refine ⟨h.wf, h.below, h.pending, ?_⟩
      simp only [Follows, hy, List.nil_append, List.append_assoc, List.singleton_append]
      have hfirst := hcovers.from_head
      have hlt : (firstCommit.height : ℕ) < self.live :=
        ((hcovers.mem_iff firstCommit).1 List.mem_cons_self).2.2
      rw [List.filter_append]
      change Covers self.store _ fromHeight self.live
      by_cases hfrom : fromHeight ≤ firstCommit.height
      · -- the history ends where the channel begins
        have hbefore := (covers_list h.wf fromHeight firstCommit.height).filter fromHeight
        have hafter := hfirst.filter fromHeight
        rw [max_self] at hbefore
        rw [max_eq_right hfrom] at hafter
        exact hbefore.append hafter hfrom hlt.le
      · -- the stream begins later in the channel, and there is no history
        have hle : firstCommit.height ≤ fromHeight := (not_le.1 hfrom).le
        have hnone : self.store.list fromHeight firstCommit.height = [] := by
          refine List.eq_nil_iff_forall_not_mem.2 fun b hb => ?_
          obtain ⟨-, hlo, hhi⟩ := ((covers_list h.wf _ _).mem_iff b).1 hb
          exact not_lt.2 (hle.trans hlo) hhi
        have hafter := hfirst.filter fromHeight
        rw [max_eq_left hle] at hafter
        rw [hnone]
        exact hafter
    · exact h
  | poll =>
    have hyield : ∀ (block : Block) (rest : List Block),
        yieldFrom fromHeight block self.yielded ++
            rest.filter (fun b => fromHeight ≤ b.height) =
          self.yielded ++ (block :: rest).filter fun b => fromHeight ≤ b.height := by
      intro block rest
      unfold yieldFrom
      split_ifs with hfrom
      · rw [List.filter_cons_of_pos (by simpa using hfrom), List.append_assoc,
          List.singleton_append]
      · rw [List.filter_cons_of_neg (by simpa using hfrom)]
    simp only [Feed.step]
    split
    · next block items rx hstream =>
      have hfollows := h.follows
      rw [hstream] at hfollows
      refine ⟨h.wf, h.below, h.pending, ?_⟩
      simp only [Follows, hyield]
      exact hfollows
    · next block rx hstream =>
      have hfollows := h.follows
      rw [hstream] at hfollows
      refine ⟨h.wf, h.below, h.pending, ?_⟩
      simp only [Follows, List.nil_append, hyield]
      exact hfollows
    · exact h

/-- **Every run** keeps the invariant. -/
lemma Inv.run (h : Inv fromHeight self) (events : List Event) :
    Inv fromHeight (self.run fromHeight events) := by
  induction events generalizing self with
  | nil => exact h
  | cons event events ih => exact ih (h.step event)

/-! ## The whole stream -/

/-- A commit is in the channel, or was. -/
def HasCommit : Subscriber → Prop
  | .idle => False
  | .waiting rx => rx ≠ []
  | _ => True

/-- A step keeps a commit in the subscription. -/
lemma hasCommit_step (h : HasCommit self.subscriber) (event : Event) :
    HasCommit (self.step fromHeight event).subscriber := by
  obtain ⟨store, committing, next, subscriber, yielded⟩ := self
  cases event with
  | store block =>
    simp only [Feed.step]
    split_ifs <;> exact h
  | notify =>
    cases committing with
    | none => exact h
    | some block =>
      cases subscriber with
      | waiting rx => exact List.append_ne_nil_of_right_ne_nil _ (List.cons_ne_nil _ _)
      | _ => exact h
  | _ => rcases subscriber with _ | (_ | ⟨first, rx⟩) | _ | ⟨_ | ⟨block, items⟩, _ | ⟨b, rx⟩⟩ <;>
      first | exact h | exact trivial | exact h.elim

/-- A run keeps a commit in the subscription. -/
lemma hasCommit_run (h : HasCommit self.subscriber) (events : List Event) :
    HasCommit (self.run fromHeight events).subscriber := by
  induction events generalizing self with
  | nil => exact h
  | cons event events ih => exact ih (hasCommit_step h event)

/-- A subscriber that was notified has a commit. -/
lemma hasCommit_of_heard {events : List Event} (h : Heard fromHeight self events) :
    HasCommit (self.run fromHeight events).subscriber := by
  induction events generalizing self with
  | nil => cases h
  | cons event events ih =>
    rcases h with ⟨hevent, hcommit, hsub⟩ | h
    · refine hasCommit_run ?_ events
      obtain ⟨store, committing, next, subscriber, yielded⟩ := self
      cases event with
      | notify =>
        cases committing with
        | none => cases hcommit
        | some block =>
          cases subscriber with
          | idle => exact absurd rfl hsub
          | waiting rx => exact List.append_ne_nil_of_right_ne_nil _ (List.cons_ne_nil _ _)
          | _ => exact trivial
      | _ => cases hevent
    · exact ih h

/-- A run may be cut in two. -/
lemma run_append (events events' : List Event) :
    self.run fromHeight (events ++ events') = (self.run fromHeight events).run fromHeight events' :=
  List.foldl_append

/-- A stream that is polled often enough yields all that is there. By induction on the number of
items. -/
lemma run_polls {n : ℕ} {items rx : List Block} (hsub : self.subscriber = .streaming items rx)
    (hn : items.length + rx.length = n) :
    ∃ yielded, self.run fromHeight (List.replicate n .poll) =
      { self with subscriber := .streaming [] [], yielded := yielded } := by
  induction n generalizing self items rx with
  | zero =>
    obtain ⟨hitems, hrx⟩ : items.length = 0 ∧ rx.length = 0 := by omega
    rw [List.length_eq_zero_iff] at hitems hrx
    refine ⟨self.yielded, ?_⟩
    rw [hitems, hrx] at hsub
    rw [← hsub]
    rfl
  | succ n ih =>
    rw [List.replicate_succ]
    cases items with
    | cons block items =>
      obtain ⟨yielded, hrun⟩ := @ih (self.step fromHeight .poll) items rx
        (by simp only [step, hsub]) (by simp only [List.length_cons] at hn; omega)
      refine ⟨yielded, hrun.trans ?_⟩
      simp only [step, hsub]
    | nil =>
      cases rx with
      | nil => simp at hn
      | cons block rx =>
        obtain ⟨yielded, hrun⟩ := @ih (self.step fromHeight .poll) [] rx
          (by simp only [step, hsub]) (by simp only [List.length_cons] at hn; omega)
        refine ⟨yielded, hrun.trans ?_⟩
        simp only [step, hsub]

/-- A subscriber with a commit gets to the end of what is there. -/
lemma run_catchUp (h : HasCommit self.subscriber) :
    ∃ polls yielded, self.run fromHeight (catchUp polls) =
      { self with subscriber := .streaming [] [], yielded := yielded } := by
  have hstream : ∃ items rx, (self.run fromHeight [.recv, .fetch]) =
      { self with subscriber := .streaming items rx } := by
    obtain ⟨store, committing, next, subscriber, yielded⟩ := self
    rcases subscriber with _ | (_ | ⟨first, rx⟩) | ⟨first, rx⟩ | ⟨items, rx⟩
    · cases h
    · exact absurd rfl h
    · exact ⟨_, _, rfl⟩
    · exact ⟨_, _, rfl⟩
    · exact ⟨_, _, rfl⟩
  obtain ⟨items, rx, hrun⟩ := hstream
  obtain ⟨yielded, hpolls⟩ := @run_polls
    { self with subscriber := .streaming items rx } fromHeight _ items rx rfl rfl
  refine ⟨items.length + rx.length, yielded, ?_⟩
  rw [catchUp, run_append, hrun, hpolls]

/-- What a stream has yielded is part of what it covers. -/
lemma Inv.covers_yielded (h : Inv fromHeight self) :
    ∃ rest, Covers self.store (self.yielded ++ rest) fromHeight self.live ∨ self.yielded = [] := by
  have hfollows := h.follows
  cases hsub : self.subscriber with
  | idle =>
    rw [hsub] at hfollows
    exact ⟨[], .inr hfollows⟩
  | waiting rx =>
    rw [hsub] at hfollows
    exact ⟨[], .inr hfollows.1⟩
  | received firstCommit rx =>
    rw [hsub] at hfollows
    exact ⟨[], .inr hfollows.1⟩
  | streaming items rx =>
    rw [hsub] at hfollows
    exact ⟨_, .inl hfollows⟩

/-- **The commit stream.** Whatever the order of the steps: the heights that the stream has yielded
are increasing, each of them is a committed block from the first height on, and no committed block
between the first height and one that was yielded is missing. Once the subscriber has been notified
of a commit, and no commit is under way, the subscriber that takes what is there has every committed
block from the first height on.

**Proof sketch.** The invariant covers what was yielded and what is left in one sorted list
(`Inv.covers_yielded`), so that nothing before a yielded block is missing. A subscriber that has
been notified takes what is left by polling as often as there are blocks. -/
theorem commitStream_yields {store : BlockStore} {next : BlockHeight} (hstore : store.Wf)
    (hbelow : ∀ height block, store.get height = some block → height < next)
    (fromHeight : BlockHeight) (events : List Event) :
    let self := (start store next).run fromHeight events
    (self.yielded.map Block.height).Pairwise (· < ·) ∧
      (∀ block ∈ self.yielded,
        fromHeight ≤ block.height ∧ self.store.get block.height = some block) ∧
      (∀ height block, fromHeight ≤ height → self.store.get height = some block →
        (∃ last ∈ self.yielded, height < last.height) → block ∈ self.yielded) ∧
      (Heard fromHeight (start store next) events → self.committing = none →
        ∃ polls, ∀ height block, fromHeight ≤ height → self.store.get height = some block →
          block ∈ (self.run fromHeight (catchUp polls)).yielded) := by
  intro self
  have hinv : Inv fromHeight self := (inv_start hstore hbelow).run events
  have hcovered : (self.yielded.map Block.height).Pairwise (· < ·) ∧
      (∀ block ∈ self.yielded,
        fromHeight ≤ block.height ∧ self.store.get block.height = some block) ∧
      (∀ height block, fromHeight ≤ height → self.store.get height = some block →
        (∃ last ∈ self.yielded, height < last.height) → block ∈ self.yielded) := by
    obtain ⟨rest, hcovers | hnil⟩ := hinv.covers_yielded
    · refine ⟨?_, fun block hblock => ?_, fun height block hfrom hget hlast => ?_⟩
      · exact List.pairwise_map.2 (List.pairwise_append.1 hcovers.sorted).1
      · obtain ⟨hget, hlo, -⟩ := (hcovers.mem_iff block).1 (List.mem_append_left _ hblock)
        exact ⟨hlo, hget⟩
      · obtain ⟨last, hlast, hlt⟩ := hlast
        have hheight : block.height = height := hinv.wf.keyed height block hget
        have hlive := ((hcovers.mem_iff last).1 (List.mem_append_left _ hlast)).2.2
        have hmem := (hcovers.mem_iff block).2
          ⟨hheight.symm ▸ hget, hheight.symm ▸ hfrom, hheight.symm ▸ lt_trans hlt hlive⟩
        -- a block of the rest would be higher than the last one
        rcases List.mem_append.1 hmem with hmem | hmem
        · exact hmem
        · have hgt := (List.pairwise_append.1 hcovers.sorted).2.2 last hlast block hmem
          rw [hheight] at hgt
          exact absurd hlt (lt_asymm hgt)
    · rw [hnil]
      exact ⟨List.Pairwise.nil, fun block hblock => absurd hblock List.not_mem_nil,
        fun height block _ _ ⟨last, hlast, _⟩ => absurd hlast List.not_mem_nil⟩
  refine ⟨hcovered.1, hcovered.2.1, hcovered.2.2, fun hheard hidle => ?_⟩
  have hcommit : HasCommit self.subscriber := hasCommit_of_heard hheard
  obtain ⟨polls, yielded, hrun⟩ : ∃ polls yielded, self.run fromHeight (catchUp polls) =
      { self with subscriber := .streaming [] [], yielded := yielded } := run_catchUp hcommit
  refine ⟨polls, fun height block hfrom hget => ?_⟩
  have hend := (hinv.run (catchUp polls)).follows
  have hlive : (self.run fromHeight (catchUp polls)).live = self.next := by
    rw [hrun]
    simp only [live]
    rw [hidle]
  rw [hlive, hrun] at hend
  simp only [Follows, List.append_nil, List.filter_nil] at hend
  have hheight : block.height = height := hinv.wf.keyed height block hget
  rw [hrun]
  exact (hend.mem_iff block).2
    ⟨hheight.symm ▸ hget, hheight.symm ▸ hfrom, hheight.symm ▸ hinv.below height block hget⟩

/-! ### Subscriptions during and after a commit -/

/-- An empty block of a height. -/
def emptyBlock (height : BlockHeight) : Block where
  content := { BlockContent.genesis with header := { BlockContent.genesis.header with height } }
  signature := .default

/-- The subscription falls between the two steps of the first commit, and the next block is stored
before the history is read. -/
def sampleEvents : List Event :=
  [.store (emptyBlock 5), .subscribe, .notify, .recv, .store (emptyBlock 6), .fetch, .notify, .poll]

/-- The block that is stored between the subscription and the reading of the history is yielded. -/
theorem commitStream_yields_sampleEvents :
    Heard 5 (start .empty 0) sampleEvents ∧
      ∃ polls, emptyBlock 6 ∈
        (((start .empty 0).run 5 sampleEvents).run 5 (catchUp polls)).yielded := by
  have hheard : Heard 5 (start .empty 0) sampleEvents :=
    .inr (.inr (.inl ⟨rfl, rfl, fun h => by cases h⟩))
  have hbelow : ∀ height block, BlockStore.empty.get height = some block → height < 0 := by
    intro height block hget
    simp [BlockStore.get, BlockStore.empty] at hget
  obtain ⟨-, -, -, hall⟩ := commitStream_yields BlockStore.wf_empty hbelow 5 sampleEvents
  obtain ⟨polls, hpolls⟩ := hall hheard rfl
  exact ⟨hheard, polls, hpolls 6 (emptyBlock 6) (by decide) rfl⟩

/-- Everything is committed before the subscription. -/
def lateEvents : List Event := [.store (emptyBlock 5), .notify, .subscribe]

/-- **A subscriber that comes after the last commit waits**, with the committed block in the store,
however long it polls. -/
theorem commitStream_late :
    ((start .empty 0).run 5 lateEvents).committing = none ∧
      ((start .empty 0).run 5 lateEvents).store.get 5 = some (emptyBlock 5) ∧
      ∀ polls, (((start .empty 0).run 5 lateEvents).run 5 (catchUp polls)).yielded = [] := by
  refine ⟨rfl, rfl, fun polls => ?_⟩
  have hwait : ∀ (n : ℕ) (self : Feed), self.subscriber = .waiting [] →
      self.run 5 (List.replicate n .poll) = self := by
    intro n
    induction n with
    | zero => exact fun self _ => rfl
    | succ n ih =>
      intro self hsub
      have hpoll : self.step 5 .poll = self := by simp only [step, hsub]
      rw [List.replicate_succ, run, List.foldl_cons, hpoll]
      exact ih self hsub
  rw [catchUp, run_append, hwait polls _ rfl]
  rfl

end Feed

/-! ## The commits of the node -/

/-- **A commit of the node is a `store` and then a `notify`**: the block is in the store, and the
last thing that the node does is to send it to the listeners. -/
theorem commitProposal_notifies {P : Primitives} {world : World} {block : Block}
    {self self' : NodeShared} (h : commitProposal P world block self = (.ok (), self')) :
    self'.blockStore = self.blockStore.set block ∧
      ∃ replies, self'.effects = self.effects ++ replies ++ [.committed block] := by
  rw [commitProposal, Program.get_bind_eq_ok] at h
  obtain ⟨⟨⟩, s₁, hassert, h⟩ := Program.bind_eq_ok.1 h
  obtain rfl : s₁ = self := by
    rw [Program.run_assert] at hassert
    split_ifs at hassert
    · exact (Prod.mk.inj hassert).2.symm
    · cases (Prod.mk.inj hassert).1
  obtain ⟨-, h⟩ := Program.ensure_bind_eq_ok.1 h
  rw [Program.modify_bind_eq_ok] at h
  obtain ⟨⟨⟩, s₂, hzoom, h⟩ := Program.bind_eq_ok.1 h
  obtain ⟨⟨⟩, s₃, hmempool, h⟩ := Program.bind_eq_ok.1 h
  -- the tree is a part of its own, and the mempool only adds replies
  have hs₂ : s₂.blockStore = s₁.blockStore.set block ∧ s₂.effects = s₁.effects := by
    have hstate := (Prod.mk.inj hzoom).2
    rw [← hstate]
    exact ⟨rfl, rfl⟩
  rw [commitMempool, Program.modify_eq_ok] at hmempool
  rw [emit, Program.modify_eq_ok] at h
  refine ⟨by rw [h, hmempool]; exact hs₂.1, _, by rw [h, hmempool, ← hs₂.2]⟩

end TempoRollup.Node
