import TempoRollup.Node.Agreement

set_option relaxedAutoImplicit false
set_option autoImplicit false

/-!
# The client's list of validator sets

`contracts/src/rollup.rs`: the client of the contract loads the validator sets once and then keeps
them up to date with the `ValidatorSetAdded` events of the contract, which it polls. A listener
scans the chain from the block that is the last one when the listener is polled first. After a
transport error the client makes a new listener and loads all sets again.

## Main definitions

* `Eth` — the blocks of the chain since the contract was initialized, with its storage and its
  events in each of them.
* `RollupContract` — the client, with what it waits for.
* `System.step` — a new block, or an answer to the client.
* `System.UpToDate` — what the list is after a poll.
* `System.Listens` — a listener starts with all sets in the list that are registered before its
  first block.

## Main results

* `Eth.exists_mem_logs` — the last registered set has an event unless it was registered before the
  first scanned block.
* `System.upToDate` — when all listeners start so, the list is that of the contract at a block not
  before the last scanned one.

## Design

The chain does not reorganize. The worker is run by a client that is not pinned to a block. The
listener's own construction makes no request and does not fail; the waits are left out.
-/

open Exec

namespace TempoRollup.Node.Listener

open Contract (Storage ChainCall)

/-! ## Events of the contract -/

/-- `event ValidatorSetAdded`. -/
structure ValidatorSetAdded where
  index : ℕ
  validFrom : ℕ
  deriving DecidableEq, Repr

/-- The events that a call emits. -/
def emitted (s : Storage) : ChainCall → List ValidatorSetAdded
  | .setValidators isOwner validFrom validators =>
    if (Contract.setValidators isOwner validFrom validators s).1.isOk then
      [⟨s.validatorSets.length, validFrom⟩]
    else []
  | _ => []

/-- The events that the calls of a block emit. -/
def emittedBy (s : Storage) : List ChainCall → List ValidatorSetAdded
  | [] => []
  | call :: calls => emitted s call ++ emittedBy (s.step call) calls

/-- The chain since the contract was initialized in block `start`, after which `first` was called in
the same block, and the calls in each of the blocks after it. -/
structure Eth where
  prover : Address
  initialValidators : List Address
  emptyMerkleTreeRootHash : Element
  initial : Storage
  initialized : Contract.initializeRollup prover initialValidators emptyMerkleTreeRootHash .empty =
    (.ok (), initial)
  start : ℕ
  first : List ChainCall
  later : List (List ChainCall)

namespace Eth

variable (self : Eth)

/-- `eth_blockNumber`. -/
def blockNumber : ℕ := self.start + self.later.length

/-- The storage after a block. -/
def storageAt (number : ℕ) : Storage :=
  (self.first ++ (self.later.take (number - self.start)).flatten).foldl Storage.step self.initial

/-- The events of a block. -/
def logsIn (number : ℕ) : List ValidatorSetAdded :=
  if number < self.start then []
  else if number = self.start then ⟨0, 0⟩ :: emittedBy self.initial self.first
  else emittedBy (self.storageAt (number - 1)) (self.later.getD (number - self.start - 1) [])

/-- `eth_getLogs` with the topic of the event, for the blocks between two numbers. -/
def logs (fromBlock toBlock : ℕ) : List ValidatorSetAdded :=
  (List.range' fromBlock (toBlock + 1 - fromBlock)).flatMap self.logsIn

/-- The contract's list of sets as of a block, as the client reads it. -/
def setsAt (number : ℕ) : List ValidatorSet :=
  (self.storageAt number).validatorSets.map fun set => ⟨set.validFrom, set.validatorsArray⟩

/-- The number of sets that are registered before a block. -/
def registeredBefore (number : ℕ) : ℕ :=
  if number ≤ self.start then 0 else (self.setsAt (number - 1)).length

/-- `get_validator_sets`, which reads the last block. -/
def getValidatorSets (start : ℕ) : Option (List ValidatorSet) :=
  ((self.storageAt self.blockNumber).getValidatorSets start).map ofPublic

/-- A new block. -/
def mine (calls : List ChainCall) : Eth := { self with later := self.later ++ [calls] }

end Eth

/-! ## The client -/

/-- How a request of the client ends. -/
inductive Answer
  | ok
  /-- `web3::Error::Transport` -/
  | transport
  /-- Any other error. -/
  | other
  deriving DecidableEq, Repr

/-- What the client waits for. -/
inductive Phase
  /-- `load_all_validators` in `load`. -/
  | load
  /-- The listener is not polled yet; it asks for its first block. -/
  | start
  /-- The listener asks for the current block. The blocks up to `scanned` have been scanned. -/
  | poll (lastBlock : ℕ) (scanned : Option ℕ)
  /-- The listener asks for the events between two blocks. -/
  | scan (lastBlock currentBlock : ℕ)
  /-- The events of a scan are handled one by one. -/
  | handle (currentBlock : ℕ) (events : List ValidatorSetAdded)
  /-- `load_all_validators` after a transport error. -/
  | reload
  /-- The worker has returned an error, or panicked. -/
  | stopped
  deriving DecidableEq, Repr

/-- `RollupContract`, with the local state of its worker. -/
structure RollupContract where
  validatorSets : List ValidatorSet
  consecutiveTransportErrorCount : ℕ
  phase : Phase

/-- `MAX_CONSECUTIVE_TRANSPORT_ERRORS`. -/
def MAX_CONSECUTIVE_TRANSPORT_ERRORS : ℕ := 5

/-- The phase in which the next event is handled, or the next poll made after the last of them. -/
def Phase.next (currentBlock : ℕ) : List ValidatorSetAdded → Phase
  | [] => .poll (currentBlock + 1) (some currentBlock)
  | events => .handle currentBlock events

namespace RollupContract

variable (self : RollupContract)

/-- `RollupContract::new`. -/
def new : RollupContract := ⟨[], 0, .load⟩

/-- The worker ends. -/
def stop : RollupContract := { self with phase := .stopped }

/-- `load_all_validators`. -/
def loadAllValidators (eth : Eth) : RollupContract :=
  match eth.getValidatorSets 0 with
  | some allValidators => { self with validatorSets := allValidators, phase := .start }
  | none => self.stop

/-- An error of the listener: a new one is made after a transport error. -/
def onListenerError : Answer → RollupContract
  | .transport =>
    if self.consecutiveTransportErrorCount + 1 > MAX_CONSECUTIVE_TRANSPORT_ERRORS then self.stop
    else
      { self with
        consecutiveTransportErrorCount := self.consecutiveTransportErrorCount + 1
        phase := .reload }
  | _ => self.stop

/-- An event: sets that are not in the list are read, if the event is of one of them. -/
def onEvent (eth : Eth) (answer : Answer) (currentBlock : ℕ) (event : ValidatorSetAdded)
    (events : List ValidatorSetAdded) : RollupContract :=
  match self.validatorSets.length with
  | 0 => self.stop
  | currentLastIndex + 1 =>
    if event.index > currentLastIndex then
      match answer, eth.getValidatorSets (currentLastIndex + 1) with
      | .ok, some newValidators =>
        ⟨self.validatorSets ++ newValidators, 0, .next currentBlock events⟩
      | _, _ => self.stop
    else ⟨self.validatorSets, 0, .next currentBlock events⟩

/-- `worker`, after `load`: what the client does with an answer. -/
def worker (eth : Eth) (answer : Answer) : RollupContract :=
  match self.phase with
  | .load =>
    match answer with
    | .ok => self.loadAllValidators eth
    | _ => self.stop
  | .start =>
    match answer with
    | .ok => { self with phase := .poll eth.blockNumber none }
    | _ => { self with phase := .poll 0 none }
  | .poll lastBlock _ =>
    match answer with
    | .ok =>
      if eth.blockNumber ≤ lastBlock then self
      else { self with phase := .scan lastBlock eth.blockNumber }
    | error => self.onListenerError error
  | .scan lastBlock currentBlock =>
    match answer with
    | .ok => { self with phase := .next currentBlock (eth.logs lastBlock currentBlock) }
    | error => self.onListenerError error
  | .handle currentBlock events =>
    match events with
    | [] => self
    | event :: events => self.onEvent eth answer currentBlock event events
  | .reload =>
    match answer with
    | .ok => self.loadAllValidators eth
    | _ => self.stop
  | .stopped => self

end RollupContract

/-! ## The system -/

/-- The chain and a client of the contract. -/
structure System where
  eth : Eth
  client : RollupContract

/-- What may happen next. -/
inductive Op
  | mine (calls : List ChainCall)
  | answer (answer : Answer)

/-- A step of the system. -/
def System.step (self : System) : Op → System
  | .mine calls => { self with eth := self.eth.mine calls }
  | .answer answer => { self with client := self.client.worker self.eth answer }

/-- After a poll that has scanned the blocks up to `n`, with its events handled, the list is that
of the contract as of a block not before `n`. -/
def System.UpToDate (self : System) : Prop :=
  ∀ lastBlock n, self.client.phase = .poll lastBlock (some n) →
    ∃ number, n ≤ number ∧ number ≤ self.eth.blockNumber ∧
      self.client.validatorSets = self.eth.setsAt number

/-- When a listener takes its first block, every set that is registered before that block is in
the list. -/
def System.Listens (self : System) : Op → Prop
  | .answer .ok =>
    self.client.phase = .start →
      self.eth.registeredBefore self.eth.blockNumber ≤ self.client.validatorSets.length
  | _ => True

/-! ## The contract's list over time -/

/-- Calls only append to the list. -/
lemma validatorSets_foldl_step (s : Storage) (calls : List ChainCall) :
    s.validatorSets <+: (calls.foldl Storage.step s).validatorSets := by
  induction calls generalizing s with
  | nil => exact List.prefix_rfl
  | cons call calls ih =>
    have hstep : s.validatorSets <+: (s.step call).validatorSets := by
      rcases s.validatorSets_step call with hsame | ⟨_, set, -, -, happend⟩
      · rw [hsame]
      · rw [happend]
        exact List.prefix_append _ _
    exact hstep.trans (ih (s.step call))

/-- A call that registers a set emits an event with its index, and no other call emits one. -/
lemma emitted_cases (s : Storage) (call : ChainCall) :
    (emitted s call = [] ∧ (s.step call).validatorSets.length = s.validatorSets.length) ∨
      ∃ event, emitted s call = [event] ∧ event.index = s.validatorSets.length ∧
        (s.step call).validatorSets.length = s.validatorSets.length + 1 := by
  cases call with
  | setValidators isOwner validFrom validators =>
    have hstep : s.step (.setValidators isOwner validFrom validators) =
        (Program.atomically (Contract.setValidators isOwner validFrom validators) s).2 := rfl
    rw [emitted, hstep, Program.atomically]
    rcases hrun : Contract.setValidators isOwner validFrom validators s with ⟨u | e | _, s'⟩
    · rw [Contract.setValidators, Program.ensure_bind_eq_ok] at hrun
      obtain ⟨marked, rfl, -⟩ := Contract.setValidatorsUnchecked_eq_ok hrun.2
      exact .inr ⟨_, rfl, rfl, by simp⟩
    · exact .inl ⟨rfl, rfl⟩
    · exact .inl ⟨rfl, rfl⟩
  | _ =>
    refine .inl ⟨rfl, ?_⟩
    rcases s.validatorSets_step _ with hsame | ⟨_, _, hcall, -⟩
    · rw [hsame]
    · cases hcall

/-- **The events of the calls**, by induction on them: the last registered set has one unless it
was registered before. -/
lemma exists_mem_emittedBy (s : Storage) (calls : List ChainCall) :
    (calls.foldl Storage.step s).validatorSets.length ≤ s.validatorSets.length ∨
      ∃ event ∈ emittedBy s calls,
        (calls.foldl Storage.step s).validatorSets.length = event.index + 1 := by
  induction calls generalizing s with
  | nil => exact .inl le_rfl
  | cons call calls ih =>
    rw [emittedBy, List.foldl_cons]
    rcases emitted_cases s call with ⟨hnone, hlen⟩ | ⟨event, hone, heq, hlen⟩
    · rw [hnone, List.nil_append, ← hlen]
      exact ih (s.step call)
    · rw [hone, List.singleton_append]
      have hgrows := (validatorSets_foldl_step (s.step call) calls).length_le
      rcases ih (s.step call) with hle | ⟨event', hmem, hevent'⟩
      · exact .inr ⟨event, List.mem_cons_self, by omega⟩
      · exact .inr ⟨event', List.mem_cons_of_mem _ hmem, hevent'⟩

namespace Eth

variable {self : Eth}

/-- The block number is not below that of the start. -/
lemma start_le_blockNumber : self.start ≤ self.blockNumber := Nat.le_add_right _ _

/-- Mining adds one block. -/
@[simp] lemma blockNumber_mine (calls : List ChainCall) :
    (self.mine calls).blockNumber = self.blockNumber + 1 := by
  simp only [blockNumber, mine, List.length_append, List.length_singleton]
  omega

/-- A new block does not change the storage of earlier blocks. -/
lemma storageAt_mine (calls : List ChainCall) {number : ℕ} (h : number ≤ self.blockNumber) :
    (self.mine calls).storageAt number = self.storageAt number := by
  have hle : number - self.start ≤ self.later.length := by
    unfold blockNumber at h
    omega
  unfold storageAt mine
  rw [List.take_append_of_le_length hle]

/-- Mining does not change the sets of earlier blocks. -/
lemma setsAt_mine (calls : List ChainCall) {number : ℕ} (h : number ≤ self.blockNumber) :
    (self.mine calls).setsAt number = self.setsAt number := by
  rw [setsAt, storageAt_mine calls h, setsAt]

/-- Mining does not change what was registered before. -/
lemma registeredBefore_mine (calls : List ChainCall) {number : ℕ}
    (h : number ≤ self.blockNumber + 1) :
    (self.mine calls).registeredBefore number = self.registeredBefore number := by
  rw [registeredBefore, registeredBefore, setsAt_mine calls (by omega)]
  rfl

/-- The storage after later blocks comes from that after earlier ones. -/
lemma storageAt_eq_foldl {m n : ℕ} (h : m ≤ n) :
    ∃ calls : List ChainCall,
      self.storageAt n = calls.foldl Storage.step (self.storageAt m) := by
  obtain ⟨rest, hrest⟩ : self.later.take (m - self.start) <+: self.later.take (n - self.start) :=
    List.take_prefix_take_left (by omega)
  refine ⟨rest.flatten, ?_⟩
  unfold storageAt
  rw [← hrest, List.flatten_append, ← List.append_assoc, List.foldl_append]

/-- The list grows from block to block. -/
lemma setsAt_mono {m n : ℕ} (h : m ≤ n) : self.setsAt m <+: self.setsAt n := by
  obtain ⟨calls, heq⟩ := storageAt_eq_foldl h
  unfold setsAt
  rw [heq]
  exact (validatorSets_foldl_step _ calls).map _

/-- The list as of a block is longer than that of an earlier one, or the same. -/
lemma setsAt_eq_of_le {m n : ℕ} (h : m ≤ n)
    (hlen : (self.setsAt n).length ≤ (self.setsAt m).length) : self.setsAt m = self.setsAt n :=
  (setsAt_mono h).eq_of_length_le hlen

/-- The set of `initialize`. -/
lemma length_initial : self.initial.validatorSets.length = 1 := by
  obtain ⟨⟨first, -, -, -, hview⟩, -⟩ := Contract.initializeRollup_eq_ok self.initialized
  have hsets : self.initial.validatorSets = [first] := congrArg Prod.fst hview
  rw [hsets, List.length_singleton]

/-- There is a validator set at every block. -/
lemma length_setsAt_pos (number : ℕ) : 0 < (self.setsAt number).length := by
  have hlen := (validatorSets_foldl_step self.initial
    (self.first ++ (self.later.take (number - self.start)).flatten)).length_le
  rw [length_initial] at hlen
  rw [setsAt, List.length_map]
  exact hlen

/-- The storage after the next block. -/
lemma storageAt_succ {number : ℕ} (h : self.start ≤ number) :
    self.storageAt (number + 1) =
      (self.later.getD (number - self.start) []).foldl Storage.step (self.storageAt number) := by
  have htake : self.later.take (number + 1 - self.start) =
      self.later.take (number - self.start) ++ self.later[number - self.start]?.toList := by
    rw [show number + 1 - self.start = number - self.start + 1 by omega, List.take_add_one]
  unfold storageAt
  rw [htake, List.flatten_append, ← List.append_assoc, List.foldl_append,
    List.getD_eq_getElem?_getD]
  cases self.later[number - self.start]? with
  | none => rfl
  | some calls => simp

/-- **The events of a block**: the last registered set has one unless it was registered before. -/
lemma exists_mem_logsIn {number : ℕ} (h : self.start ≤ number) :
    (self.setsAt number).length ≤ self.registeredBefore number ∨
      ∃ event ∈ self.logsIn number, (self.setsAt number).length = event.index + 1 := by
  rcases h.eq_or_lt with rfl | hgt
  · have hlogs : self.logsIn self.start = ⟨0, 0⟩ :: emittedBy self.initial self.first := by
      rw [logsIn, if_neg (lt_irrefl _), if_pos rfl]
    have hsets : (self.setsAt self.start).length =
        (self.first.foldl Storage.step self.initial).validatorSets.length := by
      rw [setsAt, List.length_map, storageAt, Nat.sub_self, List.take_zero, List.flatten_nil,
        List.append_nil]
    have hpos := self.length_setsAt_pos self.start
    have hlast := exists_mem_emittedBy self.initial self.first
    rw [← hsets, length_initial] at hlast
    rw [hlogs]
    rcases hlast with hle | ⟨event, hmem, hevent⟩
    · exact .inr ⟨⟨0, 0⟩, List.mem_cons_self, by change _ = 0 + 1; omega⟩
    · exact .inr ⟨event, List.mem_cons_of_mem _ hmem, hevent⟩
  · obtain ⟨n, rfl⟩ : ∃ n, number = n + 1 := ⟨number - 1, by omega⟩
    have hle : self.start ≤ n := by omega
    have hlogs : self.logsIn (n + 1) =
        emittedBy (self.storageAt n) (self.later.getD (n - self.start) []) := by
      rw [logsIn, if_neg (by omega), if_neg (by omega), Nat.add_sub_cancel,
        show n + 1 - self.start - 1 = n - self.start by omega]
    have hbefore : self.registeredBefore (n + 1) = (self.storageAt n).validatorSets.length := by
      rw [registeredBefore, if_neg (by omega), Nat.add_sub_cancel, setsAt, List.length_map]
    rw [hlogs, hbefore, setsAt, List.length_map, storageAt_succ hle]
    exact exists_mem_emittedBy (self.storageAt n) (self.later.getD (n - self.start) [])

/-- The logs of a range are those of its blocks. -/
lemma mem_logs {fromBlock toBlock : ℕ} {event : ValidatorSetAdded} :
    event ∈ self.logs fromBlock toBlock ↔
      ∃ number, fromBlock ≤ number ∧ number ≤ toBlock ∧ event ∈ self.logsIn number := by
  rw [logs, List.mem_flatMap]
  constructor
  · rintro ⟨number, hrange, hevent⟩
    rw [List.mem_range'_1] at hrange
    exact ⟨number, by omega, by omega, hevent⟩
  · rintro ⟨number, hfrom, hto, hevent⟩
    exact ⟨number, List.mem_range'_1.2 ⟨hfrom, by omega⟩, hevent⟩

/-- **The events of a scan**, by induction on its last block: the last registered set has one unless
it was registered before the first block. -/
theorem exists_mem_logs {fromBlock toBlock : ℕ} (h : fromBlock ≤ toBlock)
    (hstart : self.start ≤ toBlock) :
    (self.setsAt toBlock).length ≤ self.registeredBefore fromBlock ∨
      ∃ event ∈ self.logs fromBlock toBlock, (self.setsAt toBlock).length = event.index + 1 := by
  induction toBlock, h using Nat.le_induction with
  | base =>
    rcases exists_mem_logsIn hstart with hle | ⟨event, hmem, hevent⟩
    · exact .inl hle
    · exact .inr ⟨event, mem_logs.2 ⟨fromBlock, le_rfl, le_rfl, hmem⟩, hevent⟩
  | succ number hfrom ih =>
    rcases exists_mem_logsIn hstart with hle | ⟨event, hmem, hevent⟩
    · have hpos := self.length_setsAt_pos (number + 1)
      rw [registeredBefore, Nat.add_sub_cancel] at hle
      split_ifs at hle with hfirst
      · omega
      · -- the block registers no set
        have hsame : (self.setsAt (number + 1)).length = (self.setsAt number).length :=
          le_antisymm hle (setsAt_mono (Nat.le_succ number)).length_le
        rw [hsame]
        rcases ih (by omega) with hle' | ⟨event, hmem, hevent⟩
        · exact .inl hle'
        · obtain ⟨n, hn, hn', hmem⟩ := mem_logs.1 hmem
          exact .inr ⟨event, mem_logs.2 ⟨n, hn, by omega, hmem⟩, hevent⟩
    · exact .inr ⟨event, mem_logs.2 ⟨number + 1, by omega, le_rfl, hmem⟩, hevent⟩

/-- **`get_validator_sets`** from an index that is not above the number of sets. -/
lemma getValidatorSets_eq {start : ℕ}
    (h : start ≤ (self.setsAt self.blockNumber).length) :
    self.getValidatorSets start = some ((self.setsAt self.blockNumber).drop start) := by
  rw [setsAt, List.length_map] at h
  rw [getValidatorSets, Storage.getValidatorSets, if_neg (by omega), Option.map_some, setsAt,
    ofPublic, List.map_map, List.map_drop]
  rfl

end Eth

/-! ## What the steps keep -/

section Invariant

/-- The list is that of the contract as of some block. -/
def Loaded (eth : Eth) (sets : List ValidatorSet) : Prop :=
  ∃ number ≤ eth.blockNumber, sets = eth.setsAt number

variable {eth : Eth} {sets : List ValidatorSet} {number : ℕ}

/-- What was loaded stays loaded when blocks are mined. -/
lemma Loaded.mine (h : Loaded eth sets) (calls : List ChainCall) :
    Loaded (eth.mine calls) sets := by
  obtain ⟨number, hle, rfl⟩ := h
  exact ⟨number, by rw [Eth.blockNumber_mine]; omega, (Eth.setsAt_mine calls hle).symm⟩

/-- A list that has all sets registered at a block is that of the contract as of a block not before
it. -/
lemma Loaded.covers (h : Loaded eth sets) (hnumber : number ≤ eth.blockNumber)
    (hlen : (eth.setsAt number).length ≤ sets.length) :
    ∃ number', number ≤ number' ∧ number' ≤ eth.blockNumber ∧ sets = eth.setsAt number' := by
  obtain ⟨m, hm, rfl⟩ := h
  rcases le_total number m with hle | hle
  · exact ⟨m, hle, hm, rfl⟩
  · exact ⟨number, le_rfl, hnumber, Eth.setsAt_eq_of_le hle hlen⟩

/-- What is read for an event makes the list that of the last block. -/
lemma Loaded.append_getValidatorSets (h : Loaded eth sets) :
    ∃ new, eth.getValidatorSets sets.length = some new ∧
      sets ++ new = eth.setsAt eth.blockNumber := by
  obtain ⟨m, hm, rfl⟩ := h
  have hmono := eth.setsAt_mono hm
  refine ⟨_, Eth.getValidatorSets_eq hmono.length_le, ?_⟩
  obtain ⟨rest, hrest⟩ := hmono
  rw [← hrest, List.drop_left]

/-- What holds of the list in each phase. -/
def Phase.Covers (eth : Eth) (sets : List ValidatorSet) : Phase → Prop
  | .load => True
  | .start => Loaded eth sets
  | .poll lastBlock scanned =>
    Loaded eth sets ∧ lastBlock ≤ eth.blockNumber + 1 ∧
      eth.registeredBefore lastBlock ≤ sets.length ∧
      ∀ n ∈ scanned, lastBlock = n + 1 ∧ eth.start ≤ n
  | .scan lastBlock currentBlock =>
    Loaded eth sets ∧ lastBlock ≤ currentBlock ∧ eth.start ≤ currentBlock ∧
      currentBlock ≤ eth.blockNumber ∧ eth.registeredBefore lastBlock ≤ sets.length
  | .handle currentBlock events =>
    Loaded eth sets ∧ eth.start ≤ currentBlock ∧ currentBlock ≤ eth.blockNumber ∧
      ((eth.setsAt currentBlock).length ≤ sets.length ∨
        ∃ event ∈ events, (eth.setsAt currentBlock).length = event.index + 1)
  | .reload => Loaded eth sets
  | .stopped => True

/-- A new block takes no set from the list. -/
lemma Phase.Covers.mine {phase : Phase} (h : phase.Covers eth sets) (calls : List ChainCall) :
    phase.Covers (eth.mine calls) sets := by
  have hstart : (eth.mine calls).start = eth.start := rfl
  cases phase with
  | load => trivial
  | start => exact Loaded.mine h calls
  | poll lastBlock scanned =>
    obtain ⟨hloaded, hle, hbefore, hscanned⟩ := h
    refine ⟨hloaded.mine calls, ?_, ?_, hscanned⟩
    · rw [Eth.blockNumber_mine]
      omega
    · rwa [Eth.registeredBefore_mine calls hle]
  | scan lastBlock currentBlock =>
    obtain ⟨hloaded, hlast, hcurrent, hle, hbefore⟩ := h
    refine ⟨hloaded.mine calls, hlast, hcurrent, ?_, ?_⟩
    · rw [Eth.blockNumber_mine]
      omega
    · rwa [Eth.registeredBefore_mine calls (by omega)]
  | handle currentBlock events =>
    obtain ⟨hloaded, hcurrent, hle, hevents⟩ := h
    refine ⟨hloaded.mine calls, hcurrent, ?_, ?_⟩
    · rw [Eth.blockNumber_mine]
      omega
    · rwa [Eth.setsAt_mine calls hle]
  | reload => exact Loaded.mine h calls
  | stopped => trivial

/-- The phase after an event, or after the scan. -/
lemma Phase.covers_next {currentBlock : ℕ} {events : List ValidatorSetAdded}
    (h : (Phase.handle currentBlock events).Covers eth sets) :
    (Phase.next currentBlock events).Covers eth sets := by
  cases events with
  | cons event events => exact h
  | nil =>
    obtain ⟨hloaded, hcurrent, hle, hlen | ⟨event, hmem, -⟩⟩ := h
    · refine ⟨hloaded, by omega, ?_, ?_⟩
      · rw [Eth.registeredBefore, if_neg (by omega), Nat.add_sub_cancel]
        exact hlen
      · rintro n ⟨⟩
        exact ⟨rfl, hcurrent⟩
    · cases hmem

variable {client : RollupContract}

/-- **`load_all_validators`.** -/
lemma covers_loadAllValidators :
    (client.loadAllValidators eth).phase.Covers eth
      (client.loadAllValidators eth).validatorSets := by
  have hsets := eth.getValidatorSets_eq (Nat.zero_le _)
  rw [RollupContract.loadAllValidators, hsets]
  exact ⟨eth.blockNumber, le_rfl, rfl⟩

/-- **An error of the listener.** -/
lemma covers_onListenerError (h : Loaded eth client.validatorSets) (answer : Answer) :
    (client.onListenerError answer).phase.Covers eth
      (client.onListenerError answer).validatorSets := by
  cases answer with
  | transport =>
    rw [RollupContract.onListenerError]
    split_ifs
    · trivial
    · exact h
  | _ => trivial

/-- **An event.** Either the sets up to the event are in the list, or all sets are read. -/
lemma covers_onEvent {answer : Answer} {currentBlock : ℕ} {event : ValidatorSetAdded}
    {events : List ValidatorSetAdded}
    (h : (Phase.handle currentBlock (event :: events)).Covers eth client.validatorSets) :
    (client.onEvent eth answer currentBlock event events).phase.Covers eth
      (client.onEvent eth answer currentBlock event events).validatorSets := by
  obtain ⟨hloaded, hcurrent, hle, hlen⟩ := h
  unfold RollupContract.onEvent
  cases hcount : client.validatorSets.length with
  | zero => trivial
  | succ currentLastIndex =>
    obtain ⟨new, hnew, happend⟩ := hloaded.append_getValidatorSets
    rw [hcount] at hnew
    dsimp only
    split_ifs with hgt
    · rw [hnew]
      cases answer with
      | ok =>
        refine Phase.covers_next ⟨⟨eth.blockNumber, le_rfl, happend⟩, hcurrent, hle, .inl ?_⟩
        · change _ ≤ (client.validatorSets ++ new).length
          rw [happend]
          exact (Eth.setsAt_mono hle).length_le
      | _ => trivial
    · refine Phase.covers_next ⟨hloaded, hcurrent, hle, ?_⟩
      change _ ≤ client.validatorSets.length ∨ _
      rcases hlen with hlen | ⟨event', hmem, hevent'⟩
      · exact .inl hlen
      · rcases List.mem_cons.1 hmem with rfl | hmem
        · exact .inl (by omega)
        · exact .inr ⟨event', hmem, hevent'⟩

/-- **What the client keeps** with each answer, by cases on what it waits for. -/
lemma covers_worker {s : System} {answer : Answer}
    (h : s.client.phase.Covers s.eth s.client.validatorSets) (hgood : s.Listens (.answer answer)) :
    (s.client.worker s.eth answer).phase.Covers s.eth
      (s.client.worker s.eth answer).validatorSets := by
  obtain ⟨eth, client⟩ := s
  obtain ⟨sets, errors, phase⟩ := client
  have hstart := eth.start_le_blockNumber
  cases phase with
  | load =>
    cases answer with
    | ok => exact covers_loadAllValidators
    | _ => trivial
  | start =>
    cases answer with
    | ok =>
      refine ⟨h, Nat.le_succ _, hgood rfl, ?_⟩
      rintro n ⟨⟩
    | _ =>
      refine ⟨h, Nat.zero_le _, Nat.zero_le _, ?_⟩
      rintro n ⟨⟩
  | poll lastBlock scanned =>
    cases answer with
    | ok =>
      simp only [RollupContract.worker]
      split_ifs with hle
      · exact h
      · exact ⟨h.1, by omega, hstart, le_rfl, h.2.2.1⟩
    | _ => exact covers_onListenerError h.1 _
  | scan lastBlock currentBlock =>
    cases answer with
    | ok =>
      obtain ⟨hloaded, hlast, hcurrent, hle, hbefore⟩ := h
      refine Phase.covers_next ⟨hloaded, hcurrent, hle, ?_⟩
      rcases eth.exists_mem_logs hlast hcurrent with hlen | hevent
      · exact .inl (hlen.trans hbefore)
      · exact .inr hevent
    | _ => exact covers_onListenerError h.1 _
  | handle currentBlock events =>
    cases events with
    | nil => exact h
    | cons event events => exact covers_onEvent h
  | reload =>
    cases answer with
    | ok => exact covers_loadAllValidators
    | _ => trivial
  | stopped => trivial

/-- What a step keeps. -/
lemma covers_step (s : System) (op : Op)
    (h : s.client.phase.Covers s.eth s.client.validatorSets) (hgood : s.Listens op) :
    (s.step op).client.phase.Covers (s.step op).eth (s.step op).client.validatorSets := by
  cases op with
  | mine calls => exact h.mine calls
  | answer answer => exact covers_worker h hgood

/-- **The client's list of validator sets.** In every run in which every listener starts with all
sets that are registered before its first block in the list, after each poll the list is that of
the contract as of a block not before the last scanned one.

**Proof sketch.** The list and the events still to come cover the registered sets, in every state of
the run (`covers_step`). -/
theorem System.upToDate (eth : Eth) {ops : List Op}
    (h : Runs.Along System.step System.Listens ⟨eth, .new⟩ ops) :
    ∀ s ∈ Runs.states System.step ⟨eth, .new⟩ ops, s.UpToDate := by
  have hcovers := @Runs.forall_states _ _ System.step
    (fun s => s.client.phase.Covers s.eth s.client.validatorSets) System.Listens (fun _ => True)
    (fun s op _ => covers_step s op) ⟨eth, .new⟩ trivial ops (fun _ _ => trivial) h
  intro s hs lastBlock n hphase
  have hs' := hcovers s hs
  rw [hphase] at hs'
  obtain ⟨hloaded, hle, hbefore, hscanned⟩ := hs'
  obtain ⟨rfl, hn⟩ := hscanned n rfl
  rw [Eth.registeredBefore, if_neg (by omega), Nat.add_sub_cancel] at hbefore
  exact hloaded.covers (by omega) hbefore

end Invariant

/-- A chain with the block in which the contract is initialized with one validator. -/
def sampleEth : Eth where
  prover := 1
  initialValidators := [1]
  emptyMerkleTreeRootHash := 0
  initial := (Contract.initializeRollup 1 [1] 0 .empty).2
  initialized := rfl
  start := 0
  first := []
  later := []

/-- A set is registered while the listener runs, and read with its event. -/
theorem upToDate_of_registered_while_listening :
    (([.answer .ok, .answer .ok, .mine [.setValidators true 10 [2]], .answer .ok, .answer .ok,
      .answer .ok, .answer .ok] : List Op).foldl System.step ⟨sampleEth, .new⟩).UpToDate := by
  refine System.upToDate sampleEth ?_ _ (Runs.foldl_mem_states _ _)
  refine ⟨?_, ?_, trivial, ?_, ?_, ?_, ?_, trivial⟩
  · rintro ⟨⟩
  · intro _
    decide
  all_goals rintro ⟨⟩

/-- A set is registered after the sets are loaded, and a block is mined before the listener is
polled first: no event of the set is scanned. -/
theorem not_upToDate_of_registered_before_listening :
    ¬ ∀ s ∈ Runs.states System.step ⟨sampleEth, .new⟩
      [.answer .ok, .mine [.setValidators true 10 [2]], .mine [], .answer .ok, .mine [],
        .answer .ok, .answer .ok], s.UpToDate := by
  intro h
  obtain ⟨number, hfrom, hto, hsets⟩ := h _ (Runs.foldl_mem_states _ _) 4 3 rfl
  obtain rfl : number = 3 := le_antisymm hto hfrom
  have hlen := congrArg List.length hsets
  revert hlen
  decide

end TempoRollup.Node.Listener
