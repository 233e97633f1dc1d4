import TempoRollup.Contract.Aggregate
import TempoRollup.Contract.Journal

set_option relaxedAutoImplicit false
set_option autoImplicit false

/-!
# The whole contract

The storage of `src/rollup/RollupV6.sol` with the token: `verifyBlock2` once more, now with the
payments that its transactions make, and runs of all calls that the contract has.

## Main definitions

* `Vault` — the storage, the token, and what has happened.
* `Vault.verifyBlock2` — the verification of a block.
* `Env.RoutersOpen` — what is assumed of routers.
* `Vault.Reaches` — what any calls make of the contract.

## Main results

* `Vault.verifyBlock2_eq_ok` — what a verified block did.
* `Vault.Reaches.runs_storage` — runs with the token are runs of the storage.

## Design

The owner may add provers and validators, but sets no root: after `setRoot` the current root is
whatever the owner says, and nothing is left to prove of it.

A router that is called by a burn of a block may call back. `verifyBlock2` has no guard against
re-entrance: it chooses the validator set and compares the old root before the burns are executed,
and writes the new root after them. So a block that is verified while another one waits for a router
is written over, and its burns stay executed. The contract does not prevent it; that no prover and
no owner acts while a router is called is an assumption on them, `Env.RoutersOpen`.
-/

open Exec

namespace TempoRollup.Contract

/-- The storage of the contract, the token, and what has happened. -/
structure Vault (T : Type) where
  storage : Storage
  token : T
  events : List Event

/-- The calls of the owner, but for `setRoot`. -/
def ChainCall.Administers : ChainCall → Prop
  | .addProver _ _ => True
  | .setValidators _ _ _ => True
  | _ => False

/-- **What is assumed of routers.** While a call of the contract waits for a router, the contract is
used through the calls that are open to anyone, and the token as anyone may: the router is no prover
and no owner, and makes none of them act before it returns. -/
def Env.RoutersOpen {T : Type} (token : ERC20 T) (contract : Address) (verifiers : Verifiers)
    (env : Env T) : Prop :=
  ∀ router calldata w, Bank.Reaches token contract verifiers (fun _ entry => entry.IsOpen) true w
    (env.router router calldata w).2

namespace Vault

variable {T : Type}

/-- What mints and burns see of the contract. -/
def world (self : Vault T) : World T := ⟨self.storage.toRollup, self.token, self.events⟩

/-- The contract after mints and burns. -/
def withWorld (world : World T) (self : Vault T) : Vault T :=
  ⟨{ self.storage with toRollup := world.rollup }, world.token, world.events⟩

/-- Run a call of mints and burns. -/
def onWorld {α : Type} (p : Bank.Call T α) : Program (Vault T) BlockRevert α :=
  Program.zoom world withWorld (p.mapErr BlockRevert.txn)

section Verification

variable (token : ERC20 T) (contract : Address) (ext : BlockExternal) (envs : Fin 6 → Env T)

/-- The loop over the mints and burns; `envs` answers the calls of each. -/
def verifyTxns (utxoHashes : Fin 6 → UtxoHashes) : List (Fin 6) → Bank.Call T Unit
  | [] => pure ()
  | i :: rest => do
    Bank.verifyTxn token contract (envs i) (utxoHashes i).mb (utxoHashes i).value
    verifyTxns utxoHashes rest

/-- `verifyBlock2` after the validator set is chosen. -/
def verifyWith (validatorSet : ValidatorSet) (block : BlockProof) :
    Program (Vault T) BlockRevert Unit := do
  let self ← Program.get
  Program.ensure (block.oldRoot = self.storage.currentRootHash) .oldRootMismatch
  onWorld (verifyTxns token contract envs block.utxoHashes (List.finRange 6))
  let self ← Program.get
  Program.ensure (self.storage.containsRootHashes fun i => (block.utxoHashes i).recentRoot)
    .invalidRecentRoots
  let minValidators := validatorSet.validatorsArray.length * 2 / 3 + 1
  Program.ensure (block.signatures.length ≥ minValidators) .notEnoughSignatures
  let hash := proposalHash ext block.newRoot block.height block.otherHashFromBlockHash
  Program.ensure (block.height + 1 < 2 ^ 256) .overflow
  Program.ensure (block.signatures.length > 0) .noSignatures
  Program.lift
    (checkSignatures ext validatorSet (sigMsg ext (acceptMsg ext block.height hash)) 0
      block.signatures)
  Program.ensure
    (ext.aggregateVerifies block.aggrProof block.aggrInstances block.oldRoot block.newRoot
      block.utxoHashes) .verificationFailed
  Program.modify fun self =>
    { self with
      storage := { self.storage.addRootHash block.newRoot with
        blockHash := hash, blockHeight := block.height } }

/-- `verifyBlock2`. The answers `ext.txns` are not asked for. -/
def verifyBlock2 (block : BlockProof) : Program (Vault T) BlockRevert Unit := do
  let self ← Program.get
  Program.ensure (self.storage.provers ext.msgSender) .notProver
  Program.modify fun self =>
    { self with storage := self.storage.updateValidatorSetIndex block.height }
  let self ← Program.get
  verifyWith token contract ext envs self.storage.getValidators block

end Verification

/-! ## Runs -/

/-- `Reaches … a blocks b`: calls by anyone but for `setRoot`, and anything that others do to the
token, take the contract from `a` to `b`, and verify the blocks. A call that reverts changes
nothing. Routers are as `Env.RoutersOpen` has them. -/
inductive Reaches (token : ERC20 T) (contract : Address) (verifiers : Verifiers)
    (plonkVerifier : Bytes → List Element → Bool) :
    Vault T → List BlockProof → Vault T → Prop
  | refl (a : Vault T) : Reaches token contract verifiers plonkVerifier a [] a
  | call {a b : Vault T} {blocks : List BlockProof}
    (h : Reaches token contract verifiers plonkVerifier a blocks b) (env : Env T) (entry : Entry)
    (hopen : entry.IsOpen) (hsigner : env.signer ≠ contract)
    (hrouter : env.RoutersOpen token contract verifiers) :
    Reaches token contract verifiers plonkVerifier a blocks
      (Program.atomically (onWorld (Bank.call token contract verifiers env entry)) b).2
  | token {a b : Vault T} {blocks : List BlockProof}
    (h : Reaches token contract verifiers plonkVerifier a blocks b) (t : T)
    (ht : Bank.TokenStep token contract b.token t) :
    Reaches token contract verifiers plonkVerifier a blocks { b with token := t }
  | admin {a b : Vault T} {blocks : List BlockProof}
    (h : Reaches token contract verifiers plonkVerifier a blocks b) (call : ChainCall)
    (hcall : call.Administers) :
    Reaches token contract verifiers plonkVerifier a blocks
      { b with storage := b.storage.step call }
  | verifyBlock2 {a b : Vault T} {blocks : List BlockProof}
    (h : Reaches token contract verifiers plonkVerifier a blocks b) (ext : BlockExternal)
    (hverify : ext.aggregateVerifies = AggregateVerifier.verify plonkVerifier)
    (envs : Fin 6 → Env T) (hsigner : ∀ i, (envs i).signer ≠ contract)
    (hrouter : ∀ i, (envs i).RoutersOpen token contract verifiers)
    (block : BlockProof) :
    Reaches token contract verifiers plonkVerifier a
      (blocks ++ if (verifyBlock2 token contract ext envs block b).1.isOk then [block] else [])
      (Program.atomically (verifyBlock2 token contract ext envs block) b).2

/-! ## What calls do -/

section Calls

variable {token : ERC20 T} {contract : Address} {verifiers : Verifiers} {ext : BlockExternal}
  {envs : Fin 6 → Env T} {v v' : Vault T}

/-- When mints and burns of the contract return. -/
lemma onWorld_eq_ok {α : Type} {p : Bank.Call T α} {a : α} :
    onWorld p v = (.ok a, v') ↔ ∃ w, p v.world = (.ok a, w) ∧ v' = v.withWorld w := by
  rw [onWorld, Program.zoom_eq_ok]
  simp only [Program.mapErr_eq_ok]

/-- What a verified block did: its transactions settled what they name, and its root was added. -/
structure Verified (token : ERC20 T) (contract : Address) (ext : BlockExternal)
    (envs : Fin 6 → Env T) (block : BlockProof) (v v' : Vault T) : Prop where
  oldRoot : block.oldRoot = v.storage.currentRootHash
  recentRoots : v.storage.containsRootHashes (fun i => (block.utxoHashes i).recentRoot) = true
  aggregate : ext.aggregateVerifies block.aggrProof block.aggrInstances block.oldRoot block.newRoot
    block.utxoHashes = true
  txns : verifyTxns token contract envs block.utxoHashes (List.finRange 6) v.world =
    (.ok (), v'.world)
  roots : v'.storage.roots = v.storage.roots.push block.newRoot

/-- **A verified block.** -/
theorem verifyBlock2_eq_ok {block : BlockProof} {u : Unit}
    (h : verifyBlock2 token contract ext envs block v = (.ok u, v')) :
    Verified token contract ext envs block v v' := by
  simp only [verifyBlock2, verifyWith, Program.get_bind_eq_ok, Program.ensure_bind_eq_ok,
    Program.modify_bind_eq_ok, decide_eq_true_eq] at h
  obtain ⟨-, hold, hrest⟩ := h
  obtain ⟨_, v₁, htxns, hrest⟩ := Program.bind_eq_ok.1 hrest
  obtain ⟨w, hw, rfl⟩ := onWorld_eq_ok.1 htxns
  simp only [Program.get_bind_eq_ok, Program.ensure_bind_eq_ok] at hrest
  obtain ⟨hcontains, -, -, -, hrest⟩ := hrest
  obtain ⟨_, v₂, hsigs, hrest⟩ := Program.bind_eq_ok.1 hrest
  rw [Program.run_lift, Prod.mk.injEq] at hsigs
  rw [Program.ensure_bind_eq_ok, Program.modify_eq_ok] at hrest
  obtain ⟨haggregate, rfl⟩ := hrest
  rw [← hsigs.2]
  exact ⟨hold, hcontains, haggregate, hw, rfl⟩

/-! ## The storage without the token -/

/-- The loop over the mints and burns depends on the answers for its own transactions only. -/
lemma verifyTxns_congr {ext' : BlockExternal} {utxoHashes : Fin 6 → UtxoHashes}
    {is : List (Fin 6)} (h : ∀ i ∈ is, ext.txns i = ext'.txns i) :
    Contract.verifyTxns ext utxoHashes is = Contract.verifyTxns ext' utxoHashes is := by
  induction is with
  | nil => rfl
  | cons i is ih =>
    obtain ⟨hi, his⟩ := List.forall_mem_cons.1 h
    rw [Contract.verifyTxns, Contract.verifyTxns, ih his, hi]

/-- The loop over the signatures does not ask what transactions do. -/
lemma checkSignatures_congr (ext ext' : BlockExternal) (h : ext.recover = ext'.recover)
    (validatorSet : ValidatorSet) (msg : Element) (previous : Address)
    (signatures : List Signature) :
    checkSignatures ext validatorSet msg previous signatures =
      checkSignatures ext' validatorSet msg previous signatures := by
  induction signatures generalizing previous with
  | nil => rfl
  | cons signature rest ih => simp only [checkSignatures, h, ih]

/-- The loop over the mints and burns on the storage, with the answers that it got. By induction on
the transactions. -/
lemma verifyTxns_simulates {utxoHashes : Fin 6 → UtxoHashes} {is : List (Fin 6)}
    (his : is.Nodup) {w w' : World T} {u : Unit}
    (h : verifyTxns token contract envs utxoHashes is w = (.ok u, w')) :
    ∃ txns, Contract.verifyTxns { ext with txns := txns } utxoHashes is w.rollup =
      (.ok (), w'.rollup) := by
  induction is generalizing w with
  | nil =>
    obtain ⟨-, rfl⟩ := Program.pure_eq_ok.1 h
    exact ⟨ext.txns, rfl⟩
  | cons i is ih =>
    obtain ⟨hi, his⟩ := List.nodup_cons.1 his
    obtain ⟨_, w₁, hfirst, hrest⟩ := Program.bind_eq_ok.1 h
    obtain ⟨txn, -, htxn⟩ := Bank.verifyTxn_simulates hfirst
    obtain ⟨txns, htxns⟩ := ih his hrest
    refine ⟨Function.update txns i txn, Program.bind_eq_ok.2 ⟨(), w₁.rollup, ?_, ?_⟩⟩
    · simp only [Function.update_self]
      exact htxn
    · have hsame : ∀ j ∈ is, Function.update txns i txn j = txns j := fun j hj =>
        Function.update_of_ne (ne_of_mem_of_not_mem hj hi) _ _
      rw [← htxns]
      exact congrFun (verifyTxns_congr hsame) _

/-- **The verification of a block** on the storage, with the answers that its transactions got. -/
lemma verifyBlock2_simulates {block : BlockProof} {u : Unit}
    (h : verifyBlock2 token contract ext envs block v = (.ok u, v')) :
    ∃ txns, Contract.verifyBlock2 { ext with txns := txns } block v.storage =
      (.ok (), v'.storage) := by
  simp only [verifyBlock2, verifyWith, Program.get_bind_eq_ok, Program.ensure_bind_eq_ok,
    Program.modify_bind_eq_ok] at h
  obtain ⟨hprover, hold, hrest⟩ := h
  obtain ⟨_, v₁, htxns, hrest⟩ := Program.bind_eq_ok.1 hrest
  obtain ⟨w, hw, rfl⟩ := onWorld_eq_ok.1 htxns
  simp only [Program.get_bind_eq_ok, Program.ensure_bind_eq_ok] at hrest
  obtain ⟨hcontains, hmin, hfits, hsome, hrest⟩ := hrest
  obtain ⟨_, v₂, hsigs, hrest⟩ := Program.bind_eq_ok.1 hrest
  rw [Program.run_lift, Prod.mk.injEq] at hsigs
  rw [Program.ensure_bind_eq_ok, Program.modify_eq_ok, ← hsigs.2] at hrest
  obtain ⟨haggregate, rfl⟩ := hrest
  obtain ⟨txns, hsimulated⟩ : ∃ txns, Contract.verifyTxns { ext with txns := txns } block.utxoHashes
      (List.finRange 6) _ = (.ok (), w.rollup) := verifyTxns_simulates (List.nodup_finRange 6) hw
  refine ⟨txns, ?_⟩
  simp only [Contract.verifyBlock2, Contract.verifyWith, Program.get_bind_eq_ok,
    Program.ensure_bind_eq_ok, Program.modify_bind_eq_ok]
  refine ⟨hprover, hold, Program.bind_eq_ok.2 ⟨(), _, Program.zoom_eq_ok.2
    ⟨w.rollup, Program.mapErr_eq_ok.2 hsimulated, rfl⟩, ?_⟩⟩
  simp only [Program.get_bind_eq_ok, Program.ensure_bind_eq_ok]
  refine ⟨hcontains, hmin, hfits, hsome, Program.bind_eq_ok.2 ⟨(), _, ?_,
    Program.ensure_bind_eq_ok.2 ⟨haggregate, Program.modify_eq_ok.2 rfl⟩⟩⟩
  rw [Program.run_lift, ← hsigs.1]
  exact Prod.ext (checkSignatures_congr { ext with txns := txns } ext rfl _ _ _ _) rfl

/-- The owner's calls change neither what mints and burns see nor the recent roots. -/
lemma step_of_administers (s : Storage) {call : ChainCall} (h : call.Administers) :
    (s.step call).toRollup = s.toRollup ∧ (s.step call).roots = s.roots ∧
      s.rolledUpBy call = [] ∧ call.NotSetRoot := by
  rcases Program.atomically_cases call.run s with hsame | ⟨u, hok⟩
  · change s.step call = s at hsame
    rw [hsame]
    cases call with
    | addProver => exact ⟨rfl, rfl, rfl, trivial⟩
    | setValidators => exact ⟨rfl, rfl, rfl, trivial⟩
    | rollup => exact h.elim
    | setRoot => exact h.elim
    | verifyBlock2 => exact h.elim
  · change call.run s = (.ok u, s.step call) at hok
    cases call with
    | addProver isOwner prover =>
      rw [ChainCall.run, Program.ensure_bind_eq_ok, Program.modify_eq_ok] at hok
      rw [hok.2]
      exact ⟨rfl, rfl, rfl, trivial⟩
    | setValidators isOwner validFrom validators =>
      rw [ChainCall.run, setValidators, Program.ensure_bind_eq_ok] at hok
      obtain ⟨marked, heq, -, -⟩ := setValidatorsUnchecked_eq_ok hok.2
      rw [heq]
      exact ⟨rfl, rfl, rfl, trivial⟩
    | rollup => exact h.elim
    | setRoot => exact h.elim
    | verifyBlock2 => exact h.elim

/-- The storage after one more call. -/
lemma run_concat (s : Storage) (calls : List ChainCall) (call : ChainCall) :
    s.run (calls ++ [call]) = (s.run calls).step call := by
  rw [Storage.run, List.foldl_append]
  rfl

/-- The blocks that are rolled up with one more call. -/
lemma rolledUp_concat (s : Storage) (calls : List ChainCall) (call : ChainCall) :
    s.rolledUp (calls ++ [call]) = s.rolledUp calls ++ (s.run calls).rolledUpBy call := by
  induction calls generalizing s with
  | nil => simp [Storage.rolledUp, Storage.run]
  | cons first calls ih =>
    rw [List.cons_append, Storage.rolledUp, Storage.rolledUp, ih, List.append_assoc]
    rfl

/-- A run of the storage, one call longer. -/
lemma exists_calls_concat {s s' : Storage} {blocks : List BlockProof}
    (h : ∃ calls, s' = s.run calls ∧ s.rolledUp calls = blocks ∧ ∀ call ∈ calls, call.NotSetRoot)
    {call : ChainCall} (hcall : call.NotSetRoot) :
    ∃ calls, s'.step call = s.run calls ∧ s.rolledUp calls = blocks ++ s'.rolledUpBy call ∧
      ∀ call ∈ calls, call.NotSetRoot := by
  obtain ⟨calls, rfl, rfl, hcalls⟩ := h
  refine ⟨calls ++ [call], (run_concat s calls call).symm, rolledUp_concat s calls call,
    fun c hc => ?_⟩
  rcases List.mem_append.1 hc with hmem | hlast
  · exact hcalls c hmem
  · rw [List.mem_singleton.1 hlast]
    exact hcall

/-- A call that returns, as a step. -/
lemma step_eq_of_ok {s s' : Storage} {call : ChainCall} (h : call.run s = (.ok (), s')) :
    s.step call = s' := by
  rw [Storage.step, Program.atomically, h]

section Txns

variable (hsigner : ∀ i, (envs i).signer ≠ contract)
  (hrouter : ∀ i, (envs i).RoutersOpen token contract verifiers)

include hsigner hrouter

/-- A transaction of a block is a call of `verifyTxn`. -/
lemma reaches_verifyTxn {a w w' : World T}
    (h : Bank.Reaches token contract verifiers (fun _ _ => True) false a w) {i : Fin 6}
    {mb value : Element} {u : Unit}
    (hok : Bank.verifyTxn token contract (envs i) mb value w = (.ok u, w')) :
    Bank.Reaches token contract verifiers (fun _ _ => True) false a w' := by
  have hstep := h.call (envs i) (.verifyTxn mb value) trivial (hsigner i) fun router calldata w =>
    (hrouter i router calldata w).mono fun _ _ _ => trivial
  rw [Bank.call, Program.atomically, hok] at hstep
  exact hstep

/-- The transactions of a block are calls of `verifyTxn`, one after the other. -/
lemma reaches_verifyTxns {a w w' : World T}
    (h : Bank.Reaches token contract verifiers (fun _ _ => True) false a w)
    {utxoHashes : Fin 6 → UtxoHashes} {is : List (Fin 6)} {u : Unit}
    (hok : verifyTxns token contract envs utxoHashes is w = (.ok u, w')) :
    Bank.Reaches token contract verifiers (fun _ _ => True) false a w' := by
  induction is generalizing w with
  | nil =>
    obtain ⟨-, rfl⟩ := Program.pure_eq_ok.1 hok
    exact h
  | cons i is ih =>
    obtain ⟨_, w₁, hfirst, hrest⟩ := Program.bind_eq_ok.1 hok
    exact ih (reaches_verifyTxn hsigner hrouter h hfirst) hrest

end Txns

/-- **What a run makes of mints and burns** is a run of their calls. By induction on the run. -/
lemma Reaches.world {plonkVerifier : Bytes → List Element → Bool} {blocks : List BlockProof}
    (h : Reaches token contract verifiers plonkVerifier v blocks v') :
    Bank.Reaches token contract verifiers (fun _ _ => True) false v.world v'.world := by
  induction h with
  | refl => exact .refl false v.world
  | @call b blocks h env entry hopen hsigner hrouter ih =>
    have hstep := ih.call env entry trivial hsigner fun router calldata w =>
      (hrouter router calldata w).mono fun _ _ _ => trivial
    rcases Program.atomically_cases (onWorld (Bank.call token contract verifiers env entry)) b
      with hsame | ⟨u, hok⟩
    · rw [hsame]
      exact ih
    · obtain ⟨w, hw, hb⟩ := onWorld_eq_ok.1 hok
      rw [Program.atomically, hw] at hstep
      rw [hb]
      exact hstep
  | token h t ht ih => exact ih.token t ht
  | @admin b blocks h call hcall ih =>
    have hworld : ({ b with storage := b.storage.step call } : Vault T).world = b.world :=
      congrArg (World.mk · b.token b.events) (step_of_administers b.storage hcall).1
    rw [hworld]
    exact ih
  | @verifyBlock2 b blocks h ext hverify envs hsigner hrouter block ih =>
    rcases Program.atomically_cases (Vault.verifyBlock2 token contract ext envs block) b
      with hsame | ⟨u, hok⟩
    · rw [hsame]
      exact ih
    · exact reaches_verifyTxns hsigner hrouter ih (verifyBlock2_eq_ok hok).txns

end Calls

/-! ## A sample: a mint is registered and rolled up -/

namespace MintRun

/-- The contract after its deployment; account 2 has ten tokens, which the contract may take. -/
def start : Vault Bank.Sample.Ledger where
  storage := (initializeRollup 1 [3] 2 .empty).2
  token := Bank.Sample.start.token
  events := []

/-- The block of the mint. -/
def block : BlockProof where
  aggrProof := []
  aggrInstances _ := 0
  oldRoot := 2
  newRoot := 9
  utxoHashes i := if i = 0 then ⟨0, 8, 5⟩ else ⟨0, 0, 0⟩
  otherHashFromBlockHash := 0
  height := 1
  signatures := [⟨0, 0, 27⟩]

/-- The prover's call; the one validator signed. -/
def ext (plonkVerifier : Bytes → List Element → Bool) : BlockExternal where
  msgSender := 1
  txns _ := ⟨0, true, true, true, true, fun _ => false, fun _ => false, true, fun _ _ _ => 0, false,
    .initial⟩
  keccak256 _ := 0
  recover _ _ _ _ := some 3
  aggregateVerifies := AggregateVerifier.verify plonkVerifier

variable (verifiers : Verifiers) (plonkVerifier : Bytes → List Element → Bool)

/-- The contract after the registration. -/
def registered : Vault Bank.Sample.Ledger :=
  (Program.atomically (onWorld (Bank.call Bank.Sample.token 1 verifiers (Bank.Sample.env 2)
    (.mint [] 8 5 0))) start).2

/-- The verification of the block. -/
def verification : Program (Vault Bank.Sample.Ledger) BlockRevert Unit :=
  verifyBlock2 Bank.Sample.token 1 (ext plonkVerifier) (fun _ => Bank.Sample.env 1) block

/-- The contract after the block. -/
def rolledUp : Vault Bank.Sample.Ledger :=
  (Program.atomically (verification plonkVerifier) (registered verifiers)).2

/-- The contract of the sample reaches the state with the rolled up block. -/
lemma reaches_rolledUp
    (hok : (verification plonkVerifier (registered verifiers)).1.isOk = true) :
    Reaches Bank.Sample.token 1 verifiers plonkVerifier start [block]
      (rolledUp verifiers plonkVerifier) := by
  have hsigner : ∀ msgSender, (Bank.Sample.env msgSender).signer ≠ 1 := fun _ =>
    (by decide : (0 : Address) ≠ 1)
  have hrouter : ∀ msgSender, (Bank.Sample.env msgSender).RoutersOpen Bank.Sample.token 1
      verifiers := fun _ _ _ w => .refl true w
  have hregistered : Reaches Bank.Sample.token 1 verifiers plonkVerifier start []
      (registered verifiers) :=
    (Reaches.refl start).call (Bank.Sample.env 2) (.mint [] 8 5 0) trivial (hsigner 2) (hrouter 2)
  have hrun := hregistered.verifyBlock2 (ext plonkVerifier) rfl (fun _ => Bank.Sample.env 1)
    (fun _ => hsigner 1) (fun _ => hrouter 1) block
  rw [verification] at hok
  rw [if_pos hok] at hrun
  exact hrun

end MintRun

end Vault

end TempoRollup.Contract
