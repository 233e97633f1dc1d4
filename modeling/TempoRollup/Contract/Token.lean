import TempoRollup.Contract.Rollup

set_option relaxedAutoImplicit false
set_option autoImplicit false

/-!
# Mints and burns with the token

The entry points of `src/rollup/RollupV6.sol` once more, now with the token that they move: the
calls of the token change its state, and a router that is called may do anything that others can
do to the token and to the contract.

## Main definitions

* `ERC20` — a token, and `ERC20.Standard`, what is documented of its calls.
* `World` — the storage of the contract, the token, and what has happened.
* `Bank.mint`, `Bank.substituteBurn`, `Bank.verifyTxn` and the other entry points.
* `TokenStep` — what others can do to the token.
* `Bank.Reaches` — what any calls make of the world.

## Main results

* `Bank.executeBurn_eq_ok` — what the execution of a burn did that succeeded.

## Design

The token is a parameter: it is deployed by others. Its calls return the new state, or nothing
when they revert. The event log has the events of the contract, with the arguments that the
functions had at hand, and one record for each payment; the log is only written. The router is a
function of the world at the time of the call, so that it may answer differently each time; it
returns whether the call succeeds, and what it leaves then.
-/

open Exec

namespace TempoRollup.Contract

/-! ## The token -/

/-- The calls of a token. The first address is the caller. -/
structure ERC20 (T : Type) where
  balanceOf : T → Address → ℕ
  allowance : T → Address → Address → ℕ
  isBlacklisted : T → Address → Bool
  transfer : (sender toAddr : Address) → (amount : ℕ) → T → Option T
  approve : (sender spender : Address) → (amount : ℕ) → T → Option T
  transferFrom : (sender source toAddr : Address) → (amount : ℕ) → T → Option T
  /-- `receiveWithAuthorization`, with the signature and what it is valid for. -/
  receiveWithAuthorization :
    (sender source toAddr : Address) → (amount : ℕ) → (authorization : Bytes) → T → Option T

/-- The greatest number of 256 bits; as an allowance it need not be used up. -/
def UINT256_MAX : ℕ := 2 ^ 256 - 1

namespace ERC20

variable {T : Type} (token : ERC20 T)

/-- An amount moves from one account to another, which may be the same. -/
def Moves (source toAddr : Address) (amount : ℕ) (t t' : T) : Prop :=
  amount ≤ token.balanceOf t source ∧
    ∀ a, token.balanceOf t' a =
      (if a = source then token.balanceOf t a - amount else token.balanceOf t a) +
        if a = toAddr then amount else 0

/-- The allowance is used, or it is unlimited and stays. -/
def Spends (owner spender : Address) (amount : ℕ) (t t' : T) : Prop :=
  amount ≤ token.allowance t owner spender ∧
    (token.allowance t' owner spender = token.allowance t owner spender - amount ∨
      token.allowance t owner spender = UINT256_MAX ∧
        token.allowance t' owner spender = UINT256_MAX) ∧
    ∀ o s, (o, s) ≠ (owner, spender) → token.allowance t' o s = token.allowance t o s

/-- What is documented of the calls that return. -/
structure Standard : Prop where
  transfer : ∀ {sender toAddr amount t t'}, token.transfer sender toAddr amount t = some t' →
    token.Moves sender toAddr amount t t' ∧ token.allowance t' = token.allowance t
  approve : ∀ {sender spender amount t t'}, token.approve sender spender amount t = some t' →
    token.balanceOf t' = token.balanceOf t ∧ token.allowance t' sender spender = amount ∧
      ∀ o s, (o, s) ≠ (sender, spender) → token.allowance t' o s = token.allowance t o s
  transferFrom : ∀ {sender source toAddr amount t t'},
    token.transferFrom sender source toAddr amount t = some t' →
      token.Moves source toAddr amount t t' ∧ token.Spends source sender amount t t'
  receiveWithAuthorization : ∀ {sender source toAddr amount authorization t t'},
    token.receiveWithAuthorization sender source toAddr amount authorization t = some t' →
      token.Moves source toAddr amount t t' ∧ token.allowance t' = token.allowance t

end ERC20

/-! ## The world -/

/-- Where a burn is to be paid. -/
inductive Dest
  | address (toAddr : Address)
  | router (router returnAddress : Address)
  deriving DecidableEq

/-- What happens in the contract. -/
inductive Event
  | mintAdded (commitment : Element) (amount : ℕ)
  | burnAdded (nullifier : Element) (amount : ℕ) (dest : Dest)
  | minted (commitment : Element) (amount : ℕ)
  | paid (nullifier : Element) (amount : ℕ) (payee : Address)
  | burned (nullifier : Element) (amount : ℕ) (substitute success : Bool)
  | substituted (nullifier : Element) (amount : ℕ) (substitutor : Address)
  deriving DecidableEq

/-- The storage of the contract, the token, and what has happened. -/
structure World (T : Type) where
  rollup : Rollup
  token : T
  events : List Event

/-- Who makes a call, and how libraries and routers answer during it. -/
structure Env (T : Type) where
  msgSender : Address
  isRouterWhitelisted : Address → Bool
  keccak : Address → Bytes → Address → Element
  /-- `from` of `mintWithAuthorization`, its authorization, and the signer of the call. -/
  source : Address
  authorization : Bytes
  signer : Address
  /-- What a router does: whether the call succeeds, and what it leaves. -/
  router : Address → Bytes → World T → Bool × World T

namespace Bank

variable {T : Type}

/-- A call of the contract, with the token. -/
abbrev Call (T α : Type) : Type := Program (World T) Revert α

/-- Run a call that uses the storage only. -/
def onRollup {α : Type} (p : Contract.Call α) : Call T α :=
  Program.zoom World.rollup (fun rollup world => { world with rollup := rollup }) p

/-- Call the token; a call that reverts reverts the caller. -/
def callToken (call : T → Option T) : Call T Unit := fun world =>
  match call world.token with
  | some token => (.ok (), { world with token := token })
  | none => (.err .tokenCallFailed, world)

/-- Call the token, and continue when it reverts. -/
def tryToken (call : T → Option T) : Call T Bool := fun world =>
  match call world.token with
  | some token => (.ok true, { world with token := token })
  | none => (.ok false, world)

/-- Write an event. -/
def emit (event : Event) : Call T Unit :=
  Program.modify fun world => { world with events := world.events ++ [event] }

section Entries

variable (token : ERC20 T) (contract : Address) (verifiers : Verifiers) (env : Env T)

/-- The answers that a registration needs. -/
def external (world : World T) : External where
  msgSender := env.msgSender
  transferFromReturns := true
  transferReturns := true
  approveReturns := true
  resetReturns := true
  isUSDCBlacklisted := token.isBlacklisted world.token
  isRouterWhitelisted := env.isRouterWhitelisted
  signerIsFrom := env.signer = env.source
  keccak := env.keccak
  routerReturns := true
  afterRouterCall := world.rollup

/-! ## Registration -/

/-- `mint`. -/
def mint (proof : Bytes) (commitment value source : Element) : Call T Unit := do
  let world ← Program.get
  Program.ensure (world.rollup.mints commitment = 0) .mintAlreadyExists
  onRollup (verify verifiers.mint proof [commitment, value, source])
  callToken (token.transferFrom contract env.msgSender contract value.toNat)
  onRollup (setMint commitment value)
  emit (.mintAdded commitment value.toNat)

/-- `mintWithAuthorization`. -/
def mintWithAuthorization (proof : Bytes) (commitment value source : Element) : Call T Unit := do
  let world ← Program.get
  Program.ensure (world.rollup.mints commitment = 0) .mintAlreadyExists
  Program.ensure (env.signer = env.source) .invalidSigner
  onRollup (verify verifiers.mint proof [commitment, value, source])
  callToken
    (token.receiveWithAuthorization contract env.source contract value.toNat env.authorization)
  onRollup (setMint commitment value)
  emit (.mintAdded commitment value.toNat)

/-- `burn`. -/
def burn (toAddr : Address) (proof : Bytes) (nullifier value source sig : Element) :
    Call T Unit := do
  let world ← Program.get
  onRollup
    (Contract.burn verifiers (external token env world) toAddr proof nullifier value source sig)
  emit (.burnAdded nullifier value.toNat (.address toAddr))

/-- `burnToAddress`. -/
def burnToAddress (kind dest : Element) (proof : Bytes) (nullifier value source sig : Element) :
    Call T Unit := do
  let world ← Program.get
  onRollup
    (Contract.burnToAddress verifiers (external token env world) kind dest proof nullifier value
      source sig)
  emit (.burnAdded nullifier value.toNat (.address (bytes32ToAddress dest)))

/-- `burnToRouter`. -/
def burnToRouter (kind msgHash : Element) (proof : Bytes) (nullifier value source sig : Element)
    (router : Address) (routerCalldata : Bytes) (returnAddress : Address) : Call T Unit := do
  let world ← Program.get
  onRollup
    (Contract.burnToRouter verifiers (external token env world) kind msgHash proof nullifier value
      source sig router routerCalldata returnAddress)
  emit (.burnAdded nullifier value.toNat (.router router returnAddress))

/-! ## Settlement -/

/-- `executeBurnToAddress`. -/
def executeBurnToAddress (nullifier : Element) (value : ℕ) : Call T Bool := do
  let world ← Program.get
  let b := world.rollup.burns nullifier
  if b.amount = 0 then pure false
  else do
    Program.ensure (b.amount = value) .invalidBurnAmount
    let success ← tryToken (token.transfer contract b.toAddr value)
    if success then do
      emit (.paid nullifier value b.toAddr)
      pure true
    else pure false

/-- `_routerCall`: what the router did is undone when the call fails. -/
def routerCall (router : Address) (routerCalldata : Bytes) : Call T Bool := fun world =>
  if env.isRouterWhitelisted router then
    let r := env.router router routerCalldata world
    if r.1 then (.ok true, r.2) else (.ok false, world)
  else (.ok false, world)

/-- `executeBurnToRouter`. -/
def executeBurnToRouter (nullifier : Element) (value : ℕ) : Call T Bool := do
  let world ← Program.get
  let b := world.rollup.burnsToRouter nullifier
  -- this should never happen
  Program.ensure (b.amount = value) .invalidBurnAmount
  callToken (token.approve contract b.router value)
  let routerCallSuccess ← routerCall env b.router b.routerCalldata
  -- even if the call succeeded, so that there is no residual allowance
  callToken (token.approve contract b.router 0)
  if routerCallSuccess then do
    emit (.paid nullifier value b.router)
    pure true
  else do
    let world ← Program.get
    if token.isBlacklisted world.token b.returnAddress then pure false
    else do
      callToken (token.transfer contract b.returnAddress b.amount)
      emit (.paid nullifier b.amount b.returnAddress)
      pure true

/-- `executeBurn`: whether the burn was found, and whether it was successful. -/
def executeBurn (mb : Element) (value : ℕ) (substitute : Bool) : Call T (Bool × Bool) := do
  let world ← Program.get
  if world.rollup.burnsKind mb = 0 then
    if (world.rollup.burns mb).amount = 0 then do
      emit (.burned mb value substitute false)
      pure (false, false)
    else do
      let success ← executeBurnToAddress token contract mb value
      emit (.burned mb value substitute success)
      pure (true, success)
  else if world.rollup.burnsKind mb = 1 then do
    let success ← executeBurnToRouter token contract env mb value
    emit (.burned mb value substitute success)
    pure (true, success)
  else do
    emit (.burned mb value substitute false)
    pure (true, false)

/-- `verifyTxn`. -/
def verifyTxn (mb value : Element) : Call T Unit :=
  if value = 0 then pure ()
  else do
    onRollup (Program.modify fun rollup => rollup.markRolledUp mb)
    let world ← Program.get
    if world.rollup.mints mb ≠ 0 then do
      Program.ensure (world.rollup.mints mb = value.toNat) .invalidMintAmount
      emit (.minted mb (world.rollup.mints mb))
    else do
      let result ← executeBurn token contract env mb value.toNat false
      Program.ensure result.1 .burnNotFound

/-- The storage when a substituted burn is to be paid back. -/
def payBack (nullifier : Element) (substitutor : Address) (amount : ℕ) (rollup : Rollup) :
    Rollup :=
  { rollup with
    burnsKind := set rollup.burnsKind nullifier 0
    burns := set rollup.burns nullifier ⟨substitutor, amount⟩ }

/-- `substituteBurn`. -/
def substituteBurn (nullifier : Element) (amount : ℕ) : Call T Unit := do
  let world ← Program.get
  Program.ensure (!world.rollup.substitutedBurns nullifier) .burnAlreadySubstituted
  Program.ensure (!world.rollup.rolledUpLeafs nullifier) .leafAlreadyRolledUp
  callToken (token.transferFrom contract env.msgSender contract amount)
  onRollup (Program.modify fun rollup => rollup.markSubstituted nullifier)
  let result ← executeBurn token contract env nullifier amount true
  Program.ensure (result.1 && result.2) .burnFailed
  onRollup (Program.modify (payBack nullifier env.msgSender amount))
  emit (.substituted nullifier amount env.msgSender)

/-- The call of an entry point. -/
def call : Entry → Call T Unit
  | .mint proof commitment value source =>
    mint token contract verifiers env proof commitment value source
  | .mintWithAuthorization proof commitment value source =>
    mintWithAuthorization token contract verifiers env proof commitment value source
  | .burn toAddr proof nullifier value source sig =>
    burn token verifiers env toAddr proof nullifier value source sig
  | .burnToAddress kind dest proof nullifier value source sig =>
    burnToAddress token verifiers env kind dest proof nullifier value source sig
  | .burnToRouter kind msgHash proof nullifier value source sig router routerCalldata
      returnAddress =>
    burnToRouter token verifiers env kind msgHash proof nullifier value source sig router
      routerCalldata returnAddress
  | .substituteBurn nullifier amount => substituteBurn token contract env nullifier amount
  | .verifyTxn mb value => verifyTxn token contract env mb value

end Entries

/-! ## Runs -/

/-- What others do to the token: someone other than the contract uses what the contract allowed
it, or something happens that takes nothing from the contract and leaves its allowances as they
are. -/
inductive TokenStep (token : ERC20 T) (contract : Address) : T → T → Prop
  | spend {t t' : T} (spender toAddr : Address) (amount : ℕ) (hne : spender ≠ contract)
    (h : token.transferFrom spender contract toAddr amount t = some t') :
    TokenStep token contract t t'
  | elsewhere {t t' : T} (hbalance : token.balanceOf t contract ≤ token.balanceOf t' contract)
    (hallowance : token.allowance t' contract = token.allowance t contract) :
    TokenStep token contract t t'

/-- `Reaches … inner a b`: any calls of the entry points by anyone, and anything that others do to
the token, take the world from `a` to `b`. A router may do the same when it is called, with
`inner` set. A call that reverts changes nothing. Nobody signs with the address of the contract,
and `allowed` says which calls are made, also by routers. -/
inductive Reaches (token : ERC20 T) (contract : Address) (verifiers : Verifiers)
    (allowed : Bool → Entry → Prop) : Bool → World T → World T → Prop
  | refl (inner : Bool) (a : World T) : Reaches token contract verifiers allowed inner a a
  | call {inner : Bool} {a b : World T} (h : Reaches token contract verifiers allowed inner a b)
    (env : Env T) (entry : Entry) (hallowed : allowed inner entry) (hsigner : env.signer ≠ contract)
    (hrouter : ∀ router calldata w,
      Reaches token contract verifiers allowed true w (env.router router calldata w).2) :
    Reaches token contract verifiers allowed inner a
      (Program.atomically (call token contract verifiers env entry) b).2
  | token {inner : Bool} {a b : World T} (h : Reaches token contract verifiers allowed inner a b)
    (t : T) (ht : TokenStep token contract b.token t) :
    Reaches token contract verifiers allowed inner a { b with token := t }

/-! ## Calls that return -/

section ReturnsOk

variable {α β : Type} {w w' : World T}

/-- When a call of the token and what follows it return. -/
lemma callToken_bind_eq_ok {c : T → Option T} {f : Unit → Call T β} {b : β} :
    (callToken c >>= f) w = (.ok b, w') ↔
      ∃ t, c w.token = some t ∧ f () { w with token := t } = (.ok b, w') := by
  rw [Program.run_bind, callToken]
  cases c w.token <;> simp

/-- When what follows a call of the token that may fail returns. -/
lemma tryToken_bind_eq_ok {c : T → Option T} {f : Bool → Call T β} {b : β} :
    (tryToken c >>= f) w = (.ok b, w') ↔
      (∃ t, c w.token = some t ∧ f true { w with token := t } = (.ok b, w')) ∨
        c w.token = none ∧ f false w = (.ok b, w') := by
  rw [Program.run_bind, tryToken]
  cases c w.token <;> simp

/-- When an event is logged. -/
lemma emit_eq_ok {event : Event} {u : Unit} :
    (emit event : Call T Unit) w = (.ok u, w') ↔
      w' = { w with events := w.events ++ [event] } :=
  Program.modify_eq_ok

/-- When a program that logs first returns. -/
lemma emit_bind_eq_ok {event : Event} {f : Unit → Call T β} {b : β} :
    (emit event >>= f) w = (.ok b, w') ↔
      f () { w with events := w.events ++ [event] } = (.ok b, w') := Iff.rfl

/-- A call that uses the storage only returns what it returns on the storage. -/
lemma onRollup_bind_eq_ok {p : Contract.Call α} {f : α → Call T β} {b : β} :
    (onRollup p >>= f) w = (.ok b, w') ↔
      ∃ a rollup, p w.rollup = (.ok a, rollup) ∧ f a { w with rollup := rollup } = (.ok b, w') := by
  rw [Program.run_bind, onRollup, Program.zoom]
  rcases p w.rollup with ⟨a | e | _, rollup⟩ <;> simp

/-- When a program that changes the storage first returns. -/
lemma onRollup_modify_bind_eq_ok {g : Rollup → Rollup} {f : Unit → Call T β} {b : β} :
    (onRollup (Program.modify g) >>= f) w = (.ok b, w') ↔
      f () { w with rollup := g w.rollup } = (.ok b, w') := Iff.rfl

end ReturnsOk

/-! ## The execution of a burn -/

section Execution

variable {token : ERC20 T} {contract : Address} {env : Env T} {w w' : World T}

/-- The world with some more events. -/
def log (w : World T) (events : List Event) : World T := { w with events := w.events ++ events }

/-- What the execution of a burn does to the world, but for the last event. -/
inductive Executes (token : ERC20 T) (contract : Address) (env : Env T) (w : World T) (mb : Element)
    (value : ℕ) : Bool × Bool → World T → Prop
  /-- There is no such burn. -/
  | missing (hkind : w.rollup.burnsKind mb = 0) (hamount : (w.rollup.burns mb).amount = 0) :
    Executes token contract env w mb value (false, false) w
  /-- Its kind is unknown. -/
  | unknown (hkind : w.rollup.burnsKind mb ≠ 0) (hkind' : w.rollup.burnsKind mb ≠ 1) :
    Executes token contract env w mb value (true, false) w
  /-- The address is paid. -/
  | address {t : T} (hkind : w.rollup.burnsKind mb = 0)
    (hne : (w.rollup.burns mb).amount ≠ 0) (hamount : (w.rollup.burns mb).amount = value)
    (ht : token.transfer contract (w.rollup.burns mb).toAddr value w.token = some t) :
    Executes token contract env w mb value (true, true)
      (log { w with token := t } [.paid mb value (w.rollup.burns mb).toAddr])
  /-- The token refuses to pay the address. -/
  | refused (hkind : w.rollup.burnsKind mb = 0) (hne : (w.rollup.burns mb).amount ≠ 0)
    (hamount : (w.rollup.burns mb).amount = value) :
    Executes token contract env w mb value (true, false) w
  /-- The router is called, and the call succeeds. -/
  | router {t t' : T} (hkind : w.rollup.burnsKind mb = 1)
    (hamount : (w.rollup.burnsToRouter mb).amount = value)
    (ht : token.approve contract (w.rollup.burnsToRouter mb).router value w.token = some t)
    (ht' : token.approve contract (w.rollup.burnsToRouter mb).router 0
      (env.router (w.rollup.burnsToRouter mb).router (w.rollup.burnsToRouter mb).routerCalldata
        { w with token := t }).2.token = some t') :
    Executes token contract env w mb value (true, true)
      (log { (env.router (w.rollup.burnsToRouter mb).router
          (w.rollup.burnsToRouter mb).routerCalldata { w with token := t }).2 with token := t' }
        [.paid mb value (w.rollup.burnsToRouter mb).router])
  /-- The router is not called or its call fails, and the return address is blacklisted. -/
  | blacklisted {t t' : T} (hkind : w.rollup.burnsKind mb = 1)
    (hamount : (w.rollup.burnsToRouter mb).amount = value)
    (ht : token.approve contract (w.rollup.burnsToRouter mb).router value w.token = some t)
    (ht' : token.approve contract (w.rollup.burnsToRouter mb).router 0 t = some t') :
    Executes token contract env w mb value (true, false) { w with token := t' }
  /-- The router is not called or its call fails, and the return address is paid. -/
  | returned {t t' t'' : T} (hkind : w.rollup.burnsKind mb = 1)
    (hamount : (w.rollup.burnsToRouter mb).amount = value)
    (ht : token.approve contract (w.rollup.burnsToRouter mb).router value w.token = some t)
    (ht' : token.approve contract (w.rollup.burnsToRouter mb).router 0 t = some t')
    (ht'' : token.transfer contract (w.rollup.burnsToRouter mb).returnAddress value t' = some t'') :
    Executes token contract env w mb value (true, true)
      (log { w with token := t'' } [.paid mb value (w.rollup.burnsToRouter mb).returnAddress])

/-- `executeBurnToAddress` on a burn that exists. -/
lemma executeBurnToAddress_eq_ok {mb : Element} {value : ℕ} {success : Bool}
    (hkind : w.rollup.burnsKind mb = 0) (hne : (w.rollup.burns mb).amount ≠ 0)
    (h : executeBurnToAddress token contract mb value w = (.ok success, w')) :
    Executes token contract env w mb value (true, success) w' := by
  rw [executeBurnToAddress, Program.get_bind_eq_ok, if_neg hne, Program.ensure_bind_eq_ok,
    decide_eq_true_eq, tryToken_bind_eq_ok] at h
  obtain ⟨hamount, ⟨t, ht, hpaid⟩ | ⟨-, hrefused⟩⟩ := h
  · rw [if_pos rfl, emit_bind_eq_ok, Program.pure_eq_ok] at hpaid
    obtain ⟨rfl, rfl⟩ := hpaid
    exact .address hkind hne hamount ht
  · rw [if_neg Bool.false_ne_true, Program.pure_eq_ok] at hrefused
    obtain ⟨rfl, rfl⟩ := hrefused
    exact .refused hkind hne hamount

/-- A router call that succeeds leaves what the router left; one that fails changes nothing. -/
lemma routerCall_eq_ok {router : Address} {calldata : Bytes} {success : Bool}
    (h : routerCall env router calldata w = (.ok success, w')) :
    success = true ∧ w' = (env.router router calldata w).2 ∨ success = false ∧ w' = w := by
  unfold routerCall at h
  dsimp only at h
  split_ifs at h
  · cases h
    exact .inl ⟨rfl, rfl⟩
  · cases h
    exact .inr ⟨rfl, rfl⟩
  · cases h
    exact .inr ⟨rfl, rfl⟩

/-- `executeBurnToRouter`. -/
lemma executeBurnToRouter_eq_ok {mb : Element} {value : ℕ} {success : Bool}
    (hkind : w.rollup.burnsKind mb = 1)
    (h : executeBurnToRouter token contract env mb value w = (.ok success, w')) :
    Executes token contract env w mb value (true, success) w' := by
  rw [executeBurnToRouter, Program.get_bind_eq_ok, Program.ensure_bind_eq_ok, decide_eq_true_eq,
    callToken_bind_eq_ok] at h
  obtain ⟨hamount, t, ht, hcall⟩ := h
  obtain ⟨called, w₁, hrouter, hrest⟩ := Program.bind_eq_ok.1 hcall
  rw [callToken_bind_eq_ok] at hrest
  obtain ⟨t', ht', hrest⟩ := hrest
  rcases routerCall_eq_ok hrouter with ⟨rfl, rfl⟩ | ⟨rfl, rfl⟩
  · rw [if_pos rfl, emit_bind_eq_ok, Program.pure_eq_ok] at hrest
    obtain ⟨rfl, rfl⟩ := hrest
    exact .router hkind hamount ht ht'
  · rw [if_neg Bool.false_ne_true, Program.get_bind_eq_ok] at hrest
    split_ifs at hrest with hblack
    · obtain ⟨rfl, rfl⟩ := Program.pure_eq_ok.1 hrest
      exact .blacklisted hkind hamount ht ht'
    · rw [callToken_bind_eq_ok] at hrest
      obtain ⟨t'', ht'', hrest⟩ := hrest
      rw [emit_bind_eq_ok, Program.pure_eq_ok, hamount] at hrest
      obtain ⟨rfl, rfl⟩ := hrest
      rw [hamount] at ht''
      exact .returned hkind hamount ht ht' ht''

/-- **The execution of a burn**, case by case. -/
theorem executeBurn_eq_ok {mb : Element} {value : ℕ} {substitute : Bool} {r : Bool × Bool}
    (h : executeBurn token contract env mb value substitute w = (.ok r, w')) :
    ∃ w₁, Executes token contract env w mb value r w₁ ∧
      w' = log w₁ [.burned mb value substitute r.2] := by
  rw [executeBurn, Program.get_bind_eq_ok] at h
  split_ifs at h with hkind hamount hone
  · rw [emit_bind_eq_ok, Program.pure_eq_ok] at h
    obtain ⟨rfl, rfl⟩ := h
    exact ⟨w, .missing hkind hamount, rfl⟩
  · obtain ⟨success, w₁, hexec, hrest⟩ := Program.bind_eq_ok.1 h
    rw [emit_bind_eq_ok, Program.pure_eq_ok] at hrest
    obtain ⟨rfl, rfl⟩ := hrest
    exact ⟨w₁, executeBurnToAddress_eq_ok hkind hamount hexec, rfl⟩
  · obtain ⟨success, w₁, hexec, hrest⟩ := Program.bind_eq_ok.1 h
    rw [emit_bind_eq_ok, Program.pure_eq_ok] at hrest
    obtain ⟨rfl, rfl⟩ := hrest
    exact ⟨w₁, executeBurnToRouter_eq_ok hone hexec, rfl⟩
  · rw [emit_bind_eq_ok, Program.pure_eq_ok] at h
    obtain ⟨rfl, rfl⟩ := h
    exact ⟨w, .unknown hkind hone, rfl⟩

/-- **`substituteBurn`** when it returns. -/
lemma substituteBurn_eq_ok {nullifier : Element} {amount : ℕ} {u : Unit}
    (h : substituteBurn token contract env nullifier amount w = (.ok u, w')) :
    w.rollup.substitutedBurns nullifier = false ∧ w.rollup.rolledUpLeafs nullifier = false ∧
      ∃ t w₁, token.transferFrom contract env.msgSender contract amount w.token = some t ∧
        Executes token contract env
          { w with rollup := w.rollup.markSubstituted nullifier, token := t } nullifier amount
          (true, true) w₁ ∧
        w' = log { w₁ with rollup := payBack nullifier env.msgSender amount w₁.rollup }
          [.burned nullifier amount true true, .substituted nullifier amount env.msgSender] := by
  rw [substituteBurn, Program.get_bind_eq_ok, Program.ensure_bind_eq_ok,
    Program.ensure_bind_eq_ok, callToken_bind_eq_ok] at h
  obtain ⟨hsub, hrolled, t, ht, hrest⟩ := h
  rw [onRollup_modify_bind_eq_ok] at hrest
  obtain ⟨r, w₁, hexec, hrest⟩ := Program.bind_eq_ok.1 hrest
  rw [Program.ensure_bind_eq_ok, onRollup_modify_bind_eq_ok, emit_eq_ok, Bool.and_eq_true] at hrest
  obtain ⟨⟨hfound, hsuccess⟩, rfl⟩ := hrest
  obtain ⟨w₂, hw₂, rfl⟩ := executeBurn_eq_ok hexec
  have hr : r = (true, true) := Prod.ext hfound hsuccess
  rw [hr] at hw₂ ⊢
  refine ⟨by simpa using hsub, by simpa using hrolled, t, w₂, ht, hw₂, ?_⟩
  simp [log]

/-- **`verifyTxn`** when it returns. -/
lemma verifyTxn_eq_ok {mb value : Element} {u : Unit}
    (h : verifyTxn token contract env mb value w = (.ok u, w')) :
    value = 0 ∧ w' = w ∨
      w.rollup.mints mb = value.toNat ∧
        w' = log { w with rollup := w.rollup.markRolledUp mb } [.minted mb value.toNat] ∨
      value ≠ 0 ∧ ∃ success w₁,
        Executes token contract env { w with rollup := w.rollup.markRolledUp mb } mb value.toNat
          (true, success) w₁ ∧
        w' = log w₁ [.burned mb value.toNat false success] := by
  unfold verifyTxn at h
  split_ifs at h with hzero
  · exact .inl ⟨hzero, (Program.pure_eq_ok.1 h).2⟩
  · rw [onRollup_modify_bind_eq_ok, Program.get_bind_eq_ok] at h
    split_ifs at h with hmint
    · rw [Program.ensure_bind_eq_ok, decide_eq_true_eq, emit_eq_ok] at h
      obtain ⟨hamount, rfl⟩ := h
      exact .inr (.inl ⟨hamount, by rw [← hamount]; rfl⟩)
    · obtain ⟨⟨found, success⟩, w₁, hexec, hrest⟩ := Program.bind_eq_ok.1 h
      rw [Program.ensure_eq_ok] at hrest
      obtain ⟨hfound, rfl⟩ := hrest
      obtain ⟨w₂, hw₂, rfl⟩ := executeBurn_eq_ok hexec
      simp only at hfound
      rw [hfound] at hw₂
      exact .inr (.inr ⟨hzero, success, w₂, hw₂, rfl⟩)

end Execution

/-! ## Registration -/

/-- A burn is registered where there was none. -/
inductive Registers (a : Rollup) (nullifier : Element) : ℕ → Dest → Rollup → Prop
  | address (toAddr : Address) (amount : ℕ) (hkind : a.burnsKind nullifier = 0)
    (hamount : (a.burns nullifier).amount = 0) :
    Registers a nullifier amount (.address toAddr)
      { a with
        burnsKind := set a.burnsKind nullifier 0
        burns := set a.burns nullifier ⟨toAddr, amount⟩ }
  | router (router : Address) (routerCalldata : Bytes) (amount : ℕ) (returnAddress : Address)
    (hfits : amount < UINT256_MAX) (hkind : a.burnsKind nullifier = 0)
    (hamount : (a.burns nullifier).amount = 0) :
    Registers a nullifier amount (.router router returnAddress)
      { a with
        burnsKind := set a.burnsKind nullifier 1
        burnsToRouter := set a.burnsToRouter nullifier
          ⟨router, routerCalldata, amount, returnAddress⟩ }

section Registration

variable {verifiers : Verifiers} {ext : External} {a b : Rollup}

/-- The kind of a burn is set once, and only where no burn is. -/
lemma setBurnsKind_guard {nullifier kind : Element} {u : Unit}
    (h : setBurnsKind nullifier kind a = (.ok u, b)) :
    a.burnsKind nullifier = 0 ∧ (a.burns nullifier).amount = 0 := by
  rw [setBurnsKind, Program.get_bind_eq_ok, Program.ensure_bind_eq_ok, decide_eq_true_eq] at h
  exact h.1

/-- A burn registers its amount for an address. -/
lemma registers_burn {toAddr : Address} {proof : Bytes} {nullifier value source sig : Element}
    {u : Unit} (h : Contract.burn verifiers ext toAddr proof nullifier value source sig a =
      (.ok u, b)) : Registers a nullifier value.toNat (.address toAddr) b := by
  simp only [Contract.burn, Program.ensure_bind_eq_ok, Program.bind_eq_ok (p := verify _ _ _),
    Program.bind_eq_ok (p := setBurnsKind _ _), Program.modify_eq_ok] at h
  obtain ⟨-, _, c₁, hverify, _, c₂, hkind, rfl⟩ := h
  obtain ⟨-, -, rfl⟩ := verify_eq_ok hverify
  obtain ⟨hk, ha⟩ := setBurnsKind_guard hkind
  rw [setBurnsKind_eq_ok hkind]
  exact .address toAddr value.toNat hk ha

/-- A burn to an address registers its amount for that address. -/
lemma registers_burnToAddress {kind dest : Element} {proof : Bytes}
    {nullifier value source sig : Element} {u : Unit}
    (h : Contract.burnToAddress verifiers ext kind dest proof nullifier value source sig a =
      (.ok u, b)) : Registers a nullifier value.toNat (.address (bytes32ToAddress dest)) b := by
  simp only [Contract.burnToAddress, Program.ensure_bind_eq_ok, decide_eq_true_eq,
    Program.bind_eq_ok (p := verify _ _ _), Program.bind_eq_ok (p := setBurnsKind _ _),
    Program.modify_eq_ok] at h
  obtain ⟨rfl, -, _, c₁, hverify, _, c₂, hkind, rfl⟩ := h
  obtain ⟨-, -, rfl⟩ := verify_eq_ok hverify
  obtain ⟨hk, ha⟩ := setBurnsKind_guard hkind
  rw [setBurnsKind_eq_ok hkind]
  exact .address (bytes32ToAddress dest) value.toNat hk ha

/-- A burn to a router registers its amount for the router. -/
lemma registers_burnToRouter {kind msgHash : Element} {proof : Bytes}
    {nullifier value source sig : Element} {router : Address} {routerCalldata : Bytes}
    {returnAddress : Address} {u : Unit}
    (h : Contract.burnToRouter verifiers ext kind msgHash proof nullifier value source sig router
      routerCalldata returnAddress a = (.ok u, b)) :
    Registers a nullifier value.toNat (.router router returnAddress) b := by
  simp only [Contract.burnToRouter, Program.ensure_bind_eq_ok, decide_eq_true_eq,
    Program.bind_eq_ok (p := verify _ _ _), Program.bind_eq_ok (p := setBurnsKind _ _),
    Program.modify_eq_ok] at h
  obtain ⟨rfl, -, -, -, -, _, c₁, hverify, _, c₂, hkind, rfl⟩ := h
  obtain ⟨hcanon, -, rfl⟩ := verify_eq_ok hverify
  obtain ⟨hk, ha⟩ := setBurnsKind_guard hkind
  rw [setBurnsKind_eq_ok hkind]
  refine .router router routerCalldata value.toNat returnAddress ?_ hk ha
  calc value.toNat < Element.MODULUS := hcanon value (by simp)
    _ ≤ UINT256_MAX := by decide

end Registration

/-! ## One call -/

section Effects

variable {token : ERC20 T} {contract : Address} {verifiers : Verifiers} {env : Env T}
    {w w' : World T}

/-- All that a call of an entry point can do. -/
inductive Effect (token : ERC20 T) (contract : Address) (env : Env T) (w : World T)
    (entry : Entry) :
    World T → Prop
  | minted (commitment : Element) (amount : ℕ) {t : T}
    (ht : token.transferFrom contract env.msgSender contract amount w.token = some t ∨
      env.signer = env.source ∧ token.receiveWithAuthorization contract env.source contract amount
        env.authorization w.token = some t) :
    Effect token contract env w entry
      (log { w with
          rollup := { w.rollup with mints := set w.rollup.mints commitment amount }, token := t }
        [.mintAdded commitment amount])
  | registered {nullifier : Element} {amount : ℕ} {dest : Dest} {rollup : Rollup}
    (h : Registers w.rollup nullifier amount dest rollup) :
    Effect token contract env w entry
      (log { w with rollup := rollup } [.burnAdded nullifier amount dest])
  | substituted {nullifier : Element} {amount : ℕ} {t : T} {w₁ : World T}
    (hsub : w.rollup.substitutedBurns nullifier = false)
    (hrolled : w.rollup.rolledUpLeafs nullifier = false)
    (ht : token.transferFrom contract env.msgSender contract amount w.token = some t)
    (h : Executes token contract env
      { w with rollup := w.rollup.markSubstituted nullifier, token := t } nullifier amount
      (true, true) w₁) :
    Effect token contract env w entry
      (log { w₁ with rollup := payBack nullifier env.msgSender amount w₁.rollup }
        [.burned nullifier amount true true, .substituted nullifier amount env.msgSender])
  | nothing : Effect token contract env w entry w
  | rolledUpMint {mb value : Element} (hentry : entry = .verifyTxn mb value) :
    Effect token contract env w entry
      (log { w with rollup := w.rollup.markRolledUp mb } [.minted mb value.toNat])
  | rolledUpBurn {mb value : Element} {success : Bool} {w₁ : World T}
    (hentry : entry = .verifyTxn mb value) (hvalue : value ≠ 0)
    (h : Executes token contract env { w with rollup := w.rollup.markRolledUp mb } mb value.toNat
      (true, success) w₁) :
    Effect token contract env w entry (log w₁ [.burned mb value.toNat false success])

/-- A registration, with its event. -/
lemma registered_eq_ok {p : World T → Contract.Call Unit} {event : Event} {u : Unit}
    (h : (do
      let world ← Program.get
      onRollup (p world)
      emit event : Call T Unit) w = (.ok u, w')) :
    ∃ u' rollup, p w w.rollup = (.ok u', rollup) ∧
      w' = log { w with rollup := rollup } [event] := by
  rw [Program.get_bind_eq_ok, onRollup_bind_eq_ok] at h
  obtain ⟨u', rollup, hp, hrest⟩ := h
  exact ⟨u', rollup, hp, emit_eq_ok.1 hrest⟩

/-- **One call**: what it does when it returns. -/
lemma call_eq_ok {entry : Entry} {u : Unit}
    (h : call token contract verifiers env entry w = (.ok u, w')) :
    Effect token contract env w entry w' := by
  cases entry with
  | mint proof commitment value source =>
    simp only [call, mint, Program.get_bind_eq_ok, Program.ensure_bind_eq_ok,
      onRollup_bind_eq_ok, callToken_bind_eq_ok] at h
    obtain ⟨-, _, rollup, hverify, t, ht, _, rollup', hset, hemit⟩ := h
    obtain ⟨-, -, rfl⟩ := verify_eq_ok hverify
    rw [setMint, Program.modify_eq_ok] at hset
    rw [emit_eq_ok.1 hemit, hset]
    exact .minted commitment value.toNat (.inl ht)
  | mintWithAuthorization proof commitment value source =>
    simp only [call, mintWithAuthorization, Program.get_bind_eq_ok, Program.ensure_bind_eq_ok,
      onRollup_bind_eq_ok, callToken_bind_eq_ok, decide_eq_true_eq] at h
    obtain ⟨-, hsigner, _, rollup, hverify, t, ht, _, rollup', hset, hemit⟩ := h
    obtain ⟨-, -, rfl⟩ := verify_eq_ok hverify
    rw [setMint, Program.modify_eq_ok] at hset
    rw [emit_eq_ok.1 hemit, hset]
    exact .minted commitment value.toNat (.inr ⟨hsigner, ht⟩)
  | burn toAddr proof nullifier value source sig =>
    obtain ⟨_, rollup, hreg, rfl⟩ := registered_eq_ok h
    exact .registered (registers_burn hreg)
  | burnToAddress kind dest proof nullifier value source sig =>
    obtain ⟨_, rollup, hreg, rfl⟩ := registered_eq_ok h
    exact .registered (registers_burnToAddress hreg)
  | burnToRouter kind msgHash proof nullifier value source sig router routerCalldata
      returnAddress =>
    obtain ⟨_, rollup, hreg, rfl⟩ := registered_eq_ok h
    exact .registered (registers_burnToRouter hreg)
  | substituteBurn nullifier amount =>
    obtain ⟨hsub, hrolled, t, w₁, ht, hexec, rfl⟩ := substituteBurn_eq_ok h
    exact .substituted hsub hrolled ht hexec
  | verifyTxn mb value =>
    rcases verifyTxn_eq_ok h with ⟨-, rfl⟩ | ⟨-, rfl⟩ | ⟨hvalue, success, w₁, hexec, rfl⟩
    · exact .nothing
    · exact .rolledUpMint rfl
    · exact .rolledUpBurn rfl hvalue hexec

end Effects

end Bank

end TempoRollup.Contract
