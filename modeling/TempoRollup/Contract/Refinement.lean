import TempoRollup.Contract.Solvency

set_option relaxedAutoImplicit false
set_option autoImplicit false

/-!
# The token under the storage

The entry points of `src/rollup/RollupV6.sol` are modelled twice: on the storage only, with the
answers of other contracts given in advance, and on the world with the token, where they are
computed. Here the second model is shown to refine the first: whatever the token and the routers
do, there are answers with which the storage goes the same way.

## Main definitions

* `Bank.answers` — the answers that the execution of a burn gets.

## Main results

* `Bank.call_simulates` — one call.
* `Bank.Reaches.simulates` — any calls, also those that routers make while they are called.
* `Bank.Reaches.induct` — the rule of invariants for runs with the token.
-/

open Exec

namespace TempoRollup.Contract.Bank

variable {T : Type} {token : ERC20 T} {contract : Address} {verifiers : Verifiers} {env : Env T}
  {w w' : World T}

/-! ## Answers -/

/-- The answers that the execution of a burn gets: whether an address is paid, whether the router is
called with success and what it leaves then, and whether the return address is blacklisted. -/
def answers (env : Env T) (paid called blacklisted : Bool) (after : Rollup) : External where
  msgSender := env.msgSender
  transferFromReturns := true
  transferReturns := paid
  approveReturns := true
  resetReturns := true
  isUSDCBlacklisted _ := blacklisted
  isRouterWhitelisted _ := called
  signerIsFrom := env.signer = env.source
  keccak := env.keccak
  routerReturns := called
  afterRouterCall := after

/-- What the storage may be when the call of a router ends: what it was, or what a router left. -/
def LeftBy (env : Env T) (before after : Rollup) : Prop :=
  after = before ∨ ∃ router calldata, ∃ w : World T, w.rollup = before ∧
    after = (env.router router calldata w).2.rollup

/-- A burn to a router on the storage: the router is called with success, or the return address is
paid unless it is blacklisted. -/
lemma executeBurnToRouter_answers {rollup after : Rollup} {mb : Element} {value : ℕ}
    (hamount : (rollup.burnsToRouter mb).amount = value) (paid called blacklisted : Bool)
    (hpaid : called = false → paid = !blacklisted) :
    Contract.executeBurnToRouter (answers env paid called blacklisted after) mb value rollup =
      (.ok (called || paid), if called then after else rollup) := by
  rw [Contract.executeBurnToRouter, Program.get_bind_eq_ok, Program.ensure_bind_eq_ok,
    Program.ensure_bind_eq_ok]
  refine ⟨decide_eq_true hamount, rfl, Program.bind_eq_ok.2
    ⟨called, if called then after else rollup, ?_, Program.ensure_bind_eq_ok.2 ⟨rfl, ?_⟩⟩⟩
  · cases called <;> rfl
  · cases called with
    | true => rfl
    | false =>
      obtain rfl := hpaid rfl
      cases blacklisted <;> rfl

/-- **The execution of a burn** on the storage, with the answers that it got.

**Proof sketch.** By cases on the execution: each case says what the token and the router answered,
and with these answers the storage does the same. -/
lemma Executes.simulates {mb : Element} {value : ℕ} {r : Bool × Bool}
    (h : Executes token contract env w mb value r w') :
    ∃ paid called blacklisted after, LeftBy env w.rollup after ∧
      Contract.executeBurn (answers env paid called blacklisted after) mb value w.rollup =
        (.ok r, w'.rollup) := by
  have hrouter : ∀ {after : Rollup} (paid called blacklisted : Bool),
      w.rollup.burnsKind mb = 1 → (w.rollup.burnsToRouter mb).amount = value →
      (called = false → paid = !blacklisted) →
      Contract.executeBurn (answers env paid called blacklisted after) mb value w.rollup =
        (.ok (true, called || paid), if called then after else w.rollup) := by
    intro after paid called blacklisted hkind hamount hpaid
    have hzero : w.rollup.burnsKind mb ≠ 0 := by
      rw [hkind]
      decide
    rw [Contract.executeBurn, Program.get_bind_eq_ok, if_neg hzero, if_pos hkind]
    exact Program.bind_eq_ok.2 ⟨_, _,
      executeBurnToRouter_answers hamount paid called blacklisted hpaid, rfl⟩
  have haddress : ∀ paid : Bool, w.rollup.burnsKind mb = 0 → (w.rollup.burns mb).amount ≠ 0 →
      (w.rollup.burns mb).amount = value →
      Contract.executeBurn (answers env paid false false w.rollup) mb value w.rollup =
        (.ok (true, paid), w.rollup) := by
    intro paid hkind hne hamount
    rw [Contract.executeBurn, Program.get_bind_eq_ok, if_pos hkind, if_neg hne]
    refine Program.bind_eq_ok.2 ⟨paid, w.rollup, ?_, rfl⟩
    rw [Contract.executeBurnToAddress, Program.get_bind_eq_ok, if_neg hne,
      Program.ensure_bind_eq_ok]
    exact ⟨decide_eq_true hamount, rfl⟩
  cases h with
  | missing hkind hamount =>
    refine ⟨false, false, false, w.rollup, .inl rfl, ?_⟩
    rw [Contract.executeBurn, Program.get_bind_eq_ok, if_pos hkind, if_pos hamount]
    rfl
  | unknown hkind hkind' =>
    refine ⟨false, false, false, w.rollup, .inl rfl, ?_⟩
    rw [Contract.executeBurn, Program.get_bind_eq_ok, if_neg hkind, if_neg hkind']
    rfl
  | address hkind hne hamount ht =>
    exact ⟨true, false, false, w.rollup, .inl rfl, haddress true hkind hne hamount⟩
  | refused hkind hne hamount =>
    exact ⟨false, false, false, w.rollup, .inl rfl, haddress false hkind hne hamount⟩
  | @router t t' hkind hamount ht ht' =>
    exact ⟨true, true, false, _, .inr ⟨(w.rollup.burnsToRouter mb).router,
      (w.rollup.burnsToRouter mb).routerCalldata, { w with token := t }, rfl, rfl⟩,
      hrouter true true false hkind hamount fun h => by cases h⟩
  | blacklisted hkind hamount ht ht' =>
    exact ⟨false, false, true, w.rollup, .inl rfl,
      hrouter false false true hkind hamount fun _ => rfl⟩
  | returned hkind hamount ht ht' ht'' =>
    exact ⟨true, false, false, w.rollup, .inl rfl,
      hrouter true false false hkind hamount fun _ => rfl⟩

/-! ## One call -/

/-- `verifyTxn` on the storage. -/
lemma verifyTxn_simulates {mb value : Element} {u : Unit}
    (h : verifyTxn token contract env mb value w = (.ok u, w')) :
    ∃ ext, LeftBy env (w.rollup.markRolledUp mb) ext.afterRouterCall ∧
      Contract.verifyTxn ext mb value w.rollup = (.ok (), w'.rollup) := by
  unfold verifyTxn at h
  split_ifs at h with hvalue
  · obtain ⟨-, rfl⟩ := Program.pure_eq_ok.1 h
    refine ⟨answers env false false false _, .inl rfl, ?_⟩
    rw [Contract.verifyTxn, if_pos hvalue]
    rfl
  · rw [onRollup_modify_bind_eq_ok, Program.get_bind_eq_ok] at h
    split_ifs at h with hmint
    · rw [Program.ensure_bind_eq_ok, emit_eq_ok] at h
      obtain ⟨hamount, rfl⟩ := h
      refine ⟨answers env false false false _, .inl rfl, ?_⟩
      rw [Contract.verifyTxn, if_neg hvalue, Program.modify_bind_eq_ok, Program.get_bind_eq_ok,
        if_pos hmint]
      exact Program.ensure_eq_ok.2 ⟨hamount, rfl⟩
    · obtain ⟨⟨found, success⟩, w₁, hexec, hrest⟩ := Program.bind_eq_ok.1 h
      rw [Program.ensure_eq_ok] at hrest
      obtain ⟨hfound, rfl⟩ := hrest
      obtain ⟨w₂, hw₂, rfl⟩ := executeBurn_eq_ok hexec
      obtain ⟨paid, called, blacklisted, after, hafter, hrun⟩ := hw₂.simulates
      obtain rfl : found = true := hfound
      refine ⟨answers env paid called blacklisted after, hafter, ?_⟩
      rw [Contract.verifyTxn, if_neg hvalue, Program.modify_bind_eq_ok, Program.get_bind_eq_ok,
        if_neg hmint]
      exact Program.bind_eq_ok.2 ⟨_, _, hrun, rfl⟩

/-- `substituteBurn` on the storage. -/
lemma substituteBurn_simulates {nullifier : Element} {amount : ℕ} {u : Unit}
    (h : substituteBurn token contract env nullifier amount w = (.ok u, w')) :
    ∃ ext, LeftBy env (w.rollup.markSubstituted nullifier) ext.afterRouterCall ∧
      Contract.substituteBurn ext nullifier amount w.rollup = (.ok (), w'.rollup) := by
  obtain ⟨hsub, hrolled, t, w₁, ht, hexec, rfl⟩ := substituteBurn_eq_ok h
  obtain ⟨paid, called, blacklisted, after, hafter, hrun⟩ := hexec.simulates
  refine ⟨answers env paid called blacklisted after, hafter, ?_⟩
  rw [Contract.substituteBurn, Program.get_bind_eq_ok, Program.ensure_bind_eq_ok,
    Program.ensure_bind_eq_ok, Program.ensure_bind_eq_ok, Program.modify_bind_eq_ok, hsub, hrolled]
  exact ⟨rfl, rfl, rfl, Program.bind_eq_ok.2 ⟨_, _, hrun, rfl⟩⟩

/-- **One call** on the storage, with the answers that it got.

**Proof sketch.** By cases on the entry: a mint or a burn checks and writes the same on both sides,
and a substitution and a settlement are simulated by lemmas of their own. -/
theorem call_simulates {entry : Entry} {u : Unit}
    (h : call token contract verifiers env entry w = (.ok u, w')) :
    ∃ ext, LeftBy env (entry.atRouterCall w.rollup) ext.afterRouterCall ∧
      entry.call verifiers ext w.rollup = (.ok (), w'.rollup) := by
  cases entry with
  | mint proof commitment value source =>
    simp only [call, mint, Program.get_bind_eq_ok, Program.ensure_bind_eq_ok,
      onRollup_bind_eq_ok, callToken_bind_eq_ok] at h
    obtain ⟨hzero, _, rollup, hverify, t, -, _, rollup', hset, hemit⟩ := h
    refine ⟨external token env w, .inl rfl, ?_⟩
    rw [emit_eq_ok.1 hemit]
    exact Program.get_bind_eq_ok.2 (Program.ensure_bind_eq_ok.2 ⟨hzero, Program.bind_eq_ok.2
      ⟨_, _, hverify, Program.ensure_bind_eq_ok.2 ⟨rfl, hset⟩⟩⟩)
  | mintWithAuthorization proof commitment value source =>
    simp only [call, mintWithAuthorization, Program.get_bind_eq_ok, Program.ensure_bind_eq_ok,
      onRollup_bind_eq_ok, callToken_bind_eq_ok] at h
    obtain ⟨hzero, hsigner, _, rollup, hverify, t, -, _, rollup', hset, hemit⟩ := h
    refine ⟨external token env w, .inl rfl, ?_⟩
    rw [emit_eq_ok.1 hemit]
    exact Program.get_bind_eq_ok.2 (Program.ensure_bind_eq_ok.2 ⟨hzero,
      Program.ensure_bind_eq_ok.2 ⟨hsigner, Program.bind_eq_ok.2
        ⟨_, _, hverify, Program.ensure_bind_eq_ok.2 ⟨rfl, hset⟩⟩⟩⟩)
  | burn toAddr proof nullifier value source sig =>
    obtain ⟨_, rollup, hreg, rfl⟩ := registered_eq_ok h
    exact ⟨external token env w, .inl rfl, hreg⟩
  | burnToAddress kind dest proof nullifier value source sig =>
    obtain ⟨_, rollup, hreg, rfl⟩ := registered_eq_ok h
    exact ⟨external token env w, .inl rfl, hreg⟩
  | burnToRouter kind msgHash proof nullifier value source sig router routerCalldata
      returnAddress =>
    obtain ⟨_, rollup, hreg, rfl⟩ := registered_eq_ok h
    exact ⟨external token env w, .inl rfl, hreg⟩
  | substituteBurn nullifier amount => exact substituteBurn_simulates h
  | verifyTxn mb value => exact verifyTxn_simulates h

/-! ## Runs -/

/-- **The rule of invariants** for runs with the token: what every call that returns keeps, if the
routers that it calls keep it, and what others keep that use the token. By induction on the run;
what a router does when it is called is a run inside the call. -/
theorem Reaches.induct {allowed : Bool → Entry → Prop} {P : World T → World T → Prop}
    (hrefl : ∀ a, P a a) (htrans : ∀ {a b c}, P a b → P b c → P a c)
    (hcall : ∀ {env : Env T} {inner entry} {b c : World T} {u : Unit}, allowed inner entry →
      (∀ router calldata w, P w (env.router router calldata w).2) →
      Bank.call token contract verifiers env entry b = (.ok u, c) → P b c)
    (htoken : ∀ (b : World T) t, TokenStep token contract b.token t → P b { b with token := t })
    {inner : Bool} {a b : World T} (h : Reaches token contract verifiers allowed inner a b) :
    P a b := by
  induction h with
  | refl inner a => exact hrefl a
  | @call inner a b h env entry hallowed hsigner hrouter ih ihrouter =>
    rcases Program.atomically_cases (Bank.call token contract verifiers env entry) b with
      hsame | ⟨u, hok⟩
    · rw [hsame]
      exact ih
    · exact htrans ih (hcall hallowed ihrouter hok)
  | @token inner a b h t ht ih => exact htrans ih (htoken b t ht)

/-- A run of fewer entry points is a run. -/
lemma Reaches.mono {allowed allowed' : Bool → Entry → Prop}
    (hle : ∀ inner entry, allowed inner entry → allowed' inner entry) {inner : Bool} {a b : World T}
    (h : Reaches token contract verifiers allowed inner a b) :
    Reaches token contract verifiers allowed' inner a b := by
  induction h with
  | refl inner a => exact .refl inner a
  | call h env entry hallowed hsigner hrouter ih ihrouter =>
    exact ih.call env entry (hle _ _ hallowed) hsigner ihrouter
  | token h t ht ih => exact ih.token t ht

/-- **Runs on the storage.** What calls make of the world with the token they make of the storage,
with the answers that they get. -/
theorem Reaches.simulates {allowed : Bool → Entry → Prop} {inner : Bool} {a b : World T}
    (h : Reaches token contract verifiers allowed inner a b) :
    Contract.Reaches verifiers a.rollup b.rollup := by
  induction h with
  | refl inner a => exact .refl a.rollup
  | @call inner a b h env entry hallowed hsigner hrouter ih ihrouter =>
    rcases Program.atomically_cases (Bank.call token contract verifiers env entry) b with
      hsame | ⟨u, hok⟩
    · rw [hsame]
      exact ih
    · obtain ⟨ext, hleft, hrun⟩ := call_simulates hok
      have hinside :
          Contract.Reaches verifiers (entry.atRouterCall b.rollup) ext.afterRouterCall := by
        rcases hleft with hsame | ⟨router, calldata, w, hw, hleft⟩
        · rw [hsame]
          exact .refl _
        · rw [hleft, ← hw]
          exact ihrouter router calldata w
      have hstep := ih.call ext entry hinside
      rw [Program.atomically, hrun] at hstep
      exact hstep
  | token h t ht ih => exact ih

end TempoRollup.Contract.Bank
