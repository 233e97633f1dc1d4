import Mathlib.Algebra.BigOperators.Group.Finset.Basic
import Mathlib.Algebra.Order.BigOperators.Group.Finset
import Mathlib.Data.FinEnum
import TempoRollup.Contract.Token

set_option relaxedAutoImplicit false
set_option autoImplicit false

/-!
# Solvency

The tokens that the contract has, against what was minted and what was burned. The argument is an
account of every call: what the contract has and has not promised to a router never falls behind
the mints less the burns, also while a router calls back.

## Main definitions

* `Bank.minted`, `Bank.processed` — what was minted, and the values of the burns of verified
  blocks.
* `Bank.free` — the balance of the contract less all that it allows others to take.
* `Bank.surplus` — what is free, less the mints, plus the burns.

## Main results

* `Bank.Reaches.accounts` — no run lowers the surplus or raises an allowance.
* `Bank.solvent` — the balance covers the mints less the burns.
-/

open Exec

namespace TempoRollup.Contract.Bank

variable {T : Type}

/-! ## The books -/

/-- The amount of a mint. -/
def mintedBy : Event → ℕ
  | .mintAdded _ amount => amount
  | _ => 0

/-- The value of a burn that `verifyTxn` processes. -/
def processedBy : Event → ℕ
  | .burned _ amount false _ => amount
  | _ => 0

/-- The sum of all minted amounts. -/
def minted (w : World T) : ℕ := (w.events.map mintedBy).sum

/-- The sum of the values of all burns that `verifyTxn` processed. -/
def processed (w : World T) : ℕ := (w.events.map processedBy).sum

/-- Logging adds what the new events mint. -/
lemma minted_log (w : World T) (events : List Event) :
    minted (log w events) = minted w + (events.map mintedBy).sum := by
  simp [minted, log]

/-- Logging adds what the new events process. -/
lemma processed_log (w : World T) (events : List Event) :
    processed (log w events) = processed w + (events.map processedBy).sum := by
  simp [processed, log]

/-- Two sums over all addresses whose terms differ at one address only. -/
lemma sum_add_of_eq_off {f g : Address → ℕ} (x : Address) (h : ∀ y, y ≠ x → f y = g y) :
    ∑ y, f y + g x = ∑ y, g y + f x := by
  have hoff : ∑ y ∈ Finset.univ.erase x, f y = ∑ y ∈ Finset.univ.erase x, g y :=
    Finset.sum_congr rfl fun y hy => h y (Finset.ne_of_mem_erase hy)
  rw [← Finset.add_sum_erase _ f (Finset.mem_univ x),
    ← Finset.add_sum_erase _ g (Finset.mem_univ x),
    hoff]
  omega

section Token

variable (token : ERC20 T) (contract : Address)

/-- What the contract allows others to take. -/
def outstanding (t : T) : ℕ := ∑ spender, token.allowance t contract spender

/-- The balance of the contract less what it allows others to take. -/
def free (t : T) : ℤ := token.balanceOf t contract - outstanding token contract t

/-- What is free, less the mints, plus the burns. -/
def surplus (w : World T) : ℤ := free token contract w.token + processed w - minted w

/-- No allowance of the contract is unlimited. -/
def Limited (t : T) : Prop := ∀ spender, token.allowance t contract spender < UINT256_MAX

variable {token} {contract} (hstd : token.Standard) {t t' : T}

include hstd

/-- An approval changes what is free by the difference of the allowances. -/
lemma free_approve {spender : Address} {amount : ℕ}
    (h : token.approve contract spender amount t = some t') :
    free token contract t' + amount =
      free token contract t + token.allowance t contract spender := by
  obtain ⟨hbalance, hspender, hother⟩ := hstd.approve h
  have hsum := sum_add_of_eq_off (f := token.allowance t' contract)
    (g := token.allowance t contract) spender
    fun s hs => hother contract s fun heq => hs (Prod.ext_iff.1 heq).2
  simp only [free, outstanding, hbalance]
  rw [hspender] at hsum
  omega

/-- A transfer takes at most its amount. -/
lemma free_transfer {toAddr : Address} {amount : ℕ}
    (h : token.transfer contract toAddr amount t = some t') :
    free token contract t ≤ free token contract t' + amount := by
  obtain ⟨⟨hle, hmoves⟩, hallowance⟩ := hstd.transfer h
  have hself := hmoves contract
  rw [if_pos rfl] at hself
  simp only [free, outstanding, hallowance]
  omega

/-- What is paid in by `transferFrom` is free afterwards, also when the contract pays itself with
what it allowed itself to take. -/
lemma free_deposit (hlimited : Limited token contract t) {source : Address} {amount : ℕ}
    (h : token.transferFrom contract source contract amount t = some t') :
    free token contract t' = free token contract t + amount := by
  obtain ⟨⟨hle, hmoves⟩, hallowed, hspent, hother⟩ := hstd.transferFrom h
  have hself := hmoves contract
  rw [if_pos (rfl : contract = contract)] at hself
  by_cases hsource : contract = source
  · rw [← hsource] at hself hallowed hspent hother hle
    have hspent := hspent.resolve_right fun hmax => (hlimited contract).ne hmax.1
    have hsum := sum_add_of_eq_off (f := token.allowance t' contract)
      (g := token.allowance t contract) contract
      fun s hs => hother contract s fun heq => hs (Prod.ext_iff.1 heq).2
    rw [if_pos rfl] at hself
    simp only [free, outstanding]
    omega
  · have hsame : token.allowance t' contract = token.allowance t contract := by
      funext s
      exact hother contract s fun heq => hsource (Prod.ext_iff.1 heq).1
    rw [if_neg hsource] at hself
    simp only [free, outstanding, hsame]
    omega

/-- What is paid in with an authorization of another is free afterwards. -/
lemma free_receive {source : Address} (hsource : source ≠ contract) {amount : ℕ}
    {authorization : Bytes}
    (h : token.receiveWithAuthorization contract source contract amount authorization t = some t') :
    free token contract t' = free token contract t + amount := by
  obtain ⟨⟨-, hmoves⟩, hallowance⟩ := hstd.receiveWithAuthorization h
  have hself := hmoves contract
  rw [if_neg hsource.symm, if_pos rfl] at hself
  simp only [free, outstanding, hallowance]
  omega

/-- What others do to the token takes nothing that is free. -/
lemma free_tokenStep (hlimited : Limited token contract t) (h : TokenStep token contract t t') :
    free token contract t ≤ free token contract t' := by
  cases h with
  | spend spender toAddr amount hne h =>
    obtain ⟨⟨hle, hmoves⟩, hallowed, hspent, hother⟩ := hstd.transferFrom h
    have hspent := hspent.resolve_right fun hmax => (hlimited spender).ne hmax.1
    have hsum := sum_add_of_eq_off (f := token.allowance t' contract)
      (g := token.allowance t contract) spender
      fun s hs => hother contract s fun heq => hs (Prod.ext_iff.1 heq).2
    have hself := hmoves contract
    rw [if_pos rfl] at hself
    simp only [free, outstanding]
    omega
  | elsewhere hbalance hallowance =>
    simp only [free, outstanding, hallowance]
    omega

/-- What others do to the token raises no allowance of the contract. -/
lemma allowance_tokenStep (hlimited : Limited token contract t) (h : TokenStep token contract t t')
    (spender : Address) :
    token.allowance t' contract spender ≤ token.allowance t contract spender := by
  cases h with
  | spend spender' toAddr amount hne h =>
    obtain ⟨-, hallowed, hspent, hother⟩ := hstd.transferFrom h
    by_cases heq : spender = spender'
    · have hspent := hspent.resolve_right fun hmax => (hlimited spender').ne hmax.1
      rw [heq, hspent]
      exact Nat.sub_le _ _
    · rw [hother contract spender fun hpair => heq (Prod.ext_iff.1 hpair).2]
  | elsewhere hbalance hallowance => rw [hallowance]

/-- A deposit raises no allowance of the contract. -/
lemma allowance_deposit (hlimited : Limited token contract t) {source : Address} {amount : ℕ}
    (h : token.transferFrom contract source contract amount t = some t') (spender : Address) :
    token.allowance t' contract spender ≤ token.allowance t contract spender := by
  obtain ⟨-, hallowed, hspent, hother⟩ := hstd.transferFrom h
  by_cases hpair : (contract, spender) = (source, contract)
  · obtain ⟨hsource, hself⟩ := Prod.ext_iff.1 hpair
    simp only at hsource hself
    rw [← hsource] at hspent
    have hspent := hspent.resolve_right fun hmax => (hlimited contract).ne hmax.1
    rw [hself, hspent]
    exact Nat.sub_le _ _
  · rw [hother contract spender hpair]

end Token

/-! ## Every call keeps the books -/

section Books

variable {token : ERC20 T} {contract : Address} {verifiers : Verifiers} {env : Env T}
  {a b w w' : World T}

/-- No allowance of the contract is unlimited, now or when a registered burn is executed. -/
structure Bounded (token : ERC20 T) (contract : Address) (w : World T) : Prop where
  limited : Limited token contract w.token
  routers : ∀ k, (w.rollup.burnsToRouter k).amount < UINT256_MAX

/-- The surplus falls by at most `cost`, no allowance is raised, and what is registered stays
bounded. -/
structure Accounts (token : ERC20 T) (contract : Address) (cost : ℤ) (a b : World T) : Prop where
  surplus : surplus token contract a ≤ surplus token contract b + cost
  allowance : ∀ spender,
    token.allowance b.token contract spender ≤ token.allowance a.token contract spender
  routers : ∀ k, (b.rollup.burnsToRouter k).amount < UINT256_MAX

/-- A call within its accounts keeps the token bounded. -/
lemma Accounts.bounded {cost : ℤ} (h : Accounts token contract cost a b)
    (ha : Bounded token contract a) : Bounded token contract b :=
  ⟨fun spender => (h.allowance spender).trans_lt (ha.limited spender), h.routers⟩

/-- Doing nothing costs nothing. -/
lemma Bounded.refl (h : Bounded token contract a) : Accounts token contract 0 a a :=
  ⟨by rw [add_zero], fun _ => le_rfl, h.routers⟩

/-- The costs of two calls add up. -/
lemma Accounts.trans {c : World T} {cost cost' : ℤ} (h : Accounts token contract cost a b)
    (h' : Accounts token contract cost' b c) : Accounts token contract (cost + cost') a c :=
  ⟨by linarith [h.surplus, h'.surplus],
    fun spender => (h'.allowance spender).trans (h.allowance spender), h'.routers⟩

/-- A call may be charged more than it costs. -/
lemma Accounts.weaken {cost cost' : ℤ} (h : Accounts token contract cost a b)
    (hle : cost ≤ cost') : Accounts token contract cost' a b :=
  ⟨h.surplus.trans (by linarith), h.allowance, h.routers⟩

/-- The token is changed. -/
lemma Bounded.withToken (h : Bounded token contract w) {t : T} {c : ℤ}
    (hfree : free token contract w.token ≤ free token contract t + c)
    (hallowance : ∀ spender,
      token.allowance t contract spender ≤ token.allowance w.token contract spender) :
    Accounts token contract c w { w with token := t } :=
  ⟨by simp only [Bank.surplus, minted, processed]; linarith, hallowance, h.routers⟩

/-- The storage is changed. -/
lemma Accounts.withRollup {cost : ℤ} (h : Accounts token contract cost a b) (rollup : Rollup)
    (hrouters : ∀ k, (rollup.burnsToRouter k).amount < UINT256_MAX) :
    Accounts token contract cost a { b with rollup := rollup } :=
  ⟨h.surplus, h.allowance, hrouters⟩

/-- Mints that are written to the log cost their amounts, and burns give theirs. -/
lemma Accounts.log {cost : ℤ} (h : Accounts token contract cost a b) (events : List Event) :
    Accounts token contract
      (cost + (events.map mintedBy).sum - (events.map processedBy).sum) a (log b events) := by
  refine ⟨?_, h.allowance, h.routers⟩
  have hsurplus := h.surplus
  have htoken : (Bank.log b events).token = b.token := rfl
  simp only [Bank.surplus, minted_log, processed_log, htoken] at hsurplus ⊢
  push_cast
  linarith

/-- An allowance for the time of a call: what is left of it is taken back. -/
lemma allowance_reset (hstd : token.Standard) {t t₁ t₂ t' : T} {spender : Address} {amount : ℕ}
    (ht : token.approve contract spender amount t = some t₁)
    (hcall : ∀ s, token.allowance t₂ contract s ≤ token.allowance t₁ contract s)
    (ht' : token.approve contract spender 0 t₂ = some t') (s : Address) :
    token.allowance t' contract s ≤ token.allowance t contract s := by
  obtain ⟨-, hzero, hother'⟩ := hstd.approve ht'
  by_cases hs : s = spender
  · rw [hs, hzero]
    exact Nat.zero_le _
  · have hpair : (contract, s) ≠ (contract, spender) := fun heq => hs (Prod.ext_iff.1 heq).2
    calc token.allowance t' contract s = token.allowance t₂ contract s := hother' contract s hpair
      _ ≤ token.allowance t₁ contract s := hcall s
      _ = token.allowance t contract s := (hstd.approve ht).2.2 contract s hpair

/-- **The execution of a burn** costs at most its value. A router that is called keeps the books by
assumption; it takes what it takes out of its allowance.

**Proof sketch.** By cases on the execution: an address is paid at most the value. A router may take
no more than its allowance, which is the value and is taken back afterwards, and keeps the books by
assumption. -/
lemma Executes.accounts (hstd : token.Standard) (hw : Bounded token contract w)
    (hrouter : ∀ router calldata w, Bounded token contract w →
      Accounts token contract 0 w (env.router router calldata w).2)
    {mb : Element} {value : ℕ} {r : Bool × Bool}
    (h : Executes token contract env w mb value r w') : Accounts token contract value w w' := by
  have hsame : Accounts token contract value w w := hw.refl.weaken (by positivity)
  cases h with
  | missing => exact hsame
  | unknown => exact hsame
  | refused => exact hsame
  | address hkind hne hamount ht =>
    have hpaid := hw.withToken (free_transfer hstd ht) fun s => by rw [(hstd.transfer ht).2]
    simpa [mintedBy, processedBy] using hpaid.log [.paid mb value (w.rollup.burns mb).toAddr]
  | @router t t' hkind hamount ht ht' =>
    have happrove := free_approve hstd ht
    have hreset := free_approve hstd ht'
    have hlimited : Bounded token contract { w with token := t } := by
      refine ⟨fun s => ?_, hw.routers⟩
      obtain ⟨-, hspender, hother⟩ := hstd.approve ht
      by_cases hs : s = (w.rollup.burnsToRouter mb).router
      · simp only [hs, hspender, ← hamount]
        exact hw.routers mb
      · simp only [hother contract s fun heq => hs (Prod.ext_iff.1 heq).2]
        exact hw.limited s
    have hcall := hrouter (w.rollup.burnsToRouter mb).router
      (w.rollup.burnsToRouter mb).routerCalldata _ hlimited
    -- the allowance is granted, used by the router, and taken back
    have hpaid : Accounts token contract value w
        { (env.router (w.rollup.burnsToRouter mb).router
          (w.rollup.burnsToRouter mb).routerCalldata { w with token := t }).2 with
          token := t' } := by
      refine ⟨?_, fun s => allowance_reset hstd ht hcall.allowance ht' s, hcall.routers⟩
      have hsurplus := hcall.surplus
      simp only [Bank.surplus, minted, processed] at hsurplus ⊢
      push_cast at hreset
      linarith
    simpa [mintedBy, processedBy] using
      hpaid.log [.paid mb value (w.rollup.burnsToRouter mb).router]
  | blacklisted hkind hamount ht ht' =>
    have happrove := free_approve hstd ht
    have hreset := free_approve hstd ht'
    have hspender := (hstd.approve ht).2.1
    refine hw.withToken ?_ (allowance_reset hstd ht (fun _ => le_rfl) ht')
    omega
  | @returned t t' t'' hkind hamount ht ht' ht'' =>
    have happrove := free_approve hstd ht
    have hreset := free_approve hstd ht'
    have hpay := free_transfer hstd ht''
    have hspender := (hstd.approve ht).2.1
    have hpaid := hw.withToken (t := t'') (c := value) (by omega) fun s => by
      rw [(hstd.transfer ht'').2]
      exact allowance_reset hstd ht (fun _ => le_rfl) ht' s
    simpa [mintedBy, processedBy] using
      hpaid.log [.paid mb value (w.rollup.burnsToRouter mb).returnAddress]

/-- A registration keeps the amounts bounded. -/
lemma Registers.routers {rollup rollup' : Rollup} {nullifier : Element} {amount : ℕ} {dest : Dest}
    (h : Registers rollup nullifier amount dest rollup')
    (hbound : ∀ k, (rollup.burnsToRouter k).amount < UINT256_MAX) (k : Element) :
    (rollup'.burnsToRouter k).amount < UINT256_MAX := by
  cases h with
  | address => exact hbound k
  | router router routerCalldata amount returnAddress hfits =>
    simp only [set_apply]
    split_ifs
    · exact hfits
    · exact hbound k

/-- **One call** keeps the books: what is paid in covers what a mint registers and what a
substituted burn pays out, and a burn of a block is worth what it pays out. -/
lemma Effect.accounts (hstd : token.Standard) (hw : Bounded token contract w)
    (hsigner : env.signer ≠ contract)
    (hrouter : ∀ router calldata w, Bounded token contract w →
      Accounts token contract 0 w (env.router router calldata w).2)
    {entry : Entry} (h : Effect token contract env w entry w') :
    Accounts token contract 0 w w' := by
  cases h with
  | @minted commitment amount t ht =>
    have hin : Accounts token contract (-amount) w { w with token := t } := by
      rcases ht with ht | ⟨hsource, ht⟩
      · refine hw.withToken ?_ (allowance_deposit hstd hw.limited ht)
        rw [free_deposit hstd hw.limited ht]
        linarith
      · refine hw.withToken ?_ fun s => by rw [(hstd.receiveWithAuthorization ht).2]
        rw [free_receive hstd (hsource ▸ hsigner) ht]
        linarith
    have hlog := (hin.withRollup { w.rollup with mints := set w.rollup.mints commitment amount }
      hw.routers).log [.mintAdded commitment amount]
    simpa [mintedBy, processedBy] using hlog
  | @registered nullifier amount dest rollup hreg =>
    have hlog := (hw.refl.withRollup rollup (hreg.routers hw.routers)).log
      [.burnAdded nullifier amount dest]
    simpa [mintedBy, processedBy] using hlog
  | @substituted nullifier amount t w₁ hsub hrolled ht hexec =>
    have hin : Accounts token contract (-amount) w { w with token := t } := by
      refine hw.withToken ?_ (allowance_deposit hstd hw.limited ht)
      rw [free_deposit hstd hw.limited ht]
      linarith
    have hmark := hin.withRollup (w.rollup.markSubstituted nullifier) hw.routers
    have hout := hmark.trans (hexec.accounts hstd (hmark.bounded hw) hrouter)
    have hlog := (hout.withRollup (payBack nullifier env.msgSender amount w₁.rollup)
      hout.routers).log
      [.burned nullifier amount true true, .substituted nullifier amount env.msgSender]
    simpa [mintedBy, processedBy] using hlog
  | nothing => exact hw.refl
  | @rolledUpMint mb value hentry =>
    have hlog := (hw.refl.withRollup (w.rollup.markRolledUp mb) hw.routers).log
      [.minted mb value.toNat]
    simpa [mintedBy, processedBy] using hlog
  | @rolledUpBurn mb value success w₁ hentry hvalue hexec =>
    have hmark := hw.refl.withRollup (w.rollup.markRolledUp mb) hw.routers
    have hout := hmark.trans (hexec.accounts hstd (hmark.bounded hw) hrouter)
    have hlog := hout.log [.burned mb value.toNat false success]
    simpa [mintedBy, processedBy] using hlog

/-- **Runs keep the books.** By induction on the run; what a router does when it is called is a run
inside the call. -/
theorem Reaches.accounts (hstd : token.Standard) {allowed : Bool → Entry → Prop} {inner : Bool}
    (h : Reaches token contract verifiers allowed inner a b) (ha : Bounded token contract a) :
    Accounts token contract 0 a b := by
  induction h with
  | refl inner a => exact ha.refl
  | @call inner a b h env entry hallowed hsigner hrouter ih ihrouter =>
    have hb := ih ha
    rcases Program.atomically_cases (Bank.call token contract verifiers env entry) b with
      hsame | ⟨u, hok⟩
    · rw [hsame]
      exact hb
    · have hcall := (call_eq_ok hok).accounts hstd (hb.bounded ha) hsigner ihrouter
      simpa using hb.trans hcall
  | @token inner a b h t ht ih =>
    have hb := ih ha
    have hlimited := (hb.bounded ha).limited
    have hfree := free_tokenStep hstd hlimited ht
    have hstep := (hb.bounded ha).withToken (c := 0) (by rwa [add_zero])
      (allowance_tokenStep hstd hlimited ht)
    simpa using hb.trans hstep

/-- After a router was called, or could not be called, nothing is left of its allowance. -/
lemma Executes.allowance_router (hstd : token.Standard) {mb : Element} {value : ℕ}
    {r : Bool × Bool} (h : Executes token contract env w mb value r w')
    (hkind : w.rollup.burnsKind mb = 1) :
    token.allowance w'.token contract (w.rollup.burnsToRouter mb).router = 0 := by
  cases h with
  | missing hkind' => exact absurd (hkind.symm.trans hkind') (by decide)
  | unknown _ hkind' => exact absurd hkind hkind'
  | address hkind' => exact absurd (hkind.symm.trans hkind') (by decide)
  | refused hkind' => exact absurd (hkind.symm.trans hkind') (by decide)
  | router _ _ ht ht' => exact (hstd.approve ht').2.1
  | blacklisted _ _ ht ht' => exact (hstd.approve ht').2.1
  | returned _ _ ht ht' ht'' =>
    have hsame := (hstd.transfer ht'').2
    exact (congrFun (congrFun hsame contract) _).trans (hstd.approve ht').2.1

/-- Without allowances the whole balance is free. -/
lemma free_eq_balanceOf {t : T} (h : ∀ spender, token.allowance t contract spender = 0) :
    free token contract t = token.balanceOf t contract := by
  rw [free, outstanding, Finset.sum_eq_zero fun spender _ => h spender, Nat.cast_zero, sub_zero]

/-- **Solvency.** In every run of the contract from its deployment, with any callers and with
routers that call back, the balance of the contract is at least what was minted less the values of
the burns that were processed, and no allowance is left. In every further run the balance falls by
at most the values of the burns processed in it, less what is minted in it; so a processed burn
moves out at most its value, and a substituted one no more than is moved in. After a burn to a
router was executed, at any depth, the router has no allowance.

**Proof sketch.** Every call is within its accounts: it lowers the surplus of the balance over what
was minted less what was processed by nothing, and leaves allowances as they were
(`Reaches.accounts`). The surplus is zero in the beginning. -/
theorem solvent (hstd : token.Standard) {w₀ : World T} (hrollup : w₀.rollup = .initial)
    (hevents : w₀.events = []) (hallowance : ∀ s, token.allowance w₀.token contract s = 0)
    (h : Reaches token contract verifiers (fun _ _ => True) false w₀ w) :
    minted w ≤ token.balanceOf w.token contract + processed w ∧
      (∀ spender, token.allowance w.token contract spender = 0) ∧
      (∀ w', Reaches token contract verifiers (fun _ _ => True) false w w' →
        token.balanceOf w.token contract + minted w' + processed w ≤
          token.balanceOf w'.token contract + processed w' + minted w) ∧
      ∀ env mb value substitute r a b,
        executeBurn token contract env mb value substitute a = (.ok r, b) →
        a.rollup.burnsKind mb = 1 →
        token.allowance b.token contract (a.rollup.burnsToRouter mb).router = 0 := by
  have hbounded : Bounded token contract w₀ := by
    refine ⟨fun s => ?_, fun k => ?_⟩
    · rw [hallowance s]
      decide
    · rw [hrollup]
      exact (by decide : 0 < UINT256_MAX)
  have haccounts := h.accounts hstd hbounded
  have hzero : ∀ s, token.allowance w.token contract s = 0 := fun s =>
    Nat.le_zero.1 ((haccounts.allowance s).trans_eq (hallowance s))
  refine ⟨?_, hzero, fun w' h' => ?_, fun env mb value substitute r a b hexec hkind => ?_⟩
  · have hsurplus := haccounts.surplus
    simp only [surplus, free_eq_balanceOf hallowance, free_eq_balanceOf hzero, minted, processed,
      hevents, List.map_nil, List.sum_nil] at hsurplus ⊢
    omega
  · have haccounts' := h'.accounts hstd (haccounts.bounded hbounded)
    have hzero' : ∀ s, token.allowance w'.token contract s = 0 := fun s =>
      Nat.le_zero.1 ((haccounts'.allowance s).trans_eq (hzero s))
    have hsurplus := haccounts'.surplus
    simp only [surplus, free_eq_balanceOf hzero, free_eq_balanceOf hzero'] at hsurplus
    omega
  · obtain ⟨w₁, hw₁, rfl⟩ := executeBurn_eq_ok hexec
    exact hw₁.allowance_router hstd hkind

end Books

/-! ## A token -/

namespace Sample

/-- The accounts of a token. -/
structure Ledger where
  balances : Address → ℕ
  allowances : Address → Address → ℕ

/-- An amount moves from one account to another. -/
def move (source toAddr : Address) (amount : ℕ) (ledger : Ledger) : Ledger :=
  { ledger with
    balances := fun a =>
      (if a = source then ledger.balances a - amount else ledger.balances a) +
        if a = toAddr then amount else 0 }

/-- An allowance is set. -/
def allow (owner spender : Address) (amount : ℕ) (ledger : Ledger) : Ledger :=
  { ledger with
    allowances := fun o s =>
      if (o, s) = (owner, spender) then amount else ledger.allowances o s }

/-- A token whose allowances are always used up. -/
def token : ERC20 Ledger where
  balanceOf ledger := ledger.balances
  allowance ledger := ledger.allowances
  isBlacklisted _ _ := false
  transfer sender toAddr amount ledger :=
    if amount ≤ ledger.balances sender then some (move sender toAddr amount ledger) else none
  approve sender spender amount ledger := some (allow sender spender amount ledger)
  transferFrom sender source toAddr amount ledger :=
    if amount ≤ ledger.balances source ∧ amount ≤ ledger.allowances source sender then
      some (allow source sender (ledger.allowances source sender - amount)
        (move source toAddr amount ledger))
    else none
  receiveWithAuthorization sender source toAddr amount _ ledger :=
    if amount ≤ ledger.balances source ∧ sender = toAddr then
      some (move source toAddr amount ledger)
    else none

/-- The token of the sample is a standard one. -/
lemma standard : token.Standard where
  transfer {sender toAddr amount t t'} h := by
    obtain ⟨hle, rfl⟩ : amount ≤ t.balances sender ∧ move sender toAddr amount t = t' := by
      simpa [token] using h
    exact ⟨⟨hle, fun a => rfl⟩, rfl⟩
  approve {sender spender amount t t'} h := by
    obtain rfl : allow sender spender amount t = t' := by simpa [token] using h
    exact ⟨rfl, if_pos rfl, fun o s hne => if_neg hne⟩
  transferFrom {sender source toAddr amount t t'} h := by
    obtain ⟨⟨hle, hallowed⟩, rfl⟩ :
        (amount ≤ t.balances source ∧ amount ≤ t.allowances source sender) ∧
          allow source sender (t.allowances source sender - amount)
            (move source toAddr amount t) = t' := by
      simpa [token] using h
    exact ⟨⟨hle, fun a => rfl⟩, hallowed, .inl (if_pos rfl), fun o s hne => if_neg hne⟩
  receiveWithAuthorization {sender source toAddr amount authorization t t'} h := by
    obtain ⟨⟨hle, -⟩, rfl⟩ : (amount ≤ t.balances source ∧ sender = toAddr) ∧
        move source toAddr amount t = t' := by
      simpa [token] using h
    exact ⟨⟨hle, fun a => rfl⟩, rfl⟩

/-- Verifiers that accept everything. -/
def verifiers : Verifiers := ⟨fun _ _ => true, fun _ _ => true, fun _ _ => true⟩

/-- Account 2 has ten tokens, which the contract at 1 may take. -/
def start : World Ledger where
  rollup := .initial
  token := ⟨fun a => if a = 2 then 10 else 0, fun o s => if (o, s) = (2, 1) then 10 else 0⟩
  events := []

/-- A caller; no router is whitelisted. -/
def env (msgSender : Address) : Env Ledger where
  msgSender := msgSender
  isRouterWhitelisted _ := false
  keccak _ _ _ := 0
  source := 0
  authorization := []
  signer := 0
  router _ _ w := (false, w)

/-- Account 2 mints five tokens, registers a burn of three for account 4, and the burn is rolled
up. -/
def entries : List (Address × Entry) :=
  [(2, .mint [] 7 5 0), (2, .burn 4 [] 8 3 0 0), (3, .verifyTxn 8 3)]

/-- The world after the calls. -/
def final : World Ledger :=
  entries.foldl
    (fun w e => (Program.atomically (call token 1 verifiers (env e.1) e.2) w).2) start

/-- The contract of the sample reaches its last state. -/
lemma reaches_final : Reaches token 1 verifiers (fun _ _ => True) false start final := by
  have hrouter : ∀ msgSender router calldata w, Reaches token 1 verifiers (fun _ _ => True) true w
      ((env msgSender).router router calldata w).2 := fun _ _ _ w => .refl true w
  have hsigner : ∀ msgSender, (env msgSender).signer ≠ 1 := fun _ =>
    (by decide : (0 : Address) ≠ 1)
  exact (((Reaches.refl false start).call (env 2) (.mint [] 7 5 0) trivial (hsigner 2)
    (hrouter 2)).call (env 2) (.burn 4 [] 8 3 0 0) trivial (hsigner 2) (hrouter 2)).call (env 3)
    (.verifyTxn 8 3) trivial (hsigner 3) (hrouter 3)

end Sample

open Sample in
/-- A mint and a burn. -/
theorem solvent_mint_burn :
    minted final = 5 ∧ processed final = 3 ∧ token.balanceOf final.token 1 = 2 ∧
      minted final ≤ token.balanceOf final.token 1 + processed final := by
  have hstart : ∀ s, token.allowance start.token 1 s = 0 := by
    intro s
    simp [token, start]
  exact ⟨by decide, by decide, by decide, (solvent standard rfl rfl hstart reaches_final).1⟩

end TempoRollup.Contract.Bank
