import TempoRollup.Contract.Solvency

set_option relaxedAutoImplicit false
set_option autoImplicit false

/-!
# The life of a burn

A burn is registered, perhaps substituted, and rolled up. This module says in which order, and who
is paid.

## Main definitions

* `Bank.history` — the events of a burn, as far as they move something.
* `Bank.Life` — the histories that a burn can have.
* `Bank.View` — the part of the storage and of the log that concerns one burn.

## Main results

* `Bank.Reaches.frozen` — while a burn is executed, nothing happens to it.
* `Bank.Reaches.good` — the storage of a burn fits its history, in every run.
* `Bank.life_of_burn` — every burn that is rolled up at most once has one of these histories.

## Design

A burn of amount zero does not exist for the contract, and is registered, substituted and paid
without effect; its events are left out of the history. A router that is called may call the
contract, but not roll up a block, which only provers can.
-/

open Exec

namespace TempoRollup.Contract.Bank

variable {T : Type}

/-! ## Histories -/

/-- The event concerns the burn, and an amount that is not zero. -/
def about (n : Element) : Event → Bool
  | .burnAdded k amount _ => k = n ∧ amount ≠ 0
  | .paid k amount _ => k = n ∧ amount ≠ 0
  | .burned k amount _ _ => k = n ∧ amount ≠ 0
  | .substituted k amount _ => k = n ∧ amount ≠ 0
  | .mintAdded _ _ => false
  | .minted _ _ => false

/-- What has happened to a burn. -/
def history (n : Element) (w : World T) : List Event := w.events.filter (about n)

/-- The burn is rolled up. -/
def isRollUp : Event → Bool
  | .burned _ _ false _ => true
  | _ => false

/-- How often a burn was rolled up. -/
def rollUps (n : Element) (w : World T) : ℕ := (history n w).countP isRollUp

/-- Whom a burn may be paid to: a burn to a router is paid to the return address when the call of
the router fails. -/
def Dest.Pays (payee : Address) : Dest → Prop
  | .address toAddr => payee = toAddr
  | .router router returnAddress => payee = router ∨ payee = returnAddress

/-- Where a burn stands. -/
inductive Stage
  | idle
  | registered (amount : ℕ) (dest : Dest)
  | substituted (amount : ℕ) (substitutor : Address)
  | settled

/-- **The life of a burn**, by its history: it is registered once; it is paid when it is
substituted, and then the substitutor is paid back when it is rolled up, or it is paid when it is
rolled up. When the token refuses the payment of a roll-up, nobody is paid. -/
inductive Life (n : Element) : Stage → List Event → Prop
  | idle : Life n .idle []
  | registered {amount : ℕ} {dest : Dest} (h : amount ≠ 0) :
    Life n (.registered amount dest) [.burnAdded n amount dest]
  | substituted {amount : ℕ} {dest : Dest} {payee substitutor : Address} (h : amount ≠ 0)
    (hpayee : Dest.Pays payee dest) :
    Life n (.substituted amount substitutor)
      [.burnAdded n amount dest, .paid n amount payee, .burned n amount true true,
        .substituted n amount substitutor]
  | paid {amount : ℕ} {dest : Dest} {payee : Address} (h : amount ≠ 0)
    (hpayee : Dest.Pays payee dest) :
    Life n .settled
      [.burnAdded n amount dest, .paid n amount payee, .burned n amount false true]
  | unpaid {amount : ℕ} {dest : Dest} (h : amount ≠ 0) :
    Life n .settled [.burnAdded n amount dest, .burned n amount false false]
  | paidBack {amount : ℕ} {dest : Dest} {payee substitutor : Address} (h : amount ≠ 0)
    (hpayee : Dest.Pays payee dest) :
    Life n .settled
      [.burnAdded n amount dest, .paid n amount payee, .burned n amount true true,
        .substituted n amount substitutor, .paid n amount substitutor,
        .burned n amount false true]
  | notPaidBack {amount : ℕ} {dest : Dest} {payee substitutor : Address} (h : amount ≠ 0)
    (hpayee : Dest.Pays payee dest) :
    Life n .settled
      [.burnAdded n amount dest, .paid n amount payee, .burned n amount true true,
        .substituted n amount substitutor, .burned n amount false false]

namespace Life

variable {n : Element} {amount : ℕ} {dest : Dest} {payee substitutor : Address}
  {events : List Event}

/-- A registered burn is substituted. -/
lemma substitute (h : Life n (.registered amount dest) events)
    (hpayee : Dest.Pays payee dest) :
    Life n (.substituted amount substitutor)
      (events ++ [.paid n amount payee, .burned n amount true true,
        .substituted n amount substitutor]) := by
  cases h with
  | registered hne => exact .substituted hne hpayee

/-- A registered burn is rolled up, and paid. -/
lemma rollUp (h : Life n (.registered amount dest) events) (hpayee : Dest.Pays payee dest) :
    Life n .settled (events ++ [.paid n amount payee, .burned n amount false true]) := by
  cases h with
  | registered hne => exact .paid hne hpayee

/-- A registered burn is rolled up, and not paid. -/
lemma rollUp_refused (h : Life n (.registered amount dest) events) :
    Life n .settled (events ++ [.burned n amount false false]) := by
  cases h with
  | registered hne => exact .unpaid hne

/-- A substituted burn is rolled up, and the substitutor is paid back. -/
lemma payBack (h : Life n (.substituted amount substitutor) events) :
    Life n .settled (events ++ [.paid n amount substitutor, .burned n amount false true]) := by
  cases h with
  | substituted hne hpayee => exact .paidBack hne hpayee

/-- A substituted burn is rolled up, and the substitutor is not paid back. -/
lemma payBack_refused (h : Life n (.substituted amount substitutor) events) :
    Life n .settled (events ++ [.burned n amount false false]) := by
  cases h with
  | substituted hne hpayee => exact .notPaidBack hne hpayee

/-- A settled burn was rolled up. -/
lemma one_le_rollUps (h : Life n .settled events) : 1 ≤ events.countP isRollUp := by
  cases h <;> simp [isRollUp]

/-- A registered burn has an amount. -/
lemma amount_ne_zero (h : Life n (.registered amount dest) events) : amount ≠ 0 := by
  cases h with
  | registered hne => exact hne

/-- A substituted burn has an amount. -/
lemma substituted_ne_zero (h : Life n (.substituted amount substitutor) events) :
    amount ≠ 0 := by
  cases h with
  | substituted hne => exact hne

end Life

/-! ## What concerns one burn -/

/-- The storage of one burn, and its history. -/
structure View where
  kind : Element
  burn : Burn
  toRouter : BurnToRouter
  isSubstituted : Bool
  isRolledUp : Bool
  events : List Event

/-- The storage of a burn, and its history. -/
def view (n : Element) (w : World T) : View where
  kind := w.rollup.burnsKind n
  burn := w.rollup.burns n
  toRouter := w.rollup.burnsToRouter n
  isSubstituted := w.rollup.substitutedBurns n
  isRolledUp := w.rollup.rolledUpLeafs n
  events := history n w

/-- The storage fits the stage of the burn. -/
def View.Fits (v : View) : Stage → Prop
  | .idle => v.burn.amount = 0 ∧ (v.kind = 0 ∨ v.kind = 1 ∧ v.toRouter.amount = 0)
  | .registered amount (.address toAddr) => v.kind = 0 ∧ v.burn = ⟨toAddr, amount⟩
  | .registered amount (.router router returnAddress) =>
    v.kind = 1 ∧ v.toRouter.router = router ∧ v.toRouter.amount = amount ∧
      v.toRouter.returnAddress = returnAddress
  | .substituted amount substitutor =>
    v.kind = 0 ∧ v.burn = ⟨substitutor, amount⟩ ∧ v.isSubstituted = true
  | .settled => (v.kind ≠ 0 ∨ v.burn.amount ≠ 0) ∧ v.isRolledUp = true

/-- The storage and the history of the burn belong together. -/
def View.Tracked (n : Element) (v : View) : Prop := ∃ stage, v.Fits stage ∧ Life n stage v.events

/-- The burn exists, and its execution has begun or is over. -/
def View.Locked (v : View) : Prop :=
  (v.kind ≠ 0 ∨ v.burn.amount ≠ 0) ∧ (v.isSubstituted = true ∨ v.isRolledUp = true)

section Views

variable {n : Element} {w : World T}

/-- Logging changes the events of a view only. -/
lemma view_log (events : List Event) :
    view n (log w events) =
      { view n w with events := history n w ++ events.filter (about n) } := by
  simp [view, log, history]

/-- Events that do not concern the burn leave its view as it was. -/
lemma view_log_of_forall {events : List Event} (h : ∀ e ∈ events, about n e = false) :
    view n (log w events) = view n w := by
  rw [view_log, List.filter_eq_nil_iff.2 fun e he => by simp [h e he], List.append_nil]
  rfl

/-- Substituting another burn changes the marks of a view only. -/
lemma view_markSubstituted (k : Element) (t : T) :
    view n { w with rollup := w.rollup.markSubstituted k, token := t } =
      { view n w with isSubstituted := if n = k then true else (view n w).isSubstituted } := rfl

/-- Rolling up another burn changes the marks of a view only. -/
lemma view_markRolledUp (k : Element) :
    view n { w with rollup := w.rollup.markRolledUp k } =
      { view n w with isRolledUp := if n = k then true else (view n w).isRolledUp } := rfl

/-- Paying back changes the token and the log of a view only. -/
lemma view_payBack (k : Element) (substitutor : Address) (amount : ℕ) :
    view n { w with rollup := payBack k substitutor amount w.rollup } =
      { view n w with
        kind := if n = k then 0 else (view n w).kind
        burn := if n = k then ⟨substitutor, amount⟩ else (view n w).burn } := rfl

end Views

/-! ## The execution of a burn -/

/-- A burn is found, with the given value. -/
def View.Found (v : View) (value : ℕ) : Prop :=
  v.kind = 0 ∧ v.burn.amount ≠ 0 ∧ v.burn.amount = value ∨
    v.kind = 1 ∧ v.toRouter.amount = value ∨ v.kind ≠ 0 ∧ v.kind ≠ 1

/-- The burn is paid to the given address. -/
def View.Pays (v : View) (payee : Address) : Prop :=
  v.kind = 0 ∧ payee = v.burn.toAddr ∨
    v.kind = 1 ∧ (payee = v.toRouter.router ∨ payee = v.toRouter.returnAddress)

section Execution

variable {token : ERC20 T} {contract : Address} {env : Env T} {w w' : World T} {mb : Element}
  {value : ℕ}

/-- **The execution of a burn that is found**: what is invariant under changes of the token and
under calls of routers still holds, and then the payment is written to the log. -/
lemma Executes.outcome {Q : World T → Prop} (htoken : ∀ w t, Q w → Q { w with token := t })
    (hrouter : ∀ router calldata w, Q w → Q (env.router router calldata w).2) {success : Bool}
    (h : Executes token contract env w mb value (true, success) w') (hw : Q w) :
    (view mb w).Found value ∧ ∃ w₁, Q w₁ ∧
      (success = true ∧ (∃ payee, (view mb w).Pays payee ∧ w' = log w₁ [.paid mb value payee]) ∨
        success = false ∧ w' = w₁) := by
  cases h with
  | unknown hkind hkind' => exact ⟨.inr (.inr ⟨hkind, hkind'⟩), w, hw, .inr ⟨rfl, rfl⟩⟩
  | address hkind hne hamount ht =>
    exact ⟨.inl ⟨hkind, hne, hamount⟩, _, htoken w _ hw,
      .inl ⟨rfl, _, .inl ⟨hkind, rfl⟩, rfl⟩⟩
  | refused hkind hne hamount =>
    exact ⟨.inl ⟨hkind, hne, hamount⟩, w, hw, .inr ⟨rfl, rfl⟩⟩
  | router hkind hamount ht ht' =>
    exact ⟨.inr (.inl ⟨hkind, hamount⟩), _, htoken _ _ (hrouter _ _ _ (htoken w _ hw)),
      .inl ⟨rfl, _, .inr ⟨hkind, .inl rfl⟩, rfl⟩⟩
  | blacklisted hkind hamount ht ht' =>
    exact ⟨.inr (.inl ⟨hkind, hamount⟩), _, htoken w _ hw, .inr ⟨rfl, rfl⟩⟩
  | returned hkind hamount ht ht' ht'' =>
    exact ⟨.inr (.inl ⟨hkind, hamount⟩), _, htoken w _ hw,
      .inl ⟨rfl, _, .inr ⟨hkind, .inr rfl⟩, rfl⟩⟩

/-- The execution of another burn keeps what is invariant. -/
lemma Executes.elsewhere {n : Element} {Q : View → Prop} (hne : mb ≠ n)
    (hrouter : ∀ router calldata w, Q (view n w) → Q (view n (env.router router calldata w).2))
    {success : Bool} (h : Executes token contract env w mb value (true, success) w')
    (hw : Q (view n w)) : Q (view n w') := by
  obtain ⟨-, w₁, hw₁, ⟨-, payee, -, rfl⟩ | ⟨-, rfl⟩⟩ :=
    h.outcome (Q := fun w => Q (view n w)) (fun _ _ hw => hw) hrouter hw
  · rw [view_log_of_forall]
    · exact hw₁
    · simp [about, hne]
  · exact hw₁

end Execution

/-! ## One call, as it concerns one burn -/

section Calls

variable {token : ERC20 T} {contract : Address} {verifiers : Verifiers} {env : Env T}
  {w w' : World T} {n : Element} {entry : Entry}

/-- A registration of another burn does not concern this one. -/
lemma Registers.view_of_ne {rollup : Rollup} {k : Element} {amount : ℕ} {dest : Dest}
    (h : Registers w.rollup k amount dest rollup) (hne : k ≠ n) :
    view n (log { w with rollup := rollup } [.burnAdded k amount dest]) = view n w := by
  rw [view_log_of_forall (by simp [about, hne])]
  cases h with
  | address => simp [view, set_apply, hne.symm, history]
  | router => simp [view, set_apply, hne.symm, history]

/-- A burn that exists is not registered again. -/
lemma Registers.not_exists {rollup rollup' : Rollup} {k : Element} {amount : ℕ} {dest : Dest}
    (h : Registers rollup k amount dest rollup') :
    rollup.burnsKind k = 0 ∧ (rollup.burns k).amount = 0 := by
  cases h with
  | address _ _ hkind hamount => exact ⟨hkind, hamount⟩
  | router _ _ _ _ _ hkind hamount => exact ⟨hkind, hamount⟩

/-- **A call does nothing to a burn** that is being executed or is settled, unless a block is rolled
up. -/
lemma Effect.frozen (h : Effect token contract env w entry w')
    (hentry : ∀ mb value, entry ≠ .verifyTxn mb value)
    (hrouter : ∀ router calldata w, (view n w).Locked →
      view n (env.router router calldata w).2 = view n w)
    (hlocked : (view n w).Locked) : view n w' = view n w := by
  have hkeep : ∀ router calldata w₁, view n w₁ = view n w →
      view n (env.router router calldata w₁).2 = view n w :=
    fun router calldata w₁ heq => (hrouter router calldata w₁ (heq ▸ hlocked)).trans heq
  cases h with
  | minted => exact view_log_of_forall (by simp [about])
  | @registered k amount dest rollup hreg =>
    by_cases hk : k = n
    · subst hk
      obtain ⟨hkind, hamount⟩ := hreg.not_exists
      exact absurd hlocked.1 (not_or.2 ⟨not_not.2 hkind, not_not.2 hamount⟩)
    · exact hreg.view_of_ne hk
  | @substituted k amount t w₁ hsub hrolled ht hexec =>
    by_cases hk : k = n
    · subst hk
      have hflags : ¬ ((view k w).isSubstituted = true ∨ (view k w).isRolledUp = true) := by
        simp [view, hsub, hrolled]
      exact absurd hlocked.2 hflags
    · have hexec' := hexec.elsewhere (Q := fun v => v = view n w) hk hkeep (by
        rw [view_markSubstituted, if_neg (Ne.symm hk)])
      rw [view_log_of_forall (by simp [about, hk]), view_payBack, if_neg (Ne.symm hk),
        if_neg (Ne.symm hk)]
      exact hexec'
  | nothing => rfl
  | rolledUpMint hverify => exact absurd hverify (hentry _ _)
  | rolledUpBurn hverify => exact absurd hverify (hentry _ _)

end Calls

/-! ## The storage of a burn fits its history -/

/-- How often the burn was rolled up. -/
def View.rollUps (v : View) : ℕ := v.events.countP isRollUp

/-- The history fits, or the burn was rolled up twice. -/
def View.Good (n : Element) (v : View) : Prop := v.Tracked n ∨ 2 ≤ v.rollUps

section Tracked

variable {v : View} {n : Element} {amount value : ℕ} {dest : Dest} {payee substitutor : Address}

/-- A burn that is found exists in storage, under one of its two layouts. -/
lemma View.Found.exists (h : v.Found value) : v.kind ≠ 0 ∨ v.burn.amount ≠ 0 := by
  rcases h with ⟨-, hne, -⟩ | ⟨hkind, -⟩ | ⟨hkind, -⟩
  · exact .inr hne
  · exact .inl (hkind ▸ by decide)
  · exact .inl hkind

/-- A registered burn is executed with its amount. -/
lemma View.Fits.value_eq (h : v.Fits (.registered amount dest)) (hfound : v.Found value) :
    value = amount := by
  cases dest with
  | address toAddr =>
    obtain ⟨hkind, hburn⟩ := h
    rcases hfound with ⟨-, -, hamount⟩ | ⟨hkind', -⟩ | ⟨hkind', -⟩
    · rw [← hamount, hburn]
    · exact absurd (hkind.symm.trans hkind') (by decide)
    · exact absurd hkind hkind'
  | router router returnAddress =>
    obtain ⟨hkind, -, hamount, -⟩ := h
    rcases hfound with ⟨hkind', -, -⟩ | ⟨-, hamount'⟩ | ⟨-, hkind'⟩
    · exact absurd (hkind.symm.trans hkind') (by decide)
    · rw [← hamount', hamount]
    · exact absurd hkind hkind'

/-- A registered burn is paid to its destination. -/
lemma View.Fits.pays (h : v.Fits (.registered amount dest)) (hpays : v.Pays payee) :
    Dest.Pays payee dest := by
  cases dest with
  | address toAddr =>
    obtain ⟨hkind, hburn⟩ := h
    rcases hpays with ⟨-, hpayee⟩ | ⟨hkind', -⟩
    · rw [hburn] at hpayee
      exact hpayee
    · exact absurd (hkind.symm.trans hkind') (by decide)
  | router router returnAddress =>
    obtain ⟨hkind, hrouter, -, hreturn⟩ := h
    rcases hpays with ⟨hkind', -⟩ | ⟨-, hpayee⟩
    · exact absurd (hkind.symm.trans hkind') (by decide)
    · rw [hrouter, hreturn] at hpayee
      exact hpayee

/-- Where a registered burn is to be paid does not depend on its flags. -/
lemma View.Fits.registered_congr {v' : View} (h : v.Fits (.registered amount dest))
    (hkind : v'.kind = v.kind) (hburn : v'.burn = v.burn) (hrouter : v'.toRouter = v.toRouter) :
    v'.Fits (.registered amount dest) := by
  cases dest with
  | address toAddr => exact ⟨hkind.trans h.1, hburn.trans h.2⟩
  | router router returnAddress =>
    obtain ⟨hone, hrest⟩ := h
    rw [← hrouter] at hrest
    exact ⟨hkind.trans hone, hrest⟩

/-- A substituted burn is executed with its amount, for its substitutor. -/
lemma View.Fits.substituted_value_eq (h : v.Fits (.substituted amount substitutor))
    (hfound : v.Found value) : value = amount := by
  obtain ⟨hkind, hburn, -⟩ := h
  rcases hfound with ⟨-, -, hamount⟩ | ⟨hkind', -⟩ | ⟨hkind', -⟩
  · rw [← hamount, hburn]
  · exact absurd (hkind.symm.trans hkind') (by decide)
  · exact absurd hkind hkind'

/-- A substituted burn pays its substitutor. -/
lemma View.Fits.substituted_pays (h : v.Fits (.substituted amount substitutor))
    (hpays : v.Pays payee) : payee = substitutor := by
  obtain ⟨hkind, hburn, -⟩ := h
  rcases hpays with ⟨-, hpayee⟩ | ⟨hkind', -⟩
  · rw [hburn] at hpayee
    exact hpayee
  · exact absurd (hkind.symm.trans hkind') (by decide)

/-- A burn that does not exist is executed only with value zero. -/
lemma View.Fits.idle_value_eq (h : v.Fits .idle) (hfound : v.Found value) : value = 0 := by
  obtain ⟨hamount, hkind⟩ := h
  rcases hfound with ⟨-, hne, -⟩ | ⟨hone, hvalue⟩ | ⟨hzero, hone⟩
  · exact absurd hamount hne
  · rcases hkind with hkind | ⟨-, hrouter⟩
    · exact absurd (hkind.symm.trans hone) (by decide)
    · rw [← hvalue, hrouter]
  · rcases hkind with hkind | ⟨hkind, -⟩
    · exact absurd hkind hzero
    · exact absurd hkind hone

end Tracked

section Steps

variable {token : ERC20 T} {contract : Address} {verifiers : Verifiers} {env : Env T}
  {w w' : World T} {n : Element} {entry : Entry} {value : ℕ}

/-- **The execution of the burn itself**: nothing happens to it but that it is paid. -/
lemma Executes.on_burn
    (hfrozen : ∀ router calldata w, (view n w).Locked →
      view n (env.router router calldata w).2 = view n w) {success : Bool}
    (h : Executes token contract env w n value (true, success) w')
    (hflag : (view n w).isSubstituted = true ∨ (view n w).isRolledUp = true) :
    (view n w).Found value ∧ ∃ payments : List Event,
      (success = true ∧ (∃ payee, (view n w).Pays payee ∧ payments = [.paid n value payee]) ∨
        success = false ∧ payments = []) ∧
      view n w' =
        { view n w with events := (view n w).events ++ payments.filter (about n) } := by
  obtain ⟨hfound, -⟩ := h.outcome (Q := fun _ => True) (fun _ _ _ => trivial)
    (fun _ _ _ _ => trivial) trivial
  have hlocked : (view n w).Locked := ⟨hfound.exists, hflag⟩
  obtain ⟨-, w₁, hw₁, hpaid⟩ := h.outcome (Q := fun w₁ => view n w₁ = view n w)
    (fun _ _ hw => hw)
    (fun router calldata w₁ heq => (hfrozen router calldata w₁ (heq ▸ hlocked)).trans heq) rfl
  refine ⟨hfound, ?_⟩
  rcases hpaid with ⟨hsuccess, payee, hpays, rfl⟩ | ⟨hsuccess, rfl⟩
  · refine ⟨[.paid n value payee], .inl ⟨hsuccess, payee, hpays, rfl⟩, ?_⟩
    rw [view_log, hw₁, ← hw₁]
    rfl
  · refine ⟨[], .inr ⟨hsuccess, rfl⟩, ?_⟩
    rw [hw₁, List.filter_nil, List.append_nil]

/-- A payment of some value is about the burn. -/
lemma about_paid (payee : Address) (h : value ≠ 0) : about n (.paid n value payee) = true := by
  simp [about, h]

/-- An executed burn of some value is about the burn. -/
lemma about_burned (substitute success : Bool) (h : value ≠ 0) :
    about n (.burned n value substitute success) = true := by
  simp [about, h]

/-- A substitution of some value is about the burn. -/
lemma about_substituted (substitutor : Address) (h : value ≠ 0) :
    about n (.substituted n value substitutor) = true := by
  simp [about, h]

/-- **A registration** of the burn.

**Proof sketch.** Only a burn that does not exist is registered, so that its stage is the first one
and the log has nothing of it. The new event takes it to the stage of a registered burn. -/
lemma tracked_registered {rollup : Rollup} {dest : Dest} (h : (view n w).Tracked n)
    (hreg : Registers w.rollup n value dest rollup) :
    (view n (log { w with rollup := rollup } [.burnAdded n value dest])).Tracked n := by
  obtain ⟨hkind, hamount⟩ := hreg.not_exists
  obtain ⟨stage, hfits, hlife⟩ := h
  -- only a burn that does not exist is registered
  obtain rfl : stage = .idle := by
    cases stage with
    | idle => rfl
    | registered amount dest' =>
      cases dest' with
      | address toAddr =>
        have hburn : w.rollup.burns n = ⟨toAddr, amount⟩ := hfits.2
        rw [hburn] at hamount
        exact absurd hamount hlife.amount_ne_zero
      | router router returnAddress =>
        exact absurd (hkind.symm.trans hfits.1) (by decide)
    | substituted amount substitutor =>
      have hburn : w.rollup.burns n = ⟨substitutor, amount⟩ := hfits.2.1
      rw [hburn] at hamount
      exact absurd hamount hlife.substituted_ne_zero
    | settled => exact absurd hfits.1 (not_or.2 ⟨not_not.2 hkind, not_not.2 hamount⟩)
  have hnil : history n w = [] := by
    cases hlife' : (view n w).events with
    | nil => exact hlife'
    | cons e es =>
      rw [hlife'] at hlife
      cases hlife
  rw [view_log]
  have hhistory : history n { w with rollup := rollup } = [] := hnil
  by_cases hvalue : value = 0
  · refine ⟨.idle, ?_, ?_⟩
    · cases hreg with
      | address toAddr amount =>
        exact ⟨by simp [view, set_apply, hvalue], .inl (by simp [view, set_apply])⟩
      | router router routerCalldata amount returnAddress =>
        exact ⟨hamount, .inr ⟨by simp [view, set_apply], by simp [view, set_apply, hvalue]⟩⟩
    · rw [hhistory]
      simp only [List.filter_cons, about, hvalue, ne_eq, not_true_eq_false, and_false,
        decide_false, Bool.false_eq_true, if_false, List.filter_nil, List.append_nil]
      exact .idle
  · refine ⟨.registered value dest, ?_, ?_⟩
    · cases hreg with
      | address toAddr amount => exact ⟨by simp [view, set_apply], by simp [view, set_apply]⟩
      | router router routerCalldata amount returnAddress =>
        exact ⟨by simp [view, set_apply], by simp [view, set_apply], by simp [view, set_apply],
          by simp [view, set_apply]⟩
    · rw [hhistory]
      simp only [List.filter_cons, about, hvalue, ne_eq, not_false_eq_true, and_self,
        decide_true, if_true, List.filter_nil, List.nil_append]
      exact .registered hvalue

/-- **A substitution** of the burn. -/
lemma tracked_substituted {t : T} {w₁ : World T} (h : (view n w).Tracked n)
    (hsub : w.rollup.substitutedBurns n = false) (hrolled : w.rollup.rolledUpLeafs n = false)
    (hfrozen : ∀ router calldata w, (view n w).Locked →
      view n (env.router router calldata w).2 = view n w)
    (hexec : Executes token contract env
      { w with rollup := w.rollup.markSubstituted n, token := t } n value (true, true) w₁) :
    (view n (log { w₁ with rollup := payBack n env.msgSender value w₁.rollup }
      [.burned n value true true, .substituted n value env.msgSender])).Tracked n := by
  obtain ⟨hfound, payments, hpaid, hview⟩ := hexec.on_burn hfrozen
    (.inl (by rw [view_markSubstituted, if_pos rfl]))
  rw [view_markSubstituted, if_pos rfl] at hfound hpaid hview
  obtain ⟨-, payee, hpays, rfl⟩ := hpaid.resolve_right fun hfalse => Bool.noConfusion hfalse.1
  obtain ⟨stage, hfits, hlife⟩ := h
  have hfinal : view n (log { w₁ with rollup := payBack n env.msgSender value w₁.rollup }
      [.burned n value true true, .substituted n value env.msgSender]) =
      { view n w₁ with
        kind := 0
        burn := ⟨env.msgSender, value⟩
        events := (view n w₁).events ++
          [Event.burned n value true true, .substituted n value env.msgSender].filter
            (about n) } := by
    rw [view_log, view_payBack, if_pos rfl, if_pos rfl]
    rfl
  rw [hfinal, hview]
  cases stage with
  | idle =>
    obtain rfl : value = 0 := View.Fits.idle_value_eq hfits hfound
    refine ⟨.idle, ⟨rfl, .inl rfl⟩, ?_⟩
    simpa [about] using hlife
  | registered amount dest =>
    have hfits' : View.Fits { view n w with isSubstituted := true } (.registered amount dest) :=
      hfits.registered_congr rfl rfl rfl
    obtain rfl : value = amount := hfits'.value_eq hfound
    have hdest : Dest.Pays payee dest := hfits'.pays hpays
    refine ⟨.substituted value env.msgSender, ⟨rfl, rfl, rfl⟩, ?_⟩
    have hne := hlife.amount_ne_zero
    simpa [about_paid payee hne, about_burned true true hne, about_substituted env.msgSender hne]
      using hlife.substitute hdest
  | substituted amount substitutor =>
    exact absurd (hsub.symm.trans hfits.2.2) Bool.false_ne_true
  | settled => exact absurd (hrolled.symm.trans hfits.2) Bool.false_ne_true

/-- **A roll-up** of the burn. -/
lemma good_rolledUp {success : Bool} (h : (view n w).Tracked n) (hvalue : value ≠ 0)
    (hfrozen : ∀ router calldata w, (view n w).Locked →
      view n (env.router router calldata w).2 = view n w)
    (hexec : Executes token contract env { w with rollup := w.rollup.markRolledUp n } n value
      (true, success) w') :
    (view n (log w' [.burned n value false success])).Good n := by
  obtain ⟨hfound, payments, hpaid, hview⟩ := hexec.on_burn hfrozen
    (.inr (by rw [view_markRolledUp, if_pos rfl]))
  rw [view_markRolledUp, if_pos rfl] at hfound hpaid hview
  obtain ⟨stage, hfits, hlife⟩ := h
  have hfinal : view n (log w' [.burned n value false success]) =
      { view n w' with events := (view n w').events ++ [.burned n value false success] } := by
    rw [view_log, List.filter_cons_of_pos (about_burned false success hvalue), List.filter_nil]
    rfl
  have hexists := hfound.exists
  rw [hfinal, hview]
  cases stage with
  | idle => exact absurd (View.Fits.idle_value_eq hfits hfound) hvalue
  | registered amount dest =>
    have hfits' : View.Fits { view n w with isRolledUp := true } (.registered amount dest) :=
      hfits.registered_congr rfl rfl rfl
    obtain rfl : value = amount := hfits'.value_eq hfound
    refine .inl ⟨.settled, ⟨hexists, rfl⟩, ?_⟩
    rcases hpaid with ⟨rfl, payee, hpays, rfl⟩ | ⟨rfl, rfl⟩
    · simpa [about_paid payee hvalue] using hlife.rollUp (hfits'.pays hpays)
    · simpa using hlife.rollUp_refused
  | substituted amount substitutor =>
    have hfits' :
        View.Fits { view n w with isRolledUp := true } (.substituted amount substitutor) :=
      hfits
    obtain rfl : value = amount := hfits'.substituted_value_eq hfound
    refine .inl ⟨.settled, ⟨hexists, rfl⟩, ?_⟩
    rcases hpaid with ⟨rfl, payee, hpays, rfl⟩ | ⟨rfl, rfl⟩
    · obtain rfl : payee = substitutor := hfits'.substituted_pays hpays
      simpa [about_paid payee hvalue] using hlife.payBack
    · simpa using hlife.payBack_refused
  | settled =>
    -- it was rolled up before
    right
    have hone := hlife.one_le_rollUps
    simp only [View.rollUps, List.countP_append, List.countP_singleton, isRollUp, if_true]
    omega

/-- More events are more roll-ups. -/
lemma rollUps_log (events : List Event) :
    (view n w).rollUps ≤ (view n (log w events)).rollUps := by
  rw [view_log]
  simp only [View.rollUps, List.countP_append]
  exact Nat.le_add_right _ _

/-- The execution of any burn does not lower the number of roll-ups. -/
lemma Executes.rollUps_le
    (hrouter : ∀ router calldata w, (view n w).rollUps ≤
      (view n (env.router router calldata w).2).rollUps) {mb : Element} {success : Bool}
    (h : Executes token contract env w mb value (true, success) w') :
    (view n w).rollUps ≤ (view n w').rollUps := by
  obtain ⟨-, w₁, hw₁, ⟨-, payee, -, rfl⟩ | ⟨-, rfl⟩⟩ :=
    h.outcome (Q := fun w₁ => (view n w).rollUps ≤ (view n w₁).rollUps) (fun _ _ hw => hw)
      (fun router calldata w₁ hw => hw.trans (hrouter router calldata w₁)) le_rfl
  · exact hw₁.trans (rollUps_log _)
  · exact hw₁

/-- No call lowers the number of roll-ups. -/
lemma Effect.rollUps_le (h : Effect token contract env w entry w')
    (hrouter : ∀ router calldata w, (view n w).rollUps ≤
      (view n (env.router router calldata w).2).rollUps) :
    (view n w).rollUps ≤ (view n w').rollUps := by
  cases h with
  | minted => exact rollUps_log _
  | registered => exact rollUps_log _
  | substituted _ _ _ hexec => exact (hexec.rollUps_le hrouter).trans (rollUps_log _)
  | nothing => exact le_rfl
  | rolledUpMint => exact rollUps_log _
  | rolledUpBurn _ _ hexec => exact (hexec.rollUps_le hrouter).trans (rollUps_log _)

/-- The flag of a roll-up does not disturb the history. -/
lemma View.Tracked.rolledUp {v : View} (h : v.Tracked n) (isRolledUp : Bool)
    (hflag : v.isRolledUp = true → isRolledUp = true) :
    View.Tracked n { v with isRolledUp := isRolledUp } := by
  obtain ⟨stage, hfits, hlife⟩ := h
  refine ⟨stage, ?_, hlife⟩
  cases stage with
  | idle => exact hfits
  | registered amount dest => exact hfits.registered_congr rfl rfl rfl
  | substituted amount substitutor => exact hfits
  | settled => exact ⟨hfits.1, hflag hfits.2⟩

/-- **One call**, as it concerns a burn: the storage still fits the history. -/
lemma Effect.good (h : Effect token contract env w entry w')
    (hrouter : ∀ router calldata w, (view n w).Good n →
      (view n (env.router router calldata w).2).Good n)
    (hfrozen : ∀ router calldata w, (view n w).Locked →
      view n (env.router router calldata w).2 = view n w)
    (hmono : ∀ router calldata w, (view n w).rollUps ≤
      (view n (env.router router calldata w).2).rollUps)
    (hw : (view n w).Good n) : (view n w').Good n := by
  rcases hw with hw | htwice
  swap
  · exact .inr (htwice.trans (h.rollUps_le hmono))
  cases h with
  | minted =>
    rw [view_log_of_forall (by simp [about])]
    exact .inl hw
  | @registered k amount dest rollup hreg =>
    by_cases hk : k = n
    · subst hk
      exact .inl (tracked_registered hw hreg)
    · rw [hreg.view_of_ne hk]
      exact .inl hw
  | @substituted k amount t w₁ hsub hrolled ht hexec =>
    by_cases hk : k = n
    · subst hk
      exact .inl (tracked_substituted hw hsub hrolled hfrozen hexec)
    · rw [view_log_of_forall (by simp [about, hk]), view_payBack, if_neg (Ne.symm hk),
        if_neg (Ne.symm hk)]
      refine hexec.elsewhere (Q := View.Good n) hk hrouter ?_
      rw [view_markSubstituted, if_neg (Ne.symm hk)]
      exact .inl hw
  | nothing => exact .inl hw
  | @rolledUpMint mb value hentry =>
    rw [view_log_of_forall (by simp [about]), view_markRolledUp]
    exact .inl (hw.rolledUp _ fun hflag => by split_ifs <;> [rfl; exact hflag])
  | @rolledUpBurn mb value success w₁ hentry hvalue hexec =>
    by_cases hk : mb = n
    · subst hk
      exact good_rolledUp hw (fun hzero => hvalue (BitVec.eq_of_toNat_eq hzero)) hfrozen hexec
    · rw [view_log_of_forall (by simp [about, hk])]
      refine hexec.elsewhere (Q := View.Good n) hk hrouter ?_
      rw [view_markRolledUp, if_neg (Ne.symm hk)]
      exact .inl hw

end Steps

/-- Routers do not roll up blocks. -/
def RoutersDoNotProve (inner : Bool) (entry : Entry) : Prop :=
  inner = true → ∀ mb value, entry ≠ .verifyTxn mb value

section Runs

variable {token : ERC20 T} {contract : Address} {verifiers : Verifiers} {a b : World T}
  {n : Element}

/-- **While a burn is executed, nothing happens to it**, whatever a router does. -/
theorem Reaches.frozen {inner : Bool}
    (h : Reaches token contract verifiers RoutersDoNotProve inner a b) (hinner : inner = true)
    (hlocked : (view n a).Locked) : view n b = view n a := by
  induction h with
  | refl inner a => rfl
  | @call inner a b h env entry hallowed hsigner hrouter ih ihrouter =>
    have hb := ih hinner hlocked
    rcases Program.atomically_cases (Bank.call token contract verifiers env entry) b with
      hsame | ⟨u, hok⟩
    · rw [hsame]
      exact hb
    · have hcall := (call_eq_ok hok).frozen (hallowed hinner)
        (fun router calldata w hw => ihrouter router calldata w rfl hw) (hb ▸ hlocked)
      exact hcall.trans hb
  | token h t ht ih => exact ih hinner hlocked

/-- No run lowers the number of roll-ups. -/
lemma Reaches.rollUps_le {allowed : Bool → Entry → Prop} {inner : Bool}
    (h : Reaches token contract verifiers allowed inner a b) :
    (view n a).rollUps ≤ (view n b).rollUps := by
  induction h with
  | refl inner a => exact le_rfl
  | @call inner a b h env entry hallowed hsigner hrouter ih ihrouter =>
    rcases Program.atomically_cases (Bank.call token contract verifiers env entry) b with
      hsame | ⟨u, hok⟩
    · rw [hsame]
      exact ih
    · exact ih.trans ((call_eq_ok hok).rollUps_le ihrouter)
  | token h t ht ih => exact ih

/-- **The storage of a burn fits its history in every run**, also while routers call back. -/
theorem Reaches.good {inner : Bool}
    (h : Reaches token contract verifiers RoutersDoNotProve inner a b) (ha : (view n a).Good n) :
    (view n b).Good n := by
  induction h with
  | refl inner a => exact ha
  | @call inner a b h env entry hallowed hsigner hrouter ih ihrouter =>
    rcases Program.atomically_cases (Bank.call token contract verifiers env entry) b with
      hsame | ⟨u, hok⟩
    · rw [hsame]
      exact ih ha
    · exact (call_eq_ok hok).good (fun router calldata w => ihrouter router calldata w)
        (fun router calldata w hlocked => (hrouter router calldata w).frozen rfl hlocked)
        (fun router calldata w => (hrouter router calldata w).rollUps_le) (ih ha)
  | token h t ht ih => exact ih ha

/-- **The life of a burn.** In every run of the contract from its deployment, the events of a burn
that is rolled up at most once are those of one of the lives that `Life` lists: it is registered
once, its destination is paid at most once, it is substituted at most once and not after it was
rolled up, and the roll-up of a substituted burn pays the substitutor or, when the token refuses
the transfer, nobody.

**Proof sketch.** What the storage and the log say of one burn fits a stage of its life, in the
beginning and after every call, or the burn was rolled up twice (`Reaches.good`). -/
theorem life_of_burn {w₀ w : World T} (hrollup : w₀.rollup = .initial) (hevents : w₀.events = [])
    (h : Reaches token contract verifiers RoutersDoNotProve false w₀ w)
    (honce : rollUps n w ≤ 1) : ∃ stage, Life n stage (history n w) := by
  have hstart : (view n w₀).Good n := by
    refine .inl ⟨.idle, ?_, ?_⟩
    · simp [view, View.Fits, hrollup, Rollup.initial]
    · simp only [view, history, hevents, List.filter_nil]
      exact .idle
  rcases h.good hstart with ⟨stage, -, hlife⟩ | htwice
  · exact ⟨stage, hlife⟩
  · have hle : 2 ≤ rollUps n w := htwice
    omega

end Runs

/-! ## Samples -/

namespace Sample

/-- The world after some calls. -/
def after (calls : List (Env Ledger × Entry)) : World Ledger :=
  calls.foldl (fun w c => (Program.atomically (call token 1 verifiers c.1 c.2) w).2) start

/-- Calls whose routers do as others do are a run. -/
lemma reaches_after {allowed : Bool → Entry → Prop} {calls : List (Env Ledger × Entry)}
    (h : ∀ c ∈ calls, allowed false c.2 ∧ c.1.signer ≠ 1 ∧ ∀ router calldata w,
      Reaches token 1 verifiers allowed true w (c.1.router router calldata w).2) :
    Reaches token 1 verifiers allowed false start (after calls) := by
  have hrun : ∀ (calls : List (Env Ledger × Entry)) (w : World Ledger),
      (∀ c ∈ calls, allowed false c.2 ∧ c.1.signer ≠ 1 ∧ ∀ router calldata w,
        Reaches token 1 verifiers allowed true w (c.1.router router calldata w).2) →
      Reaches token 1 verifiers allowed false start w →
      Reaches token 1 verifiers allowed false start
        (calls.foldl (fun w c => (Program.atomically (call token 1 verifiers c.1 c.2) w).2) w) := by
    intro calls
    induction calls with
    | nil => exact fun w _ hw => hw
    | cons c calls ih =>
      intro w hcalls hw
      rw [List.forall_mem_cons] at hcalls
      obtain ⟨⟨hallowed, hsigner, hrouter⟩, hrest⟩ := hcalls
      exact ih _ hrest (hw.call c.1 c.2 hallowed hsigner hrouter)
  exact hrun calls start h (.refl false start)

/-- After a mint of five, account 2 substitutes a burn of three for account 4, and the burn is
rolled up. -/
def substitution : List (Env Ledger × Entry) :=
  [(env 2, .mint [] 7 5 0), (env 4, .burn 4 [] 8 3 0 0), (env 2, .substituteBurn 8 3),
    (env 3, .verifyTxn 8 3)]

/-- A burn of nothing is registered twice. -/
def nothingTwice : List (Env Ledger × Entry) :=
  [(env 4, .burn 4 [] 8 0 0 0), (env 5, .burn 5 [] 8 0 0 0)]

/-- A router that rolls up the burn for which it is called. -/
def proving (msgSender : Address) : Env Ledger :=
  { env msgSender with
    isRouterWhitelisted := fun _ => true
    router := fun _ _ w => (true, (Program.atomically (call token 1 verifiers
      { env 6 with isRouterWhitelisted := fun _ => true, router := fun _ _ w => (true, w) }
      (.verifyTxn 8 3)) w).2) }

/-- Account 2 substitutes a burn to such a router. -/
def rolledUpInside : List (Env Ledger × Entry) :=
  [(proving 4, .burnToRouter 1 0 [] 8 3 0 0 6 [] 7), (proving 2, .substituteBurn 8 3)]

end Sample

open Sample in
/-- A burn is substituted and rolled up. -/
theorem life_of_burn_substituted :
    history 8 (after substitution) =
        [.burnAdded 8 3 (.address 4), .paid 8 3 4, .burned 8 3 true true, .substituted 8 3 2,
          .paid 8 3 2, .burned 8 3 false true] ∧
      ∃ stage, Life 8 stage (history 8 (after substitution)) := by
  have hrun : Reaches token 1 verifiers RoutersDoNotProve false start (after substitution) := by
    refine reaches_after fun c hc => ⟨fun h => absurd h Bool.false_ne_true, ?_⟩
    simp only [substitution, List.mem_cons, List.not_mem_nil, or_false] at hc
    rcases hc with rfl | rfl | rfl | rfl
    all_goals exact ⟨(by decide : (0 : Address) ≠ 1), fun _ _ w => .refl true w⟩
  exact ⟨by decide, life_of_burn rfl rfl hrun (by decide)⟩

open Sample in
/-- A burn of nothing is registered again, for another destination; and a burn that the router rolls
up while it is substituted is paid to the router twice. -/
theorem burn_registered_again :
    (Reaches token 1 verifiers RoutersDoNotProve false start (after nothingTwice) ∧
        (after nothingTwice).events =
          [.burnAdded 8 0 (.address 4), .burnAdded 8 0 (.address 5)]) ∧
      Reaches token 1 verifiers (fun _ _ => True) false start (after rolledUpInside) ∧
        rollUps 8 (after rolledUpInside) = 1 ∧
        history 8 (after rolledUpInside) =
          [.burnAdded 8 3 (.router 6 7), .paid 8 3 6, .burned 8 3 false true, .paid 8 3 6,
            .burned 8 3 true true, .substituted 8 3 2] := by
  refine ⟨⟨reaches_after fun c hc => ⟨fun h => absurd h Bool.false_ne_true, ?_⟩,
    by decide⟩, reaches_after fun c hc => ⟨trivial, ?_⟩, by decide,
    by decide⟩
  · simp only [nothingTwice, List.mem_cons, List.not_mem_nil, or_false] at hc
    rcases hc with rfl | rfl
    all_goals exact ⟨(by decide : (0 : Address) ≠ 1), fun _ _ w => .refl true w⟩
  · simp only [rolledUpInside, List.mem_cons, List.not_mem_nil, or_false] at hc
    rcases hc with rfl | rfl
    all_goals
      refine ⟨(by decide : (0 : Address) ≠ 1), fun _ _ w => ?_⟩
      exact (Reaches.refl true w).call _ (.verifyTxn 8 3) trivial
        (by decide : (0 : Address) ≠ 1) fun _ _ w => .refl true w

end TempoRollup.Contract.Bank
