import TempoRollup.Contract.Refinement

set_option relaxedAutoImplicit false
set_option autoImplicit false

/-!
# The journal of mints and burns

What the event log of the contract says about mints and burns: which mints were registered, and
which mints and burns were settled by the transactions of a block. The log is compared with the
storage, in every run and whatever routers do.

## Main definitions

* `Bank.registeredMints`, `Bank.settledMints`, `Bank.settledBurns` — the entries of the log, with
  their amounts.
* `Bank.MintsLogged` — the registered mints of the storage are those of the log.
* `Bank.pendingMints` — what is registered as a mint and not settled.

## Main results

* `Bank.Reaches.mintsLogged` — every run keeps the storage and the log together.
* `Bank.Reaches.settled_eq` — nothing but `verifyTxn` settles anything.
* `Bank.verifyTxn_settles` — what one transaction settles.
* `Bank.total_eq_add_filter` — entries that are settled once, and those that are not settled.
-/

open Exec

namespace TempoRollup.Contract

/-- The entry point is not that of settlement, which only the verification of a block calls. -/
def Entry.IsOpen : Entry → Prop
  | .verifyTxn _ _ => False
  | _ => True

namespace Bank

/-! ## Entries of the log -/

/-- The mint that an event registers; one of no value can be registered again, and does not
count. -/
def registeredMint : Event → Option (Element × ℕ)
  | .mintAdded commitment amount => if amount = 0 then none else some (commitment, amount)
  | _ => none

/-- The mint that an event settles. -/
def settledMint : Event → Option (Element × ℕ)
  | .minted commitment amount => some (commitment, amount)
  | _ => none

/-- The burn that an event settles; the burn of a substitution is settled later. -/
def settledBurn : Event → Option (Element × ℕ)
  | .burned nullifier amount false _ => some (nullifier, amount)
  | _ => none

/-- The mints that are registered, with their amounts. -/
def registeredMints (events : List Event) : List (Element × ℕ) := events.filterMap registeredMint

/-- The mints that are settled, with their amounts. -/
def settledMints (events : List Event) : List (Element × ℕ) := events.filterMap settledMint

/-- The burns that are settled, with their amounts. -/
def settledBurns (events : List Event) : List (Element × ℕ) := events.filterMap settledBurn

/-- The sum of the amounts of some entries. -/
def total (entries : List (Element × ℕ)) : ℕ := (entries.map Prod.snd).sum

/-- What is registered as a mint and not settled. -/
def pendingMints (events : List Event) : ℕ :=
  total ((registeredMints events).filter fun entry => entry ∉ settledMints events)

section Entries

variable {T : Type} (w : World T) (events : List Event)

/-- Logging adds the registered mints of the new events. -/
lemma registeredMints_log :
    registeredMints (log w events).events = registeredMints w.events ++ registeredMints events :=
  List.filterMap_append

/-- Logging adds the settled mints of the new events. -/
lemma settledMints_log :
    settledMints (log w events).events = settledMints w.events ++ settledMints events :=
  List.filterMap_append

/-- Logging adds the settled burns of the new events. -/
lemma settledBurns_log :
    settledBurns (log w events).events = settledBurns w.events ++ settledBurns events :=
  List.filterMap_append

/-- The total of two lists of entries. -/
lemma total_append (entries entries' : List (Element × ℕ)) :
    total (entries ++ entries') = total entries + total entries' := by
  simp [total]

/-- A sum over the log is the total of the entries that it counts. By induction on the log. -/
lemma sum_map_eq_total {f : Event → ℕ} {g : Event → Option (Element × ℕ)}
    (h : ∀ event, f event = ((g event).map Prod.snd).getD 0) :
    (events.map f).sum = total (events.filterMap g) := by
  induction events with
  | nil => rfl
  | cons event events ih =>
    rw [List.map_cons, List.sum_cons, ih, h event, List.filterMap_cons]
    cases g event <;> simp [total]

/-- The minted amount is that of the registered mints. -/
lemma minted_eq_total : minted w = total (registeredMints w.events) := by
  refine sum_map_eq_total w.events fun event => ?_
  cases event with
  | mintAdded commitment amount =>
    by_cases hzero : amount = 0 <;> simp [mintedBy, registeredMint, hzero]
  | _ => rfl

/-- The processed amount is that of the settled burns. -/
lemma processed_eq_total : processed w = total (settledBurns w.events) := by
  refine sum_map_eq_total w.events fun event => ?_
  cases event with
  | burned nullifier amount substitute success => cases substitute <;> rfl
  | _ => rfl

end Entries

/-- Entries that are among others, each once, leave the rest of the others. -/
theorem total_eq_add_filter {all some : List (Element × ℕ)} (hall : all.Nodup) (hsome : some.Nodup)
    (hsub : some ⊆ all) :
    total all = total some + total (all.filter fun entry => entry ∉ some) := by
  have hperm : (all.filter fun entry => entry ∈ some).Perm some := by
    refine (List.perm_ext_iff_of_nodup (hall.filter _) hsome).2 fun entry => ?_
    rw [List.mem_filter, decide_eq_true_eq]
    exact ⟨And.right, fun h => ⟨hsub h, h⟩⟩
  have hsplit := List.filter_append_perm (fun entry => decide (entry ∈ some)) all
  have htotal := (hsplit.map Prod.snd).sum_eq
  rw [List.map_append, List.sum_append, (hperm.map Prod.snd).sum_eq] at htotal
  rw [total, total, total, ← htotal]
  simp only [decide_not]

/-! ## Registered mints -/

section Logged

variable {T : Type} {token : ERC20 T} {contract : Address} {verifiers : Verifiers} {env : Env T}
  {w w' : World T}

/-- The registered mints of the storage are those of the log, each of them once. -/
structure MintsLogged (w : World T) : Prop where
  nodup : ((registeredMints w.events).map Prod.fst).Nodup
  mem_iff : ∀ commitment amount, (commitment, amount) ∈ registeredMints w.events ↔
    amount ≠ 0 ∧ w.rollup.mints commitment = amount

/-- Only the mints of the storage and of the log count. -/
lemma MintsLogged.congr (h : MintsLogged w) (hmints : w'.rollup.mints = w.rollup.mints)
    (hevents : registeredMints w'.events = registeredMints w.events) : MintsLogged w' :=
  ⟨hevents ▸ h.nodup, fun commitment amount => by rw [hevents, hmints, h.mem_iff]⟩

/-- A mint is registered where there was none. -/
lemma MintsLogged.register (h : MintsLogged w) {commitment : Element} {amount : ℕ} {t : T}
    (hzero : w.rollup.mints commitment = 0) :
    MintsLogged (log
      { w with
        rollup := { w.rollup with mints := set w.rollup.mints commitment amount }, token := t }
      [.mintAdded commitment amount]) := by
  have hnew : ∀ amount', (commitment, amount') ∉ registeredMints w.events := by
    intro amount' hmem
    obtain ⟨hne, heq⟩ := (h.mem_iff _ _).1 hmem
    exact hne (heq.symm.trans hzero)
  by_cases hamount : amount = 0
  · -- a mint of no value leaves no trace
    refine h.congr ?_ ?_
    · funext k
      simp only [log, set_apply]
      split_ifs with hk
      · rw [hk, hzero, hamount]
      · rfl
    · rw [registeredMints_log]
      simp [registeredMints, registeredMint, hamount]
  · have hentry : registeredMints [.mintAdded commitment amount] = [(commitment, amount)] := by
      simp [registeredMints, registeredMint, hamount]
    refine ⟨?_, fun k a => ?_⟩
    · rw [registeredMints_log, hentry, List.map_append]
      refine h.nodup.append (List.nodup_singleton _) ?_
      rw [List.map_singleton, List.disjoint_singleton]
      intro hmem
      obtain ⟨⟨k, a⟩, hold, rfl⟩ := List.mem_map.1 hmem
      exact hnew a hold
    · rw [registeredMints_log, hentry, List.mem_append, List.mem_singleton, Prod.mk.injEq]
      simp only [log, set_apply]
      by_cases hk : k = commitment
      · rw [hk, if_pos rfl]
        constructor
        · rintro (hmem | ⟨-, rfl⟩)
          · exact absurd hmem (hnew a)
          · exact ⟨hamount, rfl⟩
        · rintro ⟨-, rfl⟩
          exact .inr ⟨rfl, rfl⟩
      · rw [if_neg hk]
        simp [hk, h.mem_iff]

/-- What the execution of a burn keeps: what the payments and the routers keep, and what does not
depend on the token. -/
lemma Executes.keeps {P : World T → Prop} (hw : P w)
    (htoken : ∀ w t, P w → P { w with token := t })
    (hpaid : ∀ w nullifier amount payee, P w → P (log w [.paid nullifier amount payee]))
    (hrouter : ∀ router calldata w, P w → P (env.router router calldata w).2)
    {mb : Element} {value : ℕ} {r : Bool × Bool}
    (h : Executes token contract env w mb value r w') : P w' := by
  cases h with
  | missing => exact hw
  | unknown => exact hw
  | refused => exact hw
  | address => exact hpaid _ _ _ _ (htoken _ _ hw)
  | router => exact hpaid _ _ _ _ (htoken _ _ (hrouter _ _ _ (htoken _ _ hw)))
  | blacklisted => exact htoken _ _ hw
  | returned => exact hpaid _ _ _ _ (htoken _ _ hw)

/-- The execution of a burn registers no mint, unless the router does. -/
lemma MintsLogged.executes (h : MintsLogged w) {mb : Element} {value : ℕ} {r : Bool × Bool}
    (hexec : Executes token contract env w mb value r w')
    (hrouter : ∀ router calldata (w : World T), MintsLogged w →
      MintsLogged (env.router router calldata w).2) : MintsLogged w' :=
  hexec.keeps h (fun _ _ h => h.congr rfl rfl)
    (fun w _ _ _ h => h.congr rfl
      (by rw [registeredMints_log]; simp [registeredMints, registeredMint]))
    hrouter

/-- Events that register no mint. -/
lemma MintsLogged.log (h : MintsLogged w) {events : List Event}
    (hevents : registeredMints events = []) : MintsLogged (Bank.log w events) :=
  h.congr rfl (by rw [registeredMints_log, hevents, List.append_nil])

/-- A registered burn is no mint. -/
lemma MintsLogged.registers (h : MintsLogged w) {nullifier : Element} {amount : ℕ} {dest : Dest}
    {rollup : Rollup} (hreg : Registers w.rollup nullifier amount dest rollup) :
    MintsLogged (Bank.log { w with rollup := rollup } [.burnAdded nullifier amount dest]) := by
  have hmints : rollup.mints = w.rollup.mints := by cases hreg <;> rfl
  have hkeeps : MintsLogged { w with rollup := rollup } := h.congr hmints rfl
  exact hkeeps.log rfl

/-- **One call** keeps the registered mints of the storage and the log together. -/
lemma MintsLogged.call (h : MintsLogged w)
    (hrouter : ∀ router calldata (w : World T), MintsLogged w →
      MintsLogged (env.router router calldata w).2) {entry : Entry} {u : Unit}
    (hok : Bank.call token contract verifiers env entry w = (.ok u, w')) : MintsLogged w' := by
  cases entry with
  | mint proof commitment value source =>
    simp only [Bank.call, mint, Program.get_bind_eq_ok, Program.ensure_bind_eq_ok,
      onRollup_bind_eq_ok, callToken_bind_eq_ok, decide_eq_true_eq] at hok
    obtain ⟨hzero, _, rollup, hverify, t, -, _, rollup', hset, hemit⟩ := hok
    obtain ⟨-, -, rfl⟩ := verify_eq_ok hverify
    rw [setMint, Program.modify_eq_ok] at hset
    rw [emit_eq_ok.1 hemit, hset]
    exact h.register hzero
  | mintWithAuthorization proof commitment value source =>
    simp only [Bank.call, mintWithAuthorization, Program.get_bind_eq_ok, Program.ensure_bind_eq_ok,
      onRollup_bind_eq_ok, callToken_bind_eq_ok, decide_eq_true_eq] at hok
    obtain ⟨hzero, -, _, rollup, hverify, t, -, _, rollup', hset, hemit⟩ := hok
    obtain ⟨-, -, rfl⟩ := verify_eq_ok hverify
    rw [setMint, Program.modify_eq_ok] at hset
    rw [emit_eq_ok.1 hemit, hset]
    exact h.register hzero
  | burn toAddr proof nullifier value source sig =>
    obtain ⟨_, rollup, hreg, rfl⟩ := registered_eq_ok hok
    exact h.registers (registers_burn hreg)
  | burnToAddress kind dest proof nullifier value source sig =>
    obtain ⟨_, rollup, hreg, rfl⟩ := registered_eq_ok hok
    exact h.registers (registers_burnToAddress hreg)
  | burnToRouter kind msgHash proof nullifier value source sig router routerCalldata
      returnAddress =>
    obtain ⟨_, rollup, hreg, rfl⟩ := registered_eq_ok hok
    exact h.registers (registers_burnToRouter hreg)
  | substituteBurn nullifier amount =>
    obtain ⟨-, -, t, w₁, -, hexec, rfl⟩ := substituteBurn_eq_ok hok
    have hmark : MintsLogged
        { w with rollup := w.rollup.markSubstituted nullifier, token := t } := h.congr rfl rfl
    have hpaid :
        MintsLogged { w₁ with rollup := payBack nullifier env.msgSender amount w₁.rollup } :=
      (hmark.executes hexec hrouter).congr rfl rfl
    exact hpaid.log rfl
  | verifyTxn mb value =>
    have hmark : MintsLogged { w with rollup := w.rollup.markRolledUp mb } := h.congr rfl rfl
    rcases verifyTxn_eq_ok hok with ⟨-, rfl⟩ | ⟨-, rfl⟩ | ⟨-, success, w₁, hexec, rfl⟩
    · exact h
    · exact hmark.log rfl
    · exact (hmark.executes hexec hrouter).log rfl

/-- **The registered mints in every run.** -/
theorem Reaches.mintsLogged {allowed : Bool → Entry → Prop} {inner : Bool}
    (h : Reaches token contract verifiers allowed inner w w') (hw : MintsLogged w) :
    MintsLogged w' :=
  h.induct (P := fun a b => MintsLogged a → MintsLogged b) (fun _ h => h)
    (fun h h' hc => h' (h hc)) (fun _ hrouter hok hb => hb.call hrouter hok)
    (fun _ _ _ hb => hb.congr rfl rfl) hw

/-- Events are only added. -/
lemma prefix_log (w : World T) (events : List Event) : w.events <+: (log w events).events :=
  List.prefix_append _ _

/-- The execution of a burn only adds events, if routers do. -/
lemma Executes.extends_events {mb : Element} {value : ℕ} {r : Bool × Bool}
    (h : Executes token contract env w mb value r w')
    (hrouter : ∀ router calldata w, w.events <+: (env.router router calldata w).2.events) :
    w.events <+: w'.events :=
  h.keeps (P := fun w' => w.events <+: w'.events) (List.prefix_refl _) (fun _ _ h => h)
    (fun w _ _ _ h => h.trans (prefix_log w _))
    (fun router calldata w h => h.trans (hrouter router calldata w))

/-- **The log of every run** continues the log before it. -/
lemma Reaches.extends_events {allowed : Bool → Entry → Prop} {inner : Bool}
    (h : Reaches token contract verifiers allowed inner w w') : w.events <+: w'.events := by
  refine h.induct (P := fun a b => a.events <+: b.events) (fun _ => List.prefix_refl _)
    (fun h h' => h.trans h') ?_ (fun _ _ _ => List.prefix_refl _)
  intro env inner entry b c u _ hrouter hok
  cases call_eq_ok hok with
  | minted => exact prefix_log _ _
  | registered => exact prefix_log _ _
  | substituted hsub hrolled ht hexec => exact (hexec.extends_events hrouter).trans (prefix_log _ _)
  | nothing => exact List.prefix_refl _
  | rolledUpMint => exact prefix_log _ _
  | rolledUpBurn hentry hvalue hexec => exact (hexec.extends_events hrouter).trans (prefix_log _ _)

/-! ## Settlement -/

/-- The settled mints and burns. -/
def settled (w : World T) : List (Element × ℕ) × List (Element × ℕ) :=
  (settledMints w.events, settledBurns w.events)

/-- Logging adds what the new events settle. -/
lemma settled_log (w : World T) (events : List Event) :
    settled (log w events) =
      (settledMints w.events ++ settledMints events,
        settledBurns w.events ++ settledBurns events) := by
  rw [settled, settledMints_log, settledBurns_log]

/-- Events that settle nothing. -/
lemma settled_log_of_nil (w : World T) {events : List Event} (hmints : settledMints events = [])
    (hburns : settledBurns events = []) : settled (log w events) = settled w := by
  rw [settled_log, hmints, hburns, List.append_nil, List.append_nil]
  rfl

/-- The execution of a burn settles nothing itself, nor do routers that settle nothing. -/
lemma Executes.settled_eq {mb : Element} {value : ℕ} {r : Bool × Bool}
    (h : Executes token contract env w mb value r w')
    (hrouter : ∀ router calldata w, settled (env.router router calldata w).2 = settled w) :
    settled w' = settled w :=
  h.keeps (P := fun w' => settled w' = settled w) rfl (fun _ _ h => h)
    (fun w _ _ _ h => (settled_log_of_nil w rfl rfl).trans h)
    (fun router calldata w h => (hrouter router calldata w).trans h)

/-- Calls of open entry points, with all that routers do in them, settle nothing. -/
theorem Reaches.settled_eq {inner : Bool}
    (h : Reaches token contract verifiers (fun _ entry => entry.IsOpen) inner w w') :
    settled w' = settled w := by
  refine h.induct (P := fun a b => settled b = settled a) (fun _ => rfl)
    (fun h h' => h'.trans h) ?_ (fun _ _ _ => rfl)
  intro env inner entry b c u hopen hrouter hok
  cases call_eq_ok hok with
  | minted commitment amount ht => exact settled_log_of_nil _ rfl rfl
  | registered hreg => exact settled_log_of_nil _ rfl rfl
  | substituted hsub hrolled ht hexec =>
    exact (settled_log_of_nil _ rfl rfl).trans (hexec.settled_eq hrouter)
  | nothing => rfl
  | rolledUpMint hentry =>
    rw [hentry] at hopen
    exact hopen.elim
  | rolledUpBurn hentry =>
    rw [hentry] at hopen
    exact hopen.elim

/-- **What one transaction settles**, when routers settle nothing: nothing if its value is zero;
otherwise the mint that is registered under its hash with its value, or else a burn that was
executed with its value. -/
theorem verifyTxn_settles (hrouter : ∀ router calldata w, settled (env.router router calldata w).2 =
      settled w) {mb value : Element} {u : Unit}
    (h : verifyTxn token contract env mb value w = (.ok u, w')) :
    value = 0 ∧ settled w' = settled w ∨
      value ≠ 0 ∧ w.rollup.mints mb = value.toNat ∧
        settled w' = (settledMints w.events ++ [(mb, value.toNat)], settledBurns w.events) ∨
      value ≠ 0 ∧ (∃ success w₁, Executes token contract env
          { w with rollup := w.rollup.markRolledUp mb } mb value.toNat (true, success) w₁) ∧
        settled w' = (settledMints w.events, settledBurns w.events ++ [(mb, value.toNat)]) := by
  by_cases hvalue : value = 0
  · refine .inl ⟨hvalue, ?_⟩
    rw [verifyTxn, if_pos hvalue] at h
    rw [(Program.pure_eq_ok.1 h).2]
  · rcases verifyTxn_eq_ok h with ⟨hzero, -⟩ | ⟨hamount, rfl⟩ | ⟨-, success, w₁, hexec, rfl⟩
    · exact absurd hzero hvalue
    · refine .inr (.inl ⟨hvalue, hamount, ?_⟩)
      rw [settled_log]
      exact congrArg _ (List.append_nil _)
    · refine .inr (.inr ⟨hvalue, ⟨success, w₁, hexec⟩, ?_⟩)
      have hsame := hexec.settled_eq hrouter
      rw [settled, settled, Prod.mk.injEq] at hsame
      rw [settled_log, hsame.1, hsame.2]
      exact congrArg (·, _) (List.append_nil _)

end Logged

end Bank

end TempoRollup.Contract
