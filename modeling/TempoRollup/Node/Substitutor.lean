import TempoRollup.Contract.Substitution
import TempoRollup.Node.ListTxns
import TempoRollup.Node.Transaction

set_option relaxedAutoImplicit false
set_option autoImplicit false

/-!
# The burn substitutor

`burn-substitutor/src/lib.rs`: the substitutor pages through the committed transactions from the
height of the contract on and substitutes the burns among them. It moves its cursor when all burns
of a page are substituted.

## Main definitions

* `burnNullifier` — the burns, as the substitutor tells them from other transactions.
* `Phase`, `System.tick` — a tick, request by request.
* `System.step` — a new block, what others do to the contract, or a request of the substitutor.
* `System.SubstitutedOnce`, `System.NotStopped`, `System.Completes`.
* `System.Unmarked` — the condition on a step.

## Main results

* `System.tick_ends` — a tick ends, with an error or with its page passed.
* `System.substitutes_iff` — every burn that is passed is substituted exactly once, and no tick is
  stopped by a burn that is rolled up or substituted, exactly if no such burn is ever tried.

## Design

Requests are answered; a call of the contract that reverts is an error. The contract and the token
are those of `Contract.Bank`: others, and routers, may do whatever they can do there. The number
of the last rolled up block is only read.
-/

open Exec

namespace TempoRollup.Node.Substitutor

open Contract (Env ERC20 Verifiers Revert)
open Contract.Bank (Marks substitutions IsMarked)

variable {T : Type}

/-! ## A tick -/

/-- The nullifier of a burn; nothing for other transactions. -/
def burnNullifier (proof : UtxoProof) : Option Element :=
  let inputs := [proof.inputLeaves.1, proof.inputLeaves.2].filter fun e => e != 0
  let hasOnlyOneInput := inputs.length = 1
  let hasNoOutputs := proof.outputLeaves.1 = 0 ∧ proof.outputLeaves.2 = 0
  let hasMb := proof.mbHash ≠ 0 ∧ proof.mbValue ≠ 0
  if hasOnlyOneInput ∧ hasNoOutputs ∧ hasMb then inputs.head? else none

/-- How a tick ends: with the substituted burns, or at a burn that the contract refuses. -/
inductive TickResult
  | ok (substitutedBurns : List Element)
  | failed (nullifier : Element) (outcome : Outcome Revert Unit)

/-- Where a tick is. -/
inductive Phase
  /-- Between two ticks, with how the last one ended. -/
  | idle (last : Option TickResult)
  /-- The transactions are fetched. -/
  | fetch
  /-- The transactions of a page that are left; for a burn the contract is asked whether it was
  substituted. -/
  | loop (page : List TxnWithInfo) (after : Option (CursorChoiceAfter ListTxnsPosition))
    (rest : List TxnWithInfo) (substitutedBurns : List Element)
  /-- A burn is to be substituted. -/
  | substitute (page : List TxnWithInfo) (after : Option (CursorChoiceAfter ListTxnsPosition))
    (nullifier : Element) (txn : TxnWithInfo) (rest : List TxnWithInfo)
    (substitutedBurns : List Element)

/-- `BurnSubstitutor`, with where its tick is. -/
structure BurnSubstitutor where
  cursor : Option (CursorChoice ListTxnsPosition)
  phase : Phase

/-- `BurnSubstitutor::new`. -/
def BurnSubstitutor.new : BurnSubstitutor := ⟨none, .idle none⟩

/-- The transactions of a node, the contract with its last height, the substitutor, and the height
that it started from. -/
structure System (T : Type) where
  blocks : List Block
  world : Contract.World T
  blockHeight : ℕ
  start : ℕ
  substitutor : BurnSubstitutor

section Machine

variable (token : ERC20 T) (contract : Address)

/-- `tick`, from one request to the next. -/
def System.tick (self : System T) (env : Env T) : System T :=
  let set (cursor : Option (CursorChoice ListTxnsPosition)) (phase : Phase) : System T :=
    { self with substitutor := ⟨cursor, phase⟩ }
  let cursor := self.substitutor.cursor
  match self.substitutor.phase with
  | .idle _ =>
    match cursor with
    | none =>
      -- `fetch_last_rollup_block`
      { self with
        start := self.blockHeight
        substitutor := ⟨some (.after (.after ⟨self.blockHeight, U64 - 1⟩)), .fetch⟩ }
    | some _ => set cursor .fetch
  | .fetch =>
    let (next, txns) := listTxnsInner self.blocks ⟨none, cursor, .oldestToNewest⟩
    set cursor (.loop txns next.after txns [])
  | .loop page after [] substitutedBurns =>
    set (if page.isEmpty then cursor else after.map CursorChoice.after)
      (.idle (some (.ok substitutedBurns)))
  | .loop page after (txn :: rest) substitutedBurns =>
    match burnNullifier txn.proof with
    | none => set cursor (.loop page after rest substitutedBurns)
    | some nullifier =>
      -- `was_burn_substituted`
      if self.world.rollup.substitutedBurns nullifier then
        set cursor (.loop page after rest substitutedBurns)
      else set cursor (.substitute page after nullifier txn rest substitutedBurns)
  | .substitute page after nullifier txn rest substitutedBurns =>
    let r := Program.atomically (Contract.Bank.substituteBurn token contract env nullifier
      txn.proof.mbValue.toNat) self.world
    let self := { self with world := r.2 }
    match r.1 with
    | .ok _ =>
      { self with
        substitutor := ⟨cursor, .loop page after rest (substitutedBurns ++ [nullifier])⟩ }
    | outcome => { self with substitutor := ⟨cursor, .idle (some (.failed nullifier outcome))⟩ }

/-- What may happen next. -/
inductive Op (T : Type)
  /-- The node commits a block. -/
  | commit (block : Block)
  /-- Others use the contract and the token. -/
  | others (world : Contract.World T) (blockHeight : ℕ)
  /-- The substitutor goes on. -/
  | tick (env : Env T)

/-- A step of the system. -/
def System.step (self : System T) : Op T → System T
  | .commit block => { self with blocks := self.blocks ++ [block] }
  | .others world blockHeight => { self with world := world, blockHeight := blockHeight }
  | .tick env => self.tick token contract env

/-- The rules for a step: blocks are committed in the order of their heights, and others, and the
routers that are called, do what they can do to the contract. -/
def System.Lawful (verifiers : Verifiers) (self : System T) : Op T → Prop
  | .commit block => ∀ b ∈ self.blocks, b.content.header.height < block.content.header.height
  | .others world _ =>
    Contract.Bank.Reaches token contract verifiers (fun _ _ => True) false self.world world
  | .tick env => env.signer ≠ contract ∧ ∀ router calldata w,
    Contract.Bank.Reaches token contract verifiers (fun _ _ => True) true w
      (env.router router calldata w).2

/-! ## What is said of a run -/

/-- The cursor has passed a transaction. -/
def System.Passed (self : System T) (txn : TxnWithInfo) : Prop :=
  match self.substitutor.cursor with
  | some (.after c) => c.Passed txn.position
  | _ => False

/-- The transactions that the present tick has handled. -/
def Phase.handled : Phase → List TxnWithInfo
  | loop page _ rest _ => page.take (page.length - rest.length)
  | substitute page _ _ _ rest _ => page.take (page.length - (rest.length + 1))
  | _ => []

/-- The page of the present tick. -/
def Phase.page : Phase → Option (List TxnWithInfo)
  | loop page _ _ _ => some page
  | substitute page _ _ _ _ _ => some page
  | _ => none

/-- How many requests the present tick may still make. -/
def Phase.remaining : Phase → ℕ
  | loop _ _ rest _ => 2 * rest.length + 1
  | substitute _ _ _ _ rest _ => 2 * rest.length + 2
  | _ => 0

/-- The substitutor goes on. -/
def Op.isTick : Op T → Bool
  | tick _ => true
  | _ => false

/-- Every burn above the height at the start that the cursor has passed, or that the present tick
has handled, is substituted exactly once. -/
def System.SubstitutedOnce (self : System T) : Prop :=
  ∀ txn ∈ allTxns self.blocks, self.start < txn.blockHeight →
    (self.Passed txn ∨ txn ∈ self.substitutor.phase.handled) →
    ∀ nullifier, burnNullifier txn.proof = some nullifier → substitutions nullifier self.world = 1

/-- The last tick was not stopped by a burn that is rolled up or substituted. -/
def System.NotStopped (self : System T) : Prop :=
  ∀ nullifier reason, self.substitutor.phase = .idle (some (.failed nullifier (.err reason))) →
    ¬ IsMarked reason

/-- The tick has ended, with an error or with its page passed. -/
def System.Ended (self : System T) (page : List TxnWithInfo) : Prop :=
  ∃ result, self.substitutor.phase = .idle (some result) ∧
    ((∃ nullifier outcome, result = .failed nullifier outcome) ∨ ∀ txn ∈ page, self.Passed txn)

/-- Whatever happens next, after some more requests the present tick ends. -/
def System.Completes (self : System T) : Prop :=
  ∀ page, self.substitutor.phase.page = some page → ∀ ops : List (Op T),
    self.substitutor.phase.remaining ≤ ops.countP Op.isTick →
    ∃ s ∈ Runs.states (System.step token contract) self ops, s.Ended page

/-- A burn that the substitutor tries is neither substituted nor rolled up. -/
def System.Unmarked (self : System T) : Op T → Prop
  | .tick _ => ∀ page after nullifier txn rest substitutedBurns,
    self.substitutor.phase = .substitute page after nullifier txn rest substitutedBurns →
      self.world.rollup.substitutedBurns nullifier = false ∧
        self.world.rollup.rolledUpLeafs nullifier = false
  | _ => True

end Machine

/-! ## The invariant -/

section Invariant

/-- A transaction that is a burn is marked as substituted. -/
def Marked (world : Contract.World T) (txn : TxnWithInfo) : Prop :=
  ∀ nullifier, burnNullifier txn.proof = some nullifier →
    world.rollup.substitutedBurns nullifier = true

/-- The cursor is at the start, or that of a committed transaction. -/
def Anchored (blocks : List Block) (start : ℕ) : CursorChoiceAfter ListTxnsPosition → Prop
  | .after pos => pos.block = start
  | .afterInclusive last => ∃ block ∈ blocks, last.block = block.content.header.height

/-- What holds of a page and the cursor after it. -/
structure Paged (blocks : List Block) (c : CursorChoiceAfter ListTxnsPosition)
    (page : List TxnWithInfo) (after : Option (CursorChoiceAfter ListTxnsPosition)) : Prop where
  sorted : page.Pairwise fun a b => a.position.Before b.position
  after_eq : after = page.getLast?.map fun txn => .afterInclusive txn.position
  committed : ∀ txn ∈ page, ∃ block ∈ blocks, txn.blockHeight = block.content.header.height
  covers : ∀ last, page.getLast? = some last → ∀ txn ∈ allTxns blocks,
    (CursorChoiceAfter.afterInclusive last.position).Passed txn.position →
      c.Passed txn.position ∨ txn ∈ page

/-- What holds in each phase, for the cursor at the beginning of the tick. -/
def Phase.Fits (blocks : List Block) (world : Contract.World T)
    (cursor : Option (CursorChoice ListTxnsPosition)) : Phase → Prop
  | .idle last => ∀ nullifier reason, last = some (.failed nullifier (.err reason)) →
    ¬ IsMarked reason
  | .fetch => ∃ c, cursor = some (.after c)
  | .loop page after rest _ => ∃ c done, cursor = some (.after c) ∧ page = done ++ rest ∧
    (∀ txn ∈ done, Marked world txn) ∧ Paged blocks c page after
  | .substitute page after nullifier txn rest _ => ∃ c done, cursor = some (.after c) ∧
    page = done ++ txn :: rest ∧ burnNullifier txn.proof = some nullifier ∧
    (∀ txn ∈ done, Marked world txn) ∧ Paged blocks c page after

/-- **The invariant.** -/
structure System.Inv (s : System T) : Prop where
  sorted : s.blocks.Pairwise fun a b => a.content.header.height < b.content.header.height
  counted : ∀ n, substitutions n s.world = if s.world.rollup.substitutedBurns n then 1 else 0
  cursor : ∀ cursor, s.substitutor.cursor = some cursor → ∃ c, cursor = .after c ∧
    Anchored s.blocks s.start c ∧
    ∀ txn ∈ allTxns s.blocks, s.start < txn.blockHeight → c.Passed txn.position →
      Marked s.world txn
  phase : s.substitutor.phase.Fits s.blocks s.world s.substitutor.cursor

variable {token : ERC20 T} {contract : Address} {verifiers : Verifiers} {s : System T}

/-- A transaction that is marked stays marked. -/
lemma Marked.mono {a b : Contract.World T} (h : Marks a b) {txn : TxnWithInfo} (hm : Marked a txn) :
    Marked b txn :=
  fun nullifier hn => h.substituted (hm nullifier hn)

/-- The count of substitutions goes with the marks. -/
lemma counted_of_marks {a b : Contract.World T} (h : Marks a b)
    (ha : ∀ n, substitutions n a = if a.rollup.substitutedBurns n then 1 else 0) (n : Element) :
    substitutions n b = if b.rollup.substitutedBurns n then 1 else 0 := by
  rcases h n with ⟨hsame, hcount⟩ | ⟨hfalse, htrue, hcount⟩
  · rw [hcount, hsame, ha n]
  · rw [hcount, htrue, ha n, hfalse]
    rfl

/-- What holds in a phase when more burns are marked, or more blocks committed. -/
lemma Phase.Fits.mono {blocks blocks' : List Block} {a b : Contract.World T}
    {cursor : Option (CursorChoice ListTxnsPosition)} {phase : Phase}
    (h : phase.Fits blocks a cursor) (hmarks : Marks a b)
    (hpaged : ∀ c page after, Paged blocks c page after → Paged blocks' c page after) :
    phase.Fits blocks' b cursor := by
  cases phase with
  | idle last => exact h
  | fetch => exact h
  | loop page after rest burns =>
    obtain ⟨c, done, hc, hpage, hdone, hp⟩ := h
    exact ⟨c, done, hc, hpage, fun txn htxn => (hdone txn htxn).mono hmarks, hpaged _ _ _ hp⟩
  | substitute page after nullifier txn rest burns =>
    obtain ⟨c, done, hc, hpage, hn, hdone, hp⟩ := h
    exact ⟨c, done, hc, hpage, hn, fun txn htxn => (hdone txn htxn).mono hmarks, hpaged _ _ _ hp⟩

/-- What others do to the contract. -/
lemma System.Inv.others {world : Contract.World T} (h : s.Inv) (hmarks : Marks s.world world)
    (blockHeight : ℕ) : { s with world := world, blockHeight := blockHeight : System T }.Inv := by
  refine ⟨h.sorted, counted_of_marks hmarks h.counted, fun cursor hcursor => ?_,
    h.phase.mono hmarks fun _ _ _ hp => hp⟩
  obtain ⟨c, hc, hanchored, hpassed⟩ := h.cursor cursor hcursor
  exact ⟨c, hc, hanchored, fun txn htxn hstart hp => (hpassed txn htxn hstart hp).mono hmarks⟩

/-- **A new block** is above all others, so that no cursor has passed its transactions. -/
lemma System.Inv.commit {block : Block} (h : s.Inv)
    (hblock : ∀ b ∈ s.blocks, b.content.header.height < block.content.header.height) :
    { s with blocks := s.blocks ++ [block] : System T }.Inv := by
  have hall : ∀ txn ∈ allTxns (s.blocks ++ [block]),
      txn ∈ allTxns s.blocks ∨ txn ∈ txnsOf block := by
    intro txn htxn
    simpa [allTxns] using htxn
  have hpaged : ∀ c page after, Paged s.blocks c page after →
      Paged (s.blocks ++ [block]) c page after := by
    intro c page after hp
    refine ⟨hp.sorted, hp.after_eq, fun txn htxn => ?_, fun last hlast txn htxn hpassed => ?_⟩
    · obtain ⟨b, hb, hheight⟩ := hp.committed txn htxn
      exact ⟨b, List.mem_append_left _ hb, hheight⟩
    · rcases hall txn htxn with hold | hnew
      · exact hp.covers last hlast txn hold hpassed
      · obtain ⟨b, hb, hheight⟩ := hp.committed last (List.mem_of_getLast? hlast)
        refine absurd hpassed (not_passed_of_lt ?_ hnew)
        change last.blockHeight < _
        rw [hheight]
        exact hblock b hb
  refine ⟨?_, h.counted, fun cursor hcursor => ?_, h.phase.mono (.refl _) hpaged⟩
  · rw [List.pairwise_append]
    refine ⟨h.sorted, List.pairwise_singleton _ _, fun a ha b hb => ?_⟩
    rw [List.mem_singleton.1 hb]
    exact hblock a ha
  · obtain ⟨c, hc, hanchored, hpassed⟩ := h.cursor cursor hcursor
    refine ⟨c, hc, ?_, fun txn htxn hstart hp => ?_⟩
    · cases c with
      | after pos => exact hanchored
      | afterInclusive last =>
        obtain ⟨b, hb, hheight⟩ := hanchored
        exact ⟨b, List.mem_append_left _ hb, hheight⟩
    · rcases hall txn htxn with hold | hnew
      · exact hpassed txn hold hstart hp
      · cases c with
        | after pos =>
          have hle : txn.blockHeight ≤ pos.block := hp
          rw [show pos.block = s.start from hanchored] at hle
          exact absurd hstart (not_lt.2 hle)
        | afterInclusive last =>
          obtain ⟨b, hb, hheight⟩ := hanchored
          exact absurd hp (not_passed_of_lt (hheight ▸ hblock b hb) hnew)

/-- **A page that is fetched.** -/
lemma paged_listTxnsInner {blocks : List Block} (hsorted : blocks.Pairwise fun a b =>
      a.content.header.height < b.content.header.height) (c : CursorChoiceAfter ListTxnsPosition) :
    Paged blocks c (listTxnsInner blocks ⟨none, some (.after c), .oldestToNewest⟩).2
      (listTxnsInner blocks ⟨none, some (.after c), .oldestToNewest⟩).1.after := by
  let left := ListTxnOrder.oldestToNewest.left blocks (some c)
  have hpage : (listTxnsInner blocks ⟨none, some (.after c), .oldestToNewest⟩).2 = left.take 10 :=
    listTxnsInner_left hsorted none (some c)
  have hleft : left.Pairwise fun a b => a.position.Before b.position :=
    pairwise_left_oldestToNewest hsorted
  have happend := List.take_append_drop 10 left
  refine ⟨?_, listTxnsInner_after _, ?_, ?_⟩
  · rw [hpage]
    exact hleft.sublist (List.take_sublist 10 _)
  · intro txn htxn
    rw [hpage] at htxn
    have hmem := (mem_left_oldestToNewest.1 (List.mem_of_mem_take htxn)).1
    obtain ⟨block, hblock, htxn⟩ := List.mem_flatMap.1 hmem
    exact ⟨block, hblock, height_of_mem_txnsOf htxn⟩
  · intro last hlast txn htxn hpassed
    rw [hpage] at hlast ⊢
    by_cases hc : c.Passed txn.position
    · exact .inl hc
    · have hmem : txn ∈ left := mem_left_oldestToNewest.2 ⟨htxn, hc⟩
      rw [← happend] at hmem hleft
      exact .inr ((passed_next hleft hlast hmem).1 hpassed)

/-- **The end of a page**: what the new cursor has passed is marked. -/
lemma System.Inv.endPage {page : List TxnWithInfo}
    {after : Option (CursorChoiceAfter ListTxnsPosition)} {burns : List Element} (h : s.Inv)
    (hphase : s.substitutor.phase = .loop page after [] burns) :
    { s with substitutor :=
      ⟨if page.isEmpty then s.substitutor.cursor else after.map CursorChoice.after,
        .idle (some (.ok burns))⟩ : System T }.Inv := by
  have hfits := h.phase
  rw [hphase] at hfits
  obtain ⟨c, done, hc, hpage, hdone, hpaged⟩ := hfits
  rw [List.append_nil] at hpage
  subst hpage
  refine ⟨h.sorted, h.counted, fun cursor hcursor => ?_, fun nullifier reason hlast => ?_⟩
  · change (if page.isEmpty then _ else _) = _ at hcursor
    split_ifs at hcursor with hempty
    · exact h.cursor cursor hcursor
    · have hne : page ≠ [] := by simpa using hempty
      rw [hpaged.after_eq, List.getLast?_eq_some_getLast hne] at hcursor
      obtain rfl : CursorChoice.after (.afterInclusive (page.getLast hne).position) = cursor := by
        simpa using hcursor
      have hlast := List.getLast?_eq_some_getLast hne
      refine ⟨_, rfl, ?_, fun txn htxn hstart hpassed => ?_⟩
      · exact hpaged.committed _ (List.getLast_mem hne)
      · rcases hpaged.covers _ hlast txn htxn hpassed with hbefore | hmem
        · obtain ⟨c', hc', -, hmarked⟩ := h.cursor _ hc
          cases hc'
          exact hmarked txn htxn hstart hbefore
        · exact hdone txn hmem
  · cases hlast

/-- **The next transaction of a page** is handled: it is no burn, or it is marked. -/
lemma System.Inv.next {page rest : List TxnWithInfo} {txn : TxnWithInfo}
    {after : Option (CursorChoiceAfter ListTxnsPosition)} {c : CursorChoiceAfter ListTxnsPosition}
    {done : List TxnWithInfo} (h : s.Inv) (hc : s.substitutor.cursor = some (.after c))
    (hpage : page = done ++ txn :: rest) (hdone : ∀ txn ∈ done, Marked s.world txn)
    (htxn : Marked s.world txn) (hpaged : Paged s.blocks c page after) (burns : List Element) :
    { s with
      substitutor := ⟨s.substitutor.cursor, .loop page after rest burns⟩ : System T }.Inv := by
  refine ⟨h.sorted, h.counted, h.cursor, c, done ++ [txn], hc, ?_, ?_, hpaged⟩
  · rw [hpage, List.append_assoc, List.singleton_append]
  · exact List.forall_mem_append.2 ⟨hdone, List.forall_mem_singleton.2 htxn⟩

/-- The call of `substituteBurn` is a step of the contract. -/
lemma marks_substituteBurn {env : Env T}
    (hlaw : s.Lawful token contract verifiers (.tick env)) (nullifier : Element) (value : ℕ) :
    Marks s.world (Program.atomically
      (Contract.Bank.substituteBurn token contract env nullifier value) s.world).2 :=
  Contract.Bank.Reaches.marks
    (((Contract.Bank.Reaches.refl false s.world).call env (.substituteBurn nullifier value) trivial
      hlaw.1 hlaw.2 : Contract.Bank.Reaches token contract verifiers (fun _ _ => True) false _ _))

/-- **A tick, from one request to the next.** -/
lemma System.Inv.tick {env : Env T} (h : s.Inv)
    (hlaw : s.Lawful token contract verifiers (.tick env)) (hgood : s.Unmarked (.tick env)) :
    (s.tick token contract env).Inv := by
  obtain ⟨blocks, world, blockHeight, start, cursor, phase⟩ := s
  have hfits := h.phase
  cases phase with
  | idle last =>
    cases cursor with
    | none =>
      refine ⟨h.sorted, h.counted, ?_, ⟨_, rfl⟩⟩
      rintro _ ⟨⟩
      refine ⟨_, rfl, rfl, fun txn htxn hstart hpassed => ?_⟩
      exact absurd hstart (not_lt.2 hpassed)
    | some cursor =>
      obtain ⟨c, rfl, -⟩ := h.cursor cursor rfl
      exact ⟨h.sorted, h.counted, h.cursor, c, rfl⟩
  | fetch =>
    obtain ⟨c, rfl⟩ := hfits
    exact ⟨h.sorted, h.counted, h.cursor, c, [], rfl, rfl, by simp,
      paged_listTxnsInner h.sorted c⟩
  | loop page after rest burns =>
    cases rest with
    | nil => exact h.endPage rfl
    | cons txn rest =>
      obtain ⟨c, done, hc, hpage, hdone, hpaged⟩ := hfits
      cases hburn : burnNullifier txn.proof with
      | none =>
        simp only [System.tick, hburn]
        refine h.next hc hpage hdone (fun nullifier hn => ?_) hpaged burns
        rw [hburn] at hn
        cases hn
      | some nullifier =>
        simp only [System.tick, hburn]
        split_ifs with hsub
        · refine h.next hc hpage hdone (fun k hk => ?_) hpaged burns
          rw [hburn] at hk
          cases hk
          exact hsub
        · exact ⟨h.sorted, h.counted, h.cursor, c, done, hc, hpage, hburn, hdone, hpaged⟩
  | substitute page after nullifier txn rest burns =>
    obtain ⟨c, done, hc, hpage, hburn, hdone, hpaged⟩ := hfits
    have hmarks := marks_substituteBurn hlaw nullifier txn.proof.mbValue.toNat
    have hworld := h.others hmarks blockHeight
    obtain ⟨hsub, hrolled⟩ := hgood page after nullifier txn rest burns rfl
    simp only [System.tick]
    cases hr : (Program.atomically (Contract.Bank.substituteBurn token contract env nullifier
        txn.proof.mbValue.toNat) world).1 with
    | ok u =>
      refine hworld.next hc hpage (fun txn htxn => (hdone txn htxn).mono hmarks) (fun k hk => ?_)
        hpaged _
      rw [hburn] at hk
      cases hk
      exact Contract.Bank.substituted_of_ok
        (fun router calldata w => (hlaw.2 router calldata w).marks)
        (Program.eq_ok_of_atomically hr)
    | err reason =>
      refine ⟨hworld.sorted, hworld.counted, hworld.cursor, ?_⟩
      rintro _ _ ⟨⟩ hmarked
      rw [Program.fst_atomically] at hr
      rcases Contract.Bank.substituteBurn_reverts_iff.1 ⟨reason, hmarked, hr⟩ with htrue | htrue
      · rw [hsub] at htrue
        cases htrue
      · rw [hrolled] at htrue
        cases htrue
    | panic =>
      refine ⟨hworld.sorted, hworld.counted, hworld.cursor, ?_⟩
      rintro _ _ ⟨⟩

end Invariant

/-! ## The end of a tick -/

section Ends

variable {token : ERC20 T} {contract : Address} {s : System T} {page : List TxnWithInfo}

/-- The tick is at the page, with the cursor of its last transaction. -/
def Phase.IsAt (page : List TxnWithInfo) (phase : Phase) : Prop :=
  (∃ rest burns, phase = .loop page
      (page.getLast?.map fun txn => .afterInclusive txn.position) rest burns) ∨
    ∃ nullifier txn rest burns, phase = .substitute page
      (page.getLast?.map fun txn => .afterInclusive txn.position) nullifier txn rest burns

/-- At a page there is something left to do. -/
lemma Phase.IsAt.remaining_pos {phase : Phase} (h : phase.IsAt page) : 0 < phase.remaining := by
  rcases h with ⟨rest, burns, rfl⟩ | ⟨nullifier, txn, rest, burns, rfl⟩
  all_goals exact Nat.succ_pos _

/-- The end of the loop: the new cursor has passed the page. -/
lemma ended_endPage (hsorted : page.Pairwise fun a b => a.position.Before b.position)
    (burns : List Element) (cursor : Option (CursorChoice ListTxnsPosition)) :
    { s with substitutor := ⟨if page.isEmpty then cursor else
        (page.getLast?.map fun txn => CursorChoiceAfter.afterInclusive txn.position).map
          CursorChoice.after, .idle (some (.ok burns))⟩ : System T }.Ended page := by
  refine ⟨_, rfl, .inr fun txn htxn => ?_⟩
  have hne : page ≠ [] := List.ne_nil_of_mem htxn
  have hlast := List.getLast?_eq_some_getLast hne
  have hempty : page.isEmpty = false := by simpa using hne
  rw [hlast, hempty]
  change (CursorChoiceAfter.afterInclusive _).Passed txn.position
  have hsorted' : (page ++ []).Pairwise
      fun a b : TxnWithInfo => a.position.Before b.position := by
    rwa [List.append_nil]
  exact (passed_next hsorted' hlast (List.mem_append_left _ htxn)).2 htxn

/-- **One request of a tick**: the tick ends, or fewer requests are left. -/
lemma tick_cases (hsorted : page.Pairwise fun a b => a.position.Before b.position)
    (hat : s.substitutor.phase.IsAt page) (env : Env T) :
    (s.tick token contract env).Ended page ∨
      (s.tick token contract env).substitutor.phase.IsAt page ∧
        (s.tick token contract env).substitutor.phase.remaining <
          s.substitutor.phase.remaining := by
  obtain ⟨blocks, world, blockHeight, start, cursor, phase⟩ := s
  rcases hat with ⟨rest, burns, rfl⟩ | ⟨nullifier, txn, rest, burns, rfl⟩
  · cases rest with
    | nil => exact .inl (ended_endPage hsorted burns cursor)
    | cons txn rest =>
      right
      cases hburn : burnNullifier txn.proof with
      | none =>
        simp only [System.tick, hburn]
        refine ⟨.inl ⟨_, _, rfl⟩, ?_⟩
        simp only [Phase.remaining, List.length_cons]
        omega
      | some nullifier =>
        simp only [System.tick, hburn]
        split_ifs
        · refine ⟨.inl ⟨_, _, rfl⟩, ?_⟩
          simp only [Phase.remaining, List.length_cons]
          omega
        · refine ⟨.inr ⟨_, _, _, _, rfl⟩, ?_⟩
          simp only [Phase.remaining, List.length_cons]
          omega
  · simp only [System.tick]
    cases (Program.atomically (Contract.Bank.substituteBurn token contract env nullifier
        txn.proof.mbValue.toNat) world).1 with
    | ok u =>
      refine .inr ⟨.inl ⟨_, _, rfl⟩, ?_⟩
      simp only [Phase.remaining]
      omega
    | err reason => exact .inl ⟨_, rfl, .inl ⟨_, _, rfl⟩⟩
    | panic => exact .inl ⟨_, rfl, .inl ⟨_, _, rfl⟩⟩

/-- **A tick ends** after its requests, whatever else happens. By induction on the steps.

**Proof sketch.** A step of anyone else leaves the tick where it is. A step of the tick makes one
request, so that one less remains, and at the last one the tick ends. -/
theorem System.tick_ends (hsorted : page.Pairwise fun a b => a.position.Before b.position)
    (hat : s.substitutor.phase.IsAt page) (ops : List (Op T))
    (hops : s.substitutor.phase.remaining ≤ ops.countP Op.isTick) :
    ∃ s' ∈ Runs.states (System.step token contract) s ops, s'.Ended page := by
  induction ops generalizing s with
  | nil =>
    have hpos := hat.remaining_pos
    rw [List.countP_nil] at hops
    omega
  | cons op ops ih =>
    -- a step of others leaves the tick where it is
    have hothers : op.isTick = false →
        (s.step token contract op).substitutor = s.substitutor := by
      intro hop
      cases op with
      | tick env => cases hop
      | _ => rfl
    cases hop : op.isTick with
    | false =>
      rw [List.countP_cons_of_neg (by simp [hop])] at hops
      have hsame := hothers hop
      obtain ⟨s', hs', hended⟩ := ih (s := s.step token contract op) (by rwa [hsame])
        (by rwa [hsame])
      exact ⟨s', List.mem_cons_of_mem _ hs', hended⟩
    | true =>
      obtain ⟨env, rfl⟩ : ∃ env, op = .tick env := by
        cases op with
        | tick env => exact ⟨env, rfl⟩
        | _ => cases hop
      rw [List.countP_cons_of_pos hop] at hops
      rcases tick_cases hsorted hat env with hended | ⟨hat', hlt⟩
      · exact ⟨_, List.mem_cons_of_mem _ (Runs.self_mem_states _ _), hended⟩
      · obtain ⟨s', hs', hended⟩ := ih (s := s.tick token contract env) hat' (by omega)
        exact ⟨s', List.mem_cons_of_mem _ hs', hended⟩

end Ends

/-! ## Runs -/

section Runs

variable {token : ERC20 T} {contract : Address} {verifiers : Verifiers} {s : System T}

/-- A marked burn is substituted exactly once. -/
lemma System.Inv.substitutedOnce (h : s.Inv) : s.SubstitutedOnce := by
  have honce : ∀ txn, Marked s.world txn → ∀ nullifier, burnNullifier txn.proof = some nullifier →
      substitutions nullifier s.world = 1 := by
    intro txn hmarked nullifier hn
    rw [h.counted, hmarked nullifier hn]
    rfl
  intro txn htxn hstart hreached
  refine honce txn ?_
  rcases hreached with hpassed | hhandled
  · cases hcursor : s.substitutor.cursor with
    | none =>
      rw [System.Passed, hcursor] at hpassed
      exact hpassed.elim
    | some cursor =>
      obtain ⟨c, rfl, -, hmarked⟩ := h.cursor cursor hcursor
      rw [System.Passed, hcursor] at hpassed
      exact hmarked txn htxn hstart hpassed
  · have hfits := h.phase
    cases hphase : s.substitutor.phase with
    | idle last =>
      rw [hphase] at hhandled
      cases hhandled
    | fetch =>
      rw [hphase] at hhandled
      cases hhandled
    | loop page after rest burns =>
      rw [hphase] at hhandled hfits
      obtain ⟨c, done, -, rfl, hdone, -⟩ := hfits
      simp only [Phase.handled, List.length_append, Nat.add_sub_cancel, List.take_left] at hhandled
      exact hdone txn hhandled
    | substitute page after nullifier txn' rest burns =>
      rw [hphase] at hhandled hfits
      obtain ⟨c, done, -, rfl, -, hdone, -⟩ := hfits
      simp only [Phase.handled, List.length_append, List.length_cons, Nat.add_sub_cancel,
        List.take_left] at hhandled
      exact hdone txn hhandled

/-- With the invariant no tick has stopped at the mark of a burn. -/
lemma System.Inv.notStopped (h : s.Inv) : s.NotStopped := by
  intro nullifier reason hphase
  have hfits := h.phase
  rw [hphase] at hfits
  exact hfits nullifier reason rfl

/-- With the invariant a tick at a page completes it. -/
lemma System.Inv.completes (h : s.Inv) : s.Completes token contract := by
  intro page hpage ops hops
  have hfits := h.phase
  have hat : s.substitutor.phase.IsAt page ∧
      page.Pairwise fun a b => a.position.Before b.position := by
    cases hphase : s.substitutor.phase with
    | idle last =>
      rw [hphase] at hpage
      cases hpage
    | fetch =>
      rw [hphase] at hpage
      cases hpage
    | loop page' after rest burns =>
      rw [hphase] at hpage hfits
      cases hpage
      obtain ⟨c, done, -, -, -, hpaged⟩ := hfits
      exact ⟨.inl ⟨rest, burns, by rw [← hpaged.after_eq]⟩, hpaged.sorted⟩
    | substitute page' after nullifier txn rest burns =>
      rw [hphase] at hpage hfits
      cases hpage
      obtain ⟨c, done, -, -, -, -, hpaged⟩ := hfits
      exact ⟨.inr ⟨nullifier, txn, rest, burns, by rw [← hpaged.after_eq]⟩, hpaged.sorted⟩
  exact System.tick_ends hat.2 hat.1 ops hops

/-- What a step keeps. -/
lemma System.Inv.step (h : s.Inv) {op : Op T} (hlaw : s.Lawful token contract verifiers op)
    (hgood : s.Unmarked op) : (s.step token contract op).Inv := by
  cases op with
  | commit block => exact h.commit hlaw
  | others world blockHeight => exact h.others (Contract.Bank.Reaches.marks hlaw) blockHeight
  | tick env => exact h.tick hlaw hgood

/-- A burn that is marked stops the tick. -/
lemma unmarked_of_notStopped {op : Op T} (h : (s.step token contract op).NotStopped) :
    s.Unmarked op := by
  cases op with
  | tick env =>
    intro page after nullifier txn rest burns hphase
    by_contra hmarked
    rw [← Bool.not_eq_true, ← Bool.not_eq_true, ← not_or, not_not] at hmarked
    obtain ⟨reason, hreason, herr⟩ := (@Contract.Bank.substituteBurn_reverts_iff T token contract
      env s.world nullifier txn.proof.mbValue.toNat).2 hmarked
    refine h nullifier reason ?_ hreason
    rw [← Program.fst_atomically] at herr
    simp only [System.step, System.tick, hphase, herr]
  | _ => trivial

/-- Before the first tick. -/
def System.init (w₀ : Contract.World T) : System T := ⟨[], w₀, 0, 0, .new⟩

/-- **The burn substitutor.** In every run, every burn above the height at the start that the
substitutor has passed or handled is substituted exactly once, no tick is stopped by a burn that
is rolled up or substituted, and every tick ends, with an error or with its page passed; exactly if
every burn is, when it is tried, neither rolled up nor substituted.

**Proof sketch.** By `Runs.forall_states_iff_of_law`: with the invariant `System.Inv` the three
properties hold, and a step whose burn is neither rolled up nor substituted keeps it. -/
theorem System.substitutes_iff {w₀ : Contract.World T} (hrollup : w₀.rollup = .initial)
    (hevents : w₀.events = []) {ops : List (Op T)}
    (hlaw : Runs.Along (System.step token contract) (System.Lawful token contract verifiers)
      (System.init w₀) ops) :
    (∀ s ∈ Runs.states (System.step token contract) (System.init w₀) ops,
      s.SubstitutedOnce ∧ s.NotStopped ∧ s.Completes token contract) ↔
    Runs.Along (System.step token contract) System.Unmarked (System.init w₀) ops := by
  have hinit : (System.init w₀).Inv := by
    refine ⟨List.Pairwise.nil, fun n => ?_, ?_, ?_⟩
    · change substitutions n w₀ = if w₀.rollup.substitutedBurns n then 1 else 0
      rw [hrollup, substitutions, hevents]
      rfl
    · rintro _ ⟨⟩
    · rintro _ _ ⟨⟩
  exact Runs.forall_states_iff_of_law
    (fun s h => ⟨h.substitutedOnce, h.notStopped, h.completes⟩)
    (fun s op hop h hgood => h.step hop hgood)
    (fun s op _ _ h => unmarked_of_notStopped h.2.1) hinit hlaw

end Runs

namespace Sample

open Contract.Bank.Sample (Ledger token verifiers start env after)

/-- A burn of three, registered as 8. -/
def burn : UtxoProof :=
  { recentRoot := 0, mbHash := 8, mbValue := 3, inputLeaves := (8, 0), outputLeaves := (0, 0),
    proof := [] }

/-- The block with the burn. -/
def block : Block :=
  ⟨⟨{ BlockContent.genesis.header with height := 1 }, ⟨0, [burn]⟩⟩, .default⟩

/-- The burn is registered. -/
def registered : Contract.World Ledger :=
  after [(env 2, .mint [] 7 5 0), (env 4, .burn 4 [] 8 3 0 0)]

/-- The burn is rolled up. -/
def rolledUp : Contract.World Ledger :=
  (Program.atomically (Contract.Bank.call token 1 verifiers (env 3) (.verifyTxn 8 3)) registered).2

/-- The contract of the sample reaches the state with the registered burn. -/
lemma reaches_registered : Contract.Bank.Reaches token 1 verifiers (fun _ _ => True) false start
    registered := by
  refine Contract.Bank.Sample.reaches_after fun c hc => ⟨trivial, ?_⟩
  simp only [List.mem_cons, List.not_mem_nil, or_false] at hc
  rcases hc with rfl | rfl
  all_goals exact ⟨(by decide : (0 : Contract.Address) ≠ 1), fun _ _ w => .refl true w⟩

/-- Ticks of the sample are lawful. -/
lemma lawful_tick (s : System Ledger) (msgSender : Contract.Address) :
    s.Lawful token 1 verifiers (.tick (env msgSender)) :=
  ⟨(by decide : (0 : Contract.Address) ≠ 1), fun _ _ w => .refl true w⟩

/-- A burn is substituted in time. -/
theorem substitutes_in_time :
    Runs.Along (System.step token 1) (System.Lawful token 1 verifiers) (System.init start)
        [.others registered 0, .commit block, .tick (env 2), .tick (env 2), .tick (env 2),
          .tick (env 2), .tick (env 2)] ∧
      ∀ s ∈ Runs.states (System.step token 1) (System.init start)
        [.others registered 0, .commit block, .tick (env 2), .tick (env 2), .tick (env 2),
          .tick (env 2), .tick (env 2)],
        s.SubstitutedOnce ∧ s.NotStopped ∧ s.Completes token 1 := by
  have hlawful : Runs.Along (System.step token 1) (System.Lawful token 1 verifiers)
      (System.init start) [.others registered 0, .commit block, .tick (env 2), .tick (env 2),
        .tick (env 2), .tick (env 2), .tick (env 2)] :=
    ⟨reaches_registered, fun b hb => absurd hb List.not_mem_nil, lawful_tick _ 2,
      lawful_tick _ 2, lawful_tick _ 2, lawful_tick _ 2, lawful_tick _ 2, trivial⟩
  refine ⟨hlawful, (@System.substitutes_iff Ledger token 1 verifiers start rfl rfl _ hlawful).2 ?_⟩
  refine ⟨trivial, trivial, ?_, ?_, ?_, ?_, ?_, trivial⟩
  · rintro _ _ _ _ _ _ ⟨⟩
  · rintro _ _ _ _ _ _ ⟨⟩
  · rintro _ _ _ _ _ _ ⟨⟩
  · rintro _ _ _ _ _ _ ⟨⟩
    exact ⟨rfl, rfl⟩
  · rintro _ _ _ _ _ _ ⟨⟩

/-- A burn is rolled up between the fetch of its page and the attempt to substitute it. -/
theorem stopped_by_roll_up :
    Runs.Along (System.step token 1) (System.Lawful token 1 verifiers) (System.init start)
        [.others registered 0, .commit block, .tick (env 2), .tick (env 2), .others rolledUp 1,
          .tick (env 2), .tick (env 2)] ∧
      ¬ ∀ s ∈ Runs.states (System.step token 1) (System.init start)
        [.others registered 0, .commit block, .tick (env 2), .tick (env 2), .others rolledUp 1,
          .tick (env 2), .tick (env 2)],
        s.SubstitutedOnce ∧ s.NotStopped ∧ s.Completes token 1 := by
  constructor
  · refine ⟨reaches_registered, fun b hb => absurd hb List.not_mem_nil, lawful_tick _ 2,
      lawful_tick _ 2, ?_, lawful_tick _ 2, lawful_tick _ 2, trivial⟩
    exact (Contract.Bank.Reaches.refl false registered).call _ (.verifyTxn 8 3) trivial
      (by decide : (0 : Contract.Address) ≠ 1) fun _ _ w => .refl true w
  · intro h
    have hstopped := (h _ (Runs.foldl_mem_states _ _)).2.1 8 .leafAlreadyRolledUp rfl
    exact hstopped (.inr rfl)

end Sample

end TempoRollup.Node.Substitutor
