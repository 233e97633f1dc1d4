import TempoRollup.Contract.Lifecycle

set_option relaxedAutoImplicit false
set_option autoImplicit false

/-!
# Substituted burns

How often a burn is substituted, and why `substituteBurn` of `src/rollup/RollupV6.sol` reverts.

## Main definitions

* `Bank.substitutions` — how often a burn was substituted.
* `Bank.Marks` — what calls do to the marks of substituted burns.

## Main results

* `Bank.Reaches.marks` — a burn is substituted when it is marked, and never again, in every run.
* `Bank.substituteBurn_reverts_iff` — a call reverts for the marks exactly if one of them is set.
-/

open Exec

namespace TempoRollup.Contract.Bank

variable {T : Type}

/-- The burn is substituted. -/
def isSubstitution (n : Element) : Event → Bool
  | .substituted k _ _ => k = n
  | _ => false

/-- How often a burn was substituted. -/
def substitutions (n : Element) (w : World T) : ℕ := w.events.countP (isSubstitution n)

/-- For each burn, nothing changes, or it is marked and substituted once. -/
def Marks (a b : World T) : Prop :=
  ∀ n, b.rollup.substitutedBurns n = a.rollup.substitutedBurns n ∧
      substitutions n b = substitutions n a ∨
    a.rollup.substitutedBurns n = false ∧ b.rollup.substitutedBurns n = true ∧
      substitutions n b = substitutions n a + 1

section Marks

variable {a b c : World T}

/-- Doing nothing marks nothing. -/
lemma Marks.refl (a : World T) : Marks a a := fun _ => .inl ⟨rfl, rfl⟩

/-- Marks add up. -/
lemma Marks.trans (h : Marks a b) (h' : Marks b c) : Marks a c := by
  intro n
  rcases h n with ⟨hsame, hcount⟩ | ⟨hfalse, htrue, hcount⟩
  · rcases h' n with ⟨hsame', hcount'⟩ | ⟨hfalse', htrue', hcount'⟩
    · exact .inl ⟨hsame'.trans hsame, hcount'.trans hcount⟩
    · exact .inr ⟨hsame ▸ hfalse', htrue', by omega⟩
  · rcases h' n with ⟨hsame', hcount'⟩ | ⟨hfalse', -⟩
    · exact .inr ⟨hfalse, hsame'.trans htrue, by omega⟩
    · rw [htrue] at hfalse'
      cases hfalse'

/-- A marked burn stays marked. -/
lemma Marks.substituted (h : Marks a b) {n : Element}
    (hn : a.rollup.substitutedBurns n = true) : b.rollup.substitutedBurns n = true := by
  rcases h n with ⟨hsame, -⟩ | ⟨-, htrue, -⟩
  · exact hsame.trans hn
  · exact htrue

/-- Logging adds the substitutions among the new events. -/
lemma substitutions_log (n : Element) (events : List Event) :
    substitutions n (log a events) = substitutions n a + events.countP (isSubstitution n) :=
  List.countP_append

/-- Other events and changes elsewhere in the storage do not count. -/
lemma marks_log {rollup : Rollup} {t : T} {events : List Event}
    (hrollup : rollup.substitutedBurns = a.rollup.substitutedBurns)
    (h : ∀ n, events.countP (isSubstitution n) = 0) :
    Marks a (log { a with rollup := rollup, token := t } events) := by
  refine fun n => .inl ⟨congrFun hrollup n, ?_⟩
  rw [substitutions_log, h n]
  rfl

end Marks

section Steps

variable {token : ERC20 T} {contract : Address} {verifiers : Verifiers} {env : Env T}
  {w w' : World T} {entry : Entry} {value : ℕ}

/-- **The execution of a burn** substitutes none, but for what the router does. -/
lemma Executes.marks
    (hrouter : ∀ router calldata w, Marks w (env.router router calldata w).2) {mb : Element}
    {success : Bool} (h : Executes token contract env w mb value (true, success) w') :
    Marks w w' := by
  obtain ⟨-, w₁, hmarks, hends⟩ := h.outcome (Q := Marks w) (fun _ _ hw => hw)
    (fun router calldata w₁ hw => hw.trans (hrouter router calldata w₁)) (.refl w)
  rcases hends with ⟨-, payee, -, rfl⟩ | ⟨-, rfl⟩
  · exact hmarks.trans (marks_log rfl fun _ => rfl)
  · exact hmarks

/-- A substituted burn is marked, and was not. -/
lemma marks_substituted {n : Element} {t : T} {w₁ : World T} {substitutor : Address}
    (hsub : w.rollup.substitutedBurns n = false)
    (h : Marks { w with rollup := w.rollup.markSubstituted n, token := t } w₁) :
    Marks w (log { w₁ with rollup := payBack n substitutor value w₁.rollup }
      [.burned n value true true, .substituted n value substitutor]) := by
  intro k
  rw [substitutions_log]
  by_cases hk : k = n
  · subst hk
    have hmarked : (w.rollup.markSubstituted k).substitutedBurns k = true := by
      simp [Rollup.markSubstituted, set_apply]
    rcases h k with ⟨hsame, hcount⟩ | ⟨hfalse, -⟩
    · refine .inr ⟨hsub, hsame.trans hmarked, ?_⟩
      change substitutions k w₁ + _ = _
      rw [hcount]
      simp [isSubstitution, substitutions]
    · rw [hmarked] at hfalse
      cases hfalse
  · have hsame : (w.rollup.markSubstituted n).substitutedBurns k = w.rollup.substitutedBurns k := by
      simp [Rollup.markSubstituted, set_apply, hk]
    have hzero : [Event.burned n value true true, .substituted n value substitutor].countP
        (isSubstitution k) = 0 := by
      simp [isSubstitution, Ne.symm hk]
    rw [hzero]
    have hthis := h k
    rw [hsame] at hthis
    exact hthis

/-- **One call.** -/
lemma Effect.marks (hrouter : ∀ router calldata w, Marks w (env.router router calldata w).2)
    (h : Effect token contract env w entry w') : Marks w w' := by
  cases h with
  | minted commitment amount ht => exact marks_log rfl fun _ => rfl
  | registered hreg =>
    refine marks_log ?_ fun _ => rfl
    cases hreg <;> rfl
  | substituted hsub hrolled ht hexec => exact marks_substituted hsub (hexec.marks hrouter)
  | nothing => exact .refl w
  | rolledUpMint hentry => exact marks_log rfl fun _ => rfl
  | @rolledUpBurn mb value success w₁ hentry hvalue hexec =>
    have hmarks := hexec.marks hrouter
    exact Marks.trans (fun n => hmarks n) (marks_log rfl fun _ => rfl)

/-- **Runs of the contract.** By induction on the run; a router's own calls are runs inside the
call that it answers. -/
theorem Reaches.marks {allowed : Bool → Entry → Prop} {inner : Bool} {a b : World T}
    (h : Reaches token contract verifiers allowed inner a b) : Marks a b := by
  induction h with
  | refl inner a => exact .refl a
  | @call inner a b h env entry hallowed hsigner hrouter ih ihrouter =>
    rcases Program.atomically_cases (Bank.call token contract verifiers env entry) b with
      hsame | ⟨u, hok⟩
    · rw [hsame]
      exact ih
    · exact ih.trans ((call_eq_ok hok).marks ihrouter)
  | token h t ht ih => exact ih

/-- A burn is marked after it was substituted. -/
lemma substituted_of_ok (hrouter : ∀ router calldata w, Marks w (env.router router calldata w).2)
    {n : Element} {u : Unit}
    (h : substituteBurn token contract env n value w = (.ok u, w')) :
    w'.rollup.substitutedBurns n = true := by
  obtain ⟨-, -, t, w₁, -, hexec, rfl⟩ := substituteBurn_eq_ok h
  refine Marks.substituted (hexec.marks hrouter) ?_
  simp [Rollup.markSubstituted, set_apply]

end Steps

/-! ## Why a substitution reverts -/

section Reverts

variable {token : ERC20 T} {contract : Address} {env : Env T} {w : World T} {n : Element}
  {value : ℕ}

/-- The reasons that have to do with the marks of a burn. -/
def IsMarked (reason : Revert) : Prop :=
  reason = .burnAlreadySubstituted ∨ reason = .leafAlreadyRolledUp

/-- It is decidable whether a revert is one of the mark. -/
instance (reason : Revert) : Decidable (IsMarked reason) := inferInstanceAs (Decidable (_ ∨ _))

/-- A call of the token throws the token's error only. -/
lemma callToken_throws {allowed : Revert → Prop} (h : allowed .tokenCallFailed)
    (c : T → Option T) : (callToken c : Call T Unit).Throws allowed := by
  intro s e he
  unfold callToken at he
  split at he
  · cases he
  · cases he
    exact h

/-- **The execution of a burn** does not revert for its marks. -/
lemma executeBurn_throws (substitute : Bool) :
    (executeBurn token contract env n value substitute).Throws fun reason => ¬ IsMarked reason := by
  have htoken : ∀ c : T → Option T,
      (callToken c : Call T Unit).Throws fun reason => ¬ IsMarked reason :=
    callToken_throws (by decide)
  have htry : ∀ c : T → Option T,
      (tryToken c : Call T Bool).Throws fun reason => ¬ IsMarked reason := by
    intro c s e he
    unfold tryToken at he
    split at he
    · cases he
    · cases he
  have hemit : ∀ event, (emit event : Call T Unit).Throws fun reason => ¬ IsMarked reason :=
    fun event => Program.Throws.modify _
  have haddress : (executeBurnToAddress token contract n value).Throws
      fun reason => ¬ IsMarked reason := by
    refine .bind .get fun world => .ite (.pure _) ?_
    refine .bind (.ensure _ (by decide)) fun _ => .bind (htry _) fun success => .ite ?_ (.pure _)
    exact .bind (hemit _) fun _ => .pure _
  have hcall : ∀ router calldata, (routerCall env router calldata : Call T Bool).Throws
      fun reason => ¬ IsMarked reason := by
    intro router calldata s e he
    unfold routerCall at he
    dsimp only at he
    split_ifs at he
  have hrouter : (executeBurnToRouter token contract env n value).Throws
      fun reason => ¬ IsMarked reason := by
    refine .bind .get fun world => .bind (.ensure _ (by decide)) fun _ => .bind (htoken _) fun _ =>
      .bind (hcall _ _) fun called => .bind (htoken _) fun _ => .ite ?_ ?_
    · exact .bind (hemit _) fun _ => .pure _
    · refine .bind .get fun world => .ite (.pure _) ?_
      exact .bind (htoken _) fun _ => .bind (hemit _) fun _ => .pure _
  refine .bind .get fun world => .ite (.ite ?_ ?_) (.ite ?_ ?_)
  · exact .bind (hemit _) fun _ => .pure _
  · exact .bind haddress fun _ => .bind (hemit _) fun _ => .pure _
  · exact .bind hrouter fun _ => .bind (hemit _) fun _ => .pure _
  · exact .bind (hemit _) fun _ => .pure _

/-- **Why `substituteBurn` reverts**: for the marks of the burn exactly if one of them is set.

**Proof sketch.** The two checks come first, and nothing after them throws their errors
(`executeBurn_throws`). -/
theorem substituteBurn_reverts_iff :
    (∃ reason, IsMarked reason ∧
        (substituteBurn token contract env n value w).1 = .err reason) ↔
      w.rollup.substitutedBurns n = true ∨ w.rollup.rolledUpLeafs n = true := by
  -- what comes after the two checks
  set rest : Call T Unit := do
    callToken (token.transferFrom contract env.msgSender contract value)
    onRollup (Program.modify fun rollup => rollup.markSubstituted n)
    let result ← executeBurn token contract env n value true
    Program.ensure (result.1 && result.2) .burnFailed
    onRollup (Program.modify (payBack n env.msgSender value))
    emit (.substituted n value env.msgSender)
  have hthrows : rest.Throws fun reason => ¬ IsMarked reason := by
    refine .bind (callToken_throws (by decide) _) fun _ => .bind (.modify _) fun _ =>
      .bind (executeBurn_throws true) fun result => .bind (.ensure _ (by decide)) fun _ =>
      .bind (.modify _) fun _ => .modify _
  have hrun : substituteBurn token contract env n value w =
      (Program.ensure (!w.rollup.substitutedBurns n) .burnAlreadySubstituted >>= fun _ =>
        Program.ensure (!w.rollup.rolledUpLeafs n) .leafAlreadyRolledUp >>= fun _ => rest) w := rfl
  rw [hrun]
  cases hsub : w.rollup.substitutedBurns n with
  | true => exact ⟨fun _ => .inl rfl, fun _ => ⟨_, .inl rfl, rfl⟩⟩
  | false =>
    cases hrolled : w.rollup.rolledUpLeafs n with
    | true => exact ⟨fun _ => .inr rfl, fun _ => ⟨_, .inr rfl, rfl⟩⟩
    | false =>
      constructor
      · rintro ⟨reason, hmarked, herr⟩
        exact absurd hmarked (hthrows w reason herr)
      · simp

end Reverts

end TempoRollup.Contract.Bank
