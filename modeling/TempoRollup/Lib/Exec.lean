import Mathlib.Tactic.Common

set_option relaxedAutoImplicit false
set_option autoImplicit false

/-!
# Programs with state, errors and panics

A call of an imperative function ends in one of three ways: it returns a value, it returns an
error, or it panics. What it did to the state before that stays done in all three cases.

## Main definitions

* `Exec.Outcome` — how a call ends.
* `Exec.Program` — a program over a state, with the monad that stops at errors and panics.
* `Exec.Outcome.unwrap`, `Exec.Program.unwrap` — the operations that turn errors into panics.
* `Exec.Program.atomically` — undo everything when a program does not return.
* `Exec.Program.Keeps` — what a program leaves alone however it ends.
* `Exec.Program.Throws` — which errors a program returns.
* `Exec.Outcome.Passes` — a call got as far as the last of its errors.

## Main results

* `Exec.Outcome.mapM_returns`, `mapM_map_eq_ok` — when a fallible map returns.
* `Exec.Program.bind_eq_ok`, `ensure_bind_eq_ok`, `modify_bind_eq_ok` — when a sequence returns.
* `Exec.Program.atomically_cases` — a transaction changes nothing, or returned.
* `Exec.Program.view_bind`, `Keeps.bind` — what a sequence leaves alone.
-/

namespace Exec

/-- How a call ends: with a value, with an error, or in a panic. -/
inductive Outcome (ε α : Type)
  | ok (a : α)
  | err (e : ε)
  | panic
  deriving DecidableEq, Repr

namespace Outcome

variable {ε ε' α β : Type}

/-- The call ends in a panic. -/
def isPanic : Outcome ε α → Bool
  | panic => true
  | _ => false

/-- The call returns a value. -/
def isOk : Outcome ε α → Bool
  | ok _ => true
  | _ => false

/-- Continue with the value; errors and panics end the call. -/
def bind : Outcome ε α → (α → Outcome ε β) → Outcome ε β
  | ok a, f => f a
  | err e, _ => err e
  | panic, _ => panic

/-- The first error or panic ends a computation. -/
instance : Monad (Outcome ε) where
  pure := ok
  bind := bind

/-- An error becomes a panic. -/
def unwrap : Outcome ε α → Outcome ε' α
  | ok a => ok a
  | err _ => panic
  | panic => panic

/-- Translate the error. -/
def mapErr (f : ε → ε') : Outcome ε α → Outcome ε' α
  | ok a => ok a
  | err e => err (f e)
  | panic => panic

/-- A missing value becomes a panic. -/
def ofOption : Option α → Outcome ε α
  | some a => ok a
  | none => panic

/-- The call returned, or one of the late errors stopped it. -/
def Passes (late : ε → Prop) : Outcome ε α → Prop
  | ok _ => True
  | err e => late e
  | panic => False

/-- A value is no panic. -/
@[simp] lemma isPanic_ok (a : α) : (ok a : Outcome ε α).isPanic = false := rfl

/-- An error is no panic. -/
@[simp] lemma isPanic_err (e : ε) : (err e : Outcome ε α).isPanic = false := rfl

/-- A panic is a panic. -/
@[simp] lemma isPanic_panic : (panic : Outcome ε α).isPanic = true := rfl

/-- A value is passed on. -/
@[simp] lemma ok_bind (a : α) (f : α → Outcome ε β) : (ok a >>= f) = f a := rfl

/-- An error is kept. -/
@[simp] lemma err_bind (e : ε) (f : α → Outcome ε β) : (err e >>= f) = err e := rfl

/-- A panic is kept. -/
@[simp] lemma panic_bind (f : α → Outcome ε β) : ((panic : Outcome ε α) >>= f) = panic := rfl

/-- Changing errors does not change which values are returned. -/
lemma mapErr_eq_ok {f : ε → ε'} {o : Outcome ε α} {a : α} : o.mapErr f = ok a ↔ o = ok a := by
  cases o <;> simp [mapErr]

/-- A sequence returns a value when both its parts do. -/
theorem bind_eq_ok {o : Outcome ε α} {f : α → Outcome ε β} {b : β} :
    (o >>= f) = ok b ↔ ∃ a, o = ok a ∧ f a = ok b := by
  cases o <;> simp

/-- The laws hold by cases on the outcome. -/
instance : LawfulMonad (Outcome ε) := by
  refine LawfulMonad.mk' (Outcome ε) ?_ ?_ ?_
  · intro α x
    cases x <;> rfl
  · intro α β x f
    rfl
  · intro α β γ x f g
    cases x <;> rfl

/-- A fallible map over a list of which every element has an image. By induction on the list. -/
theorem mapM_returns {f : α → Outcome ε β} {l : List α} (h : ∀ a ∈ l, ∃ b, f a = ok b) :
    ∃ bs, l.mapM f = ok bs := by
  induction l with
  | nil => exact ⟨[], rfl⟩
  | cons a l ih =>
    obtain ⟨b, hb⟩ := h a List.mem_cons_self
    obtain ⟨bs, hbs⟩ := ih fun a ha => h a (List.mem_cons_of_mem _ ha)
    refine ⟨b :: bs, ?_⟩
    rw [List.mapM_cons, hb, hbs]
    rfl

/-- What a fallible map does to each element it does to a list. By induction on the list. -/
lemma map_of_mapM_eq_ok {γ : Type} {f : α → Outcome ε β} {g : β → γ} {h : α → γ}
    (hf : ∀ a b, f a = ok b → g b = h a) {l : List α} {bs : List β} (hl : l.mapM f = ok bs) :
    bs.map g = l.map h := by
  induction l generalizing bs with
  | nil =>
    obtain rfl := Outcome.ok.inj hl
    rfl
  | cons a l ih =>
    rw [List.mapM_cons] at hl
    obtain ⟨b, hb, hl⟩ := bind_eq_ok.1 hl
    obtain ⟨rest, hrest, hbs⟩ := bind_eq_ok.1 hl
    obtain rfl := Outcome.ok.inj hbs
    rw [List.map_cons, List.map_cons, hf a b hb, ih hrest]

/-- A fallible map over images of which each has an image. By induction on the list. -/
theorem mapM_map_eq_ok {γ : Type} {f : β → Outcome ε γ} {g : α → β} {h : α → γ} {l : List α}
    (hl : ∀ a ∈ l, f (g a) = ok (h a)) : (l.map g).mapM f = ok (l.map h) := by
  induction l with
  | nil => rfl
  | cons a l ih =>
    obtain ⟨ha, hl⟩ := List.forall_mem_cons.1 hl
    rw [List.map_cons, List.mapM_cons, ha, ih hl]
    rfl

end Outcome

/-- A program over a state: the state it leaves stands in all three cases. -/
def Program (σ ε α : Type) : Type := σ → Outcome ε α × σ

namespace Program

variable {σ ε ε' α β : Type}

/-- The state is passed on; the first error or panic ends a program, and the state of that point
stays. -/
instance : Monad (Program σ ε) where
  pure a := fun s => (.ok a, s)
  bind p f := fun s =>
    match p s with
    | (.ok a, s') => f a s'
    | (.err e, s') => (.err e, s')
    | (.panic, s') => (.panic, s')

/-- The laws hold by cases on the outcome of the first program. -/
instance : LawfulMonad (Program σ ε) := by
  refine LawfulMonad.mk' (Program σ ε) ?_ ?_ ?_
  · intro α p
    funext s
    change (match p s with
      | (.ok a, s') => (.ok a, s')
      | (.err e, s') => (.err e, s')
      | (.panic, s') => (.panic, s')) = p s
    rcases p s with ⟨a | e | _, s'⟩ <;> rfl
  · intro α β a f
    rfl
  · intro α β γ p f g
    funext s
    change (match (match p s with
        | (.ok a, s') => f a s'
        | (.err e, s') => (.err e, s')
        | (.panic, s') => (.panic, s')) with
      | (.ok b, s') => g b s'
      | (.err e, s') => (.err e, s')
      | (.panic, s') => (.panic, s')) = match p s with
        | (.ok a, s') => (f a >>= g) s'
        | (.err e, s') => (.err e, s')
        | (.panic, s') => (.panic, s')
    rcases p s with ⟨a | e | _, s'⟩ <;> rfl

/-- Read the state. -/
def get : Program σ ε σ := fun s => (.ok s, s)

/-- Change the state. -/
def modify (f : σ → σ) : Program σ ε Unit := fun s => (.ok (), f s)

/-- Return an error. -/
def throw (e : ε) : Program σ ε α := fun s => (.err e, s)

/-- Panic. -/
def panic : Program σ ε α := fun s => (.panic, s)

/-- An outcome that does not touch the state. -/
def lift (o : Outcome ε α) : Program σ ε α := fun s => (o, s)

/-- Return an error unless a condition holds. -/
def ensure (b : Bool) (e : ε) : Program σ ε Unit := if b then pure () else throw e

/-- Panic unless a condition holds. -/
def assert (b : Bool) : Program σ ε Unit := if b then pure () else panic

/-- An error becomes a panic. -/
def unwrap (p : Program σ ε α) : Program σ ε' α := fun s =>
  let r := p s
  (r.1.unwrap, r.2)

/-- Translate the error. -/
def mapErr (f : ε → ε') (p : Program σ ε α) : Program σ ε' α := fun s =>
  match p s with
  | (.ok a, s') => (.ok a, s')
  | (.err e, s') => (.err (f e), s')
  | (.panic, s') => (.panic, s')

/-- Run a program on a part of the state. -/
def zoom {τ : Type} (view : σ → τ) (put : τ → σ → σ) (p : Program τ ε α) : Program σ ε α :=
  fun s =>
    let r := p (view s)
    (r.1, put r.2 s)

section Run

variable (s : σ)

/-- What `pure` does to a state. -/
@[simp] lemma run_pure (a : α) : (pure a : Program σ ε α) s = (.ok a, s) := rfl

/-- What `get` does to a state. -/
@[simp] lemma run_get : (get : Program σ ε σ) s = (.ok s, s) := rfl

/-- What `modify` does to a state. -/
@[simp] lemma run_modify (f : σ → σ) : (modify f : Program σ ε Unit) s = (.ok (), f s) := rfl

/-- What `throw` does to a state. -/
@[simp] lemma run_throw (e : ε) : (throw e : Program σ ε α) s = (.err e, s) := rfl

/-- What `panic` does to a state. -/
@[simp] lemma run_panic : (panic : Program σ ε α) s = (.panic, s) := rfl

/-- What `lift` does to a state. -/
@[simp] lemma run_lift (o : Outcome ε α) : (lift o : Program σ ε α) s = (o, s) := rfl

/-- What a sequence of two programs does to a state. -/
lemma run_bind (p : Program σ ε α) (f : α → Program σ ε β) :
    (p >>= f) s =
      match p s with
      | (.ok a, s') => f a s'
      | (.err e, s') => (.err e, s')
      | (.panic, s') => (.panic, s') := rfl

/-- What `ensure` does to a state. -/
lemma run_ensure (b : Bool) (e : ε) :
    (ensure b e : Program σ ε Unit) s = if b then (.ok (), s) else (.err e, s) := by
  cases b <;> rfl

/-- What `assert` does to a state. -/
lemma run_assert (b : Bool) :
    (assert b : Program σ ε Unit) s = if b then (.ok (), s) else (.panic, s) := by
  cases b <;> rfl

/-- The translation of an error leaves the state alone. -/
lemma snd_mapErr (f : ε → ε') (p : Program σ ε α) : (p.mapErr f s).2 = (p s).2 := by
  unfold mapErr
  rcases p s with ⟨a | e | _, s'⟩ <;> rfl

/-- Changing errors does not change when a program returns. -/
lemma fst_mapErr_eq_ok (f : ε → ε') (p : Program σ ε α) (a : α) :
    (p.mapErr f s).1 = .ok a ↔ (p s).1 = .ok a := by
  unfold mapErr
  rcases p s with ⟨a | e | _, s'⟩ <;> simp

end Run

/-! ## Runs that return -/

section ReturnsOk

variable {s s' : σ}

/-- A sequence returns when its parts do, the second from where the first ended. -/
theorem bind_eq_ok {p : Program σ ε α} {f : α → Program σ ε β} {b : β} :
    (p >>= f) s = (.ok b, s') ↔ ∃ a s₁, p s = (.ok a, s₁) ∧ f a s₁ = (.ok b, s') := by
  rw [run_bind]
  rcases p s with ⟨a | e | _, s₁⟩ <;> simp

/-- When `pure` returns. -/
lemma pure_eq_ok {a b : α} : (pure a : Program σ ε α) s = (.ok b, s') ↔ b = a ∧ s' = s := by
  simp [eq_comm]

/-- When a program that reads the state first returns. -/
lemma get_bind_eq_ok {f : σ → Program σ ε β} {b : β} :
    (get >>= f) s = (.ok b, s') ↔ f s s = (.ok b, s') := Iff.rfl

/-- When a program that changes the state first returns. -/
theorem modify_bind_eq_ok {g : σ → σ} {f : Unit → Program σ ε β} {b : β} :
    (modify g >>= f) s = (.ok b, s') ↔ f () (g s) = (.ok b, s') := Iff.rfl

/-- When a program with a check first returns. -/
theorem ensure_bind_eq_ok {c : Bool} {e : ε} {f : Unit → Program σ ε β} {b : β} :
    (ensure c e >>= f) s = (.ok b, s') ↔ c = true ∧ f () s = (.ok b, s') := by
  rw [run_bind, run_ensure]
  cases c <;> simp

/-- When a change of the state returns. -/
lemma modify_eq_ok {f : σ → σ} {u : Unit} :
    (modify f : Program σ ε Unit) s = (.ok u, s') ↔ s' = f s := by
  simp [eq_comm]

/-- When a check returns. -/
lemma ensure_eq_ok {b : Bool} {e : ε} {u : Unit} :
    (ensure b e : Program σ ε Unit) s = (.ok u, s') ↔ b = true ∧ s' = s := by
  rw [run_ensure]
  cases b <;> simp [eq_comm]

/-- When a program with changed errors returns. -/
lemma mapErr_eq_ok {f : ε → ε'} {p : Program σ ε α} {a : α} :
    p.mapErr f s = (.ok a, s') ↔ p s = (.ok a, s') := by
  unfold mapErr
  rcases p s with ⟨a | e | _, s₁⟩ <;> simp

/-- When a program on a part of the state returns. -/
lemma zoom_eq_ok {τ : Type} {part : σ → τ} {put : τ → σ → σ} {p : Program τ ε α} {a : α} :
    zoom part put p s = (.ok a, s') ↔ ∃ t, p (part s) = (.ok a, t) ∧ s' = put t s := by
  unfold zoom
  rcases p (part s) with ⟨o, t⟩
  simp [eq_comm]

end ReturnsOk

/-- Undo everything when the program does not return. -/
def atomically (p : Program σ ε α) : Program σ ε α := fun s =>
  match p s with
  | (.ok a, s') => (.ok a, s')
  | (.err e, _) => (.err e, s)
  | (.panic, _) => (.panic, s)

/-- A transaction leaves the state as it was, or it returned. -/
theorem atomically_cases (p : Program σ ε α) (s : σ) :
    (atomically p s).2 = s ∨ ∃ a, p s = (.ok a, (atomically p s).2) := by
  unfold atomically
  rcases p s with ⟨a | e | _, s'⟩ <;> simp

/-- An atomic program has the outcome of the program. -/
lemma fst_atomically (p : Program σ ε α) (s : σ) : (atomically p s).1 = (p s).1 := by
  unfold atomically
  rcases p s with ⟨a | e | _, s'⟩ <;> rfl

/-- When an atomic program returns, so does the program, with the same state. -/
lemma eq_ok_of_atomically {p : Program σ ε α} {s : σ} {a : α} (h : (atomically p s).1 = .ok a) :
    p s = (.ok a, (atomically p s).2) := by
  rcases hp : p s with ⟨a' | e | _, s'⟩
  · rw [atomically, hp] at h ⊢
    cases h
    rfl
  · rw [atomically, hp] at h
    cases h
  · rw [atomically, hp] at h
    cases h

/-! ## What a program leaves alone -/

section Keeps

variable {γ : Type} {view : σ → γ}

/-- However it ends, the program leaves this view of the state as it was. -/
def Keeps (view : σ → γ) (p : Program σ ε α) : Prop := ∀ s, view (p s).2 = view s

/-- After a first part, what the rest keeps is what the first part left. -/
theorem view_bind {p : Program σ ε α} {f : α → Program σ ε β} (hf : ∀ a, (f a).Keeps view)
    (s : σ) : view ((p >>= f) s).2 = view (p s).2 := by
  rw [run_bind]
  rcases p s with ⟨a | e | _, s'⟩
  · exact hf a s'
  · rfl
  · rfl

/-- A sequence keeps what both of its parts keep. -/
theorem Keeps.bind {p : Program σ ε α} {f : α → Program σ ε β} (hp : p.Keeps view)
    (hf : ∀ a, (f a).Keeps view) : (p >>= f).Keeps view := fun s => by
  rw [view_bind hf, hp s]

/-- Reading keeps everything. -/
lemma Keeps.get : (get : Program σ ε σ).Keeps view := fun _ => rfl

/-- A change keeps the views that it does not change. -/
lemma Keeps.modify {g : σ → σ} (hg : ∀ s, view (g s) = view s) :
    (modify g : Program σ ε Unit).Keeps view := hg

/-- `pure` keeps everything. -/
lemma Keeps.pure (a : α) : (pure a : Program σ ε α).Keeps view := fun _ => rfl

/-- An outcome without a state keeps everything. -/
lemma Keeps.lift (o : Outcome ε α) : (lift o : Program σ ε α).Keeps view := fun _ => rfl

/-- A part of the state that the view does not see. -/
lemma Keeps.zoom {τ : Type} {part : σ → τ} {put : τ → σ → σ}
    (hput : ∀ t s, view (put t s) = view s) (p : Program τ ε α) :
    (zoom part put p).Keeps view := fun s => hput _ s

/-- Changing errors keeps what the program keeps. -/
lemma Keeps.mapErr {p : Program σ ε α} (hp : p.Keeps view) (f : ε → ε') :
    (p.mapErr f).Keeps view := fun s => by
  rw [snd_mapErr, hp s]

/-- A check keeps everything. -/
lemma Keeps.ensure (b : Bool) (e : ε) : (ensure b e : Program σ ε Unit).Keeps view := fun s => by
  rw [run_ensure]
  cases b <;> rfl

/-- A branch keeps what both alternatives keep. -/
lemma Keeps.ite {c : Prop} [Decidable c] {p q : Program σ ε α} (hp : p.Keeps view)
    (hq : q.Keeps view) : (if c then p else q).Keeps view := by
  split_ifs
  · exact hp
  · exact hq

/-- An assertion keeps everything. -/
lemma Keeps.assert (b : Bool) : (assert b : Program σ ε Unit).Keeps view := fun s => by
  rw [run_assert]
  cases b <;> rfl

end Keeps

/-! ## Which errors a program returns -/

section Throws

variable {allowed : ε → Prop}

/-- An error that the program returns is one of the allowed ones. -/
def Throws (allowed : ε → Prop) (p : Program σ ε α) : Prop :=
  ∀ s e, (p s).1 = .err e → allowed e

/-- A sequence throws what its parts throw. -/
lemma Throws.bind {p : Program σ ε α} {f : α → Program σ ε β} (hp : p.Throws allowed)
    (hf : ∀ a, (f a).Throws allowed) : (p >>= f).Throws allowed := by
  intro s e h
  rw [run_bind] at h
  rcases hrun : p s with ⟨a | e' | _, s'⟩
  · rw [hrun] at h
    exact hf a s' e h
  · rw [hrun] at h
    cases h
    exact hp s e (by rw [hrun])
  · rw [hrun] at h
    cases h

/-- Reading throws nothing. -/
lemma Throws.get : (get : Program σ ε σ).Throws allowed := by
  rintro s e ⟨⟩

/-- `pure` throws nothing. -/
lemma Throws.pure (a : α) : (pure a : Program σ ε α).Throws allowed := by
  rintro s e ⟨⟩

/-- A change throws nothing. -/
lemma Throws.modify (g : σ → σ) : (modify g : Program σ ε Unit).Throws allowed := by
  rintro s e ⟨⟩

/-- A check throws its error. -/
lemma Throws.ensure (b : Bool) {e : ε} (he : allowed e) :
    (ensure b e : Program σ ε Unit).Throws allowed := by
  intro s e' h
  rw [run_ensure] at h
  cases b
  · cases h
    exact he
  · cases h

/-- A branch throws what its alternatives throw. -/
lemma Throws.ite {c : Prop} [Decidable c] {p q : Program σ ε α} (hp : p.Throws allowed)
    (hq : q.Throws allowed) : (if c then p else q).Throws allowed := by
  split_ifs
  · exact hp
  · exact hq

end Throws

section Passes

variable {late : ε → Prop} {s : σ}

/-- The errors of a part of a state are those of its program. -/
lemma Throws.zoom {τ : Type} {allowed : ε → Prop} {part : σ → τ} {put : τ → σ → σ}
    {p : Program τ ε α} (hp : p.Throws allowed) : (zoom part put p).Throws allowed :=
  fun s e h => hp (part s) e h

/-- A sequence gets past its late errors only if its first part returns. -/
lemma passes_bind {p : Program σ ε α} {f : α → Program σ ε β} (hp : p.Throws fun e => ¬ late e)
    (h : ((p >>= f) s).1.Passes late) :
    ∃ a s', p s = (.ok a, s') ∧ (f a s').1.Passes late := by
  rw [run_bind] at h
  rcases hrun : p s with ⟨a | e | _, s'⟩
  · rw [hrun] at h
    exact ⟨a, s', rfl, h⟩
  · rw [hrun] at h
    exact absurd h (hp s e (by rw [hrun]))
  · rw [hrun] at h
    exact h.elim

/-- A check that stands before the late errors holds. -/
lemma passes_ensure_bind {c : Bool} {e : ε} {f : Unit → Program σ ε β} (he : ¬ late e)
    (h : ((ensure c e >>= f) s).1.Passes late) : c = true ∧ (f () s).1.Passes late := by
  obtain ⟨u, s', hrun, hrest⟩ := passes_bind (Throws.ensure c he) h
  obtain ⟨hc, rfl⟩ := ensure_eq_ok.1 hrun
  exact ⟨hc, hrest⟩

end Passes

end Program

end Exec
