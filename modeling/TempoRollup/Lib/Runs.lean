import Mathlib.Data.List.Basic
import Mathlib.Data.Set.Basic

set_option relaxedAutoImplicit false
set_option autoImplicit false

/-!
# Runs of a state machine

A machine with a total step function, the states of a run, and the rule that relates a property
of all states to a condition on all steps.

## Main definitions

* `Runs.states` — the states of a run.
* `Runs.Along` — every step of a run meets a condition on the state before it.

## Main results

* `Runs.forall_states` — an invariant that the steps keep holds in every state.
* `Runs.along_mem_states` — the states of the steps are those of the run.
* `Runs.along_mono` — a condition on all steps may be replaced by a consequence of it.
* `Runs.foldl_append_eq` — a run in two parts.
* `Runs.along_of_step_eq` — machines that agree on the good steps have the same good runs.
* `Runs.forall_states_iff_of_law`, `forall_states_iff` — a property that exactly the good steps
  keep holds in every state of a run if and only if all its steps are good.
-/

namespace Runs

variable {σ ι : Type} (step : σ → ι → σ)

/-- The states of a run, the first and the last among them. -/
def states (s : σ) : List ι → List σ
  | [] => [s]
  | op :: ops => s :: states (step s op) ops

/-- Every step of the run meets a condition on the state before it. -/
def Along (good : σ → ι → Prop) (s : σ) : List ι → Prop
  | [] => True
  | op :: ops => good s op ∧ Along good (step s op) ops

variable {step} {Inv Holds : σ → Prop} {good : σ → ι → Prop} {Valid : ι → Prop}

/-- The first state is one of the run. -/
lemma self_mem_states (s : σ) (ops : List ι) : s ∈ states step s ops := by
  cases ops with
  | nil => exact List.mem_singleton.2 rfl
  | cons op ops => exact List.mem_cons_self

/-- The last state of a run. -/
lemma foldl_mem_states (s : σ) (ops : List ι) : ops.foldl step s ∈ states step s ops := by
  induction ops generalizing s with
  | nil => exact List.mem_singleton.2 rfl
  | cons op ops ih => exact List.mem_cons_of_mem _ (ih (step s op))

/-- A run in two parts. -/
theorem foldl_append_eq {s mid last : σ} {ops ops' : List ι} (h : ops.foldl step s = mid)
    (h' : ops'.foldl step mid = last) : (ops ++ ops').foldl step s = last := by
  rw [List.foldl_append, h, h']

/-- **The rule of invariants.** What holds first and is kept by the good steps holds in every
state of a run of good steps. -/
theorem forall_states (hstep : ∀ s op, Valid op → Inv s → good s op → Inv (step s op)) {s : σ}
    (hs : Inv s) {ops : List ι} (hvalid : ∀ op ∈ ops, Valid op) (h : Along step good s ops) :
    ∀ s' ∈ states step s ops, Inv s' := by
  induction ops generalizing s with
  | nil =>
    intro s' hs'
    rw [List.mem_singleton.1 hs']
    exact hs
  | cons op ops ih =>
    rw [List.forall_mem_cons] at hvalid
    intro s' hs'
    rcases List.mem_cons.1 hs' with rfl | hs'
    · exact hs
    · exact ih (hstep s op hvalid.1 hs h.1) hvalid.2 h.2 s' hs'

/-- A condition that every step meets is met along a run. -/
lemma along_of_forall (h : ∀ s op, good s op) (s : σ) (ops : List ι) : Along step good s ops := by
  induction ops generalizing s with
  | nil => trivial
  | cons op ops ih => exact ⟨h s op, ih (step s op)⟩

/-- The states before and after a step are states of the run. By induction on the run. -/
theorem along_mem_states {S : Set σ} {s : σ} {ops : List ι} (h : ∀ s' ∈ states step s ops, s' ∈ S) :
    Along step (fun s op => s ∈ S ∧ step s op ∈ S) s ops := by
  induction ops generalizing s with
  | nil => trivial
  | cons op ops ih =>
    rw [states, List.forall_mem_cons] at h
    exact ⟨⟨h.1, h.2 _ (self_mem_states _ _)⟩, ih h.2⟩

/-- The steps of a run in two parts. -/
lemma along_append (s : σ) (ops ops' : List ι) :
    Along step good s (ops ++ ops') ↔
      Along step good s ops ∧ Along step good (ops.foldl step s) ops' := by
  induction ops generalizing s with
  | nil => simp [Along]
  | cons op ops ih =>
    rw [List.cons_append, Along, Along, ih, List.foldl_cons, and_assoc]

/-- **The rule of consequence.** Under an invariant of all steps, a condition on the steps of a
run may be replaced by one that follows from it. -/
theorem along_mono {good' : σ → ι → Prop} (hstep : ∀ s op, Valid op → Inv s → Inv (step s op))
    (hgood : ∀ s op, Valid op → Inv s → good s op → good' s op) {s : σ} (hs : Inv s)
    {ops : List ι} (hvalid : ∀ op ∈ ops, Valid op) (h : Along step good s ops) :
    Along step good' s ops := by
  induction ops generalizing s with
  | nil => trivial
  | cons op ops ih =>
    rw [List.forall_mem_cons] at hvalid
    exact ⟨hgood s op hvalid.1 hs h.1, ih (hstep s op hvalid.1 hs) hvalid.2 h.2⟩

/-- Under an invariant of all steps, equivalent conditions hold along the same runs. -/
lemma along_congr {good' : σ → ι → Prop} (hstep : ∀ s op, Valid op → Inv s → Inv (step s op))
    (hgood : ∀ s op, Valid op → Inv s → (good s op ↔ good' s op)) {s : σ} (hs : Inv s)
    (ops : List ι) (hvalid : ∀ op ∈ ops, Valid op) :
    Along step good s ops ↔ Along step good' s ops :=
  ⟨along_mono hstep (fun s op hop h => (hgood s op hop h).1) hs hvalid,
    along_mono hstep (fun s op hop h => (hgood s op hop h).2) hs hvalid⟩

/-- Two machines that make the same good steps have the same runs of good steps. -/
theorem along_of_step_eq {step' : σ → ι → σ} (heq : ∀ s op, good s op → step' s op = step s op)
    {s : σ} {ops : List ι} (h : Along step good s ops) : Along step' good s ops := by
  induction ops generalizing s with
  | nil => trivial
  | cons op ops ih =>
    refine ⟨h.1, ?_⟩
    rw [heq s op h.1]
    exact ih h.2

/-- **The rule of exact conditions.** When the good steps keep an invariant under which the
property holds, and any other step ends where the property does not hold, the property holds in
every state of a run exactly when all its steps are good. All steps obey a law, which may depend
on the state. -/
theorem forall_states_iff_of_law {law : σ → ι → Prop} (hholds : ∀ s, Inv s → Holds s)
    (hgood : ∀ s op, law s op → Inv s → good s op → Inv (step s op))
    (hbad : ∀ s op, law s op → Inv s → Holds (step s op) → good s op) {s : σ} (hs : Inv s)
    {ops : List ι} (hlaw : Along step law s ops) :
    (∀ s' ∈ states step s ops, Holds s') ↔ Along step good s ops := by
  induction ops generalizing s with
  | nil => simpa [states, Along] using hholds s hs
  | cons op ops ih =>
    rw [states, List.forall_mem_cons, Along]
    constructor
    · rintro ⟨-, hrest⟩
      have hop := hbad s op hlaw.1 hs (hrest _ (self_mem_states _ _))
      exact ⟨hop, (ih (hgood s op hlaw.1 hs hop) hlaw.2).1 hrest⟩
    · rintro ⟨hop, hrest⟩
      exact ⟨hholds s hs, (ih (hgood s op hlaw.1 hs hop) hlaw.2).2 hrest⟩

/-- The rule of exact conditions, for steps that are valid in every state. -/
theorem forall_states_iff (hholds : ∀ s, Inv s → Holds s)
    (hgood : ∀ s op, Valid op → Inv s → good s op → Inv (step s op))
    (hbad : ∀ s op, Valid op → Inv s → Holds (step s op) → good s op) {s : σ} (hs : Inv s)
    {ops : List ι} (hvalid : ∀ op ∈ ops, Valid op) :
    (∀ s' ∈ states step s ops, Holds s') ↔ Along step good s ops := by
  have hlaw : ∀ (s : σ) (ops : List ι), (∀ op ∈ ops, Valid op) →
      Along step (fun _ op => Valid op) s ops := by
    intro s ops h
    induction ops generalizing s with
    | nil => trivial
    | cons op ops ih =>
      rw [List.forall_mem_cons] at h
      exact ⟨h.1, ih (step s op) h.2⟩
  exact forall_states_iff_of_law hholds hgood hbad hs (hlaw s ops hvalid)

end Runs
