import Mathlib.Data.List.Forall2
import Mathlib.Data.Set.Function
import Mathlib.Algebra.Group.Defs
import Mathlib.Tactic.Tauto

set_option relaxedAutoImplicit false
set_option autoImplicit false

/-!
# Circuits as relations

A circuit fragment of a Plonk-style proof system assigns advice cells, enables gates on them
and adds copy constraints. What matters for soundness is which values its output cells can
take over *all* assignments satisfying the constraints; for completeness it is whether the
assignment written by the prover's own code is one of them. Both are read off one
definition: a fragment is the relation between its environment and its outputs, and the
environment says who fills in the advice cells.

## Main definitions

* `ConstraintSystem.Env` — the prover, the instance column, the hash function and the set of
  messages the assignment hashes.
* `ConstraintSystem.Circuit` — a fragment, a monad in its output.
* `ConstraintSystem.assignAdvice`, `gate`, `constrainEqual`, `constrainInstance`,
  `hashGadget` — the primitives.
* `ConstraintSystem.Env.CollisionFree` — the hash function is injective on the hashed
  messages and never the null value.

## Main results

* `ConstraintSystem.bind_iff`, `pure_iff`, `mapM_cons_iff`, `mapM_iff_forall₂` — how fragments
  compose.
* `ConstraintSystem.Env.CollisionFree.hash_inj` — equal digests come from equal messages.

## Design

Hashing is a parameter: a hash gadget forces its output cell to be the digest of its input
cells. A hash function onto a finite field has collisions, so no statement may assume it
injective outright. The environment therefore carries the set `hashed` of messages that the
assignment may hash, and collision freeness is asked on that set only.
-/

namespace ConstraintSystem

/-- Who fills in the advice cells: the prover's own code, or an adversary who is bound by the
constraints only. -/
inductive Prover
  | honest
  | malicious
  deriving DecidableEq, Repr

/-- What a circuit fragment runs against. -/
structure Env (F : Type) where
  /-- Who fills in the advice cells. -/
  prover : Prover
  /-- The instance column, i.e. the public inputs. -/
  instances : List F
  /-- The hash function behind the hash gadget. -/
  hash : List F → F
  /-- The messages the assignment may hash. -/
  hashed : Set (List F)

/-- A circuit fragment with output `α`: `c env a` says that some assignment of its cells
satisfies its constraints and gives its output cells the values `a`. -/
def Circuit (F α : Type) : Type := Env F → α → Prop

variable {F α β : Type}

/-- A circuit passes on what its cells may be. -/
instance : Monad (Circuit F) where
  pure a := fun _ b => b = a
  bind c f := fun env b => ∃ a, c env a ∧ f a env b

/-- A sequence is satisfied by satisfying its parts in turn. -/
@[simp] theorem bind_iff (c : Circuit F α) (f : α → Circuit F β) (env : Env F) (b : β) :
    (c >>= f) env b ↔ ∃ a, c env a ∧ f a env b := Iff.rfl

/-- A returned value adds no constraint. -/
@[simp] theorem pure_iff (a b : α) (env : Env F) : (pure a : Circuit F α) env b ↔ b = a :=
  Iff.rfl

/-- The laws hold by the extensionality of predicates. -/
instance : LawfulMonad (Circuit F) := by
  refine LawfulMonad.mk' (Circuit F) ?_ ?_ ?_
  · intro α c
    funext env a
    exact propext ⟨fun ⟨b, hb, h⟩ => by obtain rfl := h; exact hb, fun h => ⟨a, h, rfl⟩⟩
  · intro α β a f
    funext env b
    exact propext ⟨fun ⟨_, h, hb⟩ => by obtain rfl := h; exact hb, fun h => ⟨a, rfl, h⟩⟩
  · intro α β γ c f g
    funext env x
    refine propext ⟨?_, ?_⟩
    · rintro ⟨b, ⟨a, ha, hb⟩, hx⟩
      exact ⟨a, ha, b, hb, hx⟩
    · rintro ⟨a, ha, b, hb, hx⟩
      exact ⟨b, ⟨a, ha, hb⟩, hx⟩

/-- Traversing the empty list adds no constraint. -/
@[simp] lemma mapM_nil_iff (f : α → Circuit F β) (env : Env F) (bs : List β) :
    ([].mapM f) env bs ↔ bs = [] := by
  simp

/-- Traversing a list is satisfied by satisfying the fragment of each element in turn. -/
@[simp] theorem mapM_cons_iff (f : α → Circuit F β) (a : α) (l : List α) (env : Env F)
    (bs : List β) :
    ((a :: l).mapM f) env bs ↔ ∃ b bs', f a env b ∧ (l.mapM f) env bs' ∧ bs = b :: bs' := by
  simp only [List.mapM_cons, bind_iff, pure_iff]
  exact ⟨fun ⟨b, hb, bs', hbs, e⟩ => ⟨b, bs', hb, hbs, e⟩,
    fun ⟨b, bs', hb, hbs, e⟩ => ⟨b, hb, bs', hbs, e⟩⟩

/-- Traversing a list gives one output for each element. -/
theorem mapM_iff_forall₂ (f : α → Circuit F β) (l : List α) (env : Env F) (bs : List β) :
    (l.mapM f) env bs ↔ List.Forall₂ (fun a b => f a env b) l bs := by
  induction l generalizing bs with
  | nil => rw [mapM_nil_iff, List.forall₂_nil_left_iff]
  | cons a l ih =>
    rw [mapM_cons_iff, List.forall₂_cons_left_iff]
    simp only [ih]

/-- A loop over a list is satisfied by satisfying its body on each element. -/
@[simp] lemma forM_iff (f : α → Circuit F Unit) (l : List α) (env : Env F) (u : Unit) :
    (l.forM f) env u ↔ ∀ a ∈ l, f a env () := by
  induction l with
  | nil => simp
  | cons a l ih =>
    rw [List.forall_mem_cons, ← ih]
    exact ⟨fun ⟨_, ha, hl⟩ => ⟨ha, hl⟩, fun ⟨ha, hl⟩ => ⟨(), ha, hl⟩⟩

/-! ## Primitives -/

/-- Assign an advice cell. The prover's code puts `v` there; an adversary anything. -/
def assignAdvice (v : F) : Circuit F F := fun env x => env.prover = .honest → x = v

/-- Assign an advice cell and constrain it to the constant `c`. -/
def assignAdviceFromConstant (c : F) : Circuit F F := fun _ x => x = c

/-- Assign an advice cell and constrain it to equal the cell `a`. -/
def copyAdvice (a : F) : Circuit F F := fun _ x => x = a

/-- Enable a gate: its polynomial vanishes on the cells it reads. -/
def gate [Zero F] (e : F) : Circuit F Unit := fun _ _ => e = 0

/-- Constrain two cells to be equal. -/
def constrainEqual (a b : F) : Circuit F Unit := fun _ _ => a = b

/-- Constrain a cell to a constant. -/
def constrainConstant (a c : F) : Circuit F Unit := fun _ _ => a = c

/-- Constrain a cell to a row of the instance column, whose missing rows are zero. -/
def constrainInstance [Zero F] (a : F) (row : ℕ) : Circuit F Unit :=
  fun env _ => a = env.instances.getD row 0

/-- An assertion of the synthesis code; the circuit does not exist when it fails. -/
def assertC (p : Prop) : Circuit F Unit := fun _ _ => p

/-- Hash a message of cells. -/
def hashGadget (message : List F) : Circuit F F :=
  fun env x => message ∈ env.hashed ∧ x = env.hash message

section Primitives

variable (env : Env F) (a b c v x : F) (u : Unit)

/-- The honest prover assigns the value; another one assigns anything. -/
@[simp] lemma assignAdvice_iff :
    assignAdvice v env x ↔ (env.prover = .honest → x = v) := Iff.rfl

/-- A constant cell has its constant. -/
@[simp] lemma assignAdviceFromConstant_iff : assignAdviceFromConstant c env x ↔ x = c := Iff.rfl

/-- A copied cell has the value of the original. -/
@[simp] lemma copyAdvice_iff : copyAdvice a env x ↔ x = a := Iff.rfl

/-- A gate forces its polynomial to vanish. -/
@[simp] lemma gate_iff [Zero F] : gate a env u ↔ a = 0 := Iff.rfl

/-- Equal cells have one value. -/
@[simp] lemma constrainEqual_iff : constrainEqual a b env u ↔ a = b := Iff.rfl

/-- A constrained cell has its constant. -/
@[simp] lemma constrainConstant_iff : constrainConstant a c env u ↔ a = c := Iff.rfl

/-- A cell bound to an instance has the value of its row. -/
@[simp] lemma constrainInstance_iff [Zero F] (row : ℕ) :
    constrainInstance a row env u ↔ a = env.instances.getD row 0 := Iff.rfl

/-- A fact about the configuration is part of what is satisfied. -/
@[simp] lemma assertC_iff (p : Prop) : assertC p env u ↔ p := Iff.rfl

/-- The digest of a hashed message. -/
@[simp] lemma hashGadget_iff (message : List F) :
    hashGadget message env x ↔ message ∈ env.hashed ∧ x = env.hash message := Iff.rfl

end Primitives

/-- Assigning a list of advice cells. -/
lemma mapM_assignAdvice_iff (f : α → F) (l : List α) (env : Env F) (xs : List F) :
    (l.mapM fun a => assignAdvice (f a)) env xs ↔
      xs.length = l.length ∧ (env.prover = .honest → xs = l.map f) := by
  induction l generalizing xs with
  | nil => simpa using fun h _ => h
  | cons a l ih =>
    simp only [mapM_cons_iff, assignAdvice_iff, ih]
    constructor
    · rintro ⟨x, xs, hx, ⟨hlen, hxs⟩, rfl⟩
      exact ⟨by simp [hlen], fun h => by rw [hx h, hxs h, List.map_cons]⟩
    · rintro ⟨hlen, hxs⟩
      obtain ⟨x, xs, rfl⟩ := List.exists_cons_of_length_eq_add_one hlen
      refine ⟨x, xs, fun h => ?_, ⟨by simpa using hlen, fun h => ?_⟩, rfl⟩
      · exact (List.cons.inj (hxs h)).1
      · exact (List.cons.inj (hxs h)).2

/-! ## Collision freeness -/

/-- The messages hashed by the assignment have pairwise different digests, none of them the
null value. -/
structure Env.CollisionFree [Zero F] (env : Env F) : Prop where
  /-- No collision among the hashed messages. -/
  injOn : Set.InjOn env.hash env.hashed
  /-- The null value is not the digest of a hashed message. -/
  ne_zero : ∀ m ∈ env.hashed, env.hash m ≠ 0

/-- Equal digests of hashed messages come from equal messages. -/
theorem Env.CollisionFree.hash_inj [Zero F] {env : Env F} (h : env.CollisionFree)
    {m m' : List F} (hm : m ∈ env.hashed) (hm' : m' ∈ env.hashed)
    (e : env.hash m = env.hash m') : m = m' :=
  h.injOn hm hm' e

end ConstraintSystem
