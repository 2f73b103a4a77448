import Mathlib
import FractalFormula.Evaluation.Evaluate

/-!
# Environments

An environment is what a tree is evaluated in: bindings, and the state of an iteration if there is
one. It may be extended by another value for a name, in the bindings or in the state.
-/

namespace FractalFormula

variable {α : Type _}

/-- Bindings, and the state of an iteration if there is one. -/
structure Environment (α : Type _) where
  bindings : Bindings α
  state? : Option (State α)

namespace Environment

/-- The value of a name: the state goes first. -/
def value? (e : Environment α) (name : String) : Option α :=
  match e.state? with
  | some s => (s.get? name).or (e.bindings.get? name)
  | none => e.bindings.get? name

/-- The environment with another binding. -/
def bind (e : Environment α) (name : String) (x : α) : Environment α :=
  { e with bindings := e.bindings.bind name x }

/-- The environment with a name set in the state, which is empty before if there is none. -/
def set (e : Environment α) (name : String) (x : α) : Environment α :=
  { e with state? := some ((e.state?.getD State.empty).set name x) }

/-- The environment `e'` is `e` with another value for `name`. -/
inductive Extends (e : Environment α) (name : String) : Environment α → Prop where
  | bind (x : α) : Extends e name (e.bind name x)
  | set (x : α) : Extends e name (e.set name x)

theorem value?_eq_or (e : Environment α) (name : String) :
    e.value? name = ((e.state?.getD State.empty).get? name).or (e.bindings.get? name) := by
  unfold value?
  cases e.state? with
  | some s => rfl
  | none => rfl

/-- An extension gives a value to one more name. -/
theorem Extends.isSome_value?_iff {e e' : Environment α} {name : String} (h : e.Extends name e')
    (other : String) :
    (e'.value? other).isSome ↔ other = name ∨ (e.value? other).isSome := by
  rw [value?_eq_or e, value?_eq_or e']
  cases h with
  | bind x =>
    simp only [Environment.bind, Bindings.get?_bind, Option.isSome_or, Bool.or_eq_true]
    by_cases hname : name = other
    · simp [hname]
    · simp [hname, Ne.symm hname]
  | set x =>
    simp only [Environment.set, Option.getD_some, State.get?_set, Option.isSome_or, Bool.or_eq_true]
    by_cases hname : name = other
    · simp [hname]
    · simp [hname, Ne.symm hname]

end Environment

namespace Tree

variable [Scalar α]

/-- The value of a tree in an environment. -/
def evaluateUnder (t : Tree α) (e : Environment α) : Except Error α :=
  match e.state? with
  | some s => t.evaluateIn e.bindings s
  | none => t.evaluate e.bindings

theorem evaluateUnder_eq (t : Tree α) (e : Environment α) :
    t.evaluateUnder e = t.evaluateWith e.value? := by
  obtain ⟨b, _ | s⟩ := e
  · rfl
  · rfl

end Tree

end FractalFormula
