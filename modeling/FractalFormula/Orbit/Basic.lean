import FractalFormula.Evaluation.Evaluate
import FractalFormula.Orbit.Memory

/-!
# Orbits and escape times

The iteration of a formula in its variable `z`. An orbit escapes at the first point that is
not finite or whose absolute value exceeds the bailout radius. Escaping ends an orbit and is
a result; errors come from the formula alone.

The points of an orbit are kept, in room that is asked for beforehand, so an orbit depends on the
machine that it is computed on. The end of an iteration does not.
-/

namespace FractalFormula

/-- The name of the iterate in formulas. -/
def iterateName : String := "z"

/-- The name of the plane's parameter in formulas. -/
def parameterName : String := "c"

/-- When an iteration ends, and where it starts if every pixel has a parameter of its own. -/
structure EscapeRule (α : Type _) where
  /-- The greatest number of steps. -/
  maxIterations : UInt64
  /-- The radius beyond which an orbit has escaped. -/
  bailout : Float
  /-- The start of every orbit where pixels are parameters. -/
  seed : α

/-- How an iteration ended. -/
structure Escape (α : Type _) where
  /-- The number of steps taken. -/
  iterations : Nat
  escaped : Bool
  /-- The last point computed. -/
  last : α

variable {α : Type _} [Numeral α]

/-- Whether an orbit has escaped at `z`. -/
def EscapeRule.diverged (rule : EscapeRule α) (z : α) : Bool :=
  !Scalar.isFinite z || decide (rule.bailout * rule.bailout < Numeral.normSq z)

/-- The points from `z` on, at most `n` steps, each put into the room for them. -/
def EscapeRule.orbitFrom (m : Machine) (rule : EscapeRule α) (step : α → Except Error α) :
    Nat → Room → α → Except Halt (Except Error (List α))
  | 0, room, z => do
    let _ ← m.push (Numeral.bytes α) room
    return .ok [z]
  | n + 1, room, z => do
    let room ← m.push (Numeral.bytes α) room
    if rule.diverged z then return .ok [z]
    else
      match step z with
      | .error e => return .error e
      | .ok next =>
        let points ← rule.orbitFrom m step n room next
        return points.map (z :: ·)

/-- The end of the iteration from `z` on, at most `n` steps, after `done` steps. -/
def EscapeRule.escapeFrom (rule : EscapeRule α) (step : α → Except Error α) (done : Nat) :
    Nat → α → Except Error (Escape α)
  | 0, z => .ok ⟨done, rule.diverged z, z⟩
  | n + 1, z =>
    if rule.diverged z then .ok ⟨done, true, z⟩
    else
      match step z with
      | .error e => .error e
      | .ok next => rule.escapeFrom step (done + 1) n next

namespace Tree

/-- One step of the iteration: the value of the tree where the iterate is `z`. -/
def iterate (t : Tree α) (b : Bindings α) (s : State α) (z : α) : Except Error α :=
  t.evaluateIn b (s.set iterateName z)

/-- The orbit of `z`: the point itself and what follows, up to and including the first point
at which it has escaped. Room for all that the cap allows is asked for first. -/
def orbit (m : Machine) (t : Tree α) (b : Bindings α) (rule : EscapeRule α) (z : α) :
    Except Halt (Except Error (List α)) := do
  let room ← m.roomFor (Numeral.bytes α) rule.maxIterations
  rule.orbitFrom m (t.iterate b State.empty) rule.maxIterations.toNat room z

/-- How the iteration from `z` ends, with other values in the state. -/
def escapeIn (t : Tree α) (b : Bindings α) (s : State α) (rule : EscapeRule α) (z : α) :
    Except Error (Escape α) :=
  rule.escapeFrom (t.iterate b s) 0 rule.maxIterations.toNat z

/-- How the iteration from `z` ends. -/
def escape (t : Tree α) (b : Bindings α) (rule : EscapeRule α) (z : α) :
    Except Error (Escape α) :=
  t.escapeIn b State.empty rule z

end Tree

end FractalFormula
