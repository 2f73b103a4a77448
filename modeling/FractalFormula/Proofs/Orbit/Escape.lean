import FractalFormula.Proofs.Evaluation.Failure
import FractalFormula.Proofs.Orbit.Room
import FractalFormula.Scalar.ComplexFloat
import FractalFormula.Scalar.Real

/-!
# Orbits and escape times tell of the same iteration

The points of an orbit and the end of the iteration are computed by two recursions. Both follow the
same steps: they fail together, and the last point of the orbit is where the iteration ends
(`EscapeRule.pointsFrom_and_escapeFrom`). The one difference is that an orbit needs room for its
points: where the end of an iteration is a result, the orbit may halt the program.

A step fails everywhere or nowhere, since errors do not depend on values (`Tree.uniform_iterate`).
So an iteration can fail at its first step only (`EscapeRule.escapeFrom_eq_error_iff`).
-/

namespace FractalFormula

variable {α : Type _} [Numeral α]

/-- A step that fails at one point fails at every point, with the same error. -/
def Uniform (step : α → Except Error α) : Prop :=
  ∀ {x y : α} {e : Error}, step x = .error e → step y = .error e

namespace EscapeRule

variable (rule : EscapeRule α) (step : α → Except Error α)

/-! ### The points -/

/-- The points of an iteration from `z` with at most `cap` steps: each but the last is followed by
its step and has not escaped, and the last has escaped if fewer steps were taken. -/
structure Traces (cap : Nat) (z : α) (points : List α) : Prop where
  head : points.head? = some z
  chain : points.IsChain fun x y => rule.diverged x = false ∧ step x = .ok y
  length : points.length ≤ cap + 1
  ended : points.length ≤ cap → ∀ x, points.getLast? = some x → rule.diverged x

/-- What is said of the end of an iteration through these points, after `done` steps. -/
structure Ends (done : Nat) (points : List α) (r : Escape α) : Prop where
  iterations : r.iterations + 1 = done + points.length
  last : points.getLast? = some r.last
  escaped : r.escaped = rule.diverged r.last

variable {rule step}

theorem traces_diverged {cap : Nat} {z : α} (h : rule.diverged z) :
    rule.Traces step (cap + 1) z [z] :=
  ⟨rfl, .singleton z, by simp, fun _ x hx => by rwa [← Option.some.inj hx]⟩

theorem Traces.cons {cap : Nat} {z next : α} {points : List α} (hz : rule.diverged z = false)
    (hnext : step z = .ok next) (h : rule.Traces step cap next points) :
    rule.Traces step (cap + 1) z (z :: points) := by
  obtain ⟨rest, rfl⟩ := List.head?_eq_some_iff.mp h.head
  refine ⟨rfl, h.chain.cons_cons ⟨hz, hnext⟩, Nat.succ_le_succ h.length, fun hlength x hx => ?_⟩
  exact h.ended (Nat.le_of_succ_le_succ hlength) x (by rwa [List.getLast?_cons_cons] at hx)

theorem Ends.cons {done : Nat} {z : α} {points : List α} {r : Escape α} (hne : points ≠ [])
    (h : rule.Ends (done + 1) points r) : rule.Ends done (z :: points) r := by
  refine ⟨?_, ?_, h.escaped⟩
  · rw [h.iterations, List.length_cons]
    omega
  · obtain ⟨p, rest, rfl⟩ := List.exists_cons_of_ne_nil hne
    rw [List.getLast?_cons_cons, h.last]

variable (rule step)

/-- The two recursions fail together, or the one says how the points of the other end. -/
theorem pointsFrom_and_escapeFrom (cap done : Nat) (z : α) :
    (∃ e, rule.pointsFrom step cap z = .error e ∧ rule.escapeFrom step done cap z = .error e) ∨
      ∃ points r, rule.pointsFrom step cap z = .ok points ∧
        rule.escapeFrom step done cap z = .ok r ∧ rule.Traces step cap z points ∧
        rule.Ends done points r := by
  induction cap generalizing z done with
  | zero => exact .inr ⟨[z], _, rfl, rfl, ⟨rfl, .singleton z, by simp, by simp⟩, rfl, rfl, rfl⟩
  | succ cap ih =>
    rw [pointsFrom, escapeFrom]
    by_cases hz : rule.diverged z
    · rw [if_pos hz, if_pos hz]
      exact .inr ⟨[z], _, rfl, rfl, traces_diverged hz, rfl, rfl, hz.symm⟩
    rw [if_neg hz, if_neg hz]
    cases hnext : step z with
    | error e => exact .inl ⟨e, rfl, rfl⟩
    | ok next =>
      obtain ⟨e, hpoints, hescape⟩ | ⟨points, r, hpoints, hescape, htraces, hends⟩ :=
        ih (done + 1) next
      · exact .inl ⟨e, congrArg (Except.map (z :: ·)) hpoints, hescape⟩
      · have hne : points ≠ [] := by
          rintro rfl
          cases htraces.head
        exact .inr ⟨z :: points, r, congrArg (Except.map (z :: ·)) hpoints, hescape,
          .cons (by simpa using hz) hnext htraces, hends.cons hne⟩

variable {rule step}

/-! ### Errors -/

/-- An iteration fails if its first step does, and at no later one. -/
theorem escapeFrom_eq_error_iff (hstep : Uniform step) {cap done : Nat} {z : α} {e : Error} :
    rule.escapeFrom step done cap z = .error e ↔
      1 ≤ cap ∧ rule.diverged z = false ∧ step z = .error e := by
  induction cap generalizing z done with
  | zero => exact iff_of_false nofun fun h => nomatch h.1
  | succ cap ih =>
    rw [escapeFrom]
    by_cases hz : rule.diverged z
    · rw [if_pos hz]
      exact iff_of_false nofun fun h => absurd hz (by simp [h.2.1])
    rw [if_neg hz]
    cases hnext : step z with
    | error e' =>
      refine ⟨fun h => ⟨by omega, by simpa using hz, congrArg _ (Except.error.inj h)⟩, fun h => ?_⟩
      exact congrArg _ (Except.error.inj h.2.2)
    | ok next =>
      refine ⟨fun h => ?_, fun h => nomatch h.2.2⟩
      have hz := hstep (ih.mp h).2.2 (y := z)
      rw [hnext] at hz
      nomatch hz

end EscapeRule

namespace Tree

/-- A step of the iteration fails at all iterates or at none. -/
theorem uniform_iterate (t : Tree α) (b : Bindings α) (s : State α) : Uniform (t.iterate b s) := by
  intro x y e h
  refine evaluateWith_eq_error_of_alike (fun name => ?_) h
  simp only [State.get?_set, Option.isSome_or]
  split <;> rfl

/-- The points of an orbit and the end of the iteration belong together. -/
structure Agrees (t : Tree α) (b : Bindings α) (rule : EscapeRule α) (z : α) (points : List α)
    (r : Escape α) : Prop where
  length : points.length = r.iterations + 1
  capped : r.iterations ≤ rule.maxIterations.toNat
  start : points[0] = z
  next (k : Nat) (hk : k < r.iterations) :
    t.toFunction iterateName b points[k] = .ok points[k + 1]
  inside (k : Nat) (hk : k < r.iterations) : rule.diverged points[k] = false
  ended : r.iterations < rule.maxIterations.toNat → rule.diverged points[r.iterations]
  last : r.last = points[r.iterations]
  escaped : r.escaped = rule.diverged points[r.iterations]

theorem agrees_of_traces {t : Tree α} {b : Bindings α} {rule : EscapeRule α} {z : α}
    {points : List α} {r : Escape α}
    (htraces : rule.Traces (t.iterate b State.empty) rule.maxIterations.toNat z points)
    (hends : rule.Ends 0 points r) : t.Agrees b rule z points r := by
  have hlength : points.length = r.iterations + 1 := by
    rw [hends.iterations, Nat.zero_add]
  have hlast : points[r.iterations] = r.last := by
    have h := hends.last
    rw [List.getLast?_eq_getElem?, hlength, Nat.add_sub_cancel] at h
    exact (List.getElem_eq_iff _).mpr h
  have hcapped := htraces.length
  have hchain (k : Nat) (hk : k < r.iterations) := htraces.chain.getElem k (by omega)
  refine ⟨hlength, by omega, ?_, fun k hk => (hchain k hk).2, fun k hk => (hchain k hk).1,
    fun hlt => ?_, hlast.symm, ?_⟩
  · exact (List.getElem_eq_iff _).mpr (by rw [← htraces.head, List.head?_eq_getElem?])
  · rw [hlast]
    exact htraces.ended (by omega) _ hends.last
  · rw [hlast]
    exact hends.escaped

/-- The points, the end of the iteration and the tree as a function of the iterate describe the same
iteration, and it fails exactly if its first step is made and fails. An orbit that does not halt has
these points. It halts if it is not given room for as many points as the cap allows, and for no
other reason unless the cap wraps around. -/
theorem orbit_escape_agree (m : Machine) (t : Tree α) (b : Bindings α) (rule : EscapeRule α)
    (z : α) :
    ((∃ e, t.points b rule z = .error e ∧ t.escape b rule z = .error e) ∨
      ∃ points r, t.points b rule z = .ok points ∧ t.escape b rule z = .ok r ∧
        t.Agrees b rule z points r) ∧
    (∀ outcome, t.orbit m b rule z = .ok outcome → outcome = t.points b rule z) ∧
    (m.checksSums ∨ rule.maxIterations + 1 ≠ 0 → ∀ halt, t.orbit m b rule z = .error halt ↔
      m.roomFor (Numeral.bytes α) rule.maxIterations = .error halt) ∧
    (∀ halt, t.orbit m b rule z = .error halt →
      m.roomFor (Numeral.bytes α) rule.maxIterations = .error halt ∨
        ∃ places, m.reserve (Numeral.bytes α) places = .error halt) ∧
    ∀ e, t.escape b rule z = .error e ↔
      1 ≤ rule.maxIterations.toNat ∧ rule.diverged z = false ∧
        t.toFunction iterateName b z = .error e := by
  refine ⟨?agree, fun outcome => eq_points_of_orbit, fun hsum halt => ?_,
    fun halt => orbit_eq_error,
    fun e => EscapeRule.escapeFrom_eq_error_iff (uniform_iterate t b State.empty)⟩
  case agree =>
    obtain hfails | ⟨points, r, hpoints, hescape, htraces, hends⟩ :=
      rule.pointsFrom_and_escapeFrom (t.iterate b State.empty) rule.maxIterations.toNat 0 z
    · exact .inl hfails
    · exact .inr ⟨points, r, hpoints, hescape, agrees_of_traces htraces hends⟩
  rw [orbit_eq_map_roomFor hsum, map_eq_error_iff]

/-- The iterate times itself. -/
def squaring : Tree Float := binary .mul (var iterateName) (var iterateName)

/-- At most `cap` steps, within a radius. -/
def stepsWithin (cap : UInt64) (radius : Float) : EscapeRule Float := ⟨cap, radius, 0⟩

/-- A machine that checks its sums and grants no request of more than `bytes`. -/
def scarce (bytes : Nat) : Machine := ⟨true, (· ≤ bytes), fun places => 2 * places⟩

/-- In thirty-two bytes there is room for the points of three steps, not for those of four. -/
theorem orbit_escape_agree_scarce :
    (∃ points, squaring.orbit (scarce 32) .empty (stepsWithin 3 100.0) 2.0 = .ok (.ok points) ∧
      squaring.Agrees .empty (stepsWithin 3 100.0) 2.0 points ⟨3, true, 256.0⟩) ∧
    squaring.orbit (scarce 32) .empty (stepsWithin 4 100.0) 2.0 = .error (.outOfMemory 40) := by
  have horbit : squaring.orbit (scarce 32) .empty (stepsWithin 3 100.0) 2.0 =
      .ok (.ok [2.0, 4.0, 16.0, 256.0]) := by decide +kernel
  have hescape : squaring.escape .empty (stepsWithin 3 100.0) 2.0 = .ok ⟨3, true, 256.0⟩ := rfl
  obtain ⟨hagree, hsame, -⟩ :=
    orbit_escape_agree (scarce 32) squaring .empty (stepsWithin 3 100.0) 2.0
  obtain ⟨-, -, hhalts, -⟩ :=
    orbit_escape_agree (scarce 32) squaring .empty (stepsWithin 4 100.0) 2.0
  refine ⟨?_, (hhalts (.inl rfl) _).mpr rfl⟩
  rw [← hsame _ horbit, hescape] at hagree
  obtain ⟨e, he, -⟩ | ⟨points, r, hpoints, hr, hagrees⟩ := hagree
  · cases he
  · obtain rfl := Except.ok.inj hr
    exact ⟨points, horbit.trans (congrArg _ hpoints), hagrees⟩

/-- The iterate itself. -/
def standstill : Tree ComplexFloat := var iterateName

/-- At most `cap` steps, within the radius two. -/
def stepsWithinTwo (cap : UInt64) : EscapeRule ComplexFloat := ⟨cap, 2.0, 0⟩

/-- A point outside the radius, and as many steps as a signed word can count: the iteration ends at
once, and the orbit, which has this one point, halts. -/
theorem orbit_halts_where_escape_ends :
    standstill.orbit .ample .empty (stepsWithinTwo 9223372036854775807) ⟨3.0, 0.0⟩ =
        .error .capacityOverflow ∧
      standstill.escape .empty (stepsWithinTwo 9223372036854775807) ⟨3.0, 0.0⟩ =
        .ok ⟨0, true, ⟨3.0, 0.0⟩⟩ :=
  ⟨rfl, rfl⟩

end Tree

end FractalFormula
