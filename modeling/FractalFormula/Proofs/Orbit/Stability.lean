import FractalFormula.Proofs.Decimal.Order
import FractalFormula.Proofs.Orbit.Escape

/-!
# Orbits under other caps and radii

With fewer steps and a smaller radius an orbit ends earlier, but it does not take another way: its
points are the first points of the longer orbit (`EscapeRule.pointsFrom_isPrefix`). An iteration
that has escaped ends in the same way whatever more steps it might have taken
(`EscapeRule.escapeFrom_eq_of_escaped`), also if it escaped with the very last of its steps.

A smaller cap asks for less room, so the shorter orbit halts on no machine that has carried out the
longer one and grants smaller requests as well as greater ones (`Tree.orbit_of_le`). The greatest
cap is an exception where sums wrap around: it asks for no room at all.
-/

namespace FractalFormula

/-- The allocator grants all that is smaller than a request that it grants. -/
def Machine.Orderly (m : Machine) : Prop :=
  ∀ {size size' : Nat}, size ≤ size' → m.grants size' → m.grants size

namespace Machine.Orderly

variable {m : Machine} {bytes : Nat}

theorem reserve (hm : m.Orderly) {places places' : Nat} (hle : places ≤ places')
    (h : m.reserve bytes places' = .ok ()) : m.reserve bytes places = .ok () := by
  have hsize : places * bytes ≤ places' * bytes := Nat.mul_le_mul_right bytes hle
  simp only [Machine.reserve] at h ⊢
  split at h
  · cases h
  split at h
  next hmax hgrants =>
    rw [if_neg (by omega), if_pos]
    simp only [Bool.or_eq_true, decide_eq_true_eq] at hgrants ⊢
    obtain hzero | hgrants := hgrants
    · exact .inl (by omega)
    · exact .inr (hm hsize hgrants)
  next => cases h

theorem roomFor (hm : m.Orderly) {cap cap' : UInt64} (hle : cap ≤ cap') {room : Room}
    (hsum : m.checksSums ∨ cap' + 1 ≠ 0) (h : m.roomFor bytes cap' = .ok room) :
    cap + 1 ≠ 0 ∧ ∃ room, m.roomFor bytes cap = .ok room := by
  obtain ⟨-, -, hlt, hreserve⟩ := roomFor_eq_ok hsum h
  have hle := UInt64.le_iff_toNat_le.mp hle
  have hlt : cap.toNat + 1 < UInt64.size := by omega
  have hne := add_one_ne_zero_iff.mpr hlt
  refine ⟨hne, ⟨(cap + 1).toNat, 0, Nat.zero_le _⟩, ?_⟩
  rw [roomFor_eq_map hne, toNat_add_one hlt, hm.reserve (Nat.succ_le_succ hle) hreserve]
  rfl

end Machine.Orderly

variable {α : Type _} [Numeral α]

namespace EscapeRule

variable {rule rule' : EscapeRule α} {step : α → Except Error α}

/-- Beyond the greater radius a point is beyond the smaller one. -/
theorem diverged_of_bailout_le
    (h : rule.bailout * rule.bailout ≤ rule'.bailout * rule'.bailout) {z : α}
    (hz : rule'.diverged z) : rule.diverged z := by
  simp only [diverged, Bool.or_eq_true, decide_eq_true_eq] at hz ⊢
  exact hz.imp_right (Binary64.lt_of_le_of_lt h)

theorem diverged_eq_of_bailout_eq
    (h : rule.bailout * rule.bailout = rule'.bailout * rule'.bailout) (z : α) :
    rule.diverged z = rule'.diverged z := by
  simp only [diverged, h]

/-- The points and the end of an iteration that does not fail. -/
theorem traces_of_pointsFrom {cap : Nat} {z : α} {points : List α}
    (h : rule.pointsFrom step cap z = .ok points) (done : Nat) :
    rule.Traces step cap z points ∧
      ∃ r, rule.escapeFrom step done cap z = .ok r ∧ rule.Ends done points r := by
  obtain ⟨e, herror, -⟩ | ⟨points', r, hpoints, hescape, htraces, hends⟩ :=
    rule.pointsFrom_and_escapeFrom step cap done z
  · rw [herror] at h
    cases h
  · rw [hpoints] at h
    obtain rfl := Except.ok.inj h
    exact ⟨htraces, r, hescape, hends⟩

/-- A rule that ends an iteration earlier keeps its first points. -/
theorem pointsFrom_isPrefix (hdiverged : ∀ z, rule'.diverged z → rule.diverged z) {cap cap' : Nat}
    (hcap : cap ≤ cap') {z : α} {points' : List α}
    (h : rule'.pointsFrom step cap' z = .ok points') :
    ∃ points, rule.pointsFrom step cap z = .ok points ∧ points <+: points' := by
  induction cap generalizing cap' z points' with
  | zero =>
    obtain ⟨rest, rfl⟩ := List.head?_eq_some_iff.mp (traces_of_pointsFrom h 0).1.head
    exact ⟨[z], rfl, by simp⟩
  | succ cap ih =>
    obtain ⟨cap', rfl⟩ := Nat.exists_eq_add_of_lt hcap
    rw [pointsFrom]
    by_cases hz : rule.diverged z
    · obtain ⟨rest, rfl⟩ := List.head?_eq_some_iff.mp (traces_of_pointsFrom h 0).1.head
      exact ⟨[z], if_pos hz, by simp⟩
    rw [if_neg hz]
    rw [pointsFrom, if_neg (mt (hdiverged z) hz)] at h
    cases hnext : step z with
    | error e =>
      rw [hnext] at h
      cases h
    | ok next =>
      rw [hnext] at h
      obtain ⟨rest', hrest', rfl⟩ := map_eq_ok h
      obtain ⟨rest, hrest, hprefix⟩ := ih (by omega) hrest'
      exact ⟨z :: rest, congrArg (Except.map (z :: ·)) hrest,
        List.cons_prefix_cons.mpr ⟨rfl, hprefix⟩⟩

/-- An iteration that has escaped ends in the same way if more steps are allowed. -/
theorem escapeFrom_eq_of_escaped (hdiverged : ∀ z, rule.diverged z = rule'.diverged z)
    {cap cap' : Nat} (hcap : cap ≤ cap') {done : Nat} {z : α} {r : Escape α}
    (h : rule.escapeFrom step done cap z = .ok r) (hescaped : r.escaped) :
    rule'.escapeFrom step done cap' z = .ok r := by
  induction cap generalizing cap' done z with
  | zero =>
    obtain rfl := Except.ok.inj h
    have hz : rule.diverged z := hescaped
    cases cap' with
    | zero => rw [escapeFrom, hdiverged]
    | succ cap' => rw [escapeFrom, if_pos (hdiverged z ▸ hz), hz]
  | succ cap ih =>
    obtain ⟨cap', rfl⟩ := Nat.exists_eq_add_of_lt hcap
    rw [escapeFrom, hdiverged] at h
    rw [escapeFrom]
    split at h
    · next hz =>
      rw [if_pos hz]
      exact h
    · next hz =>
      rw [if_neg hz]
      cases hnext : step z with
      | error e =>
        rw [hnext] at h
        cases h
      | ok next =>
        rw [hnext] at h
        exact ih (by omega) h

end EscapeRule

namespace Tree

variable {m : Machine} {t : Tree α} {b : Bindings α} {rule rule' : EscapeRule α} {z : α}

theorem exists_escape_of_points {points : List α} (h : t.points b rule z = .ok points) :
    ∃ r, t.escape b rule z = .ok r ∧ points.length = r.iterations + 1 := by
  obtain ⟨-, r, hescape, hends⟩ := EscapeRule.traces_of_pointsFrom h 0
  exact ⟨r, hescape, by rw [hends.iterations, Nat.zero_add]⟩

/-- Where there was room for an orbit there is room for the orbit under a smaller cap. -/
theorem orbit_of_le (hm : m.Orderly) (hcap : rule.maxIterations ≤ rule'.maxIterations)
    (hsum : m.checksSums ∨ rule'.maxIterations + 1 ≠ 0) {outcome : Except Error (List α)}
    (h : t.orbit m b rule' z = .ok outcome) :
    t.orbit m b rule z = .ok (t.points b rule z) := by
  rw [orbit_eq_map_roomFor hsum] at h
  obtain ⟨room', hroom', -⟩ := map_eq_ok h
  obtain ⟨hne, room, hroom⟩ := hm.roomFor hcap hsum hroom'
  rw [orbit_eq_map_roomFor (.inr hne), hroom]
  rfl

/-- With a smaller cap and a smaller radius the points of an orbit are the first points of the
orbit, so it takes no more steps, and it halts only where smaller requests for room are refused or
where the greater cap has wrapped around. A result that has escaped stays the same under a greater
cap. -/
theorem orbit_escape_stable (hcap : rule.maxIterations ≤ rule'.maxIterations) :
    (rule.bailout * rule.bailout ≤ rule'.bailout * rule'.bailout →
      ∀ (m : Machine) (points' : List α), t.orbit m b rule' z = .ok (.ok points') →
        ∃ points r r', points <+: points' ∧
          t.escape b rule z = .ok r ∧ t.escape b rule' z = .ok r' ∧
          r.iterations ≤ r'.iterations ∧
          (∀ outcome, t.orbit m b rule z = .ok outcome → outcome = .ok points) ∧
          (m.Orderly → m.checksSums ∨ rule'.maxIterations + 1 ≠ 0 →
            t.orbit m b rule z = .ok (.ok points))) ∧
    (rule.bailout * rule.bailout = rule'.bailout * rule'.bailout →
      ∀ r, t.escape b rule z = .ok r → r.escaped → t.escape b rule' z = .ok r) := by
  have hle : rule.maxIterations.toNat ≤ rule'.maxIterations.toNat := UInt64.le_iff_toNat_le.mp hcap
  refine ⟨fun hbailout m points' h' => ?_, fun hbailout r hr hescaped => ?_⟩
  · have hpoints' := eq_points_of_orbit h'
    obtain ⟨points, hpoints, hprefix⟩ := EscapeRule.pointsFrom_isPrefix
      (fun _ => EscapeRule.diverged_of_bailout_le hbailout) hle hpoints'.symm
    obtain ⟨r, hr, hlength⟩ := exists_escape_of_points hpoints
    obtain ⟨r', hr', hlength'⟩ := exists_escape_of_points hpoints'.symm
    have hlengths := hprefix.length_le
    refine ⟨points, r, r', hprefix, hr, hr', by omega, fun outcome h => ?_, fun hm hsum => ?_⟩
    · exact (eq_points_of_orbit h).trans hpoints
    · exact (orbit_of_le hm hcap hsum h').trans (congrArg _ hpoints)
  · exact EscapeRule.escapeFrom_eq_of_escaped (EscapeRule.diverged_eq_of_bailout_eq hbailout)
      hle hr hescaped

/-- Squaring leaves the radius ten after two steps and the radius hundred after three, which only
the last of three steps shows. Thirty-two bytes have room for the points of three steps, and so for
those of two. -/
theorem orbit_escape_stable_squaring :
    (∃ points, squaring.orbit (scarce 32) .empty (stepsWithin 2 10.0) 2.0 = .ok (.ok points) ∧
      points <+: [2.0, 4.0, 16.0, 256.0]) ∧
    squaring.escape .empty (stepsWithin 9 100.0) 2.0 = .ok ⟨3, true, 256.0⟩ := by
  have horbit : squaring.orbit (scarce 32) .empty (stepsWithin 3 100.0) 2.0 =
      .ok (.ok [2.0, 4.0, 16.0, 256.0]) := by decide +kernel
  have hescape : squaring.escape .empty (stepsWithin 3 100.0) 2.0 = .ok ⟨3, true, 256.0⟩ := rfl
  have hbailout : (10.0 * 10.0 : Float) ≤ 100.0 * 100.0 := by decide
  have hfewer : (stepsWithin 2 10.0).maxIterations ≤ (stepsWithin 3 100.0).maxIterations := by
    decide
  have hmore : (stepsWithin 3 100.0).maxIterations ≤ (stepsWithin 9 100.0).maxIterations := by
    decide
  have horderly : (scarce 32).Orderly := fun hle hgrants =>
    decide_eq_true (hle.trans (of_decide_eq_true hgrants))
  obtain ⟨points, -, -, hprefix, -, -, -, -, hpoints⟩ :=
    (orbit_escape_stable hfewer).1 hbailout _ _ horbit
  exact ⟨⟨points, hpoints horderly (.inl rfl), hprefix⟩,
    (orbit_escape_stable hmore).2 rfl _ hescape rfl⟩

/-- The orbit of one point under the greatest cap, which asks for no room where sums wrap around; it
halts under a cap that is sixteen times smaller. -/
theorem orbit_halts_under_smaller_cap :
    standstill.orbit .ample .empty (stepsWithinTwo 18446744073709551615) ⟨3.0, 0.0⟩ =
        .ok (.ok [⟨3.0, 0.0⟩]) ∧
      standstill.orbit .ample .empty (stepsWithinTwo 1152921504606846976) ⟨3.0, 0.0⟩ =
        .error .capacityOverflow :=
  ⟨rfl, rfl⟩

end Tree

end FractalFormula
