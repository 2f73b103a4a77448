import FractalFormula.Orbit.Basic
import FractalFormula.Proofs.Except

/-!
# Orbits and the room for them

Room aside, the points of an orbit come from a recursion on the cap (`Tree.points`). The machine
adds that a run may halt. If it does not, it yields these points (`Tree.eq_points_of_orbit`). The
room that is asked for beforehand suffices, so a run halts exactly if this room is not to be had
(`Tree.orbit_eq_map_roomFor`), be it that no allocation may be so large
(`Tree.orbit_eq_capacityOverflow_iff`). The greatest cap is an exception: where sums wrap around it asks for
no room, and the list has to grow.
-/

namespace FractalFormula

namespace Machine

variable {m : Machine} {bytes : Nat}

theorem push_of_lt {room : Room} (h : room.taken < room.places) :
    m.push bytes room = .ok ⟨room.places, room.taken + 1, h⟩ :=
  dif_pos h

/-- A list that cannot take an element has asked for places that are not to be had. -/
theorem exists_reserve_of_push {room : Room} {halt : Halt} (h : m.push bytes room = .error halt) :
    ∃ places, m.reserve bytes places = .error halt := by
  rw [push] at h
  split at h
  · cases h
  · obtain h | ⟨_, _, h⟩ := bind_eq_error h
    · exact ⟨_, h⟩
    · cases h

theorem toNat_add_one {n : UInt64} (h : n.toNat + 1 < UInt64.size) :
    (n + 1).toNat = n.toNat + 1 := by
  rw [UInt64.toNat_add]
  exact Nat.mod_eq_of_lt h

/-- A word has a next one unless the sum wraps around. -/
theorem add_one_ne_zero_iff {n : UInt64} : n + 1 ≠ 0 ↔ n.toNat + 1 < UInt64.size := by
  refine ⟨fun hne => ?_, fun hlt hzero => ?_⟩
  · by_contra hge
    have hlast : n.toNat + 1 = UInt64.size := by
      have hlt := n.toNat_lt_size
      omega
    refine hne (UInt64.toNat_inj.mp ?_)
    rw [UInt64.toNat_add]
    exact (congrArg (· % UInt64.size) hlast).trans (Nat.mod_self _)
  · have hnext := toNat_add_one hlt
    rw [hzero] at hnext
    cases hnext

/-- Where the cap does not wrap around, room is had exactly if it is granted. -/
theorem roomFor_eq_map {cap : UInt64} (hne : cap + 1 ≠ 0) :
    m.roomFor bytes cap =
      (m.reserve bytes (cap + 1).toNat).map fun _ => ⟨(cap + 1).toNat, 0, Nat.zero_le _⟩ := by
  have hsuccessor : m.successor cap = .ok (cap + 1) := by simp [successor, hne]
  rw [roomFor, hsuccessor]
  show (m.reserve bytes (cap + 1).toNat >>= _) = _
  cases m.reserve bytes (cap + 1).toNat <;> rfl

/-- Where sums are checked, no room is had for a cap that would wrap around. -/
theorem ne_of_roomFor {cap : UInt64} {room : Room} (hsum : m.checksSums ∨ cap + 1 ≠ 0)
    (h : m.roomFor bytes cap = .ok room) : cap + 1 ≠ 0 := by
  rcases hsum with hchecks | hne
  · intro hzero
    obtain ⟨places, hplaces, -⟩ := bind_eq_ok h
    simp [successor, hchecks, hzero] at hplaces
  · exact hne

theorem roomFor_eq_ok {cap : UInt64} {room : Room} (hsum : m.checksSums ∨ cap + 1 ≠ 0)
    (h : m.roomFor bytes cap = .ok room) :
    room.taken = 0 ∧ room.places = cap.toNat + 1 ∧ cap.toNat + 1 < UInt64.size ∧
      m.reserve bytes (cap.toNat + 1) = .ok () := by
  have hne := ne_of_roomFor hsum h
  have hlt := add_one_ne_zero_iff.mp hne
  rw [roomFor_eq_map hne] at h
  obtain ⟨⟨⟩, hreserve, rfl⟩ := map_eq_ok h
  rw [toNat_add_one hlt] at hreserve
  exact ⟨rfl, toNat_add_one hlt, hlt, hreserve⟩

/-- Whatever the allocator, a list may not have more bytes than an allocation. -/
theorem reserve_eq_capacityOverflow_iff {places : Nat} :
    m.reserve bytes places = .error .capacityOverflow ↔ maxBytes < places * bytes := by
  simp only [reserve]
  split
  next hmax => exact iff_of_true rfl hmax
  next hmax =>
    refine iff_of_false (fun h => ?_) hmax
    split at h <;> cases h

end Machine

variable {α : Type _} [Numeral α] {m : Machine}

namespace EscapeRule

/-- The points from `z` on, at most `n` steps. -/
def pointsFrom (rule : EscapeRule α) (step : α → Except Error α) :
    Nat → α → Except Error (List α)
  | 0, z => .ok [z]
  | n + 1, z =>
    if rule.diverged z then .ok [z]
    else
      match step z with
      | .error e => .error e
      | .ok next => (rule.pointsFrom step n next).map (z :: ·)

variable {rule : EscapeRule α} {step : α → Except Error α} {n : Nat} {room room' : Room}
  {z next : α}

/-! ### One point more -/

theorem orbitFrom_halts {halt : Halt} (h : m.push (Numeral.bytes α) room = .error halt) :
    ∃ halt places, rule.orbitFrom m step n room z = .error halt ∧
      m.reserve (Numeral.bytes α) places = .error halt := by
  obtain ⟨places, hplaces⟩ := Machine.exists_reserve_of_push h
  refine ⟨halt, places, ?_, hplaces⟩
  cases n <;> rw [orbitFrom, h] <;> rfl

theorem orbitFrom_zero (h : m.push (Numeral.bytes α) room = .ok room') :
    rule.orbitFrom m step 0 room z = .ok (rule.pointsFrom step 0 z) := by
  rw [orbitFrom, h]
  rfl

theorem orbitFrom_diverged (h : m.push (Numeral.bytes α) room = .ok room')
    (hz : rule.diverged z) :
    rule.orbitFrom m step (n + 1) room z = .ok (rule.pointsFrom step (n + 1) z) := by
  rw [orbitFrom, pointsFrom, if_pos hz, h]
  exact if_pos hz

theorem orbitFrom_error (h : m.push (Numeral.bytes α) room = .ok room')
    (hz : ¬rule.diverged z) {e : Error} (hstep : step z = .error e) :
    rule.orbitFrom m step (n + 1) room z = .ok (rule.pointsFrom step (n + 1) z) := by
  rw [orbitFrom, pointsFrom, if_neg hz, hstep, h]
  exact if_neg hz

theorem orbitFrom_next (h : m.push (Numeral.bytes α) room = .ok room')
    (hz : ¬rule.diverged z) (hstep : step z = .ok next) :
    rule.orbitFrom m step (n + 1) room z =
      (rule.orbitFrom m step n room' next).map fun points => points.map (z :: ·) := by
  rw [orbitFrom, hstep, h]
  refine (if_neg hz).trans ?_
  cases rule.orbitFrom m step n room' next <;> rfl

variable (m rule step) in
/-- A run yields the points, or a request for room has ended it. -/
theorem orbitFrom_cases (n : Nat) (room : Room) (z : α) :
    rule.orbitFrom m step n room z = .ok (rule.pointsFrom step n z) ∨
      ∃ halt places, rule.orbitFrom m step n room z = .error halt ∧
        m.reserve (Numeral.bytes α) places = .error halt := by
  induction n generalizing room z with
  | zero =>
    cases hpush : m.push (Numeral.bytes α) room with
    | error halt => exact .inr (orbitFrom_halts hpush)
    | ok room' => exact .inl (orbitFrom_zero hpush)
  | succ n ih =>
    cases hpush : m.push (Numeral.bytes α) room with
    | error halt => exact .inr (orbitFrom_halts hpush)
    | ok room' =>
      by_cases hz : rule.diverged z
      · exact .inl (orbitFrom_diverged hpush hz)
      cases hstep : step z with
      | error e => exact .inl (orbitFrom_error hpush hz hstep)
      | ok next =>
        rw [orbitFrom_next hpush hz hstep, pointsFrom, if_neg hz, hstep]
        obtain hpoints | ⟨halt, places, hhalt, hplaces⟩ := ih room' next
        · exact .inl (by rw [hpoints]; rfl)
        · exact .inr ⟨halt, places, by rw [hhalt]; rfl, hplaces⟩

/-- With room for all points that may come, a run yields them. -/
theorem orbitFrom_of_room (hroom : room.taken + n < room.places) :
    rule.orbitFrom m step n room z = .ok (rule.pointsFrom step n z) := by
  induction n generalizing room z with
  | zero => exact orbitFrom_zero (Machine.push_of_lt hroom)
  | succ n ih =>
    have hpush : m.push (Numeral.bytes α) room = .ok ⟨room.places, room.taken + 1, _⟩ :=
      Machine.push_of_lt (by omega)
    by_cases hz : rule.diverged z
    · exact orbitFrom_diverged hpush hz
    cases hstep : step z with
    | error e => exact orbitFrom_error hpush hz hstep
    | ok next =>
      rw [orbitFrom_next hpush hz hstep, pointsFrom, if_neg hz, hstep, ih (by simp only; omega)]
      rfl

end EscapeRule

namespace Tree

/-- The points of an orbit, room aside. -/
def points (t : Tree α) (b : Bindings α) (rule : EscapeRule α) (z : α) : Except Error (List α) :=
  rule.pointsFrom (t.iterate b State.empty) rule.maxIterations.toNat z

variable {t : Tree α} {b : Bindings α} {rule : EscapeRule α} {z : α}

/-- A run that does not halt yields the points. -/
theorem eq_points_of_orbit {r : Except Error (List α)} (h : t.orbit m b rule z = .ok r) :
    r = t.points b rule z := by
  obtain ⟨room, -, h⟩ := bind_eq_ok h
  obtain hpoints | ⟨halt, -, hhalt, -⟩ :=
    rule.orbitFrom_cases m (t.iterate b State.empty) rule.maxIterations.toNat room z
  · exact Except.ok.inj (h.symm.trans hpoints)
  · rw [hhalt] at h
    cases h

/-- A run that halts was not given room to begin with, or was refused more. -/
theorem orbit_eq_error {halt : Halt} (h : t.orbit m b rule z = .error halt) :
    m.roomFor (Numeral.bytes α) rule.maxIterations = .error halt ∨
      ∃ places, m.reserve (Numeral.bytes α) places = .error halt := by
  obtain h | ⟨room, -, h⟩ := bind_eq_error h
  · exact .inl h
  · obtain hpoints | ⟨halt', places, hhalt, hplaces⟩ :=
      rule.orbitFrom_cases m (t.iterate b State.empty) rule.maxIterations.toNat room z
    · rw [hpoints] at h
      cases h
    · rw [hhalt] at h
      exact .inr ⟨places, Except.error.inj h ▸ hplaces⟩

/-- Unless the cap wraps around, a run that is given room to begin with does not halt. -/
theorem orbit_eq_map_roomFor (hsum : m.checksSums ∨ rule.maxIterations + 1 ≠ 0) :
    t.orbit m b rule z =
      (m.roomFor (Numeral.bytes α) rule.maxIterations).map fun _ => t.points b rule z := by
  rw [orbit]
  cases hroom : m.roomFor (Numeral.bytes α) rule.maxIterations with
  | error halt => rfl
  | ok room =>
    obtain ⟨htaken, hplaces, -⟩ := Machine.roomFor_eq_ok hsum hroom
    exact EscapeRule.orbitFrom_of_room (by omega)

/-- On every machine an orbit overflows whose points might take more bytes than an allocation may
have, wherever it escapes. -/
theorem orbit_eq_capacityOverflow_iff (hne : rule.maxIterations + 1 ≠ 0) :
    t.orbit m b rule z = .error .capacityOverflow ↔
      Machine.maxBytes < (rule.maxIterations.toNat + 1) * Numeral.bytes α := by
  rw [orbit_eq_map_roomFor (.inr hne), map_eq_error_iff, Machine.roomFor_eq_map hne,
    map_eq_error_iff, Machine.toNat_add_one (Machine.add_one_ne_zero_iff.mp hne),
    Machine.reserve_eq_capacityOverflow_iff]

end Tree

end FractalFormula
