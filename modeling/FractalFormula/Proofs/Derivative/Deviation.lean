import FractalFormula.Derivative
import FractalFormula.Proofs.Decimal.Order
import FractalFormula.Proofs.Except
import FractalFormula.Proofs.Scalar.Lawful

/-!
# Checking derivatives by differences

The greatest deviation of a derivative from a difference quotient bounds the deviation at every
point where that is a number (`derivativeDeviation_bounds`). A deviation that is undefined is not
counted, however, so a singular point passes the check unnoticed (`singular_point_passes`).
-/

namespace FractalFormula

namespace Tree

variable {α : Type _} [Numeral α]

/-- The distance at `x` between the value of `d`, which is meant to be the derivative of `t`, and
the difference quotient of `t` over `step` on either side. -/
def deviationAt (t d : Tree α) (name : String) (b : Bindings α) (step x : Float) :
    Except Error Float := do
  let slope ← d.toFunction name b (Numeral.ofReal x)
  let ahead ← t.toFunction name b (Numeral.ofReal (x + step))
  let behind ← t.toFunction name b (Numeral.ofReal (x - step))
  let quotient := (ahead - behind) / Numeral.ofReal (2.0 * step)
  return (Numeral.normSq (slope - quotient)).sqrt

theorem derivativeDeviation_eq (t : Tree α) (name : String) (b : Bindings α) (xs : List Float)
    (step : Float) :
    t.derivativeDeviation name b xs step = (do
      let d ← t.derivative name
      xs.foldlM (fun greatest x => do
        let y ← t.deviationAt d name b step x
        return maxDefined greatest y) 0.0) := by
  simp only [derivativeDeviation, deviationAt, bind_assoc, pure_bind]

end Tree

/-! ### The greatest of numbers some of which are undefined -/

section

variable {x y : Float}

theorem le_maxDefined (hx : x.isNaN = false) : x ≤ maxDefined x y := by
  rw [maxDefined, hx, Bool.false_or]
  split
  · next h => exact Binary64.le_of_lt (of_decide_eq_true h)
  · exact (Binary64.le_self_iff x).mpr hx

/-- The second number is bounded unless it is undefined. -/
theorem le_maxDefined_iff (hx : x.isNaN = false) : y ≤ maxDefined x y ↔ y.isNaN = false := by
  refine ⟨fun h => (Binary64.isNaN_of_le h).1, fun hy => ?_⟩
  rw [maxDefined, hx, Bool.false_or]
  split
  · exact (Binary64.le_self_iff y).mpr hy
  · next h => exact Binary64.le_of_not_lt hx hy fun hlt => h (decide_eq_true hlt)

theorem maxDefined_eq_or (x y : Float) : maxDefined x y = x ∨ maxDefined x y = y := by
  rw [maxDefined]
  split
  · exact .inr rfl
  · exact .inl rfl

end

/-- What the loop over the points preserves: the greatest number so far grows, is one of those met,
and bounds each of them that is defined. -/
theorem foldlM_maxDefined {f : Float → Except Error Float} {xs : List Float} {start m : Float}
    (hstart : start.isNaN = false)
    (h : xs.foldlM (fun greatest x => do let y ← f x; return maxDefined greatest y) start = .ok m) :
    start ≤ m ∧ (m = start ∨ ∃ x ∈ xs, f x = .ok m) ∧
      ∀ x ∈ xs, ∃ y, f x = .ok y ∧ (y ≤ m ↔ y.isNaN = false) := by
  induction xs generalizing start with
  | nil =>
    obtain rfl := Except.ok.inj h
    exact ⟨(Binary64.le_self_iff start).mpr hstart, .inl rfl, nofun⟩
  | cons x xs ih =>
    rw [List.foldlM_cons] at h
    obtain ⟨next, hnext, h⟩ := bind_eq_ok h
    obtain ⟨y, hy, hnext⟩ := bind_eq_ok hnext
    obtain rfl := Except.ok.inj hnext
    have hle : start ≤ maxDefined start y := le_maxDefined hstart
    obtain ⟨hgrows, hmet, hbounds⟩ := ih (Binary64.isNaN_of_le hle).2 h
    refine ⟨Binary64.le_trans hle hgrows, ?_, ?_⟩
    · rcases hmet with rfl | ⟨x', hx', hm⟩
      · rcases maxDefined_eq_or start y with heq | heq
        · exact .inl heq
        · rw [heq]
          exact .inr ⟨x, List.mem_cons_self, hy⟩
      · exact .inr ⟨x', List.mem_cons_of_mem x hx', hm⟩
    · intro x' hx'
      rcases List.mem_cons.mp hx' with rfl | hx'
      · refine ⟨y, hy, fun h => (Binary64.isNaN_of_le h).1, fun hdefined => ?_⟩
        exact Binary64.le_trans ((le_maxDefined_iff hstart).mpr hdefined) hgrows
      · exact hbounds x' hx'

namespace Tree

variable {α : Type _} [Numeral α] {t : Tree α} {name : String} {b : Bindings α} {xs : List Float}
  {step m : Float}

/-- The check of a derivative yields a number, which is zero or the deviation at one of the points.
At every point the deviation could be computed, and it is bounded by that number, and smaller than
all that the number is smaller than, exactly if it is defined. -/
theorem derivativeDeviation_bounds (h : t.derivativeDeviation name b xs step = .ok m) :
    ∃ d, t.derivative name = .ok d ∧ 0.0 ≤ m ∧
      (m = 0.0 ∨ ∃ x ∈ xs, t.deviationAt d name b step x = .ok m) ∧
      ∀ x ∈ xs, ∃ y, t.deviationAt d name b step x = .ok y ∧ (y ≤ m ↔ y.isNaN = false) ∧
        ∀ tolerance, m < tolerance → (y < tolerance ↔ y.isNaN = false) := by
  rw [derivativeDeviation_eq] at h
  obtain ⟨d, hd, h⟩ := bind_eq_ok h
  obtain ⟨hzero, hmet, hbounds⟩ := foldlM_maxDefined (by decide) h
  refine ⟨d, hd, hzero, hmet, fun x hx => ?_⟩
  obtain ⟨y, hy, hle⟩ := hbounds x hx
  refine ⟨y, hy, hle, fun tolerance hm => ⟨fun hlt => ?_, fun hdefined => ?_⟩⟩
  · exact (Binary64.isNaN_of_le (Binary64.le_of_lt hlt)).1
  · exact Binary64.lt_of_le_of_lt (hle.mpr hdefined) hm

/-- The cube at one, where the difference quotient over a half is off by a quarter. -/
theorem derivativeDeviation_bounds_cube :
    (var "x" * var "x" * var "x" : Tree Float).derivativeDeviation "x" .empty [1.0] 0.5 = .ok 0.25 ∧
      ∃ d y, (var "x" * var "x" * var "x" : Tree Float).derivative "x" = .ok d ∧
        (var "x" * var "x" * var "x" : Tree Float).deviationAt d "x" .empty 0.5 1.0 = .ok y ∧
        (y ≤ 0.25 ↔ y.isNaN = false) := by
  have h : (var "x" * var "x" * var "x" : Tree Float).derivativeDeviation "x" .empty [1.0] 0.5 =
      .ok 0.25 := by decide +kernel
  obtain ⟨d, hd, -, -, hbounds⟩ := derivativeDeviation_bounds h
  obtain ⟨y, hy, hle, -⟩ := hbounds 1.0 List.mem_cons_self
  exact ⟨h, d, y, hd, hy, hle⟩

/-- The square root has no real value at minus one, nor have its derivative and the deviation, and
yet the greatest deviation is zero, below every tolerance. -/
theorem singular_point_passes :
    (call .sqrt (var "x") : Tree Float).derivativeDeviation "x" .empty [-1.0] 0.5 = .ok 0.0 ∧
      ¬∀ (t : Tree Float) (name : String) (b : Bindings Float) (xs : List Float) (step m : Float),
        t.derivativeDeviation name b xs step = .ok m → ∀ x ∈ xs, ∃ d y,
          t.derivative name = .ok d ∧ t.deviationAt d name b step x = .ok y ∧ y ≤ m := by
  have h : (call .sqrt (var "x") : Tree Float).derivativeDeviation "x" .empty [-1.0] 0.5 =
      .ok 0.0 := by decide +kernel
  have hundefined : ((call .sqrt (var "x") : Tree Float).derivative "x" >>= fun d =>
      (call .sqrt (var "x") : Tree Float).deviationAt d "x" .empty 0.5 (-1.0)) =
      .ok Elementary.nan := by decide +kernel
  refine ⟨h, fun hall => ?_⟩
  obtain ⟨d, y, hd, hy, hle⟩ := hall _ "x" .empty [-1.0] 0.5 0.0 h (-1.0) List.mem_cons_self
  rw [hd] at hundefined
  obtain rfl := Except.ok.inj (hy.symm.trans hundefined)
  exact absurd hle (by decide)

end Tree

end FractalFormula
