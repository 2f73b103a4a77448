import FractalFormula.Proofs.Decimal.Bits

/-!
# The order of binary64 numbers

Every number but the undefined one has a place in a linear order, and the comparisons of numbers are
those of their places (`lt_iff`, `le_iff`). So they are transitive, although they do not hold of all
numbers.
-/

namespace FractalFormula.Binary64

open Float.Model.UnpackedFloat

/-- Where a number stands: by its sign and whether it is finite, then by its exponent, then by its
significand. -/
def place? : Float.Model.UnpackedFloat → Option (ℤ ×ₗ ℤ ×ₗ ℤ)
  | .notANumber => none
  | .infinity .negative => some (toLex (-2, toLex (0, 0)))
  | .finite .negative m e _ => some (toLex (-1, toLex (-e, -m)))
  | .zero _ => some (toLex (0, toLex (0, 0)))
  | .finite .positive m e _ => some (toLex (1, toLex (e, m)))
  | .infinity .positive => some (toLex (2, toLex (0, 0)))

theorem compare_eq_lt_iff (u v : Float.Model.UnpackedFloat) :
    u.compare v = some .lt ↔ ∃ a b, place? u = some a ∧ place? v = some b ∧ a < b := by
  have hsign : compare Sign.negative Sign.positive = .lt := rfl
  rcases u with (_ | _) | _ | _ | ⟨_ | _, m, e, _⟩ <;>
    rcases v with (_ | _) | _ | _ | ⟨_ | _, m', e', _⟩ <;>
      simp [Float.Model.UnpackedFloat.compare, place?, Prod.Lex.toLex_lt_toLex, hsign,
        Ordering.then_eq_lt, Ordering.then_eq_gt, compare_lt_iff_lt, compare_gt_iff_gt]

theorem isLE_compare_iff (u v : Float.Model.UnpackedFloat) :
    (u.compare v).any (·.isLE) ↔ ∃ a b, place? u = some a ∧ place? v = some b ∧ a ≤ b := by
  have hlt : compare Sign.negative Sign.positive = .lt := rfl
  have hgt : compare Sign.positive Sign.negative = .gt := rfl
  have hself (s : Sign) : (compare s s).isLE := by cases s <;> rfl
  rcases u with (_ | _) | _ | _ | ⟨_ | _, m, e, _⟩ <;>
    rcases v with (_ | _) | _ | _ | ⟨_ | _, m', e', _⟩ <;>
      simp [Float.Model.UnpackedFloat.compare, place?, Prod.Lex.toLex_le_toLex, hlt, hgt, hself,
        Ordering.isLE_iff_ne_gt, Ordering.isGE_iff_ne_lt, Ordering.then_eq_lt, Ordering.then_eq_gt,
        compare_lt_iff_lt, compare_gt_iff_gt]
  -- What is left are the numbers of one sign that are neither zero nor infinite.
  all_goals omega

theorem lt_iff {x y : Float} : x < y ↔
    ∃ a b, place? x.toModel.unpack = some a ∧ place? y.toModel.unpack = some b ∧ a < b := by
  show decide ((x.toModel.unpack.compare y.toModel.unpack == some .lt) = true) = true ↔ _
  rw [decide_eq_true_iff, beq_iff_eq]
  exact compare_eq_lt_iff _ _

theorem le_iff {x y : Float} : x ≤ y ↔
    ∃ a b, place? x.toModel.unpack = some a ∧ place? y.toModel.unpack = some b ∧ a ≤ b := by
  show decide ((x.toModel.unpack.compare y.toModel.unpack).any (·.isLE) = true) = true ↔ _
  rw [decide_eq_true_iff]
  exact isLE_compare_iff _ _

protected theorem lt_of_le_of_lt {x y z : Float} (hxy : x ≤ y) (hyz : y < z) : x < z := by
  obtain ⟨a, b, ha, hb, hab⟩ := le_iff.mp hxy
  obtain ⟨b', c, hb', hc, hbc⟩ := lt_iff.mp hyz
  obtain rfl := Option.some.inj (hb.symm.trans hb')
  exact lt_iff.mpr ⟨a, c, ha, hc, hab.trans_lt hbc⟩

theorem isNaN_iff (x : Float) : x.isNaN ↔ place? x.toModel.unpack = none := by
  show x.toModel.unpack.isNaN = true ↔ _
  rcases x.toModel.unpack with (_ | _) | _ | _ | ⟨_ | _, m, e, _⟩ <;>
    simp [Float.Model.UnpackedFloat.isNaN, place?]

theorem exists_place {x : Float} (hx : x.isNaN = false) :
    ∃ a, place? x.toModel.unpack = some a := by
  rw [← Option.isSome_iff_exists, Option.isSome_iff_ne_none, ne_eq, ← isNaN_iff, hx]
  decide

/-- A number is at most itself unless it is undefined. -/
theorem le_self_iff (x : Float) : x ≤ x ↔ x.isNaN = false := by
  rw [le_iff, ← Bool.not_eq_true, isNaN_iff, ← ne_eq, ← Option.isSome_iff_ne_none,
    Option.isSome_iff_exists]
  constructor
  · rintro ⟨a, -, ha, -, -⟩
    exact ⟨a, ha⟩
  · rintro ⟨a, ha⟩
    exact ⟨a, a, ha, ha, le_refl a⟩

protected theorem le_trans {x y z : Float} (hxy : x ≤ y) (hyz : y ≤ z) : x ≤ z := by
  obtain ⟨a, b, ha, hb, hab⟩ := le_iff.mp hxy
  obtain ⟨b', c, hb', hc, hbc⟩ := le_iff.mp hyz
  obtain rfl := Option.some.inj (hb.symm.trans hb')
  exact le_iff.mpr ⟨a, c, ha, hc, hab.trans hbc⟩

protected theorem le_of_lt {x y : Float} (h : x < y) : x ≤ y := by
  obtain ⟨a, b, ha, hb, hab⟩ := lt_iff.mp h
  exact le_iff.mpr ⟨a, b, ha, hb, hab.le⟩

/-- Of two numbers that are defined, one is at most the other. -/
protected theorem le_of_not_lt {x y : Float} (hx : x.isNaN = false) (hy : y.isNaN = false)
    (h : ¬x < y) : y ≤ x := by
  obtain ⟨a, ha⟩ := exists_place hx
  obtain ⟨b, hb⟩ := exists_place hy
  exact le_iff.mpr ⟨b, a, hb, ha, not_lt.mp fun hab => h (lt_iff.mpr ⟨a, b, ha, hb, hab⟩)⟩

/-- What is comparable is defined. -/
theorem isNaN_of_le {x y : Float} (h : x ≤ y) : x.isNaN = false ∧ y.isNaN = false := by
  obtain ⟨a, b, ha, hb, -⟩ := le_iff.mp h
  constructor
  · rw [← Bool.not_eq_true, isNaN_iff, ha]
    nofun
  · rw [← Bool.not_eq_true, isNaN_iff, hb]
    nofun

end FractalFormula.Binary64
