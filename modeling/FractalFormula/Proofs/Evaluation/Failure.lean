import FractalFormula.Proofs.Tree.Acceptance

/-!
# The errors of evaluation

Whether a tree can be evaluated, and the error if it cannot, depends on the tree and on which names
have values. The values do not matter (`Tree.evaluateWith_eq_error_of_alike`).
-/

namespace FractalFormula.Tree

variable {α : Type _} [Scalar α] {value? value'? : String → Option α}

/-- The same names have values. -/
def NamedAlike (value? value'? : String → Option α) : Prop :=
  ∀ name, (value? name).isSome = (value'? name).isSome

theorem NamedAlike.exists_eq_ok (h : NamedAlike value? value'?) {t : Tree α} {x : α}
    (hx : t.evaluateWith value? = .ok x) : ∃ x', t.evaluateWith value'? = .ok x' := by
  have hok : (t.evaluateWith value?).isOk := isOk_iff.mpr ⟨x, hx⟩
  rw [isOk_evaluateWith_iff] at hok
  simp only [h _] at hok
  exact isOk_iff.mp (isOk_evaluateWith_iff.mpr hok)

/-- A tree fails with the same error wherever the same names have values. -/
theorem evaluateWith_eq_error_of_alike (h : NamedAlike value? value'?) {t : Tree α} {e : Error}
    (he : t.evaluateWith value? = .error e) : t.evaluateWith value'? = .error e := by
  induction t using Tree.evaluateWith.induct value? with
  | case1 x cs => cases he
  | case2 name cs x hx =>
    rw [evaluateWith, hx] at he
    cases he
  | case3 name cs hnone =>
    have hnone' : value'? name = none := by
      rw [← Option.isSome_eq_false_iff.trans Option.isNone_iff_eq_none, ← h name, hnone]
      rfl
    rw [evaluateWith, hnone] at he
    rw [evaluateWith, hnone']
    exact he
  | case4 o t ih =>
    rw [evaluateWith] at he ⊢
    obtain ht | ⟨x, -, hx⟩ := bind_eq_error he
    · rw [ih ht]
      rfl
    · cases hx
  | case5 o l r ihl ihr =>
    rw [evaluateWith] at he ⊢
    obtain hl | ⟨x, hx, he⟩ := bind_eq_error he
    · rw [ihl hl]
      rfl
    obtain ⟨x', hx'⟩ := h.exists_eq_ok hx
    rw [hx']
    obtain hr | ⟨y, hy, he⟩ := bind_eq_error he
    · rw [ihr hr]
      rfl
    -- Both operands have values, so it is the operator that has none.
    obtain ⟨y', hy'⟩ := h.exists_eq_ok hy
    rw [hy']
    cases o with
    | unknown => exact he
    | _ => cases he
  | case6 o cs hone htwo =>
    rw [evaluateWith] at he ⊢
    · exact he
    · exact hone
    · exact htwo
    · exact hone
    · exact htwo
  | case7 u => exact he
  | case8 f u hf ih =>
    rw [evaluateWith] at he ⊢
    · obtain hu | ⟨x, -, hx⟩ := bind_eq_error he
      · rw [ih hu]
        rfl
      · cases hx
    · exact hf
    · exact hf
  | case9 f cs hunknown hone =>
    rw [evaluateWith] at he ⊢
    · exact he
    · exact hunknown
    · exact hone
    · exact hunknown
    · exact hone

end FractalFormula.Tree
