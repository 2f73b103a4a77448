import FractalFormula.Proofs.Parser.Soundness

/-!
# The shape of parsed trees

The parser builds few of the trees there are: its numbers are values of literals, its variables
are names, its functions are listed, and an operator has one child only under a minus sign.
`Tree.Parsed` says so, and `Tree.parsed_of_formula` that every parsed tree is of this kind.
-/

namespace FractalFormula

variable {α : Type _} [Numeral α]

namespace Tree

/-- The trees that formulas stand for. -/
inductive Parsed : Tree α → Prop where
  | num {literal : List Char} {v : Float} {imaginary : Bool} {x : α} :
    Literal.IsLiteral literal → Literal.value? literal = some v →
    Numeral.ofLiteral? v imaginary = some x → Parsed (.num x)
  | var (name : Name) : Parsed (.var (String.ofList name.1))
  | call {name : String} {f : Func} {t : Tree α} :
    Func.named? name = some f → Parsed t → Parsed (.call f t)
  | binary {o : Operator} {l r : Tree α} :
    o ≠ .unknown → Parsed l → Parsed r → Parsed (.binary o l r)
  | negation {t : Tree α} : Parsed t → Parsed (.negation t)

end Tree

namespace Derivation

/-- What a phrase says of the shape of its tree: the operands of a chain keep the shape of the tree
on their left. -/
def Shaped (α : Type _) [Numeral α] : {p : Phrase} → Derivation p → Prop
  | .moreTerms, d => ∀ left : Tree α, left.Parsed → (d.tree left).Parsed
  | .morePowers, d => ∀ left : Tree α, left.Parsed → (d.tree left).Parsed
  | .expr, d => (d.tree : Tree α).Parsed
  | .term, d => (d.tree : Tree α).Parsed
  | .power, d => (d.tree : Tree α).Parsed
  | .atom, d => (d.tree : Tree α).Parsed

theorem shaped {p : Phrase} (d : Derivation p) (h : d.Admissible α) : d.Shaped α := by
  induction d with
  | plain first more hfirst hmore => exact hmore h.2 _ (hfirst h.1)
  | negated first more hfirst hmore => exact hmore h.2 _ (.negation (hfirst h.1))
  | lastTerm => exact fun left hleft => hleft
  | nextTerm s operand more hoperand hmore =>
    have hs : s.operator ≠ .unknown := by cases s <;> decide
    exact fun left hleft => hmore h.2 _ (.binary hs hleft (hoperand h.1))
  | term first more hfirst hmore => exact hmore h.2 _ (hfirst h.1)
  | lastPower => exact fun left hleft => hleft
  | nextPower s operand more hoperand hmore =>
    have hs : s.operator ≠ .unknown := by cases s <;> decide
    exact fun left hleft => hmore h.2 _ (.binary hs hleft (hoperand h.1))
  | base a ha => exact ha h
  | raised a exponent ha hexponent => exact .binary (by decide) (ha h.1) (hexponent h.2)
  | bracket inner hinner => exact hinner h
  | call name argument hargument =>
    obtain ⟨⟨f, hf⟩, hadm⟩ := h
    simp only [Shaped, tree, hf, Option.getD_some]
    exact .call hf (hargument hadm)
  | number literal imaginary =>
    obtain ⟨hfin, hsome⟩ := h
    obtain ⟨v, hv⟩ := (Literal.exists_value?_iff literal.2).mpr hfin
    obtain ⟨x, hx⟩ := Option.isSome_iff_exists.mp (hsome v hv)
    simp only [Shaped, tree, scalar?, hv, Option.bind_some, hx, Option.getD_some]
    exact .num literal.2 hv hx
  | var name => exact .var name

end Derivation

theorem Tree.parsed_of_formula {s : List Char} {t : Tree α} (h : Parser.formula s = .ok t) :
    t.Parsed ∧ t.depth ≤ Parser.maxDepth := by
  obtain ⟨d, -, rfl, hadm, -, hshallow⟩ := Parser.formula_sound h
  exact ⟨d.shaped hadm, hshallow⟩

end FractalFormula
