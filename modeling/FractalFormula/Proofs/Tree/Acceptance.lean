import FractalFormula.Derivative
import FractalFormula.Proofs.Except
import FractalFormula.Scalar.ComplexFloat
import FractalFormula.Shader.Lowering

/-!
# Trees that evaluation, lowering and differentiation accept

A tree is accepted if its nodes have children that fit them, its operators and functions are known
and its variables have a property, such as being bound. Evaluation, lowering and differentiation
are three walks of their own over a tree. They look at children and labels in different orders, and
yet they succeed on the same trees: those accepted with the variables that are bound, the variables
that the mode allows, and any variables (`isOk_evaluateWith_iff`, `isOk_lower_iff`,
`isOk_derivative_iff`).
-/

namespace FractalFormula

variable {α : Type _}

namespace Tree

/-- Every node that is looked at has children that fit it and a known operator or function, and
every variable has the property `named`. Children of numbers and variables are not looked at, and
an operator with a single operand is a negation, whatever the operator. -/
inductive Accepted (named : String → Prop) : Tree α → Prop where
  | num (x : α) (cs : List (Tree α)) : Accepted named (.node (.num x) cs)
  | var {name : String} (cs : List (Tree α)) : named name → Accepted named (.node (.var name) cs)
  | negation (o : Operator) {t : Tree α} : Accepted named t →
    Accepted named (.node (.operator o) [t])
  | binary {o : Operator} {l r : Tree α} : o ≠ .unknown → Accepted named l → Accepted named r →
    Accepted named (.node (.operator o) [l, r])
  | call {f : Func} {u : Tree α} : f ≠ .unknown → Accepted named u →
    Accepted named (.node (.func f) [u])

/-! ### Node by node -/

section

variable {named : String → Prop}

theorem accepted_var_iff {name : String} {cs : List (Tree α)} :
    (Tree.node (.var name) cs).Accepted named ↔ named name := by
  refine ⟨fun h => ?_, .var cs⟩
  cases h with
  | var _ hname => exact hname

theorem accepted_negation_iff {o : Operator} {t : Tree α} :
    (Tree.node (.operator o) [t]).Accepted named ↔ t.Accepted named := by
  refine ⟨fun h => ?_, .negation o⟩
  cases h with
  | negation _ ht => exact ht

theorem accepted_binary_iff {o : Operator} {l r : Tree α} :
    (Tree.node (.operator o) [l, r]).Accepted named ↔
      l.Accepted named ∧ r.Accepted named ∧ o ≠ .unknown := by
  refine ⟨fun h => ?_, fun ⟨hl, hr, ho⟩ => .binary ho hl hr⟩
  cases h with
  | binary ho hl hr => exact ⟨hl, hr, ho⟩

theorem accepted_call_iff {f : Func} {u : Tree α} :
    (Tree.node (.func f) [u]).Accepted named ↔ u.Accepted named ∧ f ≠ .unknown := by
  refine ⟨fun h => ?_, fun ⟨hu, hf⟩ => .call hf hu⟩
  cases h with
  | call hf hu => exact ⟨hu, hf⟩

theorem not_accepted_operator {o : Operator} {cs : List (Tree α)} (hone : ∀ t, cs ≠ [t])
    (htwo : ∀ l r, cs ≠ [l, r]) : ¬(Tree.node (.operator o) cs).Accepted named := by
  intro h
  cases h with
  | negation _ _ => exact hone _ rfl
  | binary _ _ _ => exact htwo _ _ rfl

theorem not_accepted_func {f : Func} {cs : List (Tree α)} (hone : ∀ u, cs ≠ [u]) :
    ¬(Tree.node (.func f) cs).Accepted named := by
  intro h
  cases h with
  | call _ _ => exact hone _ rfl

theorem Accepted.mono {named' : String → Prop} {t : Tree α} (h : t.Accepted named)
    (hnamed : ∀ name, named name → named' name) : t.Accepted named' := by
  induction h with
  | num x cs => exact .num x cs
  | var cs hname => exact .var cs (hnamed _ hname)
  | negation o _ ih => exact .negation o ih
  | binary ho _ _ ihl ihr => exact .binary ho ihl ihr
  | call hf _ ih => exact .call hf ih

end

/-! ### Evaluation -/

section

variable [Scalar α]

theorem isSome_operate?_iff {o : Operator} {x y : α} :
    (Scalar.operate? o x y).isSome ↔ o ≠ .unknown := by
  cases o <;> simp [Scalar.operate?]

theorem isOk_evaluateWith_iff {value? : String → Option α} {t : Tree α} :
    (t.evaluateWith value?).isOk ↔ t.Accepted fun name => (value? name).isSome := by
  induction t using Tree.evaluateWith.induct value? with
  | case1 x cs => exact iff_of_true rfl (.num x cs)
  | case2 name cs x h =>
    rw [evaluateWith, h, accepted_var_iff, h]
    exact iff_of_true rfl rfl
  | case3 name cs h =>
    rw [evaluateWith, h, accepted_var_iff, h]
    exact iff_of_false nofun nofun
  | case4 o t ih => rw [evaluateWith, isOk_bind_pure_iff, accepted_negation_iff, ih]
  | case5 o l r ihl ihr =>
    -- The operator is looked at last, when both operands have values.
    rw [evaluateWith, accepted_binary_iff, ← ihl, ← ihr]
    refine isOk_bind_iff fun x => isOk_bind_iff fun y => ?_
    rw [← isSome_operate?_iff (x := x) (y := y)]
    cases Scalar.operate? o x y with
    | none => exact iff_of_false nofun nofun
    | some z => exact iff_of_true rfl rfl
  | case6 o cs hone htwo =>
    rw [evaluateWith]
    · exact iff_of_false nofun (not_accepted_operator hone htwo)
    · exact hone
    · exact htwo
  | case7 u => exact iff_of_false nofun fun h => (accepted_call_iff.mp h).2 rfl
  | case8 f u hf ih =>
    rw [evaluateWith]
    · rw [isOk_bind_pure_iff, accepted_call_iff, ih]
      exact (and_iff_left hf).symm
    · exact hf
  | case9 f cs hunknown hone =>
    rw [evaluateWith]
    · exact iff_of_false nofun (not_accepted_func hone)
    · exact hunknown
    · exact hone

/-! ### Differentiation -/

theorem isOk_operator_derivative_iff {name : String} {o : Operator} {l r dl dr : Tree α} :
    (o.derivative name l r dl dr).isOk ↔ o ≠ .unknown := by
  cases o with
  | pow =>
    refine iff_of_true ?_ (by decide)
    rw [Operator.derivative]
    split
    · rfl
    · split <;> rfl
  | unknown => exact iff_of_false nofun fun h => h rfl
  | _ => exact iff_of_true rfl (by decide)

theorem isOk_func_derivative_iff {f : Func} {u du : Tree α} :
    (f.derivative u du).isOk ↔ f ≠ .unknown := by
  cases f with
  | unknown => exact iff_of_false nofun fun h => h rfl
  | _ => exact iff_of_true rfl (by decide)

theorem isOk_derivative_iff {name : String} {t : Tree α} :
    (t.derivative name).isOk ↔ t.Accepted fun _ => True := by
  induction t using Tree.derivative.induct with
  | case1 x cs => exact iff_of_true rfl (.num x cs)
  | case2 v cs => exact iff_of_true rfl (.var cs trivial)
  | case3 o t ih => rw [derivative, isOk_bind_pure_iff, accepted_negation_iff, ih]
  | case4 o l r ihl ihr =>
    rw [derivative, accepted_binary_iff, ← ihl, ← ihr]
    exact isOk_bind_iff fun _ => isOk_bind_iff fun _ => isOk_operator_derivative_iff
  | case5 o cs hone htwo =>
    rw [derivative]
    · exact iff_of_false nofun (not_accepted_operator hone htwo)
    · exact hone
    · exact htwo
  | case6 f u ih =>
    rw [derivative, accepted_call_iff, ← ih]
    exact isOk_bind_iff fun _ => isOk_func_derivative_iff
  | case7 f cs hone =>
    rw [derivative]
    · exact iff_of_false nofun (not_accepted_func hone)
    · exact hone

end

/-! ### Lowering -/

section

variable [Numeral α]

theorem isOk_toShader_iff {m : Mode} {t : Tree α} :
    (t.toShader m).isOk ↔ t.Accepted fun name => m.allows name := by
  induction t using Tree.toShader.induct m with
  | case1 x cs => exact iff_of_true rfl (.num x cs)
  | case2 name cs h =>
    rw [toShader, if_pos h, accepted_var_iff]
    exact iff_of_true rfl h
  | case3 name cs h =>
    rw [toShader, if_neg h, accepted_var_iff]
    exact iff_of_false nofun h
  | case4 o t ih => rw [toShader, isOk_bind_pure_iff, accepted_negation_iff, ih]
  | case5 l r => exact iff_of_false nofun fun h => (accepted_binary_iff.mp h).2.2 rfl
  | case6 o l r ho ihl ihr =>
    -- The operator is looked at first, before the operands.
    rw [toShader]
    · rw [accepted_binary_iff, ← ihl, ← ihr]
      exact isOk_bind_iff fun _ => isOk_bind_iff fun _ => iff_of_true rfl ho
    · exact ho
  | case7 o cs hone hunknown htwo =>
    rw [toShader]
    · exact iff_of_false nofun (not_accepted_operator hone htwo)
    · exact hone
    · exact hunknown
    · exact htwo
  | case8 u => exact iff_of_false nofun fun h => (accepted_call_iff.mp h).2 rfl
  | case9 f u hf ih =>
    rw [toShader]
    · rw [isOk_bind_pure_iff, accepted_call_iff, ih]
      exact (and_iff_left hf).symm
    · exact hf
  | case10 f cs hunknown hone =>
    rw [toShader]
    · exact iff_of_false nofun (not_accepted_func hone)
    · exact hunknown
    · exact hone

theorem isOk_lower_iff {m : Mode} {t : Tree α} :
    (t.lower m).isOk ↔ t.Accepted fun name => m.allows name :=
  isOk_map_iff.trans isOk_toShader_iff

end

end Tree

/-! ### Bindings of given names -/

namespace Bindings

/-- The names that are bound. -/
def names (b : Bindings α) : List String := b.stack.map (·.1)

/-- Bindings of the names of a list to one value. -/
def ofNames (names : List String) (x : α) : Bindings α := ⟨names.map fun name => (name, x)⟩

theorem isSome_get?_iff {b : Bindings α} {name : String} :
    (b.get? name).isSome ↔ name ∈ b.names := by
  simp [get?, names]

theorem names_ofNames (names : List String) (x : α) : (ofNames names x).names = names := by
  simp [Bindings.names, ofNames, Function.comp_def]

end Bindings

namespace Tree

/-- A tree that is accepted is accepted with the names that occur in it. -/
theorem Accepted.mem_names {named : String → Prop} {t : Tree α} (h : t.Accepted named) :
    t.Accepted (· ∈ t.names) := by
  induction h with
  | num x cs => exact .num x cs
  | var cs _ => exact .var cs (by simp [names])
  | negation o _ ih => exact .negation o (ih.mono fun name h => by simp [names, namesAll, h])
  | binary ho _ _ ihl ihr =>
    exact .binary ho (ihl.mono fun name h => by simp [names, namesAll, h])
      (ihr.mono fun name h => by simp [names, namesAll, h])
  | call hf _ ih => exact .call hf (ih.mono fun name h => by simp [names, namesAll, h])

/-- A tree that is accepted has a value under some bindings. -/
theorem Accepted.exists_bindings [Scalar α] {named : String → Prop} {t : Tree α}
    (h : t.Accepted named) : ∃ b : Bindings α, (t.evaluate b).isOk := by
  refine ⟨.ofNames t.names 0, isOk_evaluateWith_iff.mpr (h.mem_names.mono fun name hname => ?_)⟩
  rw [Bindings.isSome_get?_iff, Bindings.names_ofNames]
  exact hname

/-- A tree can be lowered exactly if it can be evaluated with the names that the mode allows
bound, and it has a derivative exactly if it can be evaluated with some names bound. -/
theorem accepted_alike [Numeral α] (t : Tree α) (m : Mode) (name : String) (b : Bindings α)
    (hb : ∀ v, v ∈ b.names ↔ m.allows v) :
    ((t.lower m).isOk ↔ (t.evaluate b).isOk) ∧
      ((t.derivative name).isOk ↔ ∃ b : Bindings α, (t.evaluate b).isOk) := by
  have hnamed : (fun v => ((b.get? v).isSome : Prop)) = fun v => (m.allows v : Prop) :=
    funext fun v => propext (Bindings.isSome_get?_iff.trans (hb v))
  refine ⟨?_, ?_, ?_⟩
  · rw [isOk_lower_iff, evaluate, isOk_evaluateWith_iff, hnamed]
  · exact fun h => (isOk_derivative_iff.mp h).exists_bindings
  · rintro ⟨b', hb'⟩
    exact isOk_derivative_iff.mpr ((isOk_evaluateWith_iff.mp hb').mono fun _ _ => trivial)

/-- An unknown operator before a variable that has a child without an argument. -/
def strayed : Tree ComplexFloat :=
  .node (.operator .unknown) [.node (.var "z") [.node (.func .sin) []]]

/-- The bindings of all names that the mode of a complex iterate allows. -/
def complexNames : Bindings ComplexFloat := .ofNames Mode.singleComplex.names 0

/-- A tree that no formula has, which is accepted. -/
theorem accepted_alike_strayed :
    (∀ v, v ∈ complexNames.names ↔ Mode.singleComplex.allows v) ∧
      (strayed.lower .singleComplex).isOk ∧ (strayed.derivative "c").isOk := by
  have hnames : ∀ v, v ∈ complexNames.names ↔ Mode.singleComplex.allows v := fun v => by
    rw [complexNames, Bindings.names_ofNames, Mode.allows, List.contains_iff_mem]
  have hvalue : (strayed.evaluate complexNames).isOk := by decide
  obtain ⟨hlower, hderivative⟩ :=
    accepted_alike strayed .singleComplex "c" complexNames hnames
  exact ⟨hnames, hlower.mpr hvalue, hderivative.mpr ⟨complexNames, hvalue⟩⟩

end Tree

end FractalFormula
