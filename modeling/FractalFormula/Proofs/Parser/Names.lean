import FractalFormula.Proofs.Parser.Completeness
import FractalFormula.Proofs.Parser.Shape
import FractalFormula.Proofs.Tree.Acceptance
import FractalFormula.Proofs.Tree.Equality
import FractalFormula.Proofs.Tree.Nodes
import FractalFormula.Scalar.Real

/-!
# Only a name can fail

A parsed tree has nothing in it that a later pass could object to but its names: every node has
children that fit it, and every operator and function is known (`Tree.Parsed.fits`). Evaluation and
lowering go through such a tree from left to right, so the first name without a value, or that the
mode does not allow, is their error (`Tree.Leftward.error_iff`). The names of the tree are those of
the text, in the order in which they stand there (`Derivation.names_tree`).
-/

namespace FractalFormula

/-! ### Names in the text -/

namespace Derivation

/-- The variables in the text, from left to right. -/
def names : {p : Phrase} → Derivation p → List String
  | _, plain first more => first.names ++ more.names
  | _, negated first more => first.names ++ more.names
  | _, lastTerm => []
  | _, nextTerm _ operand more => operand.names ++ more.names
  | _, term first more => first.names ++ more.names
  | _, lastPower => []
  | _, nextPower _ operand more => operand.names ++ more.names
  | _, base a => a.names
  | _, raised a exponent => a.names ++ exponent.names
  | _, bracket inner => inner.names
  | _, call _ argument => argument.names
  | _, number _ _ => []
  | _, var name => [String.ofList name.1]

/-- What a phrase says of the names of its tree: the operands of a chain follow the names of the
tree on their left. -/
def Lists (α : Type _) [Numeral α] : {p : Phrase} → Derivation p → Prop
  | .moreTerms, d => ∀ left : Tree α, (d.tree left).names = left.names ++ d.names
  | .morePowers, d => ∀ left : Tree α, (d.tree left).names = left.names ++ d.names
  | .expr, d => (d.tree : Tree α).names = d.names
  | .term, d => (d.tree : Tree α).names = d.names
  | .power, d => (d.tree : Tree α).names = d.names
  | .atom, d => (d.tree : Tree α).names = d.names

end Derivation

namespace Tree

variable {α : Type _}

@[simp] theorem names_num (x : α) : (num x).names = [] := rfl

@[simp] theorem names_var (name : String) : (var name : Tree α).names = [name] := rfl

@[simp] theorem names_call (f : Func) (t : Tree α) : (call f t).names = t.names :=
  List.append_nil _

@[simp] theorem names_binary (o : Operator) (l r : Tree α) :
    (binary o l r).names = l.names ++ r.names := by
  show l.names ++ (r.names ++ []) = _
  rw [List.append_nil]

@[simp] theorem names_negation (t : Tree α) : (negation t).names = t.names := List.append_nil _

@[simp] theorem names_pow (l r : Tree α) : (pow l r).names = l.names ++ r.names :=
  names_binary .pow l r

end Tree

namespace Derivation

variable {α : Type _} [Numeral α]

theorem lists {p : Phrase} (d : Derivation p) : d.Lists α := by
  induction d with
  | plain first more hfirst hmore =>
    have h := hmore first.tree
    rwa [hfirst] at h
  | negated first more hfirst hmore =>
    have h := hmore (.negation first.tree)
    rwa [Tree.names_negation, hfirst] at h
  | lastTerm => exact fun left => (List.append_nil _).symm
  | nextTerm s operand more hoperand hmore =>
    intro left
    have h := hmore (.binary s.operator left operand.tree)
    rwa [Tree.names_binary, hoperand, List.append_assoc] at h
  | term first more hfirst hmore =>
    have h := hmore first.tree
    rwa [hfirst] at h
  | lastPower => exact fun left => (List.append_nil _).symm
  | nextPower s operand more hoperand hmore =>
    intro left
    have h := hmore (.binary s.operator left operand.tree)
    rwa [Tree.names_binary, hoperand, List.append_assoc] at h
  | base a ha => exact ha
  | raised a exponent ha hexponent => exact (Tree.names_pow _ _).trans (congrArg₂ _ ha hexponent)
  | bracket inner hinner => exact hinner
  | call name argument hargument => exact (Tree.names_call _ _).trans hargument
  | number literal imaginary => rfl
  | var name => rfl

/-- The names of the tree are the variables of the text, in their order. -/
theorem names_tree (d : Derivation .expr) : (d.tree : Tree α).names = d.names := d.lists

end Derivation

/-! ### Nodes -/

/-- The children fit the label, and an operator or a function is known. A single operand stands
under a minus sign only. -/
def Label.Fits {α : Type _} : Label α → List (Tree α) → Prop
  | .operator o, cs => o = .sub ∧ cs.length = 1 ∨ o ≠ .unknown ∧ cs.length = 2
  | .func f, cs => f ≠ .unknown ∧ cs.length = 1
  | .var _, cs => cs = []
  | .num _, cs => cs = []

namespace Tree

variable {α : Type _} [Numeral α]

theorem Parsed.fits {t : Tree α} (h : t.Parsed) : t.Everywhere Label.Fits := by
  induction h with
  | num _ _ _ => exact everywhere_leaf_iff.mpr rfl
  | var name => exact everywhere_leaf_iff.mpr rfl
  | call hf _ ih => exact everywhere_one_iff.mpr ⟨⟨Func.named?_ne_unknown hf, rfl⟩, ih⟩
  | binary ho _ _ ihl ihr => exact everywhere_two_iff.mpr ⟨.inr ⟨ho, rfl⟩, ihl, ihr⟩
  | negation _ ih => exact everywhere_one_iff.mpr ⟨.inl ⟨rfl, rfl⟩, ih⟩

theorem Parsed.accepted {named : String → Prop} {t : Tree α} (h : t.Parsed)
    (hnamed : ∀ name ∈ t.names, named name) : t.Accepted named := by
  induction h with
  | num _ _ _ => exact .num _ []
  | var name => exact .var [] (hnamed _ (by simp))
  | call hf _ ih => exact .call (Func.named?_ne_unknown hf) (ih (by simpa using hnamed))
  | binary ho _ _ ihl ihr =>
    refine .binary ho (ihl fun name h => hnamed name ?_) (ihr fun name h => hnamed name ?_)
    · simp [h]
    · simp [h]
  | negation _ ih => exact .negation .sub (ih (by simpa using hnamed))

/-! ### Walks from left to right -/

/-- A walk over trees from left to right that fails at missing names: it succeeds on accepted trees
without one, and otherwise fails as its first operand that fails does. -/
structure Leftward {β : Type _} (walk : Tree α → Except Error β) (missing : String → Bool)
    (error : String → Error) : Prop where
  isOk {t : Tree α} : t.Accepted (missing · = false) → (walk t).isOk
  var {name : String} : missing name → walk (var name) = .error (error name)
  call {f : Func} {t : Tree α} {e : Error} : f ≠ .unknown → walk t = .error e →
    walk (call f t) = .error e
  left {o : Operator} {l r : Tree α} {e : Error} : o ≠ .unknown → walk l = .error e →
    walk (binary o l r) = .error e
  right {o : Operator} {l r : Tree α} {e : Error} : o ≠ .unknown → (walk l).isOk →
    walk r = .error e → walk (binary o l r) = .error e
  negation {t : Tree α} {e : Error} : walk t = .error e → walk (negation t) = .error e

namespace Leftward

variable {β : Type _} {walk : Tree α → Except Error β} {missing : String → Bool}
  {error : String → Error} (h : Leftward walk missing error)

include h

theorem isOk_of_find?_eq_none {t : Tree α} (ht : t.Parsed)
    (hnone : t.names.find? missing = none) : (walk t).isOk :=
  h.isOk (ht.accepted fun name hname => by simpa using List.find?_eq_none.mp hnone name hname)

/-- The first missing name is the error. -/
theorem eq_error_of_find?_eq_some {t : Tree α} (ht : t.Parsed) {name : String}
    (hname : t.names.find? missing = some name) : walk t = .error (error name) := by
  induction ht with
  | num _ _ _ => nomatch hname
  | var v =>
    rw [names_var, List.find?_singleton] at hname
    split at hname
    · next hmissing =>
      obtain rfl := Option.some.inj hname
      exact h.var hmissing
    · nomatch hname
  | call hf _ ih =>
    rw [names_call] at hname
    exact h.call (Func.named?_ne_unknown hf) (ih hname)
  | @binary o l r ho hl hr ihl ihr =>
    rw [names_binary, List.find?_append, Option.or_eq_some_iff] at hname
    -- The right operand is reached if no name is missing in the left one.
    obtain hname | ⟨hnone, hname⟩ := hname
    · exact h.left ho (ihl hname)
    · exact h.right ho (h.isOk_of_find?_eq_none hl hnone) (ihr hname)
  | negation _ ih =>
    rw [names_negation] at hname
    exact h.negation (ih hname)

/-- The walk fails exactly at the first missing name. -/
theorem error_iff {t : Tree α} (ht : t.Parsed) {e : Error} :
    walk t = .error e ↔ ∃ name, t.names.find? missing = some name ∧ e = error name := by
  constructor
  · intro he
    cases hfind : t.names.find? missing with
    | none =>
      have hok := h.isOk_of_find?_eq_none ht hfind
      rw [he] at hok
      nomatch hok
    | some name =>
      have hname := h.eq_error_of_find?_eq_some ht hfind
      exact ⟨name, rfl, Except.error.inj (he.symm.trans hname)⟩
  · rintro ⟨name, hname, rfl⟩
    exact h.eq_error_of_find?_eq_some ht hname

end Leftward

theorem leftward_evaluateWith (value? : String → Option α) :
    Leftward (evaluateWith value?) (fun name => (value? name).isNone) .unknownVariable where
  isOk h := isOk_evaluateWith_iff.mpr (h.mono fun name hname => by simpa using hname)
  var {name} hname := by
    rw [var, evaluateWith, Option.isNone_iff_eq_none.mp hname]
  call {f t e} hf ht := by
    rw [call, evaluateWith]
    · rw [ht]
      rfl
    · exact hf
  left _ hl := by
    rw [binary, evaluateWith, hl]
    rfl
  right _ hl hr := by
    obtain ⟨x, hx⟩ := isOk_iff.mp hl
    rw [binary, evaluateWith, hx, hr]
    rfl
  negation ht := by
    rw [negation, evaluateWith, ht]
    rfl

theorem leftward_toShader (m : Mode) :
    Leftward (toShader (α := α) m) (fun name => !m.allows name) (.forbiddenVariable · m) where
  isOk h := isOk_toShader_iff.mpr (h.mono fun name hname => by simpa using hname)
  var {name} hname := by
    rw [var, toShader, if_neg (by simpa using hname)]
  call {f t e} hf ht := by
    rw [call, toShader]
    · rw [ht]
      rfl
    · exact hf
  left ho hl := by
    rw [binary, toShader]
    · rw [hl]
      rfl
    · exact ho
  right ho hl hr := by
    obtain ⟨x, hx⟩ := isOk_iff.mp hl
    rw [binary, toShader]
    · rw [hx, hr]
      rfl
    · exact ho
  negation ht := by
    rw [negation, toShader, ht]
    rfl

/-! ### Parsed trees -/

/-- What can fail on the tree of a text: nothing but a name, and then the leftmost name that has no
value or is not allowed is the error. -/
structure FailsByNameOnly (text : String) (t : Tree α) : Prop where
  /-- No node is one that a pass objects to. -/
  fits : t.Everywhere Label.Fits
  /-- The names of the tree are those of the text, from left to right. -/
  names : ∃ d : Derivation .expr, d.text = Parser.inked text.toList ∧ t.names = d.names
  derivative (name : String) : ∃ d, t.derivative name = .ok d
  evaluate (b : Bindings α) (e : Error) : t.evaluate b = .error e ↔
    ∃ name, t.names.find? (fun v => (b.get? v).isNone) = some name ∧ e = .unknownVariable name
  evaluateIn (b : Bindings α) (s : State α) (e : Error) : t.evaluateIn b s = .error e ↔
    ∃ name, t.names.find? (fun v => (s.get? v).isNone && (b.get? v).isNone) = some name ∧
      e = .unknownVariable name
  lower (m : Mode) (e : Error) : t.lower m = .error e ↔
    ∃ name, t.names.find? (fun v => !m.allows v) = some name ∧ e = .forbiddenVariable name m

theorem failsByNameOnly_of_parse {text : String} {t : Tree α} (h : Tree.parse text = .ok t) :
    t.FailsByNameOnly text := by
  have hformula := parse_eq_ok_iff_formula.mp h
  obtain ⟨hparsed, -⟩ := parsed_of_formula hformula
  obtain ⟨d, htext, htree, -⟩ := Parser.formula_sound hformula
  refine ⟨hparsed.fits, ⟨d, htext, ?_⟩, fun name => ?_, fun b e => ?_, fun b s e => ?_,
    fun m e => ?_⟩
  · rw [← htree, d.names_tree]
  · exact isOk_iff.mp (isOk_derivative_iff.mpr (hparsed.accepted fun _ _ => trivial))
  · exact (leftward_evaluateWith b.get?).error_iff hparsed
  · have h := (leftward_evaluateWith fun v => (s.get? v).or (b.get? v)).error_iff hparsed (e := e)
    simp only [Option.isNone_or] at h
    exact h
  · exact map_eq_error_iff.trans ((leftward_toShader m).error_iff hparsed)

/-- After a text is parsed, over either kind of scalars, only its names can fail. -/
theorem parse_fails_by_name_only (text : String) :
    (∀ t : Tree ComplexFloat, Tree.parse text = .ok t → t.FailsByNameOnly text) ∧
      (∀ t : Tree Float, Tree.parse text = .ok t → t.FailsByNameOnly text) :=
  ⟨fun _ => failsByNameOnly_of_parse, fun _ => failsByNameOnly_of_parse⟩

/-- Of two names that are neither allowed nor bound, the one that stands first is the error, although
the other is nearer to the root. -/
theorem parse_fails_by_name_only_exponent :
    (∃ t : Tree ComplexFloat, Tree.parse "z^(-arcsin(x))+y" = .ok t ∧
      t.lower .singleComplex = .error (.forbiddenVariable "x" .singleComplex)) ∧
    (∃ t : Tree Float, Tree.parse "z^(-arcsin(x))+y" = .ok t ∧
      t.evaluate (Bindings.empty.bind "z" 2.0) = .error (.unknownVariable "x")) := by
  have hcomplex : Tree.parse "z^(-arcsin(x))+y" = .ok (.binary .add ((Tree.var "z").pow
      (.negation (.call .asin (.var "x")))) (.var "y") : Tree ComplexFloat) := by decide +kernel
  have hreal : Tree.parse "z^(-arcsin(x))+y" = .ok (.binary .add ((Tree.var "z").pow
      (.negation (.call .asin (.var "x")))) (.var "y") : Tree Float) := by decide +kernel
  refine ⟨⟨_, hcomplex, ?_⟩, ⟨_, hreal, ?_⟩⟩
  · exact (((parse_fails_by_name_only _).1 _ hcomplex).lower _ _).mpr ⟨"x", by decide, rfl⟩
  · exact (((parse_fails_by_name_only _).2 _ hreal).evaluate _ _).mpr ⟨"x", by decide, rfl⟩

end Tree

end FractalFormula
