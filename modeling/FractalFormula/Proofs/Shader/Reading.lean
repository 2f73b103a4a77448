import FractalFormula.Proofs.Parser.Unambiguous
import FractalFormula.Scalar.ComplexFloat
import FractalFormula.Shader.Term

/-!
# The grammar of shader calls

The fragment of the shader language that formulas are lowered to, read on its own terms:

    Expression := 'vec2(' float ', ' float ')'
                | name
                | 'vec2(' name ', 0.0)'
                | name '(' Arguments ')'
    Arguments  := Expression (', ' Expression)*

A reading has a text, a value among variables of its two types, and lists of the names it calls
and of those it leaves free. `ShaderReading.eq_of_text_eq` says that a text has at most one
reading.
-/

namespace FractalFormula

open Text

/-- The text of a float: a literal with a point or an exponent, perhaps behind a minus sign. -/
def IsFloatText (s : List Char) : Prop :=
  ∃ negative literal, s = Decimal.signed negative literal ∧ Literal.IsLiteral literal ∧
    ('.' ∈ literal ∨ 'e' ∈ literal)

/-- The text of a float. -/
abbrev FloatText := { s : List Char // IsFloatText s }

/-- The name that makes a vector of two floats. -/
def vec2 : Name := ⟨"vec2".toList, by decide⟩

/-- The nonterminals of the grammar. -/
inductive ShaderPhrase where
  | expression
  | arguments

/-- The readings of a phrase. -/
inductive ShaderReading : ShaderPhrase → Type where
  | vector (re im : FloatText) : ShaderReading .expression
  /-- A variable that is a vector. -/
  | bare (name : Name) : ShaderReading .expression
  /-- A variable that is a float, as the real part of a vector. -/
  | wrapped (name : Name) : ShaderReading .expression
  | call (function : { f : Name // f ≠ vec2 }) (arguments : ShaderReading .arguments) :
    ShaderReading .expression
  | last (argument : ShaderReading .expression) : ShaderReading .arguments
  | more (argument : ShaderReading .expression) (arguments : ShaderReading .arguments) :
    ShaderReading .arguments

/-- The variables in scope, by their types. -/
structure ShaderScope where
  vector? : String → Option ComplexFloat
  float? : String → Option Float

/-- The values of a phrase. -/
@[reducible] def ShaderPhrase.Value : ShaderPhrase → Type
  | expression => ComplexFloat
  | arguments => List ComplexFloat

/-- What an intrinsic does: the operator or the function of the evaluator that it stands for. -/
def applyIntrinsic? (name : String) : List ComplexFloat → Option ComplexFloat
  | [z] =>
    (Func.all.find? fun f => f ≠ .unknown ∧ f.intrinsic = name).map fun f => Scalar.apply f z
  | [z, w] =>
    (Operator.all.find? fun o => o ≠ .unknown ∧ o.intrinsic = name).bind fun o =>
      Scalar.operate? o z w
  | _ => none

namespace ShaderReading

/-- The text that is read. -/
def text : {p : ShaderPhrase} → ShaderReading p → List Char
  | _, vector re im => ShaderTerm.writeVector re.1 im.1
  | _, bare name => name.1
  | _, wrapped name => ShaderTerm.writeVector name.1 "0.0".toList
  | _, call f arguments => f.1.1 ++ '(' :: (arguments.text ++ [')'])
  | _, last argument => argument.text
  | _, more argument arguments => argument.text ++ ',' :: ' ' :: arguments.text

/-- The names that are called, `vec2` among them. -/
def calls : {p : ShaderPhrase} → ShaderReading p → List String
  | _, vector _ _ => ["vec2"]
  | _, bare _ => []
  | _, wrapped _ => ["vec2"]
  | _, call f arguments => String.ofList f.1.1 :: arguments.calls
  | _, last argument => argument.calls
  | _, more argument arguments => argument.calls ++ arguments.calls

/-- The names of variables. -/
def names : {p : ShaderPhrase} → ShaderReading p → List String
  | _, vector _ _ => []
  | _, bare name => [String.ofList name.1]
  | _, wrapped name => [String.ofList name.1]
  | _, call _ arguments => arguments.names
  | _, last argument => argument.names
  | _, more argument arguments => argument.names ++ arguments.names

/-- The value of a phrase, if its variables are in scope with the types it asks for and what it
calls are intrinsics. -/
def value? (scope : ShaderScope) : {p : ShaderPhrase} → ShaderReading p → Option p.Value
  | _, vector re im => do
    let x ← Decimal.readFloat? re.1
    let y ← Decimal.readFloat? im.1
    return ⟨x, y⟩
  | _, bare name => scope.vector? (String.ofList name.1)
  | _, wrapped name => (scope.float? (String.ofList name.1)).map fun x => ⟨x, 0.0⟩
  | _, call f arguments => do
    let values ← arguments.value? scope
    applyIntrinsic? (String.ofList f.1.1) values
  | _, last argument => (argument.value? scope).map fun z => [z]
  | _, more argument arguments => do
    let z ← argument.value? scope
    let values ← arguments.value? scope
    return z :: values

end ShaderReading

/-! ### What may follow -/

/-- The characters that may stand behind a phrase. -/
def ShaderPhrase.follow : ShaderPhrase → List Char
  | expression => [',', ')']
  | arguments => [')']

/-- The text may stand behind the phrase. -/
def ShaderPhrase.EndsAt (p : ShaderPhrase) (rest : List Char) : Prop :=
  ∀ c ∈ rest.head?, c ∈ p.follow

namespace ShaderPhrase

@[simp] theorem endsAt_nil (p : ShaderPhrase) : p.EndsAt [] := by simp [EndsAt]

@[simp] theorem endsAt_cons {p : ShaderPhrase} {c : Char} {rest : List Char} :
    p.EndsAt (c :: rest) ↔ c ∈ p.follow := by simp [EndsAt]

theorem endsAt_comma (s : List Char) : expression.EndsAt (',' :: s) :=
  endsAt_cons.mpr (by decide)

theorem endsAt_close (s : List Char) : arguments.EndsAt (')' :: s) := endsAt_cons.mpr (by decide)

theorem not_endsAt_comma (s : List Char) : ¬arguments.EndsAt (',' :: s) :=
  mt endsAt_cons.mp (by decide)

theorem not_endsAt_open (s : List Char) : ¬expression.EndsAt ('(' :: s) :=
  mt endsAt_cons.mp (by decide)

theorem EndsAt.of_arguments {rest : List Char} (h : arguments.EndsAt rest) :
    expression.EndsAt rest := by
  have hsub : arguments.follow ⊆ expression.follow := by decide
  exact fun c hc => hsub (h c hc)

theorem EndsAt.stops {rest : List Char} (h : expression.EndsAt rest) :
    Stops Parser.inName rest := Text.stops_of_all (by decide) h

end ShaderPhrase

namespace ShaderReading

open FractalFormula.Derivation (stops_bracket name_append_inj startsName_of_startsNumber)

/-! ### Tokens -/

theorem FloatText.head (x : FloatText) :
    ∃ c cs, x.1 = c :: cs ∧ Parser.startsName c = false := by
  obtain ⟨negative, literal, hx, hlit, -⟩ := x.2
  cases negative with
  | true => exact ⟨'-', literal, hx, by decide⟩
  | false =>
    obtain ⟨c, cs, hcs, hc⟩ := hlit.head
    exact ⟨c, cs, hx.trans hcs, startsName_of_startsNumber hc⟩

theorem float_ne_name (x : FloatText) (name : Name) (s t : List Char) :
    x.1 ++ s ≠ name.1 ++ t := by
  obtain ⟨c, cs, hcs, hc⟩ := FloatText.head x
  obtain ⟨c', cs', hcs', hc', -⟩ := name.2.head
  rw [hcs, hcs']
  intro h
  obtain ⟨rfl, -⟩ := List.cons.inj h
  rw [hc] at hc'
  exact absurd hc' (by decide)

theorem literal_ne_minus {l : List Char} (h : Literal.IsLiteral l) (s t : List Char) :
    l ++ s ≠ '-' :: t := by
  obtain ⟨c, cs, rfl, hc⟩ := h.head
  intro h
  obtain ⟨rfl, -⟩ := List.cons.inj h
  exact absurd hc (by decide)

theorem float_append_inj {x y : FloatText} {s t : List Char} (hs : Literal.Ended s)
    (ht : Literal.Ended t) (h : x.1 ++ s = y.1 ++ t) : x = y ∧ s = t := by
  obtain ⟨negative, l, hx, hl, -⟩ := x.2
  obtain ⟨negative', l', hy, hl', -⟩ := y.2
  have hliteral : l ++ s = l' ++ t → l = l' ∧ s = t := by
    intro h
    have hsplit := Literal.split?_append hl hs
    rw [h, Literal.split?_append hl' ht] at hsplit
    obtain ⟨hll, hst⟩ := Prod.mk.inj (Option.some.inj hsplit)
    exact ⟨hll.symm, hst.symm⟩
  rw [hx, hy] at h
  cases negative <;> cases negative'
  · obtain ⟨rfl, hst⟩ := hliteral h
    exact ⟨Subtype.ext (hx.trans hy.symm), hst⟩
  · exact absurd h (literal_ne_minus hl _ _)
  · exact absurd h.symm (literal_ne_minus hl' _ _)
  · obtain ⟨rfl, hst⟩ := hliteral (List.cons.inj h).2
    exact ⟨Subtype.ext (hx.trans hy.symm), hst⟩

theorem ended_comma (s : List Char) : Literal.Ended (',' :: s) := Literal.ended_cons.mpr (by decide)

theorem ended_bracket (s : List Char) : Literal.Ended (')' :: s) :=
  Literal.ended_cons.mpr (by decide)

theorem stops_comma (s : List Char) : Stops Parser.inName (',' :: s) :=
  stops_cons.mpr (by decide)

/-! ### Readings -/

theorem writeVector_eq (re im : List Char) :
    ShaderTerm.writeVector re im = vec2.1 ++ '(' :: (re ++ ',' :: ' ' :: (im ++ [')'])) := rfl

theorem bracket_ne_bare {name name' : Name} {s rest : List Char}
    (hr : ShaderPhrase.expression.EndsAt rest) : name.1 ++ '(' :: s ≠ name'.1 ++ rest := by
  intro h
  obtain ⟨-, rfl⟩ := name_append_inj (stops_bracket _) hr.stops h
  exact absurd hr (ShaderPhrase.not_endsAt_open _)

theorem bracket_append_inj {name name' : Name} {s t : List Char}
    (h : name.1 ++ '(' :: s = name'.1 ++ '(' :: t) : name = name' ∧ s = t := by
  obtain ⟨hname, hst⟩ := name_append_inj (stops_bracket _) (stops_bracket _) h
  exact ⟨hname, (List.cons.inj hst).2⟩

theorem text_vector (re im : FloatText) :
    (vector re im).text = ShaderTerm.writeVector re.1 im.1 := rfl

theorem text_bare (name : Name) : (bare name).text = name.1 := rfl

theorem text_wrapped (name : Name) :
    (wrapped name).text = ShaderTerm.writeVector name.1 "0.0".toList := rfl

theorem text_call (f : { f : Name // f ≠ vec2 }) (arguments : ShaderReading .arguments) :
    (call f arguments).text = f.1.1 ++ '(' :: (arguments.text ++ [')']) := rfl

theorem text_last (argument : ShaderReading .expression) :
    (last argument).text = argument.text := rfl

theorem text_more (argument : ShaderReading .expression) (arguments : ShaderReading .arguments) :
    (more argument arguments).text = argument.text ++ ',' :: ' ' :: arguments.text := rfl

theorem vector_append_inj {re im re' im' : FloatText} {rest rest' : List Char}
    (h : (vector re im).text ++ rest = (vector re' im').text ++ rest') :
    re = re' ∧ im = im' ∧ rest = rest' := by
  simp only [text_vector, writeVector_eq, List.append_assoc, List.cons_append, List.nil_append] at h
  obtain ⟨-, hre⟩ := bracket_append_inj h
  obtain ⟨rfl, him⟩ := float_append_inj (ended_comma _) (ended_comma _) hre
  simp only [List.cons.injEq, true_and] at him
  obtain ⟨rfl, hrest⟩ := float_append_inj (ended_bracket _) (ended_bracket _) him
  exact ⟨rfl, rfl, (List.cons.inj hrest).2⟩

theorem wrapped_append_inj {name name' : Name} {rest rest' : List Char}
    (h : (wrapped name).text ++ rest = (wrapped name').text ++ rest') :
    name = name' ∧ rest = rest' := by
  simp only [text_wrapped, writeVector_eq, List.append_assoc, List.cons_append] at h
  obtain ⟨-, hname⟩ := bracket_append_inj h
  obtain ⟨rfl, hrest⟩ := name_append_inj (stops_comma _) (stops_comma _) hname
  exact ⟨rfl, (List.append_right_inj ", 0.0)".toList).mp hrest⟩

theorem vector_ne_wrapped (re im : FloatText) (name : Name) (rest rest' : List Char) :
    (vector re im).text ++ rest ≠ (wrapped name).text ++ rest' := by
  intro h
  simp only [text_vector, text_wrapped, writeVector_eq, List.append_assoc, List.cons_append] at h
  obtain ⟨-, hre⟩ := bracket_append_inj h
  exact absurd hre (float_ne_name _ _ _ _)

/-- A phrase that reads the same, each with a text behind it that may follow, is the same phrase,
and the text is the same. -/
def Rigid {p : ShaderPhrase} (d : ShaderReading p) : Prop :=
  ∀ ⦃d' : ShaderReading p⦄ ⦃rest rest' : List Char⦄, p.EndsAt rest → p.EndsAt rest' →
    d.text ++ rest = d'.text ++ rest' → d = d' ∧ rest = rest'

namespace Rigid

theorem vector (re im : FloatText) : (vector re im).Rigid := by
  intro d' rest rest' hr hr' h
  cases d' with
  | vector re' im' =>
    obtain ⟨rfl, rfl, hrest⟩ := vector_append_inj h
    exact ⟨rfl, hrest⟩
  | bare name' =>
    simp only [text_vector, text_bare, writeVector_eq, List.append_assoc, List.cons_append] at h
    exact absurd h (bracket_ne_bare hr')
  | wrapped name' => exact absurd h (vector_ne_wrapped _ _ _ _ _)
  | call f' arguments' =>
    simp only [text_vector, text_call, writeVector_eq, List.append_assoc, List.cons_append] at h
    exact absurd (bracket_append_inj h).1.symm f'.2

theorem bare (name : Name) : (bare name).Rigid := by
  intro d' rest rest' hr hr' h
  cases d' with
  | bare name' =>
    obtain ⟨rfl, hrest⟩ := name_append_inj hr.stops hr'.stops h
    exact ⟨rfl, hrest⟩
  | vector re' im' =>
    simp only [text_bare, text_vector, writeVector_eq, List.append_assoc, List.cons_append] at h
    exact absurd h.symm (bracket_ne_bare hr)
  | wrapped name' =>
    simp only [text_bare, text_wrapped, writeVector_eq, List.append_assoc, List.cons_append] at h
    exact absurd h.symm (bracket_ne_bare hr)
  | call f' arguments' =>
    simp only [text_bare, text_call, List.append_assoc, List.cons_append] at h
    exact absurd h.symm (bracket_ne_bare hr)

theorem wrapped (name : Name) : (wrapped name).Rigid := by
  intro d' rest rest' hr hr' h
  cases d' with
  | vector re' im' => exact absurd h.symm (vector_ne_wrapped _ _ _ _ _)
  | bare name' =>
    simp only [text_wrapped, text_bare, writeVector_eq, List.append_assoc, List.cons_append] at h
    exact absurd h (bracket_ne_bare hr')
  | wrapped name' =>
    obtain ⟨rfl, hrest⟩ := wrapped_append_inj h
    exact ⟨rfl, hrest⟩
  | call f' arguments' =>
    simp only [text_wrapped, text_call, writeVector_eq, List.append_assoc, List.cons_append] at h
    exact absurd (bracket_append_inj h).1.symm f'.2

/-- No function is called `vec2`, so a call is not a vector. -/
theorem call (f : { f : Name // f ≠ vec2 }) {arguments : ShaderReading .arguments}
    (harguments : arguments.Rigid) : (call f arguments).Rigid := by
  intro d' rest rest' hr hr' h
  cases d' with
  | vector re' im' =>
    simp only [text_call, text_vector, writeVector_eq, List.append_assoc, List.cons_append] at h
    exact absurd (bracket_append_inj h).1 f.2
  | bare name' =>
    simp only [text_call, text_bare, List.append_assoc, List.cons_append] at h
    exact absurd h (bracket_ne_bare hr')
  | wrapped name' =>
    simp only [text_call, text_wrapped, writeVector_eq, List.append_assoc, List.cons_append] at h
    exact absurd (bracket_append_inj h).1 f.2
  | call f' arguments' =>
    simp only [text_call, List.append_assoc, List.cons_append] at h
    obtain ⟨hf, hargs⟩ := bracket_append_inj h
    obtain rfl := Subtype.ext hf
    obtain ⟨rfl, hclose⟩ :=
      harguments (ShaderPhrase.endsAt_close _) (ShaderPhrase.endsAt_close _) hargs
    exact ⟨rfl, (List.cons.inj hclose).2⟩

theorem last {argument : ShaderReading .expression} (hargument : argument.Rigid) :
    (last argument).Rigid := by
  intro d' rest rest' hr hr' h
  cases d' with
  | last argument' =>
    obtain ⟨rfl, hrest⟩ := hargument hr.of_arguments hr'.of_arguments h
    exact ⟨rfl, hrest⟩
  | more argument' arguments' =>
    simp only [text_last, text_more, List.append_assoc, List.cons_append] at h
    obtain ⟨-, rfl⟩ := hargument hr.of_arguments (ShaderPhrase.endsAt_comma _) h
    exact absurd hr (ShaderPhrase.not_endsAt_comma _)

theorem more {argument : ShaderReading .expression} {arguments : ShaderReading .arguments}
    (hargument : argument.Rigid) (harguments : arguments.Rigid) :
    (more argument arguments).Rigid := by
  intro d' rest rest' hr hr' h
  cases d' with
  | last argument' =>
    simp only [text_more, text_last, List.append_assoc, List.cons_append] at h
    obtain ⟨-, rfl⟩ := hargument (ShaderPhrase.endsAt_comma _) hr'.of_arguments h
    exact absurd hr' (ShaderPhrase.not_endsAt_comma _)
  | more argument' arguments' =>
    simp only [text_more, List.append_assoc, List.cons_append] at h
    obtain ⟨rfl, hcomma⟩ :=
      hargument (ShaderPhrase.endsAt_comma _) (ShaderPhrase.endsAt_comma _) h
    simp only [List.cons.injEq, true_and] at hcomma
    obtain ⟨rfl, hrest⟩ := harguments hr hr' hcomma
    exact ⟨rfl, hrest⟩

end Rigid

theorem rigid {p : ShaderPhrase} (d : ShaderReading p) : d.Rigid := by
  induction d with
  | vector re im => exact .vector re im
  | bare name => exact .bare name
  | wrapped name => exact .wrapped name
  | call f arguments harguments => exact .call f harguments
  | last argument hargument => exact .last hargument
  | more argument arguments hargument harguments => exact .more hargument harguments

/-- A text has at most one reading. -/
theorem eq_of_text_eq {p : ShaderPhrase} {d d' : ShaderReading p} (h : d.text = d'.text) :
    d = d' := by
  have h' : d.text ++ [] = d'.text ++ [] := congrArg (· ++ []) h
  exact (d.rigid p.endsAt_nil p.endsAt_nil h').1

end ShaderReading

end FractalFormula
