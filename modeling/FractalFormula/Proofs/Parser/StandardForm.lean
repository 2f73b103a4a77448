import FractalFormula.Proofs.Evaluation.Environment
import FractalFormula.Proofs.Evaluation.Nodes
import FractalFormula.Proofs.Parser.RoundTrip
import FractalFormula.Proofs.Scalar.Partwise
import FractalFormula.Proofs.Tree.Nodes

/-!
# Trees that were not parsed

Trees that were built by hand or computed hold numbers that no literal stands for: negative numbers
and numbers with two parts. They print as formulas nevertheless, `(-2)` or `(3-2i)`, and an operator
over one child prints as a minus sign. What such a text is parsed to is the standard form of the tree:
there, numbers are made of literals with minus signs, sums and differences.

The standard form has the value of the tree, except that a negative zero is lost.
-/

namespace FractalFormula

theorem Func.named?_token_of_ne {f : Func} (hf : f ≠ .unknown) : Func.named? f.token = some f := by
  cases f with
  | unknown => exact absurd rfl hf
  | _ => decide

namespace Tree

variable {α : Type _} [Numeral α]

/-! ### The standard form -/

/-- The literal of a number, which is imaginary or real. -/
def literal (v : Float) (imaginary : Bool) : Tree α :=
  num ((Numeral.ofLiteral? v imaginary).getD 0)

/-- A literal, behind a minus sign if the number lies below zero. -/
def signedLiteral (v : Float) (imaginary : Bool) : Tree α :=
  if v < 0.0 then negation (literal (-v) imaginary) else literal v imaginary

/-- A number written with literals: with one if it has one part, and as a sum or a difference if it
has two. -/
def standardNumber (x : α) : Tree α :=
  let (re, im) := Numeral.parts x
  match re == 0.0, im == 0.0 with
  | true, true => 0
  | false, true => signedLiteral re false
  | true, false => signedLiteral im true
  | false, false =>
    if im < 0.0 then signedLiteral re false - literal im.abs true
    else signedLiteral re false + literal im.abs true

/-- The tree with all numbers written with literals, and a minus sign at each operator over one
child. Nodes that no formula stands for are left alone. -/
def standardForm : Tree α → Tree α
  | .node (.num x) _ => standardNumber x
  | .node (.operator _) [t] => negation (standardForm t)
  | .node (.operator o) [l, r] => binary o (standardForm l) (standardForm r)
  | .node (.func f) [t] => call f (standardForm t)
  | t => t

/-- Trees that print as formulas: finite numbers and variables with proper names as leaves, known
functions over one child, and operators over one child or two, known if over two. -/
inductive Writable : Tree α → Prop where
  | num {x : α} : Scalar.isFinite x → Writable (num x)
  | var (name : Name) : Writable (var (String.ofList name.1))
  | negation (o : Operator) {t : Tree α} : Writable t → Writable (.node (.operator o) [t])
  | binary {o : Operator} {l r : Tree α} : o ≠ .unknown → Writable l → Writable r →
    Writable (.node (.operator o) [l, r])
  | call {f : Func} {t : Tree α} : f ≠ .unknown → Writable t → Writable (.node (.func f) [t])

/-! ### The text of a number -/

/-- A sum or a difference whose first operand has a minus sign. -/
theorem Reads.negatedSum {s s' : List Char} {l r : Tree α} (sign : Sign) (hl : Reads s l)
    (hr : Reads s' r) : Reads ('(' :: '-' :: (s ++ sign.char :: (s' ++ [')'])))
      (Tree.binary sign.operator (Tree.negation l) r) := by
  obtain ⟨a, rfl, rfl, haadm, haopens⟩ := hl
  obtain ⟨b, rfl, rfl, hbadm, hbopens⟩ := hr
  refine ⟨.bracket (.negated a.operand (.nextTerm sign b.operand .lastTerm)), ?_, rfl,
    ⟨⟨haadm, trivial⟩, ⟨hbadm, trivial⟩, trivial⟩, ?_⟩
  · simp only [Derivation.text, Derivation.operand, List.append_nil, List.append_assoc,
      List.cons_append]
  · rw [depth_binary, depth_negation]
    simp only [Derivation.opens, Derivation.operand]
    omega

section

variable {v : Float} {imaginary : Bool}

theorem reads_unsigned (hlt : v.toBits.toNat < Binary64.infinityBits)
    (hsome : (Numeral.ofLiteral? v imaginary : Option α).isSome) :
    Reads (Decimal.plain v ++ if imaginary then ['i'] else [])
      (literal v imaginary : Tree α) := by
  obtain ⟨x, hx⟩ := Option.isSome_iff_exists.mp hsome
  rw [literal, hx]
  exact reads_plain hlt hx

/-- The text of a literal, in brackets behind a minus sign if the number lies below zero. -/
def writeSigned (v : Float) (imaginary : Bool) : List Char :=
  let unit := if imaginary then ['i'] else []
  if v < 0.0 then '(' :: '-' :: (Decimal.plain (-v) ++ unit ++ [')']) else Decimal.plain v ++ unit

theorem reads_signed (hv : v.isFinite) (hzero : (v == 0.0) = false)
    (hsome : ∀ v, (Numeral.ofLiteral? v imaginary : Option α).isSome) :
    Reads (writeSigned v imaginary) (signedLiteral v imaginary : Tree α) := by
  by_cases hneg : v < 0.0
  · simp only [writeSigned, signedLiteral, if_pos hneg]
    exact (reads_unsigned (Binary64.toBits_neg_lt hv hneg) (hsome _)).negation .sub
  · simp only [writeSigned, signedLiteral, if_neg hneg]
    exact reads_unsigned (Binary64.toBits_lt hv hzero hneg) (hsome v)

/-- The minus sign of the first part is read as that of the first term, with no brackets. -/
theorem reads_parts {re im : Float} (sign : Sign) (hre : re.isFinite)
    (hrezero : (re == 0.0) = false) (him : im.isFinite) (himzero : (im == 0.0) = false)
    (hreal : ∀ v, (Numeral.ofLiteral? v false : Option α).isSome)
    (himaginary : ∀ v, (Numeral.ofLiteral? v true : Option α).isSome) :
    Reads ('(' :: (Decimal.plain re ++ sign.char :: (Decimal.plain im.abs ++ ['i', ')'])))
      (binary sign.operator (signedLiteral re false) (literal im.abs true) : Tree α) := by
  have hsecond : Reads (Decimal.plain im.abs ++ ['i']) (literal im.abs true : Tree α) :=
    reads_unsigned (Binary64.toBits_abs_lt him himzero) (himaginary _)
  by_cases hneg : re < 0.0
  · have hfirst : Reads (Decimal.plain (-re) ++ []) (literal (-re) false : Tree α) :=
      reads_unsigned (Binary64.toBits_neg_lt hre hneg) (hreal _)
    have hboth := hfirst.negatedSum sign hsecond
    rw [signedLiteral, if_pos hneg, Decimal.plain_of_lt_zero hre hneg]
    simpa using hboth
  · have hfirst : Reads (Decimal.plain re ++ []) (literal re false : Tree α) :=
      reads_unsigned (Binary64.toBits_lt hre hrezero hneg) (hreal _)
    have hboth := hfirst.sum sign hsecond
    have htoken : sign.operator.token.toList = [sign.char] := by cases sign <;> rfl
    rw [signedLiteral, if_neg hneg]
    simpa [writeNode, htoken] using hboth

end

theorem reads_writeNumber [PartwiseNumeral α] {x : α} (hx : Scalar.isFinite x) :
    Reads (writeNumber x) (standardNumber x) := by
  obtain ⟨hre, him⟩ := PartwiseNumeral.isFinite_parts hx
  have hreal : ∀ v, (Numeral.ofLiteral? v false : Option α).isSome := PartwiseNumeral.isSome_real
  have himaginary := PartwiseNumeral.isSome_imaginary (x := x)
  rw [writeNumber, standardNumber]
  generalize Numeral.parts x = parts at hre him himaginary ⊢
  obtain ⟨re, im⟩ := parts
  simp only at hre him himaginary ⊢
  cases hrezero : re == 0.0 with
  | true =>
    cases himzero : im == 0.0 with
    | true => exact reads_zero (α := α) PartwiseNumeral.ofLiteral?_zero
    | false => simpa [writeSigned] using reads_signed him himzero (himaginary himzero)
  | false =>
    cases himzero : im == 0.0 with
    | true => simpa [writeSigned] using reads_signed hre hrezero hreal
    | false =>
      have hboth (sign : Sign) := reads_parts sign hre hrezero him himzero hreal (himaginary himzero)
      by_cases hneg : im < 0.0
      · simp only [if_pos hneg]
        exact hboth .minus
      · simp only [if_neg hneg]
        exact hboth .plus

/-! ### The text of a tree -/

theorem Writable.reads [PartwiseNumeral α] {t : Tree α} (h : t.Writable) :
    Reads t.write t.standardForm := by
  induction h with
  | num hx => exact reads_writeNumber hx
  | var name =>
    rw [Tree.var, write, writeNode, String.toList_ofList]
    exact reads_var name
  | negation o _ ih => exact ih.negation o
  | binary ho _ _ ihl ihr => exact ihl.binary ho ihr
  | call hf _ ih => exact ih.call (Func.named?_token_of_ne hf)

/-! ### The value -/

section

variable [PartwiseNumeral α] {v : Float} {imaginary : Bool}

/-- The parts of a literal. -/
def literalParts (v : Float) (imaginary : Bool) : Float × Float :=
  if imaginary then (0.0, v) else (v, 0.0)

theorem exists_literal (hsome : (Numeral.ofLiteral? v imaginary : Option α).isSome) :
    ∃ x : α, literal v imaginary = num x ∧ Numeral.parts x = literalParts v imaginary := by
  obtain ⟨x, hx⟩ := Option.isSome_iff_exists.mp hsome
  refine ⟨x, by rw [literal, hx, Option.getD_some], ?_⟩
  cases imaginary with
  | true => exact LawfulNumeral.parts_imaginary hx
  | false => exact LawfulNumeral.parts_real hx

theorem parts_zero : Numeral.parts (0 : α) = (0.0, 0.0) :=
  LawfulNumeral.parts_real PartwiseNumeral.ofLiteral?_zero

/-- A minus sign does not change the parts that are zero, and takes the sign off the other. -/
theorem exists_signedLiteral (hv : v.isFinite) (hzero : (v == 0.0) = false)
    (hsome : ∀ v, (Numeral.ofLiteral? v imaginary : Option α).isSome) :
    ∃ x : α, Numeral.parts x = literalParts v imaginary ∧
      ∀ value?, (signedLiteral v imaginary).evaluateWith value? = .ok x := by
  have hzeros : (0.0 : Float) - 0.0 = 0.0 := by decide
  by_cases hneg : v < 0.0
  · obtain ⟨x, hx, hparts⟩ := exists_literal (hsome (-v))
    refine ⟨Scalar.negated x, ?_, fun value? => ?_⟩
    · have hback := Binary64.zero_sub_neg hv hzero
      rw [Scalar.negated, PartwiseNumeral.parts_sub, parts_zero, hparts]
      cases imaginary with
      | true => simp only [literalParts, if_true, hzeros, hback]
      | false => simp [literalParts, hzeros, hback]
    · rw [signedLiteral, if_pos hneg, hx]
      rfl
  · obtain ⟨x, hx, hparts⟩ := exists_literal (hsome v)
    refine ⟨x, hparts, fun value? => ?_⟩
    rw [signedLiteral, if_neg hneg, hx]
    rfl

/-- Two parts are put together exactly. -/
theorem exists_parts {re im : Float} (hre : re.isFinite) (hrezero : (re == 0.0) = false)
    (him : im.isFinite) (himzero : (im == 0.0) = false)
    (hreal : ∀ v, (Numeral.ofLiteral? v false : Option α).isSome)
    (himaginary : ∀ v, (Numeral.ofLiteral? v true : Option α).isSome) :
    ∃ x : α, Numeral.parts x = (re, im) ∧ ∀ value?,
      (if im < 0.0 then signedLiteral re false - literal im.abs true
        else signedLiteral re false + literal im.abs true).evaluateWith value? = .ok x := by
  obtain ⟨y, hy, hvalue⟩ := exists_signedLiteral hre hrezero hreal
  obtain ⟨z, hz, hparts⟩ := exists_literal (himaginary im.abs)
  have habs := Binary64.abs_eq him himzero
  rw [hz]
  by_cases hneg : im < 0.0
  · rw [if_pos hneg] at habs ⊢
    refine ⟨y - z, ?_, fun value? => evaluateWith_binary (hvalue value?) rfl rfl⟩
    rw [PartwiseNumeral.parts_sub, hy, hparts, habs]
    exact Prod.ext (Binary64.sub_zero hre hrezero) (Binary64.zero_sub_neg him himzero)
  · rw [if_neg hneg] at habs ⊢
    refine ⟨y + z, ?_, fun value? => evaluateWith_binary (hvalue value?) rfl rfl⟩
    rw [PartwiseNumeral.parts_add, hy, hparts, habs]
    exact Prod.ext (Binary64.add_zero hre hrezero) (Binary64.zero_add him himzero)

theorem evaluateWith_standardNumber {x : α} {value? : String → Option α} (hx : Scalar.isFinite x)
    (hzeros : Numeral.NoNegativeZero x) : (standardNumber x).evaluateWith value? = .ok x := by
  obtain ⟨hre, him⟩ := PartwiseNumeral.isFinite_parts hx
  have hreal : ∀ v, (Numeral.ofLiteral? v false : Option α).isSome := PartwiseNumeral.isSome_real
  have himaginary := PartwiseNumeral.isSome_imaginary (x := x)
  obtain ⟨hrezeros, himzeros⟩ := hzeros
  -- the parts determine the number, so it is enough to find a number with the same parts
  suffices hvalue : ∃ y : α, Numeral.parts y = Numeral.parts x ∧
      (standardNumber x).evaluateWith value? = .ok y by
    obtain ⟨y, hy, hvalue⟩ := hvalue
    rw [hvalue, PartwiseNumeral.eq_of_parts hy]
  rw [standardNumber]
  generalize Numeral.parts x = parts at hre him himaginary hrezeros himzeros ⊢
  obtain ⟨re, im⟩ := parts
  simp only at hre him himaginary hrezeros himzeros ⊢
  cases hrezero : re == 0.0 with
  | true =>
    obtain rfl := (Binary64.eq_zero_or_of_beq hrezero).resolve_right hrezeros
    cases himzero : im == 0.0 with
    | true =>
      obtain rfl := (Binary64.eq_zero_or_of_beq himzero).resolve_right himzeros
      exact ⟨0, parts_zero, rfl⟩
    | false =>
      obtain ⟨y, hy, hvalue⟩ := exists_signedLiteral him himzero (himaginary himzero)
      exact ⟨y, hy, hvalue value?⟩
  | false =>
    cases himzero : im == 0.0 with
    | true =>
      obtain rfl := (Binary64.eq_zero_or_of_beq himzero).resolve_right himzeros
      obtain ⟨y, hy, hvalue⟩ := exists_signedLiteral hre hrezero hreal
      exact ⟨y, hy, hvalue value?⟩
    | false =>
      obtain ⟨y, hy, hvalue⟩ := exists_parts hre hrezero him himzero hreal (himaginary himzero)
      exact ⟨y, hy, hvalue value?⟩

end

/-- The standard form has the value of the tree, or fails as it does. -/
theorem Writable.evaluateWith_standardForm [PartwiseNumeral α] {t : Tree α}
    {value? : String → Option α} (h : t.Writable) (hzeros : t.NumbersAre Numeral.NoNegativeZero) :
    t.standardForm.evaluateWith value? = t.evaluateWith value? := by
  induction h with
  | num hx => exact evaluateWith_standardNumber hx (numbersAre_num_iff.mp hzeros)
  | var name => rfl
  | negation o _ ih =>
    have ih := ih ((numbersAre_iff.mp hzeros).2 _ (by simp))
    simp only [standardForm, Tree.negation, evaluateWith, ih]
  | binary _ _ _ ihl ihr =>
    have ihl := ihl ((numbersAre_iff.mp hzeros).2 _ (by simp))
    have ihr := ihr ((numbersAre_iff.mp hzeros).2 _ (by simp))
    simp only [standardForm, Tree.binary, evaluateWith, ihl, ihr]
  | @call f t _ _ ih =>
    have ih := ih ((numbersAre_iff.mp hzeros).2 _ (by simp))
    cases f <;> simp only [standardForm, Tree.call, evaluateWith, ih]

/-! ### Both kinds of scalars -/

/-- The text of the tree is parsed to the standard form, unless this is too deep, and the standard
form has the value of the tree in every environment, unless a negative zero is lost. -/
structure Restored (t : Tree α) : Prop where
  parse : t.standardForm.depth ≤ Parser.maxDepth → Tree.parse t.text = .ok t.standardForm
  value : t.NumbersAre Numeral.NoNegativeZero →
    ∀ e : Environment α, t.standardForm.evaluateUnder e = t.evaluateUnder e

theorem Writable.restored [PartwiseNumeral α] {t : Tree α} (h : t.Writable) : t.Restored where
  parse := h.reads.parses
  value hzeros e := by
    rw [evaluateUnder_eq, evaluateUnder_eq, h.evaluateWith_standardForm hzeros]

/-- The text of a tree that was not parsed is parsed to its standard form, which has its value, over
both kinds of scalars. -/
theorem parse_text_standardForm :
    (∀ t : Tree ComplexFloat, t.Writable → t.Restored) ∧
      ∀ t : Tree Float, t.Writable → t.Restored :=
  ⟨fun _ => Writable.restored, fun _ => Writable.restored⟩

/-- The number `-3-2i`, raised to the negated product of `x` and `0.5`. The negation is written with
another operator than the minus sign. -/
def shiftedPower : Tree ComplexFloat :=
  pow (num ⟨-3.0, -2.0⟩) (.node (.operator .mul) [var "x" * num ⟨0.5, 0.0⟩])

/-- Its standard form. -/
def standardPower : Tree ComplexFloat :=
  pow (-num ⟨3.0, 0.0⟩ - num ⟨0.0, 2.0⟩) (-(var "x" * num ⟨0.5, 0.0⟩))

theorem parse_text_standardForm_shiftedPower :
    shiftedPower.text = "((-3-2i)^(-(x*0.5)))" ∧
      Tree.parse shiftedPower.text = .ok standardPower ∧
      (∀ e : Environment ComplexFloat, standardPower.evaluateUnder e = shiftedPower.evaluateUnder e) ∧
      Tree.parse (num (-2.0) : Tree Float).text = .ok (-num 2.0 : Tree Float) := by
  have hwritable : shiftedPower.Writable :=
    .binary (by decide) (.num (by decide))
      (.negation .mul (.binary (by decide) (.var ⟨['x'], by decide⟩) (.num (by decide))))
  have hform : shiftedPower.standardForm = standardPower := rfl
  have hzeros : shiftedPower.NumbersAre Numeral.NoNegativeZero := by
    unfold NumbersAre Numeral.NoNegativeZero
    decide
  have hrestored := parse_text_standardForm.1 shiftedPower hwritable
  have hreal := parse_text_standardForm.2 (num (-2.0)) (.num (by decide))
  refine ⟨by decide +kernel, ?_, ?_, ?_⟩
  · rw [← hform]
    exact hrestored.parse (by decide)
  · rw [← hform]
    exact hrestored.value hzeros
  · have hnegative : (num (-2.0) : Tree Float).standardForm = -num 2.0 := rfl
    rw [← hnegative]
    exact hreal.parse (by decide)

end Tree

end FractalFormula
