import FractalFormula.Proofs.Decimal.Layout
import FractalFormula.Proofs.Parser.Completeness
import FractalFormula.Proofs.Parser.Shape
import FractalFormula.Proofs.Scalar.Lawful
import FractalFormula.Proofs.Tree.Equality
import FractalFormula.Tree.Printer

/-!
# Printed trees are parsed back

A parsed tree prints as an atom that derives the tree again (`Tree.Parsed.printable`). The
induction counts the powers open in the atom: an exponent costs two, everything else one, and
each level of the tree pays for two. A tree of the greatest depth so stays within the greatest
number of open powers.
-/

namespace FractalFormula

/-! ### Tokens -/

namespace Func

theorem named?_token : ∀ entry ∈ table.toList, named? entry.2.token = some entry.2 := by
  decide

theorem isName_token : ∀ entry ∈ table.toList, IsName entry.2.token.toList := by
  decide

end Func

namespace Literal

theorem toBits_lt_of_value? {l : List Char} {v : Float} (h : value? l = some v) :
    v.toBits.toNat < Binary64.infinityBits := by
  obtain ⟨d, -, h⟩ := Option.bind_eq_some_iff.mp h
  split at h
  · next hlt =>
    obtain rfl := Option.some.inj h
    have hinf : Binary64.infinityBits = 2047 * 2 ^ 52 := rfl
    have hnat : (UInt64.ofNat (d.toBits + 0)).toNat = d.toBits := by
      rw [UInt64.toNat_ofNat']
      omega
    rw [Decimal.toFloat, Binary64.toFloat, if_neg (by decide), Binary64.toBits_ofBits] <;>
      rw [hnat]
    · exact hlt
    · omega
  · cases h

end Literal

namespace Derivation

/-- An atom as an operand of a sum. -/
def operand (a : Derivation .atom) : Derivation .term := .term (.base a) .lastPower

/-! ### Blanks -/

theorem isBlank_of_mem_name {name : Name} {c : Char} (h : c ∈ name.1) :
    Text.isBlank c = false := by
  obtain ⟨-, -, -, -, hname⟩ := name.2.head
  cases hb : Text.isBlank c with
  | false => rfl
  | true =>
    have hin := hname c h
    rw [Parser.inName_of_isBlank hb] at hin
    exact absurd hin (by decide)

theorem isBlank_of_mem_literal {literal : Digits} {c : Char} (h : c ∈ literal.1) :
    Text.isBlank c = false := by
  have hpunct : ['.', 'e', 'E', '+', '-'].all fun c => !Text.isBlank c := by decide
  obtain h | h := literal.2.inLiteral c h
  · exact Parser.isBlank_of_isDigit h
  · have hc := List.all_eq_true.mp hpunct c h
    simpa using hc

/-- No blank is derived. -/
theorem isBlank_of_mem_text {p : Phrase} (d : Derivation p) {c : Char} (h : c ∈ d.text) :
    Text.isBlank c = false := by
  induction d with
  | plain first more hfirst hmore => exact (List.mem_append.mp h).elim hfirst hmore
  | negated first more hfirst hmore =>
    obtain rfl | h := List.mem_cons.mp h
    · decide
    · exact (List.mem_append.mp h).elim hfirst hmore
  | lastTerm => exact absurd h (by simp [text])
  | nextTerm s operand more hoperand hmore =>
    obtain rfl | h := List.mem_cons.mp h
    · cases s <;> decide
    · exact (List.mem_append.mp h).elim hoperand hmore
  | term first more hfirst hmore => exact (List.mem_append.mp h).elim hfirst hmore
  | lastPower => exact absurd h (by simp [text])
  | nextPower s operand more hoperand hmore =>
    obtain rfl | h := List.mem_cons.mp h
    · cases s <;> decide
    · exact (List.mem_append.mp h).elim hoperand hmore
  | base a ha => exact ha h
  | raised a exponent ha hexponent =>
    obtain h | h := List.mem_append.mp h
    · exact ha h
    · obtain rfl | h := List.mem_cons.mp h
      · decide
      · exact hexponent h
  | bracket inner hinner =>
    obtain rfl | h := List.mem_cons.mp h
    · decide
    · obtain h | h := List.mem_append.mp h
      · exact hinner h
      · obtain rfl := List.mem_singleton.mp h
        decide
  | call name argument hargument =>
    obtain h | h := List.mem_append.mp h
    · exact isBlank_of_mem_name h
    · obtain rfl | h := List.mem_cons.mp h
      · decide
      · obtain h | h := List.mem_append.mp h
        · exact hargument h
        · obtain rfl := List.mem_singleton.mp h
          decide
  | number literal imaginary =>
    obtain h | h := List.mem_append.mp h
    · exact isBlank_of_mem_literal h
    · cases imaginary with
      | true =>
        obtain rfl := List.mem_singleton.mp h
        decide
      | false => exact absurd h (by simp)
  | var name => exact isBlank_of_mem_name h

theorem inked_text {p : Phrase} (d : Derivation p) : Parser.inked d.text = d.text := by
  refine List.filter_eq_self.mpr fun c hc => ?_
  rw [d.isBlank_of_mem_text hc]
  rfl

end Derivation

namespace Tree

variable {α : Type _} [Numeral α]

/-- The text is an atom that derives the tree, in which at most two powers are open for each level
of the tree but the last. -/
def Reads (text : List Char) (t : Tree α) : Prop :=
  ∃ a : Derivation .atom, a.text = text ∧ a.tree = t ∧ a.Admissible α ∧ a.opens + 2 ≤ 2 * t.depth

/-- The tree prints as an atom that derives it. -/
def Printable (t : Tree α) : Prop := Reads t.write t

/-! ### Nodes -/

theorem reads_literal {literal : List Char} {v : Float} {imaginary : Bool} {x : α}
    (hlit : Literal.IsLiteral literal) (hv : Literal.value? literal = some v)
    (hx : Numeral.ofLiteral? v imaginary = some x) :
    Reads (literal ++ if imaginary then ['i'] else []) (num x) := by
  refine ⟨.number ⟨literal, hlit⟩ imaginary, rfl, ?_, ⟨?_, ?_⟩, ?_⟩
  · rw [Derivation.tree, Derivation.scalar?, hv, Option.bind_some, hx, Option.getD_some]
  · exact (Literal.exists_value?_iff hlit).mp ⟨v, hv⟩
  · intro v' hv'
    obtain rfl := Option.some.inj (hv.symm.trans hv')
    rw [hx]
    rfl
  · rw [depth_num]
    exact Nat.le_refl 2

theorem reads_var (name : Name) : Reads name.1 (var (String.ofList name.1) : Tree α) := by
  refine ⟨.var name, rfl, rfl, trivial, ?_⟩
  rw [depth_var]
  exact Nat.le_refl 2

namespace Reads

variable {s s' : List Char} {l r t : Tree α}

theorem call {name : String} {f : Func} (hf : Func.named? name = some f) (h : Reads s t) :
    Reads (writeNode (.func f : Label α) [s]) (call f t) := by
  obtain ⟨a, rfl, rfl, hadm, hopens⟩ := h
  obtain ⟨entry, hfind, rfl⟩ := Option.map_eq_some_iff.mp hf
  have hmem := List.mem_of_find?_eq_some hfind
  have hnamed := Func.named?_token entry hmem
  refine ⟨.call ⟨_, Func.isName_token entry hmem⟩ (.plain a.operand .lastTerm), ?_, ?_, ?_, ?_⟩
  · rw [writeNode, joinComma]
    simp only [Derivation.text, Derivation.operand, List.append_nil]
  · simp only [Derivation.tree, Derivation.operand, String.ofList_toList, hnamed, Option.getD_some]
  · exact ⟨⟨entry.2, by rw [String.ofList_toList, hnamed]⟩, ⟨hadm, trivial⟩, trivial⟩
  · rw [depth_call]
    simp only [Derivation.opens, Derivation.operand]
    omega

/-- An operator over one operand is written as a minus sign, whatever the operator. -/
theorem negation (o : Operator) (h : Reads s t) :
    Reads (writeNode (.operator o : Label α) [s]) (negation t) := by
  obtain ⟨a, rfl, rfl, hadm, hopens⟩ := h
  refine ⟨.bracket (.negated a.operand .lastTerm), ?_, rfl, ⟨⟨hadm, trivial⟩, trivial⟩, ?_⟩
  · rw [writeNode]
    simp only [Derivation.text, Derivation.operand, List.append_nil, List.cons_append]
  · rw [depth_negation]
    simp only [Derivation.opens, Derivation.operand]
    omega

theorem sum (sign : Sign) (hl : Reads s l) (hr : Reads s' r) :
    Reads (writeNode (.operator sign.operator : Label α) [s, s'])
      (Tree.binary sign.operator l r) := by
  obtain ⟨a, rfl, rfl, haadm, haopens⟩ := hl
  obtain ⟨b, rfl, rfl, hbadm, hbopens⟩ := hr
  refine ⟨.bracket (.plain a.operand (.nextTerm sign b.operand .lastTerm)), ?_, rfl,
    ⟨⟨haadm, trivial⟩, ⟨hbadm, trivial⟩, trivial⟩, ?_⟩
  · have htoken : sign.operator.token.toList = [sign.char] := by cases sign <;> rfl
    rw [writeNode, htoken]
    simp only [Derivation.text, Derivation.operand, List.append_nil, List.append_assoc,
      List.cons_append, List.nil_append]
  · rw [depth_binary]
    simp only [Derivation.opens, Derivation.operand]
    omega

theorem product (scale : Scale) (hl : Reads s l) (hr : Reads s' r) :
    Reads (writeNode (.operator scale.operator : Label α) [s, s'])
      (Tree.binary scale.operator l r) := by
  obtain ⟨a, rfl, rfl, haadm, haopens⟩ := hl
  obtain ⟨b, rfl, rfl, hbadm, hbopens⟩ := hr
  refine ⟨.bracket (.plain (.term (.base a) (.nextPower scale (.base b) .lastPower)) .lastTerm), ?_,
    rfl, ⟨⟨haadm, hbadm, trivial⟩, trivial⟩, ?_⟩
  · have htoken : scale.operator.token.toList = [scale.char] := by cases scale <;> rfl
    rw [writeNode, htoken]
    simp only [Derivation.text, List.append_nil, List.append_assoc, List.cons_append,
      List.nil_append]
  · rw [depth_binary]
    simp only [Derivation.opens]
    omega

/-- The exponent lies in the power that is raised and in a power of its own. -/
theorem power (hl : Reads s l) (hr : Reads s' r) :
    Reads (writeNode (.operator .pow : Label α) [s, s']) (Tree.pow l r) := by
  obtain ⟨a, rfl, rfl, haadm, haopens⟩ := hl
  obtain ⟨b, rfl, rfl, hbadm, hbopens⟩ := hr
  refine ⟨.bracket (.plain (.term (.raised a (.base b)) .lastPower) .lastTerm), ?_, rfl,
    ⟨⟨⟨haadm, hbadm⟩, trivial⟩, trivial⟩, ?_⟩
  · have htoken : Operator.pow.token.toList = ['^'] := rfl
    rw [writeNode, htoken]
    simp only [Derivation.text, List.append_nil, List.append_assoc, List.cons_append,
      List.nil_append]
  · rw [depth_pow]
    simp only [Derivation.opens]
    omega

theorem binary {o : Operator} (ho : o ≠ .unknown) (hl : Reads s l) (hr : Reads s' r) :
    Reads (writeNode (.operator o : Label α) [s, s']) (binary o l r) := by
  cases o with
  | add => exact sum .plus hl hr
  | sub => exact sum .minus hl hr
  | mul => exact product .times hl hr
  | div => exact product .divided hl hr
  | pow => exact power hl hr
  | unknown => exact absurd rfl ho

end Reads

/-! ### Numbers -/

theorem eq_zero_of_beq {v : Float} (hlt : v.toBits.toNat < Binary64.infinityBits)
    (h : (v == 0.0) = true) : v = 0.0 := by
  refine (Binary64.eq_zero_or_of_beq h).resolve_right ?_
  rintro rfl
  exact absurd hlt (by decide)

theorem value?_zero : Literal.value? ['0'] = some 0.0 := by
  decide

theorem reads_zero {x : α} (hx : Numeral.ofLiteral? 0.0 false = some x) : Reads ['0'] (num x) :=
  reads_literal ⟨['0'], [], .whole (by simp [Literal.IsRun]) (by simp), .absent, rfl⟩ value?_zero hx

/-- The text of a number without a sign bit is a literal that stands for it. -/
theorem reads_plain {v : Float} {imaginary : Bool} {x : α}
    (hlt : v.toBits.toNat < Binary64.infinityBits)
    (hx : Numeral.ofLiteral? v imaginary = some x) :
    Reads (Decimal.plain v ++ if imaginary then ['i'] else []) (num x) := by
  obtain ⟨hlit, hvalue⟩ := Decimal.plain_spec hlt
  exact reads_literal hlit hvalue hx

theorem printable_num [LawfulNumeral α] {v : Float} {imaginary : Bool} {x : α}
    (hlt : v.toBits.toNat < Binary64.infinityBits)
    (hx : Numeral.ofLiteral? v imaginary = some x) : (num x).Printable := by
  have hinf : Binary64.infinityBits = 2047 * 2 ^ 52 := rfl
  have hneg : ¬v < 0.0 := Binary64.not_lt_zero (by omega)
  have hzero : ((0.0 : Float) == 0.0) = true := by decide
  by_cases hv : (v == 0.0) = true
  · obtain rfl := eq_zero_of_beq hlt hv
    have hreal : Numeral.ofLiteral? 0.0 false = some x := by
      cases imaginary with
      | true => exact LawfulNumeral.imaginary_zero hx
      | false => exact hx
    have htext : writeNumber x = ['0'] := by
      rw [writeNumber, LawfulNumeral.parts_real hreal]
      simp [hzero]
    rw [Printable, num, write, writeNode, htext]
    exact reads_zero hreal
  · have hv : (v == 0.0) = false := by simpa using hv
    have htext : writeNumber x = Decimal.plain v ++ if imaginary then ['i'] else [] := by
      cases imaginary with
      | true =>
        rw [writeNumber, LawfulNumeral.parts_imaginary hx]
        simp only [hzero, hv, if_neg hneg]
        rfl
      | false =>
        rw [writeNumber, LawfulNumeral.parts_real hx]
        simp only [hzero, hv, if_neg hneg]
        rw [if_neg (by decide), List.append_nil]
    rw [Printable, num, write, writeNode, htext]
    exact reads_plain hlt hx

/-! ### Formulas -/

theorem Parsed.printable [LawfulNumeral α] {t : Tree α} (h : t.Parsed) : t.Printable := by
  induction h with
  | num _ hv hx => exact printable_num (Literal.toBits_lt_of_value? hv) hx
  | var name =>
    rw [Printable, Tree.var, write, writeNode, String.toList_ofList]
    exact reads_var name
  | call hf _ ih => exact ih.call hf
  | binary ho _ _ ihl ihr => exact ihl.binary ho ihr
  | negation _ ih => exact ih.negation .sub

/-- An atom is parsed to the tree that it derives, at any depth that the parser reaches. -/
theorem Reads.parses {text : List Char} {t : Tree α} (h : Reads text t)
    (hdepth : t.depth ≤ Parser.maxDepth) : Tree.parse (String.ofList text) = .ok t := by
  obtain ⟨a, rfl, rfl, hadm, hopens⟩ := h
  have halone : (Derivation.plain a.operand .lastTerm).text = a.text := by
    simp only [Derivation.text, Derivation.operand, List.append_nil]
  have hread := Parser.formula_complete (α := α) (.plain a.operand .lastTerm)
    ⟨⟨hadm, trivial⟩, trivial⟩ (by
      simp only [Derivation.opens, Derivation.operand, Parser.maxNesting]
      omega) hdepth
  rw [halone] at hread
  rw [parse_eq_ok_iff_formula, String.toList_ofList, a.inked_text]
  exact hread

theorem Parsed.same_self [LawfulNumeral α] {t : Tree α} (h : t.Parsed) : t.same t := by
  induction h with
  | num _ hv hx =>
    have hlt := Literal.toBits_lt_of_value? hv
    have hinf : Binary64.infinityBits = 2047 * 2 ^ 52 := rfl
    exact same_num (LawfulNumeral.beq_self hx ((Binary64.beq_self_iff _).mpr (by omega)))
  | var name => exact same_var _
  | call _ _ ih => exact same_call _ ih
  | binary _ _ _ ihl ihr => exact same_binary _ ihl ihr
  | negation _ ih => exact same_negation ih

theorem parse_text_of_parse [LawfulNumeral α] {s : String} {t : Tree α}
    (h : Tree.parse s = .ok t) : Tree.parse t.text = .ok t ∧ (t == t) = true := by
  obtain ⟨hparsed, hdepth⟩ := parsed_of_formula (parse_eq_ok_iff_formula.mp h)
  exact ⟨hparsed.printable.parses hdepth, hparsed.same_self⟩

/-- The text of a parsed tree is parsed, and into the same tree: over both kinds of scalars, and
up to the greatest depth there is. -/
theorem parse_text (s : String) :
    (∀ t : Tree ComplexFloat, Tree.parse s = .ok t →
      Tree.parse t.text = .ok t ∧ (t == t) = true) ∧
    (∀ t : Tree Float, Tree.parse s = .ok t → Tree.parse t.text = .ok t ∧ (t == t) = true) :=
  ⟨fun _ => parse_text_of_parse, fun _ => parse_text_of_parse⟩

/-- An exponent with a minus sign, over both kinds of scalars. -/
theorem parse_text_power :
    (∃ t : Tree ComplexFloat, Tree.parse ".5i^(-arcsin(x))" = .ok t ∧
      Tree.parse t.text = .ok t ∧ (t == t) = true) ∧
    (∃ t : Tree Float, Tree.parse ".5^(-arcsin(x))" = .ok t ∧
      Tree.parse t.text = .ok t ∧ (t == t) = true) := by
  have hz : Tree.parse ".5i^(-arcsin(x))" = .ok (Tree.pow (.num (⟨0.0, 0.5⟩ : ComplexFloat))
      (.negation (.call .asin (.var "x")))) := by decide +kernel
  have hx : Tree.parse ".5^(-arcsin(x))" = .ok (Tree.pow (.num (0.5 : Float))
      (.negation (.call .asin (.var "x")))) := by decide +kernel
  exact ⟨⟨_, hz, (parse_text ".5i^(-arcsin(x))").1 _ hz⟩,
    ⟨_, hx, (parse_text ".5^(-arcsin(x))").2 _ hx⟩⟩

end Tree

end FractalFormula
