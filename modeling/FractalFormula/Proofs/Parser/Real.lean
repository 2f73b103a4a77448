import FractalFormula.Proofs.Parser.Imaginary
import FractalFormula.Proofs.Parser.Names
import FractalFormula.Proofs.Parser.Report
import FractalFormula.Proofs.Tree.Map

/-!
# Real formulas

A formula without imaginary numbers is parsed over the real scalars and over the complex ones, and
into the same tree: `Tree.toComplex` turns the real tree into the complex one, and printing,
lowering and differentiation do not tell them apart. An imaginary number is refused among the real
scalars. As everything before the first one is read alike, it is at this number that the real parse
breaks off (`Derivation.breaksOff`).
-/

namespace FractalFormula

open FractalFormula.Parser

/-! ### Real numbers among the complex ones -/

namespace Tree

/-- The tree with every real number as a complex one. -/
def toComplex (t : Tree Float) : Tree ComplexFloat := t.map fun x => ⟨x, 0.0⟩

theorem toComplex_negation (t : Tree Float) :
    (negation t).toComplex = negation t.toComplex := map_negation _ t

theorem toComplex_binary (o : Operator) (l r : Tree Float) :
    (binary o l r).toComplex = binary o l.toComplex r.toComplex := map_binary _ o l r

theorem keepsConstants_toComplex :
    KeepsConstants (fun x : Float => (⟨x, 0.0⟩ : ComplexFloat)) where
  zero := rfl
  one := rfl
  two := rfl

theorem derivative_toComplex (name : String) (t : Tree Float) :
    t.toComplex.derivative name = (t.derivative name).map toComplex :=
  derivative_map keepsConstants_toComplex name t

theorem parts_ofReal (x : Float) : Numeral.parts (⟨x, 0.0⟩ : ComplexFloat) = Numeral.parts x := rfl

theorem text_toComplex (t : Tree Float) : t.toComplex.text = t.text := text_map parts_ofReal t

theorem lower_toComplex (m : Mode) (t : Tree Float) : t.toComplex.lower m = t.lower m :=
  lower_map parts_ofReal m t

theorem depth_toComplex (t : Tree Float) : t.toComplex.depth = t.depth := depth_map _ t

end Tree

namespace Derivation

/-! ### The same tree -/

/-- What a phrase without imaginary numbers says of its tree over the complex scalars: it is that
over the real ones. The operands of a chain are put behind the same tree. -/
def Embeds : {p : Phrase} → Derivation p → Prop
  | .moreTerms, d => ∀ left : Tree Float, d.tree left.toComplex = (d.tree left).toComplex
  | .morePowers, d => ∀ left : Tree Float, d.tree left.toComplex = (d.tree left).toComplex
  | .expr, d => d.tree = (d.tree : Tree Float).toComplex
  | .term, d => d.tree = (d.tree : Tree Float).toComplex
  | .power, d => d.tree = (d.tree : Tree Float).toComplex
  | .atom, d => d.tree = (d.tree : Tree Float).toComplex

theorem embeds {p : Phrase} (d : Derivation p) (h : d.Admissible Float) : d.Embeds := by
  induction d with
  | plain first more hfirst hmore =>
    have hchain := hmore h.2 first.tree
    rwa [← hfirst h.1] at hchain
  | negated first more hfirst hmore =>
    have hchain := hmore h.2 (.negation first.tree)
    rwa [Tree.toComplex_negation, ← hfirst h.1] at hchain
  | lastTerm => exact fun left => rfl
  | nextTerm s operand more hoperand hmore =>
    intro left
    have hchain := hmore h.2 (.binary s.operator left operand.tree)
    rwa [Tree.toComplex_binary, ← hoperand h.1] at hchain
  | term first more hfirst hmore =>
    have hchain := hmore h.2 first.tree
    rwa [← hfirst h.1] at hchain
  | lastPower => exact fun left => rfl
  | nextPower s operand more hoperand hmore =>
    intro left
    have hchain := hmore h.2 (.binary s.operator left operand.tree)
    rwa [Tree.toComplex_binary, ← hoperand h.1] at hchain
  | base a ha => exact ha h
  | raised a exponent ha hexponent => exact congrArg₂ Tree.pow (ha h.1) (hexponent h.2)
  | bracket inner hinner => exact hinner h
  | call name argument hargument => exact congrArg (Tree.call _) (hargument h.2)
  | number literal imaginary =>
    obtain ⟨⟨hfin, -⟩, himaginary⟩ := (admissible_real_iff _).mp h
    obtain ⟨v, hv⟩ := (Literal.exists_value?_iff literal.2).mpr hfin
    cases imaginary with
    | true => cases himaginary
    | false =>
      simp only [Embeds, tree, scalar?, hv, Option.bind_some]
      rfl
  | var name => rfl

theorem tree_eq_toComplex (d : Derivation .expr) (h : d.Admissible Float) :
    d.tree = (d.tree : Tree Float).toComplex := d.embeds h

/-! ### Where the real parse breaks off -/

/-- The text is refused for what stands in it behind its first `k` characters. -/
def RefusedAt (result : Except Failure (Reading Float)) (s : List Char) (k : Nat) : Prop :=
  result = .error (.unreadable (s.length - k))

namespace RefusedAt

variable {result : Except Failure (Reading Float)} {s : List Char} {k : Nat}

theorem behind (h : RefusedAt result s k) (before : List Char) :
    RefusedAt result (before ++ s) (before.length + k) := by
  rw [RefusedAt, List.length_append, Nat.add_sub_add_left]
  exact h

theorem cons (h : RefusedAt result s k) (c : Char) : RefusedAt result (c :: s) (1 + k) :=
  h.behind [c]

theorem bind (h : RefusedAt result s k) (f : Reading Float → Except Failure (Reading Float)) :
    RefusedAt (result >>= f) s k := by
  rw [RefusedAt, h]
  rfl

end RefusedAt

/-- The phrase, if it fits over the complex scalars, is refused over the real ones at its first
imaginary number. What stands before it fits over the real scalars too (`Fits.real`), and so it is
read. -/
def BreaksOff : {p : Phrase} → Derivation p → Prop
  | .atom, d => ∀ {n rest k}, d.Fits n (d.tree : Tree ComplexFloat) rest →
    d.imaginaryStarts.head? = some k →
    RefusedAt (atom (power n) (d.text ++ rest)) (d.text ++ rest) k
  | .power, d => ∀ {n rest k}, d.Fits n (d.tree : Tree ComplexFloat) rest →
    d.imaginaryStarts.head? = some k →
    RefusedAt (power n (d.text ++ rest)) (d.text ++ rest) k
  | .term, d => ∀ {n rest k}, d.Fits n (d.tree : Tree ComplexFloat) rest →
    d.imaginaryStarts.head? = some k →
    RefusedAt (Parser.term (power n) (d.text ++ rest)) (d.text ++ rest) k
  | .expr, d => ∀ {n rest k}, d.Fits n (d.tree : Tree ComplexFloat) rest →
    d.imaginaryStarts.head? = some k →
    RefusedAt (expr (power n) (d.text ++ rest)) (d.text ++ rest) k
  | .morePowers, d => ∀ {n rest turns k} {left : Tree Float},
    d.Fits n (d.tree left.toComplex) rest → d.text.length ≤ turns →
    d.imaginaryStarts.head? = some k →
    RefusedAt (chain (power n) joinsPowers turns (.of left (d.text ++ rest))) (d.text ++ rest) k
  | .moreTerms, d => ∀ {n rest turns k} {left : Tree Float},
    d.Fits n (d.tree left.toComplex) rest → d.text.length ≤ turns →
    d.imaginaryStarts.head? = some k →
    RefusedAt (chain (Parser.term (power n)) joinsTerms turns (.of left (d.text ++ rest)))
      (d.text ++ rest) k

section

variable {p : Phrase} {d : Derivation p} {n : Nat} {t' : Tree ComplexFloat} {rest : List Char}

theorem Fits.admissible_real (h : d.Fits n t' rest) (hreal : d.imaginaryStarts = []) :
    d.Admissible Float := (admissible_real_iff d).mpr ⟨h.admissible, hreal⟩

theorem Fits.real {t : Tree Float} (h : d.Fits n t' rest) (hreal : d.imaginaryStarts = [])
    (ht : t' = t.toComplex) : d.Fits n t rest := by
  refine ⟨h.admissible_real hreal, h.opens, h.ends, ?_⟩
  rw [← t.depth_toComplex, ← ht]
  exact h.shallow

end

theorem breaksOff_lastTerm : lastTerm.BreaksOff := fun _ _ hk => nomatch hk

theorem breaksOff_lastPower : lastPower.BreaksOff := fun _ _ hk => nomatch hk

theorem breaksOff_nextPower {s : Scale} {operand : Derivation .power}
    {more : Derivation .morePowers} (hoperand : operand.BreaksOff) (hmore : more.BreaksOff) :
    (nextPower s operand more).BreaksOff := by
  intro n rest turns k left h hturns hstart
  obtain ⟨ho, hnode, hm⟩ := h.nextPower
  obtain ⟨turns, rfl, hturn⟩ := exists_turn hturns
  obtain ⟨k, hbehind, rfl⟩ := exists_of_head?_behind hstart
  rw [text, List.cons_append, List.append_assoc]
  refine RefusedAt.cons ?_ s.char
  -- The number is in the operand, or the operand is read and the number is in one further on.
  obtain hk | ⟨hreal, k, hk, rfl⟩ := exists_of_head?_starts hbehind
  · exact chain_cons_error s.joins.1 (hoperand ho hk)
  · have htree := operand.embeds (ho.admissible_real hreal)
    rw [htree, ← Tree.toComplex_binary] at hnode hm
    rw [Tree.depth_toComplex] at hnode
    rw [chain_cons s.joins (operand.read (ho.real hreal htree)) hnode]
    exact (hmore hm hturn hk).behind operand.text

theorem breaksOff_nextTerm {s : Sign} {operand : Derivation .term}
    {more : Derivation .moreTerms} (hoperand : operand.BreaksOff) (hmore : more.BreaksOff) :
    (nextTerm s operand more).BreaksOff := by
  intro n rest turns k left h hturns hstart
  obtain ⟨ho, hnode, hm⟩ := h.nextTerm
  obtain ⟨turns, rfl, hturn⟩ := exists_turn hturns
  obtain ⟨k, hbehind, rfl⟩ := exists_of_head?_behind hstart
  rw [text, List.cons_append, List.append_assoc]
  refine RefusedAt.cons ?_ s.char
  obtain hk | ⟨hreal, k, hk, rfl⟩ := exists_of_head?_starts hbehind
  · exact chain_cons_error s.joins.1 (hoperand ho hk)
  · have htree := operand.embeds (ho.admissible_real hreal)
    rw [htree, ← Tree.toComplex_binary] at hnode hm
    rw [Tree.depth_toComplex] at hnode
    rw [chain_cons s.joins (operand.read (ho.real hreal htree)) hnode]
    exact (hmore hm hturn hk).behind operand.text

theorem breaksOff_term {first : Derivation .power} {more : Derivation .morePowers}
    (hfirst : first.BreaksOff) (hmore : more.BreaksOff) : (term first more).BreaksOff := by
  intro n rest k h hstart
  obtain ⟨hf, hm⟩ := h.term
  rw [text, List.append_assoc, Parser.term]
  obtain hk | ⟨hreal, k, hk, rfl⟩ := exists_of_head?_starts hstart
  · exact (hfirst hf hk).bind _
  · have htree := first.embeds (hf.admissible_real hreal)
    rw [htree] at hm
    rw [first.read (hf.real hreal htree)]
    refine (hmore hm ?_ hk).behind first.text
    simp only [Reading.of, List.length_append]
    omega

theorem breaksOff_plain {first : Derivation .term} {more : Derivation .moreTerms}
    (hfirst : first.BreaksOff) (hmore : more.BreaksOff) : (plain first more).BreaksOff := by
  intro n rest k h hstart
  obtain ⟨hf, hm⟩ := h.plain
  rw [text, List.append_assoc]
  simp only [expr]
  split
  · next s hs => exact absurd hs (first.term_text_ne _ _)
  · obtain hk | ⟨hreal, k, hk, rfl⟩ := exists_of_head?_starts hstart
    · exact (hfirst hf hk).bind _
    · have htree := first.embeds (hf.admissible_real hreal)
      rw [htree] at hm
      rw [first.read (hf.real hreal htree)]
      refine (hmore hm ?_ hk).behind first.text
      simp only [Reading.of, List.length_append]
      omega

theorem breaksOff_negated {first : Derivation .term} {more : Derivation .moreTerms}
    (hfirst : first.BreaksOff) (hmore : more.BreaksOff) : (negated first more).BreaksOff := by
  intro n rest k h hstart
  obtain ⟨hf, hnode, hm⟩ := h.negated
  rw [text, List.cons_append, List.append_assoc]
  obtain ⟨k, hbehind, rfl⟩ := exists_of_head?_behind hstart
  refine RefusedAt.cons ?_ '-'
  simp only [expr]
  obtain hk | ⟨hreal, k, hk, rfl⟩ := exists_of_head?_starts hbehind
  · exact ((hfirst hf hk).bind _).bind _
  · have htree := first.embeds (hf.admissible_real hreal)
    rw [htree, ← Tree.toComplex_negation] at hm
    rw [htree, Tree.depth_toComplex] at hnode
    rw [negatedTerm_eq_ok first.read (hf.real hreal htree) hnode]
    refine (hmore hm ?_ hk).behind first.text
    simp only [Reading.of, List.length_append]
    omega

theorem breaksOff_base {a : Derivation .atom} (ha : a.BreaksOff) : (base a).BreaksOff := by
  intro n rest k h hk
  obtain ⟨n, rfl, hbase⟩ := h.base
  rw [text, Parser.power]
  exact (ha hbase hk).bind _

theorem breaksOff_raised {a : Derivation .atom} {exponent : Derivation .power}
    (ha : a.BreaksOff) (hexponent : exponent.BreaksOff) : (raised a exponent).BreaksOff := by
  intro n rest k h hstart
  obtain ⟨n, rfl, hbase, hright, -⟩ := h.raised
  rw [text, List.append_assoc, List.cons_append, Parser.power]
  obtain hk | ⟨hreal, k, hbehind, rfl⟩ := exists_of_head?_starts hstart
  · exact (ha hbase hk).bind _
  · obtain ⟨k, hk, rfl⟩ := exists_of_head?_behind hbehind
    have htree := a.embeds (hbase.admissible_real hreal)
    have hread := a.read (hbase.real hreal htree)
    simp only [hread]
    exact (((hexponent hright hk).bind _).cons '^').behind a.text

/-- An expression between brackets is refused where it is without them. -/
theorem refusedAt_bracketed {inner : Derivation .expr} (hinner : inner.BreaksOff) {n k : Nat}
    (opened : List Char) {rest : List Char}
    (h : inner.Fits n (inner.tree : Tree ComplexFloat) (')' :: rest))
    (hk : inner.imaginaryStarts.head? = some k) :
    RefusedAt (bracketed (power n) opened (inner.text ++ ')' :: rest)) (inner.text ++ ')' :: rest)
      k := by
  rw [bracketed]
  exact (hinner h hk).bind _

theorem breaksOff_bracket {inner : Derivation .expr} (hinner : inner.BreaksOff) :
    (bracket inner).BreaksOff := by
  intro n rest k h hstart
  obtain ⟨k, hk, rfl⟩ := exists_of_head?_behind hstart
  simp only [text, List.cons_append, List.append_assoc, List.nil_append, Parser.atom, if_true]
  exact (refusedAt_bracketed hinner _ h.bracket hk).cons '('

theorem breaksOff_call {name : Name} {argument : Derivation .expr}
    (hargument : argument.BreaksOff) : (call name argument).BreaksOff := by
  intro n rest k h hstart
  obtain ⟨⟨f, hf⟩, -⟩ := h.admissible
  obtain ⟨hfits, -⟩ := h.call
  obtain ⟨k, hbehind, rfl⟩ := exists_of_head?_behind hstart
  obtain ⟨k, hk, rfl⟩ := exists_of_head?_behind hbehind
  simp only [text, List.append_assoc, List.cons_append, List.nil_append]
  rw [atom_name, named_call _ hf]
  exact (((refusedAt_bracketed hargument _ hfits hk).bind _).cons '(').behind name.1

theorem breaksOff_number {literal : Digits} {imaginary : Bool} :
    (number literal imaginary).BreaksOff := by
  intro n rest k h hstart
  cases imaginary with
  | false => nomatch hstart
  | true =>
    obtain rfl := Option.some.inj hstart
    rw [text, List.append_assoc, atom_number]
    cases hnumber : (Parser.number (literal.1 ++ ((if true then ['i'] else []) ++ rest)) :
        Except Failure (Reading Float)) with
    | error f => exact congrArg Except.error (number_error hnumber)
    | ok r =>
      -- A number that is read here would end before its suffix, which the reader would have taken.
      obtain ⟨literal', imaginary, rest', v, x, hsplit, hnot, -, hx, -⟩ :=
        number_eq_ok_iff.mp hnumber
      rw [Literal.split?_append literal.2 (ended_suffix true h.ends)] at hsplit
      obtain ⟨-, hsuffix⟩ := Prod.mk.inj (Option.some.inj hsplit)
      cases imaginary with
      | true => cases hx
      | false => exact absurd (congrArg List.head? hsuffix.symm) (hnot rfl)

theorem breaksOff_var {name : Name} : (var name).BreaksOff := fun _ hk => nomatch hk

theorem breaksOff {p : Phrase} (d : Derivation p) : d.BreaksOff := by
  induction d with
  | plain first more hfirst hmore => exact breaksOff_plain hfirst hmore
  | negated first more hfirst hmore => exact breaksOff_negated hfirst hmore
  | lastTerm => exact breaksOff_lastTerm
  | nextTerm s operand more hoperand hmore => exact breaksOff_nextTerm hoperand hmore
  | term first more hfirst hmore => exact breaksOff_term hfirst hmore
  | lastPower => exact breaksOff_lastPower
  | nextPower s operand more hoperand hmore => exact breaksOff_nextPower hoperand hmore
  | base a ha => exact breaksOff_base ha
  | raised a exponent ha hexponent => exact breaksOff_raised ha hexponent
  | bracket inner hinner => exact breaksOff_bracket hinner
  | call name argument hargument => exact breaksOff_call hargument
  | number literal imaginary => exact breaksOff_number
  | var name => exact breaksOff_var

/-- A whole formula of the complex scalars is refused over the real ones at its first imaginary
number. -/
theorem formula_error_of_imaginary {d : Derivation .expr} (hadm : d.Admissible ComplexFloat)
    (hopens : d.opens ≤ maxNesting) (hshallow : (d.tree : Tree ComplexFloat).depth ≤ maxDepth)
    {k : Nat} (hk : d.imaginaryStarts.head? = some k) :
    (formula d.text : Except Failure (Tree Float)) = .error (.unreadable (d.text.length - k)) := by
  have hrefused := d.breaksOff ⟨hadm, hopens, Phrase.endsAt_nil _, hshallow⟩ hk
  rw [List.append_nil] at hrefused
  rw [formula, hrefused]
  rfl

end Derivation

/-! ### Real and complex formulas -/

namespace Tree

/-- Over the complex scalars the real tree has the same text and the same shader expressions, or
the same errors, and its derivatives are those over the real ones. -/
structure AgreesWithComplex (t : Tree Float) : Prop where
  text : t.toComplex.text = t.text
  lower (m : Mode) : t.toComplex.lower m = t.lower m
  derivative (name : String) :
    ∃ d, t.derivative name = .ok d ∧ t.toComplex.derivative name = .ok d.toComplex

theorem agreesWithComplex_of_parse {text : String} {t : Tree Float}
    (h : Tree.parse text = .ok t) : t.AgreesWithComplex := by
  refine ⟨t.text_toComplex, t.lower_toComplex, fun name => ?_⟩
  obtain ⟨hparsed, -⟩ := parsed_of_formula (parse_eq_ok_iff_formula.mp h)
  obtain ⟨d, hd⟩ := isOk_iff.mp (isOk_derivative_iff.mpr (hparsed.accepted fun _ _ => trivial))
  refine ⟨d, hd, ?_⟩
  rw [derivative_toComplex, hd]
  rfl

/-- What is read over the real scalars is read over the complex ones, into the same tree. -/
theorem parse_toComplex {text : String} {t : Tree Float} (h : Tree.parse text = .ok t) :
    Tree.parse text = .ok t.toComplex := by
  obtain ⟨d, htext, rfl, hadm, hopens, hshallow⟩ := formula_sound (parse_eq_ok_iff_formula.mp h)
  have htree := d.tree_eq_toComplex hadm
  rw [parse_eq_ok_iff_formula, ← htext, ← htree]
  refine formula_complete d ((Derivation.admissible_real_iff d).mp hadm).1 hopens ?_
  rwa [htree, depth_toComplex]

/-- What is read over the complex scalars is read over the real ones, or refused there at its first
imaginary number. -/
theorem parse_real_of_complex {text : String} {t' : Tree ComplexFloat}
    (h : Tree.parse text = .ok t') :
    (∃ t : Tree Float, Tree.parse text = .ok t ∧ t' = t.toComplex) ∨
      ∃ p, FirstImaginaryAt text.toList p ∧
        (Tree.parse text : Except Error (Tree Float)) = .error (.syntaxError p) := by
  obtain ⟨d, htext, rfl, hadm, hopens, hshallow⟩ := formula_sound (parse_eq_ok_iff_formula.mp h)
  cases hstart : d.imaginaryStarts.head? with
  | none =>
    have hreal := (Derivation.admissible_real_iff d).mpr ⟨hadm, List.head?_eq_none_iff.mp hstart⟩
    have htree := d.tree_eq_toComplex hreal
    refine .inl ⟨d.tree, ?_, htree⟩
    rw [htree, depth_toComplex] at hshallow
    rw [parse_eq_ok_iff_formula, ← htext]
    exact formula_complete d hreal hopens hshallow
  | some k =>
    obtain ⟨hk, hleast⟩ := Derivation.least_of_head?_imaginaryStarts hstart
    have hlt := (d.imaginaryStarts_text.imaginaryAt k hk).lt_length
    have herror := Derivation.formula_error_of_imaginary hadm hopens hshallow hstart
    rw [htext] at herror hlt
    have hink := inkAt_positionOf (Nat.sub_pos_of_lt hlt) (Nat.sub_le (inked text.toList).length k)
    rw [Nat.sub_sub_self (Nat.le_of_lt hlt)] at hink
    exact .inr ⟨_, ⟨d, htext, k, hk, hleast, hink⟩, parse_of_formula_error herror⟩

/-- The real and the complex scalars agree on formulas but for imaginary numbers: what is read over
the real ones is read over the complex ones into the same tree, what is read over the complex ones
is refused over the real ones for an imaginary number only, and what is refused over the complex
ones is refused over the real ones. -/
theorem real_complex_agree (text : String) :
    (∀ t : Tree Float, Tree.parse text = .ok t →
      Tree.parse text = .ok t.toComplex ∧ t.AgreesWithComplex) ∧
    (∀ t' : Tree ComplexFloat, Tree.parse text = .ok t' →
      (∃ t : Tree Float, Tree.parse text = .ok t ∧ t' = t.toComplex) ∨
        ∃ p, FirstImaginaryAt text.toList p ∧
          (Tree.parse text : Except Error (Tree Float)) = .error (.syntaxError p)) ∧
    ∀ e, (Tree.parse text : Except Error (Tree ComplexFloat)) = .error e →
      ∃ e', (Tree.parse text : Except Error (Tree Float)) = .error e' := by
  refine ⟨fun t h => ⟨parse_toComplex h, agreesWithComplex_of_parse h⟩,
    fun t' => parse_real_of_complex, fun e h => ?_⟩
  cases hreal : (Tree.parse text : Except Error (Tree Float)) with
  | error e' => exact ⟨e', rfl⟩
  | ok t =>
    rw [parse_toComplex hreal] at h
    cases h

/-- A real formula, one with an imaginary number in a bracket, and one that is refused. -/
theorem real_complex_agree_imaginary :
    (∃ t : Tree Float, Tree.parse "2*x^3 - 0.5" = .ok t ∧
        Tree.parse "2*x^3 - 0.5" = .ok t.toComplex ∧ t.AgreesWithComplex) ∧
      (∃ t' : Tree ComplexFloat, Tree.parse "z^2 + (x - 2 i*3i)" = .ok t') ∧
      (Tree.parse "z^2 + (x - 2 i*3i)" : Except Error (Tree Float)) = .error (.syntaxError 11) ∧
      FirstImaginaryAt "z^2 + (x - 2 i*3i)".toList 11 ∧
      (Tree.parse "2x" : Except Error (Tree ComplexFloat)) = .error (.unexpectedSymbol 1 'x') ∧
      ∃ e, (Tree.parse "2x" : Except Error (Tree Float)) = .error e := by
  obtain ⟨t, ht⟩ := isOk_iff.mp
    (show (Tree.parse "2*x^3 - 0.5" : Except Error (Tree Float)).isOk by decide +kernel)
  obtain ⟨t', ht'⟩ := isOk_iff.mp
    (show (Tree.parse "z^2 + (x - 2 i*3i)" : Except Error (Tree ComplexFloat)).isOk by
      decide +kernel)
  have hreal : (Tree.parse "z^2 + (x - 2 i*3i)" : Except Error (Tree Float)) =
      .error (.syntaxError 11) := by decide +kernel
  have hrefused : (Tree.parse "2x" : Except Error (Tree ComplexFloat)) =
      .error (.unexpectedSymbol 1 'x') := by decide +kernel
  refine ⟨⟨t, ht, (real_complex_agree _).1 t ht⟩, ⟨t', ht'⟩, hreal, ?_, hrefused,
    (real_complex_agree _).2.2 _ hrefused⟩
  obtain ⟨u, hu, -⟩ | ⟨p, hfirst, hp⟩ := (real_complex_agree _).2.1 t' ht'
  · rw [hreal] at hu
    cases hu
  · rw [hreal] at hp
    cases hp
    exact hfirst

end Tree

end FractalFormula
