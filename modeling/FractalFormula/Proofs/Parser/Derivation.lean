import FractalFormula.Proofs.Parser.Literal
import FractalFormula.Proofs.Symbol.Table

/-!
# The grammar of formulas

The grammar of texts without blanks, as a type of derivations:

    Expr  := '-'? Term (('+' | '-') Term)*
    Term  := Power (('*' | '/') Power)*
    Power := Atom ('^' Power)?
    Atom  := '(' Expr ')' | name '(' Expr ')' | number 'i'? | name

`Derivation p` holds the derivations of the phrase `p`. A derivation has a text, which it
derives, a tree, which it stands for among given scalars, and a number of powers that are
open at its innermost atom (`opens`). It is `Admissible` among given scalars if the names it
calls are functions and its literals are finite and have values there.

Nothing here mentions the parser. What may stand behind a phrase is `follow`, from which
the two facts that make the grammar readable from the left are proved: a text that may
follow a phrase does not go on with the last name or literal of it.
-/

namespace FractalFormula

open FractalFormula.Parser (startsName inName startsNumber)

/-- The nonterminals of the grammar. -/
inductive Phrase where
  | expr
  /-- The terms of an expression behind the first, each with its sign. -/
  | moreTerms
  | term
  /-- The powers of a term behind the first, each with its `*` or `/`. -/
  | morePowers
  | power
  | atom

/-- What joins terms. -/
inductive Sign where
  | plus
  | minus

/-- What joins powers. -/
inductive Scale where
  | times
  | divided

namespace Sign

def char : Sign → Char
  | plus => '+'
  | minus => '-'

def operator : Sign → Operator
  | plus => .add
  | minus => .sub

end Sign

namespace Scale

def char : Scale → Char
  | times => '*'
  | divided => '/'

def operator : Scale → Operator
  | times => .mul
  | divided => .div

end Scale

/-- A letter or `_`, and then letters, numbers and `_`. -/
def IsName : List Char → Prop
  | [] => False
  | c :: cs => startsName c ∧ ∀ d ∈ cs, inName d

instance : DecidablePred IsName
  | [] => isFalse id
  | c :: cs =>
    decidable_of_iff (startsName c ∧ cs.all inName) (and_congr Iff.rfl List.all_eq_true)

/-- A name. -/
abbrev Name := { cs : List Char // IsName cs }

/-- The text of a number. -/
abbrev Digits := { cs : List Char // Literal.IsLiteral cs }

/-- The derivations of a phrase. -/
inductive Derivation : Phrase → Type where
  | plain (first : Derivation .term) (more : Derivation .moreTerms) : Derivation .expr
  /-- The minus sign belongs to the whole first term. -/
  | negated (first : Derivation .term) (more : Derivation .moreTerms) : Derivation .expr
  | lastTerm : Derivation .moreTerms
  | nextTerm (s : Sign) (operand : Derivation .term) (more : Derivation .moreTerms) :
    Derivation .moreTerms
  | term (first : Derivation .power) (more : Derivation .morePowers) : Derivation .term
  | lastPower : Derivation .morePowers
  | nextPower (s : Scale) (operand : Derivation .power) (more : Derivation .morePowers) :
    Derivation .morePowers
  | base (a : Derivation .atom) : Derivation .power
  | raised (a : Derivation .atom) (exponent : Derivation .power) : Derivation .power
  | bracket (inner : Derivation .expr) : Derivation .atom
  | call (name : Name) (argument : Derivation .expr) : Derivation .atom
  | number (literal : Digits) (imaginary : Bool) : Derivation .atom
  | var (name : Name) : Derivation .atom

/-- What a phrase stands for: a tree, or for the further operands of a chain, what they make of
the tree on their left. -/
@[reducible] def Phrase.Meaning (α : Type _) : Phrase → Type _
  | .moreTerms => Tree α → Tree α
  | .morePowers => Tree α → Tree α
  | _ => Tree α

namespace Derivation

/-- The text that is derived. -/
def text : {p : Phrase} → Derivation p → List Char
  | _, plain first more => first.text ++ more.text
  | _, negated first more => '-' :: (first.text ++ more.text)
  | _, lastTerm => []
  | _, nextTerm s operand more => s.char :: (operand.text ++ more.text)
  | _, term first more => first.text ++ more.text
  | _, lastPower => []
  | _, nextPower s operand more => s.char :: (operand.text ++ more.text)
  | _, base a => a.text
  | _, raised a exponent => a.text ++ '^' :: exponent.text
  | _, bracket inner => '(' :: (inner.text ++ [')'])
  | _, call name argument => name.1 ++ '(' :: (argument.text ++ [')'])
  | _, number literal imaginary => literal.1 ++ if imaginary then ['i'] else []
  | _, var name => name.1

/-- The greatest number of powers that an atom lies in. -/
def opens : {p : Phrase} → Derivation p → Nat
  | _, plain first more => max first.opens more.opens
  | _, negated first more => max first.opens more.opens
  | _, lastTerm => 0
  | _, nextTerm _ operand more => max operand.opens more.opens
  | _, term first more => max first.opens more.opens
  | _, lastPower => 0
  | _, nextPower _ operand more => max operand.opens more.opens
  | _, base a => a.opens + 1
  | _, raised a exponent => max a.opens exponent.opens + 1
  | _, bracket inner => inner.opens
  | _, call _ argument => argument.opens
  | _, number _ _ => 0
  | _, var _ => 0

section

variable (α : Type _) [Numeral α]

/-- The scalar that a literal stands for. -/
def scalar? (literal : List Char) (imaginary : Bool) : Option α :=
  (Literal.value? literal).bind fun v => Numeral.ofLiteral? v imaginary

/-- The called names are functions, and the literals are finite and have values among the
scalars. -/
def Admissible : {p : Phrase} → Derivation p → Prop
  | _, plain first more => first.Admissible ∧ more.Admissible
  | _, negated first more => first.Admissible ∧ more.Admissible
  | _, lastTerm => True
  | _, nextTerm _ operand more => operand.Admissible ∧ more.Admissible
  | _, term first more => first.Admissible ∧ more.Admissible
  | _, lastPower => True
  | _, nextPower _ operand more => operand.Admissible ∧ more.Admissible
  | _, base a => a.Admissible
  | _, raised a exponent => a.Admissible ∧ exponent.Admissible
  | _, bracket inner => inner.Admissible
  | _, call name argument =>
    (∃ f, Func.named? (String.ofList name.1) = some f) ∧ argument.Admissible
  | _, number literal imaginary =>
    Literal.IsFinite literal.1 ∧
      ∀ v, Literal.value? literal.1 = some v → (Numeral.ofLiteral? v imaginary : Option α).isSome
  | _, var _ => True

end

section

variable {α : Type _} [Numeral α]

/-- The tree that a phrase stands for. Sums and products associate to the left, powers to the
right. -/
def tree : {p : Phrase} → Derivation p → p.Meaning α
  | _, plain first more => more.tree first.tree
  | _, negated first more => more.tree (.negation first.tree)
  | _, lastTerm => fun left => left
  | _, nextTerm s operand more => fun left => more.tree (.binary s.operator left operand.tree)
  | _, term first more => more.tree first.tree
  | _, lastPower => fun left => left
  | _, nextPower s operand more => fun left => more.tree (.binary s.operator left operand.tree)
  | _, base a => a.tree
  | _, raised a exponent => .pow a.tree exponent.tree
  | _, bracket inner => inner.tree
  | _, call name argument =>
    .call ((Func.named? (String.ofList name.1)).getD .unknown) argument.tree
  | _, number literal imaginary => .num ((scalar? α literal.1 imaginary).getD 0)
  | _, var name => .var (String.ofList name.1)

end

end Derivation

/-! ### What may follow -/

/-- The characters that may stand behind a phrase. -/
def Phrase.follow : Phrase → List Char
  | .atom => ['^', '*', '/', '+', '-', ')']
  | .power => ['*', '/', '+', '-', ')']
  | .term => ['+', '-', ')']
  | .morePowers => ['+', '-', ')']
  | .expr => [')']
  | .moreTerms => [')']

/-- The text may stand behind the phrase. -/
def Phrase.EndsAt (p : Phrase) (rest : List Char) : Prop := ∀ c ∈ rest.head?, c ∈ p.follow

namespace Phrase

@[simp] theorem endsAt_nil (p : Phrase) : p.EndsAt [] := by simp [EndsAt]

@[simp] theorem endsAt_cons {p : Phrase} {c : Char} {rest : List Char} :
    p.EndsAt (c :: rest) ↔ c ∈ p.follow := by simp [EndsAt]

theorem endsAt_caret (s : List Char) : atom.EndsAt ('^' :: s) := endsAt_cons.mpr (by decide)

theorem endsAt_close (s : List Char) : expr.EndsAt (')' :: s) := endsAt_cons.mpr (by decide)

theorem not_endsAt_caret (s : List Char) : ¬power.EndsAt ('^' :: s) :=
  mt endsAt_cons.mp (by decide)

theorem not_endsAt_open (s : List Char) : ¬atom.EndsAt ('(' :: s) :=
  mt endsAt_cons.mp (by decide)

theorem EndsAt.mono {p q : Phrase} {rest : List Char} (h : p.EndsAt rest)
    (hpq : p.follow ⊆ q.follow) : q.EndsAt rest :=
  fun c hc => hpq (h c hc)

theorem follow_subset_atom (p : Phrase) : p.follow ⊆ Phrase.atom.follow := by
  cases p <;> decide

theorem EndsAt.atom {p : Phrase} {rest : List Char} (h : p.EndsAt rest) :
    Phrase.atom.EndsAt rest := h.mono p.follow_subset_atom

/-- A name is not continued by what may follow it. -/
theorem EndsAt.stops {p : Phrase} {rest : List Char} (h : p.EndsAt rest) :
    Text.Stops inName rest := Text.stops_of_all (by decide) h.atom

/-- A literal is not continued by what may follow it. -/
theorem EndsAt.ended {p : Phrase} {rest : List Char} (h : p.EndsAt rest) :
    Literal.Ended rest := by
  have hall : Phrase.atom.follow.all
      fun c => decide (c.isDigit = false ∧ c ≠ '.' ∧ c ≠ 'e' ∧ c ≠ 'E') := by decide
  exact fun c hc => of_decide_eq_true (List.all_eq_true.mp hall c (h.atom c hc))

theorem EndsAt.head?_ne {p : Phrase} {rest : List Char} {c : Char} (h : p.EndsAt rest)
    (hc : c ∉ p.follow) : rest.head? ≠ some c :=
  fun hr => hc (h c hr)

end Phrase

namespace Derivation

variable {rest : List Char}

theorem endsAt_moreTerms (d : Derivation .moreTerms) (h : Phrase.moreTerms.EndsAt rest) :
    Phrase.term.EndsAt (d.text ++ rest) := by
  cases d with
  | lastTerm => exact Phrase.EndsAt.mono (q := .term) h (by decide)
  | nextTerm s => cases s <;> simp [text, Sign.char, Phrase.follow]

theorem endsAt_morePowers (d : Derivation .morePowers) (h : Phrase.morePowers.EndsAt rest) :
    Phrase.power.EndsAt (d.text ++ rest) := by
  cases d with
  | lastPower => exact Phrase.EndsAt.mono (q := .power) h (by decide)
  | nextPower s => cases s <;> simp [text, Scale.char, Phrase.follow]

end Derivation

/-! ### The first character -/

theorem IsName.head {cs : List Char} (h : IsName cs) :
    ∃ c cs', cs = c :: cs' ∧ startsName c ∧ ∀ d ∈ cs, inName d := by
  cases cs with
  | nil => exact absurd h id
  | cons c cs =>
    exact ⟨c, cs, rfl, h.1, List.forall_mem_cons.mpr ⟨Parser.inName_of_startsName h.1, h.2⟩⟩

/-- The character starts an atom. -/
def StartsAtom (c : Char) : Prop := c = '(' ∨ startsName c ∨ startsNumber c

namespace Derivation

theorem head_atom (d : Derivation .atom) : ∃ c s, d.text = c :: s ∧ StartsAtom c := by
  cases d with
  | bracket inner => exact ⟨'(', _, rfl, Or.inl rfl⟩
  | call name argument =>
    obtain ⟨c, cs, hcs, hc, -⟩ := name.2.head
    exact ⟨c, _, by rw [text, hcs]; rfl, Or.inr (Or.inl hc)⟩
  | number literal imaginary =>
    obtain ⟨c, cs, hcs, hc⟩ := literal.2.head
    exact ⟨c, _, by rw [text, hcs]; rfl, Or.inr (Or.inr hc)⟩
  | var name =>
    obtain ⟨c, cs, hcs, hc, -⟩ := name.2.head
    exact ⟨c, _, hcs, Or.inr (Or.inl hc)⟩

theorem head_power (d : Derivation .power) : ∃ c s, d.text = c :: s ∧ StartsAtom c := by
  cases d with
  | base a => exact a.head_atom
  | raised a exponent =>
    obtain ⟨c, s, hs, hc⟩ := a.head_atom
    exact ⟨c, _, by rw [text, hs]; rfl, hc⟩

theorem head_term (d : Derivation .term) : ∃ c s, d.text = c :: s ∧ StartsAtom c := by
  cases d with
  | term first more =>
    obtain ⟨c, s, hs, hc⟩ := first.head_power
    exact ⟨c, _, by rw [text, hs]; rfl, hc⟩

/-- A term does not start with a minus sign. -/
theorem term_text_ne (d : Derivation .term) (rest s : List Char) : d.text ++ rest ≠ '-' :: s := by
  obtain ⟨c, cs, hcs, hc⟩ := d.head_term
  rw [hcs]
  rintro h
  obtain ⟨rfl, -⟩ := List.cons.inj h
  exact absurd hc (by simp [StartsAtom]; decide)

end Derivation

end FractalFormula
