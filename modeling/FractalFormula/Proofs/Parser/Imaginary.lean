import FractalFormula.Proofs.Parser.Derivation
import FractalFormula.Proofs.Parser.Position
import FractalFormula.Scalar.ComplexFloat
import FractalFormula.Scalar.Real

/-!
# Imaginary numbers

Where the imaginary numbers of a formula start (`Derivation.imaginaryStarts`). They are listed in
the order of the text, so that the first in the list is the first in the text. They are all that
keeps a formula of the complex scalars from being one of the real scalars
(`Derivation.admissible_real_iff`).
-/

namespace FractalFormula

open FractalFormula.Parser

namespace Derivation

/-- The places in the text at which its imaginary numbers start, from left to right. -/
def imaginaryStarts : {p : Phrase} → Derivation p → List Nat
  | _, plain first more => first.imaginaryStarts ++ more.imaginaryStarts.map (first.text.length + ·)
  | _, negated first more =>
    (first.imaginaryStarts ++ more.imaginaryStarts.map (first.text.length + ·)).map (1 + ·)
  | _, lastTerm => []
  | _, nextTerm _ operand more =>
    (operand.imaginaryStarts ++ more.imaginaryStarts.map (operand.text.length + ·)).map (1 + ·)
  | _, term first more => first.imaginaryStarts ++ more.imaginaryStarts.map (first.text.length + ·)
  | _, lastPower => []
  | _, nextPower _ operand more =>
    (operand.imaginaryStarts ++ more.imaginaryStarts.map (operand.text.length + ·)).map (1 + ·)
  | _, base a => a.imaginaryStarts
  | _, raised a exponent =>
    a.imaginaryStarts ++ (exponent.imaginaryStarts.map (1 + ·)).map (a.text.length + ·)
  | _, bracket inner => inner.imaginaryStarts.map (1 + ·)
  | _, call name argument => (argument.imaginaryStarts.map (1 + ·)).map (name.1.length + ·)
  | _, number _ imaginary => if imaginary then [0] else []
  | _, var _ => []

theorem starts_eq_nil_iff {first more : List Nat} {l : Nat} :
    first ++ more.map (l + ·) = [] ↔ first = [] ∧ more = [] := by
  rw [List.append_eq_nil_iff, List.map_eq_nil_iff]

/-- Over the real scalars a formula needs to do without imaginary numbers. -/
theorem admissible_real_iff {p : Phrase} (d : Derivation p) :
    d.Admissible Float ↔ d.Admissible ComplexFloat ∧ d.imaginaryStarts = [] := by
  induction d with
  | plain first more hfirst hmore =>
    simp only [Admissible, imaginaryStarts, starts_eq_nil_iff, hfirst, hmore]
    exact and_and_and_comm
  | negated first more hfirst hmore =>
    simp only [Admissible, imaginaryStarts, starts_eq_nil_iff, List.map_eq_nil_iff, hfirst, hmore]
    exact and_and_and_comm
  | lastTerm => exact iff_of_true trivial ⟨trivial, rfl⟩
  | nextTerm s operand more hoperand hmore =>
    simp only [Admissible, imaginaryStarts, starts_eq_nil_iff, List.map_eq_nil_iff, hoperand, hmore]
    exact and_and_and_comm
  | term first more hfirst hmore =>
    simp only [Admissible, imaginaryStarts, starts_eq_nil_iff, hfirst, hmore]
    exact and_and_and_comm
  | lastPower => exact iff_of_true trivial ⟨trivial, rfl⟩
  | nextPower s operand more hoperand hmore =>
    simp only [Admissible, imaginaryStarts, starts_eq_nil_iff, List.map_eq_nil_iff, hoperand, hmore]
    exact and_and_and_comm
  | base a ha => exact ha
  | raised a exponent ha hexponent =>
    simp only [Admissible, imaginaryStarts, starts_eq_nil_iff, List.map_eq_nil_iff, ha, hexponent]
    exact and_and_and_comm
  | bracket inner hinner =>
    simp only [Admissible, imaginaryStarts, List.map_eq_nil_iff, hinner]
  | call name argument hargument =>
    simp only [Admissible, imaginaryStarts, List.map_eq_nil_iff, hargument, and_assoc]
  | number literal imaginary =>
    simp only [Admissible, imaginaryStarts]
    cases imaginary with
    | true =>
      refine iff_of_false ?_ (by simp)
      rintro ⟨hfin, hsome⟩
      obtain ⟨v, hv⟩ := (Literal.exists_value?_iff literal.2).mpr hfin
      exact absurd (hsome v hv) (by simp [Numeral.ofLiteral?])
    | false => simp [Numeral.ofLiteral?]
  | var name => exact iff_of_true trivial ⟨trivial, rfl⟩

/-! ### Literals with a suffix -/

/-- Behind its first `k` characters the text goes on with a literal that has the suffix `i`. -/
def ImaginaryAt (s : List Char) (k : Nat) : Prop :=
  ∃ before, ∃ literal : Digits, ∃ after,
    s = before ++ (literal.1 ++ 'i' :: after) ∧ before.length = k

namespace ImaginaryAt

variable {s : List Char} {k : Nat}

theorem append (h : ImaginaryAt s k) (after : List Char) : ImaginaryAt (s ++ after) k := by
  obtain ⟨before, literal, rest, rfl, rfl⟩ := h
  refine ⟨before, literal, rest ++ after, ?_, rfl⟩
  simp only [List.append_assoc, List.cons_append]

theorem behind (h : ImaginaryAt s k) (before : List Char) :
    ImaginaryAt (before ++ s) (before.length + k) := by
  obtain ⟨between, literal, rest, rfl, rfl⟩ := h
  exact ⟨before ++ between, literal, rest, (List.append_assoc _ _ _).symm, List.length_append⟩

theorem lt_length (h : ImaginaryAt s k) : k < s.length := by
  obtain ⟨before, literal, rest, rfl, rfl⟩ := h
  rw [List.length_append, List.length_append, List.length_cons]
  omega

end ImaginaryAt

/-- The numbers tell, in increasing order, where the text has literals with the suffix `i`. -/
structure ImaginaryStarts (s : List Char) (starts : List Nat) : Prop where
  imaginaryAt : ∀ k ∈ starts, ImaginaryAt s k
  increasing : starts.Pairwise (· < ·)

namespace ImaginaryStarts

variable {s : List Char} {starts : List Nat}

theorem nil (s : List Char) : ImaginaryStarts s [] :=
  ⟨List.forall_mem_nil _, List.Pairwise.nil⟩

theorem behind (h : ImaginaryStarts s starts) (before : List Char) :
    ImaginaryStarts (before ++ s) (starts.map (before.length + ·)) := by
  refine ⟨fun k hk => ?_, h.increasing.map _ fun _ _ hlt => Nat.add_lt_add_left hlt _⟩
  obtain ⟨k, hk', rfl⟩ := List.mem_map.mp hk
  exact (h.imaginaryAt k hk').behind before

theorem append (h : ImaginaryStarts s starts) {s' : List Char} {starts' : List Nat}
    (h' : ImaginaryStarts s' starts') :
    ImaginaryStarts (s ++ s') (starts ++ starts'.map (s.length + ·)) := by
  have hbehind := h'.behind s
  refine ⟨fun k hk => ?_,
    List.pairwise_append.mpr ⟨h.increasing, hbehind.increasing, fun k hk k' hk' => ?_⟩⟩
  · obtain hk | hk := List.mem_append.mp hk
    · exact (h.imaginaryAt k hk).append s'
    · exact hbehind.imaginaryAt k hk
  · obtain ⟨l, -, rfl⟩ := List.mem_map.mp hk'
    exact Nat.lt_add_right l (h.imaginaryAt k hk).lt_length

theorem ahead (h : ImaginaryStarts s starts) (after : List Char) :
    ImaginaryStarts (s ++ after) starts := by
  have happend := h.append (nil after)
  rwa [List.map_nil, List.append_nil] at happend

end ImaginaryStarts

theorem imaginaryStarts_text {p : Phrase} (d : Derivation p) :
    ImaginaryStarts d.text d.imaginaryStarts := by
  induction d with
  | plain first more hfirst hmore => exact hfirst.append hmore
  | negated first more hfirst hmore => exact (hfirst.append hmore).behind ['-']
  | lastTerm => exact .nil _
  | nextTerm s operand more hoperand hmore => exact (hoperand.append hmore).behind [s.char]
  | term first more hfirst hmore => exact hfirst.append hmore
  | lastPower => exact .nil _
  | nextPower s operand more hoperand hmore => exact (hoperand.append hmore).behind [s.char]
  | base a ha => exact ha
  | raised a exponent ha hexponent => exact ha.append (hexponent.behind ['^'])
  | bracket inner hinner => exact (hinner.ahead [')']).behind ['(']
  | call name argument hargument => exact ((hargument.ahead [')']).behind ['(']).behind name.1
  | number literal imaginary =>
    cases imaginary with
    | true =>
      refine ⟨fun k hk => ?_, List.pairwise_singleton _ _⟩
      obtain rfl := List.mem_singleton.mp hk
      exact ⟨[], literal, [], rfl, rfl⟩
    | false => exact .nil _
  | var name => exact .nil _

/-! ### The first one -/

theorem exists_of_head?_behind {more : List Nat} {l k : Nat}
    (h : (more.map (l + ·)).head? = some k) : ∃ k', more.head? = some k' ∧ l + k' = k := by
  rw [List.head?_map] at h
  exact Option.map_eq_some_iff.mp h

theorem exists_of_head?_starts {first more : List Nat} {l k : Nat}
    (h : (first ++ more.map (l + ·)).head? = some k) :
    first.head? = some k ∨ first = [] ∧ ∃ k', more.head? = some k' ∧ l + k' = k := by
  cases first with
  | nil => exact .inr ⟨rfl, exists_of_head?_behind h⟩
  | cons k' first => exact .inl h

theorem least_of_head?_imaginaryStarts {p : Phrase} {d : Derivation p} {k : Nat}
    (hk : d.imaginaryStarts.head? = some k) :
    k ∈ d.imaginaryStarts ∧ ∀ l ∈ d.imaginaryStarts, k ≤ l := by
  obtain ⟨starts, hstarts⟩ := List.head?_eq_some_iff.mp hk
  have hincreasing := d.imaginaryStarts_text.increasing
  rw [hstarts] at hincreasing ⊢
  refine ⟨List.mem_cons_self, fun l hl => ?_⟩
  obtain rfl | hl := List.mem_cons.mp hl
  · exact Nat.le_refl l
  · exact Nat.le_of_lt (List.rel_of_pairwise_cons hincreasing hl)

end Derivation

/-- At the position `p` starts the first imaginary number of a formula, which is a literal with the
suffix `i`. -/
def FirstImaginaryAt (text : List Char) (p : Nat) : Prop :=
  ∃ d : Derivation .expr, d.text = inked text ∧ ∃ k ∈ d.imaginaryStarts,
    (∀ l ∈ d.imaginaryStarts, k ≤ l) ∧ InkAt text k p

end FractalFormula
