import FractalFormula.Proofs.Evaluation.Environment
import FractalFormula.Proofs.Scalar.Finite
import FractalFormula.Proofs.Tree.Acceptance
import FractalFormula.Proofs.Tree.Closure
import FractalFormula.Proofs.Tree.Nodes
import FractalFormula.Scalar.ComplexFloat

/-!
# The passes keep a tree usable

Being accepted and having only finite numbers are closed properties, so every pass keeps them: what
can be evaluated in an environment, or lowered in a mode, still can be after simplification and
differentiation in any order, and no pass brings in a number that is not finite.
-/

namespace FractalFormula

variable {α : Type _}

namespace Tree

/-! ### Two closed properties -/

section

variable [Scalar α]

theorem closed_accepted (named : String → Prop) : Closed (α := α) (Accepted named) where
  zero := .num 0 []
  one := .num 1 []
  two := .num Scalar.two []
  finite _ := .num _ []
  negated _ := .num _ []
  operand h := accepted_negation_iff.mp h
  operands h := ⟨(accepted_binary_iff.mp h).1, (accepted_binary_iff.mp h).2.1⟩
  argument h := (accepted_call_iff.mp h).1
  negation h := .negation .sub h
  binary ho hl hr := .binary ho hl hr
  call hf hu := .call hf hu
  map hchange h := by
    cases h with
    | num x cs => exact .num x _
    | var cs hname => exact .var _ hname
    | negation o ht => exact .negation o (hchange _ ht)
    | binary ho hl hr => exact .binary ho (hchange _ hl) (hchange _ hr)
    | call hf hu => exact .call hf (hchange _ hu)

/-- All numbers of the tree are finite. -/
def Finite (t : Tree α) : Prop := ∀ x ∈ t.numbers, Scalar.isFinite x

theorem finite_iff {l : Label α} {cs : List (Tree α)} :
    (Tree.node l cs).Finite ↔
      (∀ x, l = .num x → Scalar.isFinite x) ∧ ∀ c ∈ cs, c.Finite :=
  numbersAre_iff

theorem closed_finite [FiniteScalar α] : Closed (α := α) Finite :=
  closed_numbersAre FiniteScalar.isFinite_zero FiniteScalar.isFinite_one FiniteScalar.isFinite_two
    id FiniteScalar.isFinite_negated

/-! ### All passes -/

/-- The passes that may fail succeed. -/
structure Succeeds (name : String) (t : Tree α) : Prop where
  derivative : (t.derivative name).isOk
  nthDerivative (n : Nat) : (t.nthDerivative name n).isOk
  newtonMap : (t.newtonMap name).isOk

/-- What the passes make of a tree has the property `P`, and the map of Newton's method has the
property `Q`. -/
structure Yields (P Q : Tree α → Prop) (name : String) (t : Tree α) : Prop where
  simplify : P t.simplify
  simplifyTimes (passes : Nat) : P (t.simplifyTimes passes).1
  derivative {d : Tree α} : t.derivative name = .ok d → P d
  nthDerivative {n : Nat} {d : Tree α} : t.nthDerivative name n = .ok d → P d
  newtonMap {d : Tree α} : t.newtonMap name = .ok d → Q d

/-- The map of Newton's method has a property that is implied by one which it needs of the
variable alone. -/
theorem Closed.yields {P Q : Tree α → Prop} (hP : Closed P) (hQ : Closed Q)
    (hPQ : ∀ t, P t → Q t) {name : String} (hvar : Q (var name)) {t : Tree α} (ht : P t) :
    t.Yields P Q name where
  simplify := hP.simplify ht
  simplifyTimes passes := hP.simplifyTimes passes ht
  derivative := hP.derivative ht
  nthDerivative := hP.nthDerivative ht
  newtonMap := hQ.newtonMap hvar (hPQ t ht)

theorem isOk_nthDerivative {named : String → Prop} {t : Tree α} (ht : t.Accepted named)
    (name : String) (n : Nat) : (t.nthDerivative name n).isOk := by
  induction n generalizing t with
  | zero => rfl
  | succ n ih =>
    have hclosed : Closed (α := α) (Accepted named) := closed_accepted named
    have hderivative : (t.derivative name).isOk :=
      isOk_derivative_iff.mpr (ht.mono fun _ _ => trivial)
    obtain ⟨d, hd⟩ := isOk_iff.mp hderivative
    rw [nthDerivative, hd]
    exact ih (hclosed.simplify (hclosed.derivative ht hd))

theorem Accepted.succeeds {named : String → Prop} {t : Tree α} (ht : t.Accepted named)
    (name : String) : t.Succeeds name := by
  have hd : (t.derivative name).isOk := isOk_derivative_iff.mpr (ht.mono fun _ _ => trivial)
  exact ⟨hd, isOk_nthDerivative ht name, isOk_bind_pure_iff.mpr hd⟩

end

/-- Where a tree can be evaluated or lowered, all passes succeed and what they make of it can be
evaluated or lowered too; the map of Newton's method needs the variable. No pass brings in a number
that is not finite. -/
theorem passes_keep_usable [Numeral α] [FiniteScalar α] (t : Tree α) (name : String) :
    (∀ e e' : Environment α, e.Extends name e' → (t.evaluateUnder e).isOk → t.Succeeds name ∧
      t.Yields (fun s => (s.evaluateUnder e).isOk) (fun s => (s.evaluateUnder e').isOk) name) ∧
    (∀ m : Mode, (t.lower m).isOk → t.Succeeds name ∧
      t.Yields (fun s => (s.lower m).isOk) (fun s => m.allows name → (s.lower m).isOk) name) ∧
    (t.Finite → t.Yields Finite Finite name) := by
  refine ⟨fun e e' hextends ht => ?_, fun m ht => ?_, fun ht => ?_⟩
  · simp only [evaluateUnder_eq, isOk_evaluateWith_iff] at ht ⊢
    refine ⟨ht.succeeds name, (closed_accepted _).yields (closed_accepted _) ?_ ?_ ht⟩
    · exact fun s hs => hs.mono fun v hv => (hextends.isSome_value?_iff v).mpr (.inr hv)
    · exact .var [] ((hextends.isSome_value?_iff name).mpr (.inl rfl))
  · simp only [isOk_lower_iff] at ht ⊢
    refine ⟨ht.succeeds name, ?_⟩
    by_cases hname : m.allows name
    · simp only [hname, true_implies]
      exact (closed_accepted _).yields (closed_accepted _) (fun _ => id) (.var [] hname) ht
    · have hP : Closed (α := α) (Accepted (m.allows ·)) := closed_accepted _
      exact ⟨hP.simplify ht, (hP.simplifyTimes · ht), hP.derivative ht, hP.nthDerivative ht,
        fun _ h => absurd h hname⟩
  · exact closed_finite.yields closed_finite (fun _ => id) (finite_iff.mpr ⟨nofun, by simp⟩) ht

/-- A power with a single operand, which is a variable with a child. -/
def lonelyPower : Tree ComplexFloat := .node (.operator .pow) [.node (.var "z") [0]]

/-- An environment with a state that has the variable. -/
def iterating : Environment ComplexFloat := ⟨.empty, some (State.empty.set "z" 1)⟩

/-- A tree that no formula has, in the state of an iteration. -/
theorem passes_keep_usable_lonelyPower :
    (lonelyPower.evaluateUnder iterating).isOk ∧ lonelyPower.Finite ∧
      lonelyPower.Succeeds "c" ∧
      lonelyPower.Yields (fun s => (s.evaluateUnder iterating).isOk)
        (fun s => (s.evaluateUnder (iterating.bind "c" 0)).isOk) "c" ∧
      lonelyPower.Yields Finite Finite "c" := by
  have hvalue : (lonelyPower.evaluateUnder iterating).isOk := by decide
  have hfinite : lonelyPower.Finite := by
    have hzero : (0 : Tree ComplexFloat).Finite := closed_finite.zero
    have hvar : (Tree.node (.var "z") [0]).Finite := finite_iff.mpr ⟨nofun, by simpa using hzero⟩
    exact finite_iff.mpr ⟨nofun, by simpa using hvar⟩
  obtain ⟨hevaluate, _, hkeep⟩ := passes_keep_usable lonelyPower "c"
  obtain ⟨hsucceeds, hyields⟩ := hevaluate iterating _ (.bind 0) hvalue
  exact ⟨hvalue, hfinite, hsucceeds, hyields, hkeep hfinite⟩

end Tree

end FractalFormula
