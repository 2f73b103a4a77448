import Mathlib
import FractalFormula.Derivative
import FractalFormula.Proofs.Evaluation.Environment
import FractalFormula.Proofs.Except
import FractalFormula.Proofs.Scalar.Calculus
import FractalFormula.Proofs.Scalar.Series
import FractalFormula.Proofs.Tree.Nodes

/-!
# Derivatives in exact arithmetic

Over a field with a derivation in one of the variables, the value of the derivative of a tree is the
derivation of the value of the tree, wherever both trees are regular: divisors and bases of powers
are not zero, and functions and powers are defined at their operands (`Regular`).

The rules for operators and for functions are one lemma each, over what is known of the operands.
The short rules for powers rely on operands that do not mention the variable being constant
(`Regular.constant`).
-/

namespace FractalFormula

variable {K : Type _} [Field K] {I : Interpretation K} {D : Derivation ℤ K K}

/-- Whether an operator is defined and can be differentiated at its operands. -/
def Interpretation.RegularAt (I : Interpretation K) : Operator → K → K → Prop
  | .add, _, _ => True
  | .sub, _, _ => True
  | .mul, _, _ => True
  | .div, _, y => y ≠ 0
  | .pow, x, y => x ≠ 0 ∧ ∃ z, I.pow x y = some z
  | .unknown, _, _ => False

theorem Interpretation.RegularAt.exists_operate {o : Operator} {x y : K} (h : I.RegularAt o x y) :
    ∃ z, I.operate? o x y = some z := by
  cases o with
  | div => exact ⟨_, operate?_div_iff.mpr ⟨h, rfl⟩⟩
  | pow => exact h.2
  | unknown => exact h.elim
  | _ => exact ⟨_, rfl⟩

namespace Tree

variable {value? : String → Option (Exact I)}

/-! ### Regular trees -/

/-- Divisors and bases of powers are not zero, functions and powers are defined at their operands,
and variables have values. -/
inductive Regular (value? : String → Option (Exact I)) : Tree (Exact I) → Prop where
  | num (x : K) (cs : List (Tree (Exact I))) : Regular value? (.node (.num (.value x)) cs)
  | var {name : String} {x : K} (cs : List (Tree (Exact I))) : value? name = some (.value x) →
    Regular value? (.node (.var name) cs)
  | negation {t : Tree (Exact I)} (o : Operator) : Regular value? t →
    Regular value? (.node (.operator o) [t])
  | binary {o : Operator} {l r : Tree (Exact I)} : Regular value? l → Regular value? r →
    (∀ x y, l.Denotes value? x → r.Denotes value? y → I.RegularAt o x y) →
    Regular value? (.node (.operator o) [l, r])
  | call {f : Func} {u : Tree (Exact I)} : f ≠ .unknown → Regular value? u →
    (∀ x, u.Denotes value? x → ∃ y, I.apply f x = some y) → Regular value? (.node (.func f) [u])

namespace Regular

/-- A regular tree has a value. -/
theorem exists_denotes {t : Tree (Exact I)} (h : t.Regular value?) : ∃ x, t.Denotes value? x := by
  induction h with
  | num x cs => exact ⟨x, .num x cs⟩
  | var cs hname => exact ⟨_, .var cs hname⟩
  | negation o _ ih =>
    obtain ⟨x, hx⟩ := ih
    exact ⟨-x, .negation o hx⟩
  | binary _ _ hregular ihl ihr =>
    obtain ⟨x, hx⟩ := ihl
    obtain ⟨y, hy⟩ := ihr
    obtain ⟨z, hz⟩ := (hregular x y hx hy).exists_operate
    exact ⟨z, .binary hx hy hz⟩
  | call hf _ hdefined ih =>
    obtain ⟨x, hx⟩ := ih
    obtain ⟨y, hy⟩ := hdefined x hx
    exact ⟨y, .call hf hx hy⟩

variable {o : Operator} {f : Func} {l r t : Tree (Exact I)}

theorem operand (h : (Tree.node (.operator o) [t]).Regular value?) : t.Regular value? := by
  cases h with
  | negation _ ht => exact ht

theorem left (h : (Tree.node (.operator o) [l, r]).Regular value?) : l.Regular value? := by
  cases h with
  | binary hl _ _ => exact hl

theorem right (h : (Tree.node (.operator o) [l, r]).Regular value?) : r.Regular value? := by
  cases h with
  | binary _ hr _ => exact hr

theorem argument (h : (Tree.node (.func f) [t]).Regular value?) : t.Regular value? := by
  cases h with
  | call _ ht _ => exact ht

theorem regularAt (h : (Tree.node (.operator o) [l, r]).Regular value?) {x y : K}
    (hx : l.Denotes value? x) (hy : r.Denotes value? y) : I.RegularAt o x y := by
  cases h with
  | binary _ _ hregular => exact hregular x y hx hy

theorem of_denotes {x y : K} (hl : l.Regular value?) (hr : r.Regular value?)
    (hx : l.Denotes value? x) (hy : r.Denotes value? y) (h : I.RegularAt o x y) :
    (Tree.node (.operator o) [l, r]).Regular value? := by
  refine .binary hl hr fun x' y' hx' hy' => ?_
  rw [hx'.eq hx, hy'.eq hy]
  exact h

theorem divisor (h : (l / r).Regular value?) {y : K} (hy : r.Denotes value? y) : y ≠ 0 := by
  obtain ⟨x, hx⟩ := h.left.exists_denotes
  exact h.regularAt hx hy

theorem exists_apply (h : (Tree.node (.func f) [t]).Regular value?) {x : K}
    (hx : t.Denotes value? x) : ∃ y, I.apply f x = some y := by
  cases h with
  | call _ _ hdefined => exact hdefined x hx

end Regular

/-! ### The rules -/

section

variable [CharZero K] {u du d : Tree (Exact I)} {x y : K}

/-- The rule for functions. -/
theorem denotes_func_derivative (C : Calculus I D) {f : Func} (hu : u.Denotes value? x)
    (hy : I.apply f x = some y) (hdu : du.Regular value? → du.Denotes value? (D x))
    (hd : f.derivative u du = .ok d) (hregular : d.Regular value?) : d.Denotes value? (D y) := by
  cases f with
  | sin =>
    obtain rfl := Except.ok.inj hd
    obtain ⟨c, hc, hDy⟩ := C.circular.sin hy
    rw [hDy]
    exact (Denotes.call (by decide) hu hc).mul (hdu hregular.right)
  | cos =>
    obtain rfl := Except.ok.inj hd
    obtain ⟨s, hs, hDy⟩ := C.circular.cos hy
    rw [hDy, one_mul, ← neg_mul]
    exact (Denotes.call (by decide) hu hs).neg.mul (hdu hregular.right)
  | tan =>
    obtain rfl := Except.ok.inj hd
    obtain ⟨c, hc, hne, -, hDy⟩ := C.circular.derivation_tan hy
    rw [hDy]
    exact (hdu hregular.left).div (Denotes.call (by decide) hu hc).square (pow_ne_zero 2 hne)
  | cot =>
    obtain rfl := Except.ok.inj hd
    obtain ⟨s, hs, hne, hDy⟩ := C.circular.derivation_cot hy
    rw [hDy]
    exact ((hdu hregular.operand.left).div (Denotes.call (by decide) hu hs).square
      (pow_ne_zero 2 hne)).neg
  | asin =>
    obtain rfl := Except.ok.inj hd
    obtain ⟨r, hr, hDu⟩ := C.derivation_asin hy
    have hroot := Denotes.call (by decide) (denotes_one.sub hu.square) hr
    have hne := hregular.divisor hroot
    rw [← mul_div_cancel_left₀ (D y) hne, ← hDu]
    exact (hdu hregular.left).div hroot hne
  | acos =>
    obtain rfl := Except.ok.inj hd
    obtain ⟨r, hr, hDu⟩ := C.derivation_acos hy
    have hroot := Denotes.call (by decide) (denotes_one.sub hu.square) hr
    have hne := hregular.divisor hroot
    rw [← mul_div_cancel_left₀ (D y) hne, ← hDu]
    exact (hdu hregular.left.operand).neg.div hroot hne
  | atan =>
    obtain rfl := Except.ok.inj hd
    obtain ⟨hne, hDy⟩ := C.derivation_atan hy
    rw [hDy]
    exact (hdu hregular.left).div (denotes_one.add hu.square) hne
  | acot =>
    obtain rfl := Except.ok.inj hd
    obtain ⟨hne, hDy⟩ := C.derivation_acot hy
    rw [hDy]
    exact (hdu hregular.left.operand).neg.div (denotes_one.add hu.square) hne
  | sinh =>
    obtain rfl := Except.ok.inj hd
    obtain ⟨c, hc, hDy⟩ := C.hyperbolic.sin hy
    rw [hDy]
    exact (Denotes.call (by decide) hu hc).mul (hdu hregular.right)
  | cosh =>
    obtain rfl := Except.ok.inj hd
    obtain ⟨s, hs, hDy⟩ := C.hyperbolic.cos hy
    rw [hDy, neg_one_mul, neg_mul, neg_neg]
    exact (Denotes.call (by decide) hu hs).mul (hdu hregular.right)
  | tanh =>
    obtain rfl := Except.ok.inj hd
    obtain ⟨c, hc, hne, -, hDy⟩ := C.hyperbolic.derivation_tan hy
    rw [hDy]
    exact (hdu hregular.left).div (Denotes.call (by decide) hu hc).square (pow_ne_zero 2 hne)
  | coth =>
    obtain rfl := Except.ok.inj hd
    obtain ⟨s, hs, hne, hDy⟩ := C.hyperbolic.derivation_cot hy
    rw [hDy]
    exact ((hdu hregular.operand.left).div (Denotes.call (by decide) hu hs).square
      (pow_ne_zero 2 hne)).neg
  | asinh =>
    obtain rfl := Except.ok.inj hd
    obtain ⟨r, hr, hDu⟩ := C.derivation_asinh hy
    have hroot := Denotes.call (by decide) (hu.square.add denotes_one) hr
    have hne := hregular.divisor hroot
    rw [← mul_div_cancel_left₀ (D y) hne, ← hDu]
    exact (hdu hregular.left).div hroot hne
  | acosh =>
    obtain rfl := Except.ok.inj hd
    obtain ⟨r, r', hr, hr', hDu⟩ := C.derivation_acosh hy
    have hroot := (Denotes.call (by decide) (hu.sub denotes_one) hr).mul
      (Denotes.call (by decide) (hu.add denotes_one) hr')
    have hne := hregular.divisor hroot
    rw [← mul_div_cancel_left₀ (D y) hne, ← hDu]
    exact (hdu hregular.left).div hroot hne
  | atanh =>
    obtain rfl := Except.ok.inj hd
    obtain ⟨hne, hDy⟩ := C.derivation_atanh hy
    rw [hDy]
    exact (hdu hregular.left).div (denotes_one.sub hu.square) hne
  | exp =>
    obtain rfl := Except.ok.inj hd
    rw [C.exp hy]
    exact (Denotes.call (by decide) hu hy).mul (hdu hregular.right)
  | log =>
    obtain rfl := Except.ok.inj hd
    obtain ⟨hne, hDy⟩ := C.log hy
    rw [hDy]
    exact (hdu hregular.left).div hu hne
  | sqrt =>
    obtain rfl := Except.ok.inj hd
    have hroot := denotes_two.mul (Denotes.call (by decide) hu hy)
    have hne := hregular.divisor hroot
    rw [← mul_div_cancel_left₀ (D y) hne, C.derivation_sqrt hy]
    exact (hdu hregular.left).div hroot hne
  | abs =>
    obtain rfl := Except.ok.inj hd
    have habs := Denotes.call (by decide) hu hy
    have hne := hregular.divisor habs
    have hre := Denotes.call (by decide) ((Denotes.call (by decide) hu (C.apply_conj x)).mul
      (hdu hregular.left.argument.right)) (C.apply_re (C.conj x * D x))
    have hDy : D y = (C.conj x * D x + C.conj (C.conj x * D x)) / 2 / y := by
      rw [← C.derivation_abs hy]
      field_simp
    rw [hDy]
    exact hre.div habs hne
  | arg =>
    obtain rfl := Except.ok.inj hd
    obtain ⟨hne, hDy⟩ := C.derivation_arg hy
    exact .call (by decide) ((hdu hregular.argument.left).div hu hne) hDy
  | re =>
    obtain rfl := Except.ok.inj hd
    obtain rfl := Option.some.inj ((C.apply_re x).symm.trans hy)
    rw [C.derivation_re]
    exact .call (by decide) (hdu hregular.argument) (C.apply_re (D x))
  | im =>
    obtain rfl := Except.ok.inj hd
    obtain rfl := Option.some.inj ((C.apply_im x).symm.trans hy)
    rw [C.derivation_im]
    exact .call (by decide) (hdu hregular.argument) (C.apply_im (D x))
  | conj =>
    obtain rfl := Except.ok.inj hd
    obtain rfl := Option.some.inj ((C.apply_conj x).symm.trans hy)
    rw [C.conj_derivation]
    exact .call (by decide) (hdu hregular.argument) (C.apply_conj (D x))
  | unknown => nomatch hd

/-- The rule for operators. An operand that does not mention the variable is a constant. -/
theorem denotes_operator_derivative (C : Calculus I D) {name : String} {o : Operator}
    {l r dl dr : Tree (Exact I)} {z : K} (hx : l.Denotes value? x) (hy : r.Denotes value? y)
    (hat : I.RegularAt o x y) (hz : I.operate? o x y = some z)
    (hl : dl.Regular value? → dl.Denotes value? (D x))
    (hr : dr.Regular value? → dr.Denotes value? (D y))
    (hlconst : l.mentions name = false → D x = 0) (hrconst : r.mentions name = false → D y = 0)
    (hd : o.derivative name l r dl dr = .ok d) (hregular : d.Regular value?) :
    d.Denotes value? (D z) := by
  cases o with
  | add =>
    obtain rfl := Except.ok.inj hd
    obtain rfl := Option.some.inj hz
    rw [D.map_add]
    exact (hl hregular.left).add (hr hregular.right)
  | sub =>
    obtain rfl := Except.ok.inj hd
    obtain rfl := Option.some.inj hz
    rw [D.map_sub]
    exact (hl hregular.left).sub (hr hregular.right)
  | mul =>
    obtain rfl := Except.ok.inj hd
    obtain rfl := Option.some.inj hz
    rw [derivation_mul]
    exact ((hl hregular.left.left).mul hy).add (hx.mul (hr hregular.right.right))
  | div =>
    obtain rfl := Except.ok.inj hd
    obtain ⟨hne, rfl⟩ := Interpretation.operate?_div_iff.mp hz
    rw [derivation_div hne]
    exact (((hl hregular.left.left.left).mul hy).sub (hx.mul (hr hregular.left.right.right))).div
      hy.square (pow_ne_zero 2 hne)
  | pow =>
    obtain ⟨hne, -⟩ := hat
    rw [Operator.derivative] at hd
    split_ifs at hd with hrmentions hlmentions
    · obtain rfl := Except.ok.inj hd
      rw [C.derivation_pow_of_constant hz hne (hrconst (by simpa using hrmentions))]
      have hpower := hx.pow (hy.sub denotes_one) (C.pow_sub_one hz hne)
      exact (hy.mul hpower).mul (hl hregular.right)
    · obtain rfl := Except.ok.inj hd
      obtain ⟨m, hm⟩ := hregular.left.right.exists_apply hx
      have hDz : D z = z * m * D y := by
        rw [C.derivation_pow hz hne hm, hlconst (by simpa using hlmentions)]
        ring
      rw [hDz]
      exact ((hx.pow hy hz).mul (.call (by decide) hx hm)).mul (hr hregular.right)
    · obtain rfl := Except.ok.inj hd
      obtain ⟨m, hm⟩ := hregular.right.left.right.exists_apply hx
      rw [C.derivation_pow hz hne hm]
      have hlog := (hr hregular.right.left.left).mul (.call (by decide) hx hm)
      have hquotient := (hy.mul (hl hregular.right.right.left.right)).div hx hne
      exact (hx.pow hy hz).mul (hlog.add hquotient)
  | unknown => nomatch hz

end

/-! ### Trees -/

/-- The derivation is the one in the variable `name`: it is one on the variable, and zero on all
other variables and on the literals of the tree. -/
structure Along (D : Derivation ℤ K K) (name : String) (value? : String → Option (Exact I))
    (t : Tree (Exact I)) : Prop where
  self {x : K} : value? name = some (.value x) → D x = 1
  other {v : String} {x : K} : v ≠ name → value? v = some (.value x) → D x = 0
  literal {x : K} : .value x ∈ t.numbers → D x = 0

theorem Along.child {name : String} {l : Label (Exact I)} {cs : List (Tree (Exact I))}
    {c : Tree (Exact I)} (h : Along D name value? (.node l cs)) (hc : c ∈ cs) :
    Along D name value? c :=
  ⟨h.self, h.other, fun hx => h.literal (mem_numbers_iff.mpr (.inr ⟨c, hc, hx⟩))⟩

variable [CharZero K]

/-- A tree that does not mention the variable is a constant. -/
theorem Regular.constant (C : Calculus I D) {name : String} {t : Tree (Exact I)} {x : K}
    (h : t.Regular value?) (halong : Along D name value? t) (ht : t.mentions name = false)
    (hx : t.Denotes value? x) : D x = 0 := by
  induction h generalizing x with
  | num a cs =>
    cases hx with
    | num x cs => exact halong.literal (mem_numbers_iff.mpr (.inl rfl))
  | @var v a cs hname =>
    cases hx with
    | var _ hx => exact halong.other (by simpa [mentions] using ht) hx
  | negation o _ ih =>
    cases hx with
    | negation _ hx =>
      rw [D.map_neg, ih (halong.child (by simp)) (by simpa [mentions, mentionsAny] using ht) hx,
        neg_zero]
  | @binary o l r _ _ hregular ihl ihr =>
    obtain ⟨hl, hr⟩ : l.mentions name = false ∧ r.mentions name = false := by
      simpa [mentions, mentionsAny] using ht
    cases hx with
    | @binary _ _ _ a b _ ha hb hz =>
      have hDa := ihl (halong.child (by simp)) hl ha
      have hDb := ihr (halong.child (by simp)) hr hb
      have hat := hregular a b ha hb
      cases o with
      | add =>
        obtain rfl := Option.some.inj hz
        rw [D.map_add, hDa, hDb, add_zero]
      | sub =>
        obtain rfl := Option.some.inj hz
        rw [D.map_sub, hDa, hDb, sub_zero]
      | mul =>
        obtain rfl := Option.some.inj hz
        rw [D.leibniz, hDa, hDb, smul_zero, smul_zero, add_zero]
      | div =>
        obtain ⟨hne, rfl⟩ := Interpretation.operate?_div_iff.mp hz
        rw [derivation_div hne, hDa, hDb, zero_mul, mul_zero, sub_zero, zero_div]
      | pow => exact C.pow_constant hz hat.1 hDa hDb
      | unknown => nomatch hz
  | call hf _ _ ih =>
    cases hx with
    | call _ ha hy =>
      exact C.constant hf hy
        (ih (halong.child (by simp)) (by simpa [mentions, mentionsAny] using ht) ha)

/-- The derivative of a regular tree has the derivation of the tree's value as its value, if it is
regular too. -/
theorem Denotes.derivative (C : Calculus I D) {name : String} {t d : Tree (Exact I)} {x : K}
    (hx : t.Denotes value? x) (ht : t.Regular value?) (halong : Along D name value? t)
    (hd : t.derivative name = .ok d) (hregular : d.Regular value?) : d.Denotes value? (D x) := by
  induction hx generalizing d with
  | num x cs =>
    obtain rfl := Except.ok.inj hd
    rw [halong.literal (mem_numbers_iff.mpr (.inl rfl))]
    exact denotes_zero
  | @var v x cs hname =>
    obtain rfl := Except.ok.inj hd
    split_ifs with hv
    · rw [halong.self (hv ▸ hname)]
      exact denotes_one
    · rw [halong.other hv hname]
      exact denotes_zero
  | negation o _ ih =>
    rw [Tree.derivative] at hd
    obtain ⟨d', hd', hd⟩ := bind_eq_ok hd
    obtain rfl := Except.ok.inj hd
    rw [D.map_neg]
    exact (ih ht.operand (halong.child (by simp)) hd' hregular.operand).neg
  | @binary o l r x y z hx hy hz ihl ihr =>
    have hl := halong.child (c := l) (by simp)
    have hr := halong.child (c := r) (by simp)
    rw [Tree.derivative] at hd
    obtain ⟨dl, hdl, hd⟩ := bind_eq_ok hd
    obtain ⟨dr, hdr, hd⟩ := bind_eq_ok hd
    exact denotes_operator_derivative C hx hy (ht.regularAt hx hy) hz (ihl ht.left hl hdl)
      (ihr ht.right hr hdr) (ht.left.constant C hl · hx) (ht.right.constant C hr · hy) hd hregular
  | call hf hu hy ih =>
    rw [Tree.derivative] at hd
    obtain ⟨du, hdu, hd⟩ := bind_eq_ok hd
    exact denotes_func_derivative C hu hy (ih ht.argument (halong.child (by simp)) hdu) hd hregular

/-- Differentiation is right in exact arithmetic: where a tree and its derivative are regular, the
value of the derivative is the derivation of the value of the tree. -/
theorem derivative_exact (C : Calculus I D) (e : Environment (Exact I)) (t d : Tree (Exact I))
    (name : String) (halong : Along D name e.value? t) (hd : t.derivative name = .ok d)
    (ht : t.Regular e.value?) (hregular : d.Regular e.value?) :
    ∃ x, t.evaluateUnder e = .ok (.value x) ∧ d.evaluateUnder e = .ok (.value (D x)) := by
  obtain ⟨x, hx⟩ := ht.exists_denotes
  refine ⟨x, ?_, ?_⟩
  · rw [evaluateUnder_eq]
    exact hx.evaluateWith
  · rw [evaluateUnder_eq]
    exact (hx.derivative C ht halong hd hregular).evaluateWith

/-! ### An example -/

section

/-- The square of the exponential of `x`, divided by `x`. -/
noncomputable def growth : Tree (Exact Series.interpretation) :=
  (call .exp (var "x")).pow two / var "x"

/-- Its derivative. -/
noncomputable def growthRate : Tree (Exact Series.interpretation) :=
  (two * (call .exp (var "x")).pow (two - 1) * (call .exp (var "x") * 1) * var "x" -
    (call .exp (var "x")).pow two * 1) / (var "x").pow two

/-- The environment in which `x` is the variable of the series. -/
noncomputable def atIndeterminate : Environment (Exact Series.interpretation) :=
  ⟨Bindings.empty.bind "x" (.value Series.indeterminate), none⟩

theorem along_growth :
    Along Series.derivation "x" atIndeterminate.value? growth where
  self h := by
    obtain rfl := Exact.value.inj (Option.some.inj h)
    exact Series.derivation_indeterminate
  other hv h := by
    rw [atIndeterminate, Environment.value?, Bindings.get?_bind, if_neg hv.symm] at h
    nomatch h
  literal {x} h := by
    have hnumbers : growth.numbers = [Scalar.two] := rfl
    obtain rfl : x = 2 := by simpa [hnumbers, Exact.two_eq] using h
    exact Series.derivation.map_natCast 2

theorem regular_growth :
    growth.Regular atIndeterminate.value? ∧ growthRate.Regular atIndeterminate.value? := by
  have hx : (var "x" : Tree (Exact Series.interpretation)).Denotes atIndeterminate.value?
      Series.indeterminate := .var [] rfl
  have hexp : (call .exp (var "x") : Tree (Exact Series.interpretation)).Denotes
      atIndeterminate.value? Series.exponential :=
    .call (by decide) hx (Series.onlyAt_iff.mpr ⟨rfl, rfl⟩)
  have hxregular : (var "x" : Tree (Exact Series.interpretation)).Regular
      atIndeterminate.value? := .var [] rfl
  have hexpregular : (call .exp (var "x") : Tree (Exact Series.interpretation)).Regular
      atIndeterminate.value? :=
    .call (by decide) hxregular fun u hu => ⟨_, Series.onlyAt_iff.mpr ⟨hu.eq hx, rfl⟩⟩
  have htwo : (two : Tree (Exact Series.interpretation)).Regular atIndeterminate.value? := by
    rw [two, Exact.two_eq]
    exact .num 2 []
  have hone : (1 : Tree (Exact Series.interpretation)).Regular atIndeterminate.value? := .num 1 []
  have hmul {s t : Tree (Exact Series.interpretation)} (hs : s.Regular atIndeterminate.value?)
      (ht : t.Regular atIndeterminate.value?) : (s * t).Regular atIndeterminate.value? :=
    .binary hs ht fun _ _ _ _ => trivial
  have hne := Series.exponential_ne_zero
  have hsquare : ((call .exp (var "x")).pow two : Tree (Exact Series.interpretation)).Regular
      atIndeterminate.value? :=
    .of_denotes hexpregular htwo hexp denotes_two ⟨hne, _, Interpretation.pow_two _⟩
  constructor
  · exact .of_denotes hsquare hxregular hexp.square hx Series.indeterminate_ne_zero
  · have hless : ((call .exp (var "x")).pow (two - 1) : Tree (Exact Series.interpretation)).Regular
        atIndeterminate.value? :=
      .of_denotes hexpregular (.binary htwo hone fun _ _ _ _ => trivial) hexp
        (denotes_two.sub denotes_one)
        ⟨hne, _, Series.calculus.pow_sub_one (Interpretation.pow_two _) hne⟩
    have hxsquare : ((var "x").pow two : Tree (Exact Series.interpretation)).Regular
        atIndeterminate.value? :=
      .of_denotes hxregular htwo hx denotes_two
        ⟨Series.indeterminate_ne_zero, _, Interpretation.pow_two _⟩
    refine .binary (.binary ?_ (hmul hsquare hone) fun _ _ _ _ => trivial) hxsquare ?_
    · exact hmul (hmul (hmul htwo hless) (hmul hexpregular hone)) hxregular
    · intro x y _ hy
      rw [hy.eq hx.square]
      exact pow_ne_zero 2 Series.indeterminate_ne_zero

/-- The derivative of a quotient, a power and the exponential at once. -/
theorem derivative_exact_growth :
    growth.derivative "x" = .ok growthRate ∧
      ∃ x, growth.evaluateUnder atIndeterminate = .ok (.value x) ∧
        growthRate.evaluateUnder atIndeterminate = .ok (.value (Series.derivation x)) := by
  have hd : growth.derivative "x" = .ok growthRate := rfl
  exact ⟨hd, derivative_exact Series.calculus atIndeterminate growth growthRate "x" along_growth hd
    regular_growth.1 regular_growth.2⟩

end

end Tree

end FractalFormula
