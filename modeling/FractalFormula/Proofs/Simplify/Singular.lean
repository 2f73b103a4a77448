import Mathlib
import FractalFormula.Proofs.Scalar.Singular
import FractalFormula.Proofs.Simplify.Constant

/-!
# Simplification of singular constants

A constant that is not finite does not fold, and then the identities are tried on it, which look at
shapes alone. Some of them drop an operand: `0*x` becomes `0` although `x` may be `1/0`, and a
constant that is not finite is hidden (`simplify_hides_singular`). The others write a value that is
finite only if the value they replace is (`finiteOnlyIf_reduce`).

This is not all that a pass may do, for the values they write need not be the same. Where a product
with one is undefined, its other factor may be infinite in one part only, and an operator or a
function around it may swallow one and not the other. A tree in which neither happens is as singular
after a pass as before (`simplify_keeps_singular`).
-/

namespace FractalFormula.Tree

section

variable {α : Type _} [Scalar α] {value? : String → Option α}

/-- The tree has a value, and it is not finite. -/
def Singular (value? : String → Option α) (t : Tree α) : Prop :=
  ∃ x, t.evaluateWith value? = .ok x ∧ ¬Scalar.isFinite x

/-- The pass applies an identity at the node: its children, simplified, stand on the left side of
one, and the node does not fold. -/
def Applies (l : Label α) (cs : List (Tree α)) : Prop :=
  Identity l (cs.map simplify) ∧ ∀ z, ¬Folds l (cs.map simplify) z

/-- The left sides of the identities that drop an operand, whatever its value. In a power of a power
the exponents are multiplied, unless the outer one has a rule of its own. -/
inductive Drops : Label α → List (Tree α) → Prop where
  | sub_self {l r : Tree α} : l == r → Drops (.operator .sub) [l, r]
  | mul_zero {l r : Tree α} : r.isZero → Drops (.operator .mul) [l, r]
  | zero_mul {l r : Tree α} : l.isZero → Drops (.operator .mul) [l, r]
  | div_self {l r : Tree α} : l == r → Drops (.operator .div) [l, r]
  | zero_pow {b e : Tree α} : b.isZero → Drops (.operator .pow) [b, e]
  | one_pow {b e : Tree α} : b.isOne → Drops (.operator .pow) [b, e]
  | pow_pow {a b c : Tree α} : ¬c.isZero → ¬c.isOne → ¬c.isMinusOne →
    Drops (.operator .pow) [.node (.operator .pow) [a, b], c]

/-- The tree has the value `x`, and is a number if `x` is finite. -/
structure Settled (value? : String → Option α) (t : Tree α) (x : α) : Prop where
  value : t.evaluateWith value? = .ok x
  number : Scalar.isFinite x → t = num x

/-- The tree has a value, and it is finite only if `w` is. -/
def FiniteOnlyIf (value? : String → Option α) (t : Tree α) (w : α) : Prop :=
  ∃ z, t.evaluateWith value? = .ok z ∧ (Scalar.isFinite z → Scalar.isFinite w)

theorem FiniteOnlyIf.imp {t : Tree α} {w w' : α} (h : FiniteOnlyIf value? t w)
    (hw : Scalar.isFinite w → Scalar.isFinite w') : FiniteOnlyIf value? t w' := by
  obtain ⟨z, hz, hfinite⟩ := h
  exact ⟨z, hz, fun h => hw (hfinite h)⟩

namespace Settled

variable {t : Tree α} {x y : α}

theorem isZero (h : Settled value? t x) (ht : t.isZero) : Scalar.isZero x := by
  obtain ⟨y, rfl, hy⟩ := any_number?_iff.mp ht
  rwa [← Except.ok.inj h.value]

theorem isOne (h : Settled value? t x) (ht : t.isOne) : Scalar.isOne x := by
  obtain ⟨y, rfl, hy⟩ := any_number?_iff.mp ht
  rwa [← Except.ok.inj h.value]

theorem isMinusOne (h : Settled value? t x) (ht : t.isMinusOne) : Scalar.isMinusOne x := by
  obtain ⟨y, rfl, hy⟩ := any_number?_iff.mp ht
  rwa [← Except.ok.inj h.value]

/-- Trees that compare as the same have equal values, where these are finite. -/
theorem beq {l r : Tree α} (hl : Settled value? l x) (hr : Settled value? r y) (h : l == r)
    (hx : Scalar.isFinite x) : x == y := by
  obtain rfl := hl.number hx
  obtain ⟨m, ds⟩ := r
  obtain ⟨hlabel, hds⟩ := same_iff.mp h
  cases m with
  | num z =>
    obtain rfl := Except.ok.inj hr.value
    exact hlabel
  | _ => cases hlabel

end Settled

/-! ### The identities that drop no operand -/

section

variable [SingularScalar α] {l r t : Tree α} {x y : α}

open SingularScalar (isFinite_of_keeps)

theorem finiteOnlyIf_negate (ht : t.evaluateWith value? = .ok x) :
    FiniteOnlyIf value? (negate t) (Scalar.negated x) := by
  rw [negate.eq_def]
  split
  · next y =>
    obtain rfl := Except.ok.inj ht
    exact ⟨_, rfl, id⟩
  · next o u =>
    obtain ⟨y, hy, hx⟩ := bind_eq_ok ht
    obtain rfl := Except.ok.inj hx
    exact ⟨y, hy, fun h => FiniteScalar.isFinite_negated (FiniteScalar.isFinite_negated h)⟩
  · exact ⟨_, by rw [negation, evaluateWith, ht]; rfl, id⟩

theorem finiteOnlyIf_reduceSum (hl : Settled value? l x) (hr : Settled value? r y) :
    FiniteOnlyIf value? (reduceSum l r) (x + y) := by
  unfold reduceSum
  split_ifs with hzero hzero' hsame
  · exact ⟨x, hl.value, isFinite_of_keeps (.add_zero (hr.isZero hzero))⟩
  · exact ⟨y, hr.value, isFinite_of_keeps (.zero_add (hl.isZero hzero'))⟩
  · exact ⟨_, evaluateWith_binary rfl hl.value rfl,
      isFinite_of_keeps (.add_self (hl.beq hr hsame))⟩
  · exact ⟨_, evaluateWith_binary hl.value hr.value rfl, id⟩

theorem finiteOnlyIf_reduceDifference (hl : Settled value? l x) (hr : Settled value? r y)
    (h : ¬Drops (.operator .sub) [l, r]) :
    FiniteOnlyIf value? (reduceDifference l r) (x - y) := by
  unfold reduceDifference
  split_ifs with hzero hzero' hsame
  · exact ⟨x, hl.value, isFinite_of_keeps (.sub_zero (hr.isZero hzero))⟩
  · exact (finiteOnlyIf_negate hr.value).imp
      (isFinite_of_keeps (.zero_sub (hl.isZero hzero')))
  · exact absurd (.sub_self hsame) h
  · exact ⟨_, evaluateWith_binary hl.value hr.value rfl, id⟩

theorem finiteOnlyIf_reduceProduct (hl : Settled value? l x) (hr : Settled value? r y)
    (h : ¬Drops (.operator .mul) [l, r]) : FiniteOnlyIf value? (reduceProduct l r) (x * y) := by
  unfold reduceProduct
  split_ifs with hzero hone hone' hminus hminus' hsame
  · rcases (Bool.or_eq_true _ _).mp hzero with hzero | hzero
    · exact absurd (.zero_mul hzero) h
    · exact absurd (.mul_zero hzero) h
  · exact ⟨x, hl.value, isFinite_of_keeps (.mul_one (hr.isOne hone))⟩
  · exact ⟨y, hr.value, isFinite_of_keeps (.one_mul (hl.isOne hone'))⟩
  · exact (finiteOnlyIf_negate hl.value).imp
      (isFinite_of_keeps (.mul_minusOne (hr.isMinusOne hminus)))
  · exact (finiteOnlyIf_negate hr.value).imp
      (isFinite_of_keeps (.minusOne_mul (hl.isMinusOne hminus')))
  · exact ⟨_, evaluateWith_binary hl.value rfl rfl,
      isFinite_of_keeps (.mul_self (hl.beq hr hsame))⟩
  · exact ⟨_, evaluateWith_binary hl.value hr.value rfl, id⟩

theorem finiteOnlyIf_reduceQuotient (hl : Settled value? l x) (hr : Settled value? r y)
    (h : ¬Drops (.operator .div) [l, r]) : FiniteOnlyIf value? (reduceQuotient l r) (x / y) := by
  unfold reduceQuotient
  split_ifs with hone hminus hsame
  · exact ⟨x, hl.value, isFinite_of_keeps (.div_one (hr.isOne hone))⟩
  · exact (finiteOnlyIf_negate hl.value).imp
      (isFinite_of_keeps (.div_minusOne (hr.isMinusOne hminus)))
  · exact absurd (.div_self hsame) h
  · exact ⟨_, evaluateWith_binary hl.value hr.value rfl, id⟩

theorem finiteOnlyIf_reducePower {simplify : Tree α → Option (Tree α)} {s : Tree α}
    (hl : Settled value? l x) (hr : Settled value? r y) (h : ¬Drops (.operator .pow) [l, r])
    (hs : reducePower simplify l r = some s) : FiniteOnlyIf value? s (Scalar.pow x y) := by
  unfold reducePower at hs
  split_ifs at hs with hzero hbase hbase' hone hminus
  · obtain rfl := Option.some.inj hs
    exact ⟨1, rfl, isFinite_of_keeps (.pow_zero (hr.isZero hzero))⟩
  · exact absurd (.zero_pow hbase) h
  · exact absurd (.one_pow hbase') h
  · obtain rfl := Option.some.inj hs
    exact ⟨x, hl.value, isFinite_of_keeps (.pow_one (hr.isOne hone))⟩
  · obtain rfl := Option.some.inj hs
    exact ⟨_, evaluateWith_binary rfl hl.value rfl,
      isFinite_of_keeps (.pow_minusOne (hr.isMinusOne hminus))⟩
  · split at hs
    · exact absurd (.pow_pow hzero hone hminus) h
    · obtain rfl := Option.some.inj hs
      exact ⟨_, evaluateWith_binary hl.value hr.value rfl, id⟩

/-- A node over children that are numbers or not finite. -/
theorem finiteOnlyIf_reduce {simplify : Tree α → Option (Tree α)} {l : Label α}
    {cs : List (Tree α)} {s : Tree α} {w : α} (hcs : ∀ c ∈ cs, ∃ x, Settled value? c x)
    (h : ¬Drops l cs) (hw : (Tree.node l cs).evaluateWith value? = .ok w)
    (hs : reduce simplify l cs = some s) : FiniteOnlyIf value? s w := by
  unfold reduce at hs
  split at hs
  · next z hfold =>
    obtain rfl := Option.some.inj hs
    obtain rfl := Except.ok.inj (((folds_of_fold? hfold).evaluateWith value?).symm.trans hw)
    exact ⟨z, rfl, id⟩
  · have haccepted := isOk_evaluateWith_iff.mp (isOk_iff.mpr ⟨w, hw⟩)
    cases haccepted with
    | num x cs =>
      obtain rfl := Option.some.inj hs
      exact ⟨w, hw, id⟩
    | var cs _ =>
      obtain rfl := Option.some.inj hs
      exact ⟨w, hw, id⟩
    | @negation o t _ =>
      obtain rfl := Option.some.inj hs
      obtain ⟨x, hx, hw⟩ := bind_eq_ok hw
      obtain rfl := Except.ok.inj hw
      exact finiteOnlyIf_negate hx
    | @binary o l r ho _ _ =>
      obtain ⟨x, hx⟩ := hcs l (by simp)
      obtain ⟨y, hy⟩ := hcs r (by simp)
      obtain ⟨z, hz⟩ := Option.isSome_iff_exists.mp
        ((isSome_operate?_iff (x := x) (y := y)).mpr ho)
      obtain rfl := Except.ok.inj ((evaluateWith_binary hx.value hy.value hz).symm.trans hw)
      cases o with
      | add =>
        obtain rfl := Option.some.inj hz
        obtain rfl := Option.some.inj hs
        exact finiteOnlyIf_reduceSum hx hy
      | sub =>
        obtain rfl := Option.some.inj hz
        obtain rfl := Option.some.inj hs
        exact finiteOnlyIf_reduceDifference hx hy h
      | mul =>
        obtain rfl := Option.some.inj hz
        obtain rfl := Option.some.inj hs
        exact finiteOnlyIf_reduceProduct hx hy h
      | div =>
        obtain rfl := Option.some.inj hz
        obtain rfl := Option.some.inj hs
        exact finiteOnlyIf_reduceQuotient hx hy h
      | pow =>
        obtain rfl := Option.some.inj hz
        exact finiteOnlyIf_reducePower hx hy h hs
      | unknown => exact absurd rfl ho
    | call hf _ =>
      obtain rfl := Option.some.inj hs
      exact ⟨w, hw, id⟩

end

/-! ### Operators that swallow nothing -/

/-- An operand is not finite, but the node is. -/
def Swallows (value? : String → Option α) (l : Label α) (cs : List (Tree α)) : Prop :=
  (∃ c ∈ cs, c.Singular value?) ∧
    ∃ x, (Tree.node l cs).evaluateWith value? = .ok x ∧ Scalar.isFinite x

/-- The labels of quotients, powers and calls. -/
def MaySwallow : Label α → Prop
  | .operator .div => True
  | .operator .pow => True
  | .func _ => True
  | _ => False

theorem Singular.not_isFinite {t : Tree α} {x : α} (h : t.Singular value?)
    (hx : t.evaluateWith value? = .ok x) : ¬Scalar.isFinite x := by
  obtain ⟨y, hy, hinfinite⟩ := h
  rwa [Except.ok.inj (hx.symm.trans hy)]

theorem not_swallows_negation [SingularScalar α] (o : Operator) (t : Tree α) :
    ¬Swallows value? (.operator o) [t] := by
  rintro ⟨⟨c, hc, hsingular⟩, x, hx, hfinite⟩
  obtain rfl := List.mem_singleton.mp hc
  obtain ⟨y, hy, hx⟩ := bind_eq_ok hx
  obtain rfl := Except.ok.inj hx
  exact hsingular.not_isFinite hy (SingularScalar.isFinite_of_sub hfinite).2

/-- An operator that is finite only if both operands are. -/
theorem not_swallows_binary {o : Operator}
    (ho : ∀ x y z : α, Scalar.operate? o x y = some z → Scalar.isFinite z →
      Scalar.isFinite x ∧ Scalar.isFinite y) (l r : Tree α) :
    ¬Swallows value? (.operator o) [l, r] := by
  rintro ⟨⟨c, hc, hsingular⟩, z, hz, hfinite⟩
  obtain ⟨x, hx, hz⟩ := bind_eq_ok hz
  obtain ⟨y, hy, hz⟩ := bind_eq_ok hz
  have hoperate : Scalar.operate? o x y = some z := by
    split at hz
    · next w hw => rw [hw, Except.ok.inj hz]
    · cases hz
  obtain ⟨hxfinite, hyfinite⟩ := ho x y z hoperate hfinite
  rcases List.mem_pair.mp hc with rfl | rfl
  · exact hsingular.not_isFinite hx hxfinite
  · exact hsingular.not_isFinite hy hyfinite

/-- Sums, differences and products. -/
theorem not_swallows_of_not_maySwallow [SingularScalar α] {o : Operator}
    (ho : ¬MaySwallow (.operator o : Label α)) (l r : Tree α) :
    ¬Swallows value? (.operator o) [l, r] := by
  refine not_swallows_binary (fun x y z hz => ?_) l r
  cases o with
  | add =>
    obtain rfl := Option.some.inj hz
    exact SingularScalar.isFinite_of_add
  | sub =>
    obtain rfl := Option.some.inj hz
    exact SingularScalar.isFinite_of_sub
  | mul =>
    obtain rfl := Option.some.inj hz
    exact SingularScalar.isFinite_of_mul
  | div => exact absurd trivial ho
  | pow => exact absurd trivial ho
  | unknown => cases hz

/-! ### A pass -/

/-- Where the pass applies an identity in the tree, it is none that drops an operand, and every
operand is a number by then, or not finite. -/
def DropsNothing (value? : String → Option α) (t : Tree α) : Prop :=
  t.Everywhere fun l cs => Applies l cs → ¬Drops l (cs.map simplify) ∧
    ∀ c ∈ cs, (∃ y, c.simplify = num y) ∨ c.simplify.Singular value?

/-- An identity is applied at the node, or an operand has another value after the pass. -/
def Disturbed (value? : String → Option α) (l : Label α) (cs : List (Tree α)) : Prop :=
  Applies l cs ∨ ∃ c ∈ cs, c.simplify.evaluateWith value? ≠ c.evaluateWith value?

/-- No quotient, power or call that is disturbed swallows an operand, be it before or after the
pass. -/
def SwallowsNothing (value? : String → Option α) (t : Tree α) : Prop :=
  t.Everywhere fun l cs => MaySwallow l → Disturbed value? l cs →
    ¬Swallows value? l cs ∧ ¬Swallows value? l (cs.map simplify)

/-- Two trees have the same value, or both have one that is not finite. -/
def SameOrSingular (value? : String → Option α) (s t : Tree α) : Prop :=
  s.evaluateWith value? = t.evaluateWith value? ∨ s.Singular value? ∧ t.Singular value?

theorem Singular.of_eq {s t : Tree α} (h : t.Singular value?)
    (heq : s.evaluateWith value? = t.evaluateWith value?) : s.Singular value? := by
  obtain ⟨x, hx, hinfinite⟩ := h
  exact ⟨x, heq.trans hx, hinfinite⟩

theorem SameOrSingular.exists_value {s t : Tree α} {x : α} (h : SameOrSingular value? s t)
    (hx : t.evaluateWith value? = .ok x) : ∃ y, s.evaluateWith value? = .ok y := by
  rcases h with heq | ⟨⟨y, hy, -⟩, -⟩
  · exact ⟨x, heq.trans hx⟩
  · exact ⟨y, hy⟩

theorem singular_of_not_swallows {l : Label α} {cs : List (Tree α)} {c : Tree α} {x : α}
    (h : ¬Swallows value? l cs) (hc : c ∈ cs) (hsingular : c.Singular value?)
    (hx : (Tree.node l cs).evaluateWith value? = .ok x) : (Tree.node l cs).Singular value? :=
  ⟨x, hx, fun hfinite => h ⟨⟨c, hc, hsingular⟩, x, hx, hfinite⟩⟩

/-- A node over numbers at which an identity is applied is not finite: else it had folded. -/
theorem singular_of_identity {l : Label α} {cs : List (Tree α)} {w : α}
    (hcs : ∀ c ∈ cs, ∃ y, c = num y) (hidentity : Identity l cs) (hfold : ∀ z, ¬Folds l cs z)
    (hw : (Tree.node l cs).evaluateWith value? = .ok w) : (Tree.node l cs).Singular value? := by
  refine ⟨w, hw, fun hfinite => ?_⟩
  rcases leaf_or_folds_of_evaluateWith hcs hw hfinite with ⟨y, rfl⟩ | ⟨v, rfl⟩ | hfolds
  · cases hidentity
  · cases hidentity
  · exact hfold w hfolds

/-- Where no identity applies, the pass keeps the value of a node over its simplified children. -/
theorem evaluateWith_simplify_node {l : Label α} {cs : List (Tree α)} (h : ¬Applies l cs) :
    (Tree.node l cs).simplify.evaluateWith value? =
      (Tree.node l (cs.map simplify)).evaluateWith value? := by
  by_cases hfold : ∃ z, Folds l (cs.map simplify) z
  · obtain ⟨z, hz⟩ := hfold
    rw [simplify_eq_of_folds hz, hz.evaluateWith]
    rfl
  · push Not at hfold
    rcases reduce_eq_of_not_identity _ hfold fun hidentity => h ⟨hidentity, hfold⟩ with
      heq | ⟨o, t, rfl, ht, heq⟩
    · rw [simplify_eq_of_reduce heq]
    · rw [simplify_eq_of_reduce heq, ht]
      rfl

section

variable {l : Label α} {cs : List (Tree α)} {x w : α}

/-- A disturbed node is not finite, over the operands that it has and over those that it gets. -/
theorem singular_of_disturbed (hx : (Tree.node l cs).evaluateWith value? = .ok x)
    (hw : (Tree.node l (cs.map simplify)).evaluateWith value? = .ok w)
    (hchildren : ∀ c ∈ cs, SameOrSingular value? c.simplify c)
    (hoperands : Applies l cs → ∀ c ∈ cs, (∃ y, c.simplify = num y) ∨ c.simplify.Singular value?)
    (hswallows : ¬Swallows value? l cs ∧ ¬Swallows value? l (cs.map simplify))
    (h : Disturbed value? l cs) :
    (Tree.node l cs).Singular value? ∧ (Tree.node l (cs.map simplify)).Singular value? := by
  by_cases hsingular : ∃ c ∈ cs, c.simplify.Singular value?
  · obtain ⟨c, hc, hsingular⟩ := hsingular
    have hbefore : c.Singular value? := by
      rcases hchildren c hc with heq | ⟨-, h⟩
      · exact hsingular.of_eq heq.symm
      · exact h
    exact ⟨singular_of_not_swallows hswallows.1 hc hbefore hx,
      singular_of_not_swallows hswallows.2 (List.mem_map_of_mem hc) hsingular hw⟩
  · -- No operand has another value, so an identity is applied, and all operands are numbers.
    push Not at hsingular
    have hsame : ∀ c ∈ cs, c.simplify.evaluateWith value? = c.evaluateWith value? :=
      fun c hc => (hchildren c hc).resolve_right fun h => hsingular c hc h.1
    have happlies : Applies l cs := h.resolve_right fun ⟨c, hc, hne⟩ => hne (hsame c hc)
    have hnumbers : ∀ c ∈ cs.map simplify, ∃ y, c = num y := by
      intro d hd
      obtain ⟨c, hc, rfl⟩ := List.mem_map.mp hd
      exact (hoperands happlies c hc).resolve_right (hsingular c hc)
    have hafter := singular_of_identity hnumbers happlies.1 happlies.2 hw
    exact ⟨hafter.of_eq (evaluateWith_map hsame).symm, hafter⟩

/-- What the pass makes of a node whose operands it has left in value, or has left singular. -/
theorem sameOrSingular_node [SingularScalar α] (hx : (Tree.node l cs).evaluateWith value? = .ok x)
    (hw : (Tree.node l (cs.map simplify)).evaluateWith value? = .ok w)
    (hchildren : ∀ c ∈ cs, SameOrSingular value? c.simplify c)
    (hidentities : Applies l cs → ¬Drops l (cs.map simplify) ∧
      ∀ c ∈ cs, (∃ y, c.simplify = num y) ∨ c.simplify.Singular value?)
    (hswallows : Disturbed value? l cs →
      ¬Swallows value? l cs ∧ ¬Swallows value? l (cs.map simplify)) :
    SameOrSingular value? (Tree.node l cs).simplify (Tree.node l cs) := by
  by_cases hdisturbed : Disturbed value? l cs
  · obtain ⟨hbefore, hafter⟩ := singular_of_disturbed hx hw hchildren
      (fun happlies => (hidentities happlies).2) (hswallows hdisturbed) hdisturbed
    refine .inr ⟨?_, hbefore⟩
    by_cases happlies : Applies l cs
    · obtain ⟨hdrops, hoperands⟩ := hidentities happlies
      have hsettled : ∀ c ∈ cs.map simplify, ∃ y, Settled value? c y := by
        intro d hd
        obtain ⟨c, hc, rfl⟩ := List.mem_map.mp hd
        rcases hoperands c hc with ⟨y, hy⟩ | ⟨y, hy, hinfinite⟩
        · exact ⟨y, by rw [hy]; rfl, fun _ => hy⟩
        · exact ⟨y, hy, fun hfinite => absurd hfinite hinfinite⟩
      obtain ⟨z, hz, hfinite⟩ := finiteOnlyIf_reduce hsettled hdrops hw (simplify_node l cs)
      exact ⟨z, hz, mt hfinite (hafter.not_isFinite hw)⟩
    · exact hafter.of_eq (evaluateWith_simplify_node happlies)
  · left
    have hsame : ∀ c ∈ cs, c.simplify.evaluateWith value? = c.evaluateWith value? := by
      intro c hc
      by_contra hne
      exact hdisturbed (.inr ⟨c, hc, hne⟩)
    rw [evaluateWith_simplify_node fun h => hdisturbed (.inl h), evaluateWith_map hsame]

end

/-- One pass, by induction on the tree. -/
theorem sameOrSingular_simplify [SingularScalar α] {t : Tree α} {x : α}
    (hx : t.evaluateWith value? = .ok x) (hdrops : t.DropsNothing value?)
    (hswallows : t.SwallowsNothing value?) : SameOrSingular value? t.simplify t := by
  induction hdrops generalizing x with
  | @node l cs hnode _ ih =>
    obtain ⟨hswallows, hbelow⟩ := everywhere_iff.mp hswallows
    cases isOk_evaluateWith_iff.mp (isOk_iff.mpr ⟨x, hx⟩) with
    | num x cs => exact .inl (evaluateWith_simplify_node fun h => by cases h.1)
    | var cs _ => exact .inl (evaluateWith_simplify_node fun h => by cases h.1)
    | @negation o u _ =>
      obtain ⟨v, hv, -⟩ := bind_eq_ok hx
      have hu := ih u (by simp) hv (hbelow u (by simp))
      obtain ⟨v', hv'⟩ := hu.exists_value hv
      refine sameOrSingular_node (w := Scalar.negated v') hx ?_ (by simpa using hu) hnode fun _ =>
        ⟨not_swallows_negation o u, not_swallows_negation o u.simplify⟩
      rw [List.map_singleton, evaluateWith, hv']
      rfl
    | @binary o l r ho hl hr =>
      obtain ⟨y, hy⟩ := isOk_iff.mp (isOk_evaluateWith_iff.mpr hl)
      obtain ⟨z, hz⟩ := isOk_iff.mp (isOk_evaluateWith_iff.mpr hr)
      have hleft := ih l (by simp) hy (hbelow l (by simp))
      have hright := ih r (by simp) hz (hbelow r (by simp))
      obtain ⟨y', hy'⟩ := hleft.exists_value hy
      obtain ⟨z', hz'⟩ := hright.exists_value hz
      obtain ⟨w, hw⟩ := Option.isSome_iff_exists.mp
        ((isSome_operate?_iff (x := y') (y := z')).mpr ho)
      refine sameOrSingular_node (w := w) hx (evaluateWith_binary hy' hz' hw)
        (by simp [hleft, hright]) hnode fun hdisturbed => ?_
      by_cases hmay : MaySwallow (.operator o : Label α)
      · exact hswallows hmay hdisturbed
      · exact ⟨not_swallows_of_not_maySwallow hmay l r,
          not_swallows_of_not_maySwallow hmay l.simplify r.simplify⟩
    | @call f u hf hu =>
      obtain ⟨v, hv⟩ := isOk_iff.mp (isOk_evaluateWith_iff.mpr hu)
      have hsame := ih u (by simp) hv (hbelow u (by simp))
      obtain ⟨v', hv'⟩ := hsame.exists_value hv
      refine sameOrSingular_node (w := Scalar.apply f v') hx ?_ (by simpa using hsame) hnode
        (hswallows trivial)
      rw [List.map_singleton, evaluateWith, hv']
      · rfl
      · exact hf

/-- A tree that is not finite is not finite after a pass either, provided that the identities
applied in it drop no operand, and that nothing in it swallows what they change. -/
theorem simplify_keeps_singular [SingularScalar α] (t : Tree α) (b : Bindings α)
    (h : t.Singular b.get?) (hdrops : t.DropsNothing b.get?)
    (hswallows : t.SwallowsNothing b.get?) : t.simplify.Singular b.get? := by
  obtain ⟨x, hx, hinfinite⟩ := h
  rcases sameOrSingular_simplify hx hdrops hswallows with heq | ⟨hafter, -⟩
  · exact ⟨x, heq.trans hx, hinfinite⟩
  · exact hafter

end

/-! ### Complex constants -/

theorem dropsNothing_num {α : Type _} [Scalar α] {value? : String → Option α} (x : α) :
    (num x).DropsNothing value? :=
  everywhere_leaf_iff.mpr fun h => by cases h.1

theorem DropsNothing.binary {α : Type _} [Scalar α] {value? : String → Option α} {o : Operator}
    {l r : Tree α} (hl : l.DropsNothing value?) (hr : r.DropsNothing value?)
    (h : ¬Drops (.operator o) [l.simplify, r.simplify])
    (hl' : (∃ x, l.simplify = num x) ∨ l.simplify.Singular value?)
    (hr' : (∃ y, r.simplify = num y) ∨ r.simplify.Singular value?) :
    (binary o l r).DropsNothing value? :=
  everywhere_two_iff.mpr ⟨fun _ => ⟨h, by simp [hl', hr']⟩, hl, hr⟩

theorem not_swallows_quotient {value? : String → Option ComplexFloat} (l r : Tree ComplexFloat) :
    ¬Swallows value? (.operator .div) [l, r] := by
  refine not_swallows_binary (fun x y z hz => ?_) l r
  obtain rfl := Option.some.inj hz
  exact ComplexFloat.isFinite_of_div

/-- Over the complex numbers only powers and calls swallow operands. -/
theorem swallowsNothing_of_arithmetic {value? : String → Option ComplexFloat}
    {t : Tree ComplexFloat}
    (h : t.Everywhere fun l _ => l ≠ .operator .pow ∧ ∀ f, l ≠ .func f) :
    t.SwallowsNothing value? := by
  have hnode {l : Label ComplexFloat} (cs : List (Tree ComplexFloat)) (hmay : MaySwallow l)
      (hpow : l ≠ .operator .pow) (hfunc : ∀ f, l ≠ .func f) : ¬Swallows value? l cs := by
    cases l with
    | operator o =>
      cases o with
      | div =>
        rcases cs with _ | ⟨c, _ | ⟨d, _ | ⟨e, cs⟩⟩⟩
        · exact fun h => by simp [Swallows] at h
        · exact not_swallows_negation .div c
        · exact not_swallows_quotient c d
        · rintro ⟨-, x, hx, -⟩
          cases hx
      | pow => exact absurd rfl hpow
      | _ => cases hmay
    | func f => exact absurd rfl (hfunc f)
    | _ => cases hmay
  exact h.mono fun l cs ⟨hpow, hfunc⟩ hmay _ =>
    ⟨hnode cs hmay hpow hfunc, hnode (cs.map simplify) hmay hpow hfunc⟩

instance decSingular {α : Type _} [Scalar α] (value? : String → Option α) (t : Tree α) :
    Decidable (t.Singular value?) :=
  match h : t.evaluateWith value? with
  | .ok x => decidable_of_iff (¬Scalar.isFinite x)
    ⟨fun hx => ⟨x, h, hx⟩, fun hsingular => hsingular.not_isFinite h⟩
  | .error e => isFalse fun ⟨_, hx, _⟩ => by cases h.symm.trans hx

/-- A pole, times one and plus zero. -/
def poleTimesOne : Tree ComplexFloat := (1 + 1) / 0 * 1 + 0

/-- The sum of ones folds, and the factor and the summand are taken away from a value that is
undefined with them and without. -/
theorem simplify_keeps_singular_poleTimesOne :
    poleTimesOne.simplify = two / 0 ∧ poleTimesOne.simplify.Singular Bindings.empty.get? := by
  have hpole : ((1 + 1) / 0 : Tree ComplexFloat).simplify.Singular Bindings.empty.get? := by
    decide +kernel
  have hproduct : ((1 + 1) / 0 * 1 : Tree ComplexFloat).simplify.Singular Bindings.empty.get? := by
    decide +kernel
  have htwo : ∃ x, (1 + 1 : Tree ComplexFloat).simplify = num x := ⟨_, rfl⟩
  have hnumber (x : ComplexFloat) : ∃ y, (num x).simplify = num y := ⟨x, simplify_num x⟩
  refine ⟨rfl, simplify_keeps_singular poleTimesOne .empty (by decide +kernel) ?_ ?_⟩
  · have hsum : (1 + 1 : Tree ComplexFloat).DropsNothing Bindings.empty.get? :=
      (dropsNothing_num 1).binary (dropsNothing_num 1) nofun (.inl (hnumber 1)) (.inl (hnumber 1))
    have hquotient : ((1 + 1) / 0 : Tree ComplexFloat).DropsNothing Bindings.empty.get? := by
      refine hsum.binary (dropsNothing_num 0) (fun h => ?_) (.inl htwo) (.inl (hnumber 0))
      cases h with
      | div_self h => exact absurd h (by decide)
    refine DropsNothing.binary ?_ (dropsNothing_num 0) nofun (.inr hproduct) (.inl (hnumber 0))
    refine hquotient.binary (dropsNothing_num 1) (fun h => ?_) (.inr hpole) (.inl (hnumber 1))
    cases h with
    | mul_zero h => exact absurd h (by decide)
    | zero_mul h => exact absurd h (by decide)
  · refine swallowsNothing_of_arithmetic (everywhere_two_iff.mpr ⟨⟨nofun, nofun⟩,
      everywhere_two_iff.mpr ⟨⟨nofun, nofun⟩, everywhere_two_iff.mpr ⟨⟨nofun, nofun⟩,
        everywhere_two_iff.mpr ⟨⟨nofun, nofun⟩, ?_, ?_⟩, ?_⟩, ?_⟩, ?_⟩)
    all_goals exact everywhere_leaf_iff.mpr ⟨nofun, nofun⟩

/-- A constant whose value is not finite, and is finite after a pass. -/
def Hidden (t : Tree ComplexFloat) : Prop :=
  t.names = [] ∧ t.Singular Bindings.empty.get? ∧
    (t.simplify.evaluate .empty).isOk ∧ ¬t.simplify.Singular Bindings.empty.get?

instance decHidden (t : Tree ComplexFloat) : Decidable t.Hidden :=
  inferInstanceAs (Decidable (_ ∧ _ ∧ _ ∧ _))

/-- A real number as a tree. -/
def real (x : Float) : Tree ComplexFloat := num ⟨x, 0.0⟩

/-- `2 ^ -600`, whose square is rounded to zero. -/
def tiny : Tree ComplexFloat := real Elementary.scaleDown

/-- `2 ^ 600`, whose square is infinite. -/
def huge : Tree ComplexFloat := real (1.0 / Elementary.scaleDown)

/-- Zero times a pole. -/
def zeroTimesPole : Tree ComplexFloat := 0 * (1 / 0)

/-- A pole less the same pole. -/
def poleLessPole : Tree ComplexFloat := 1 / 0 - 1 / 0

/-- The undefined quotient. -/
def zeroOverZero : Tree ComplexFloat := 0 / 0

/-- The reciprocal of zero, written as a power. -/
def reciprocalOfZero : Tree ComplexFloat := pow 0 (real (-1.0))

/-- A fourth power, taken by way of a reciprocal square that overflows. -/
def fourthPower : Tree ComplexFloat := (tiny.pow (real (-2.0))).pow (real (-2.0))

/-- The imaginary part of an infinite real number times one, which is undefined. -/
def imaginaryPart : Tree ComplexFloat := call .im (huge * huge * 1)

/-- A pole on the branch cut of a square root. The root is taken of minus one, whose imaginary part
is a negative zero until zero is added. -/
def poleOnCut : Tree ComplexFloat :=
  1 / (call .sqrt (call .conj (call .exp (huge * huge * real (-2.0)) - 1) + 0) - num ComplexFloat.i)

/-- Constants that a pass makes finite: by an identity that drops an operand, by a function that
swallows a change from one number that is not finite to another, and by an identity that changes the
sign of a zero that an exponential has swallowed an infinite number for. -/
theorem simplify_hides_singular :
    (zeroTimesPole.Hidden ∧ poleLessPole.Hidden ∧ zeroOverZero.Hidden ∧ reciprocalOfZero.Hidden ∧
      fourthPower.Hidden) ∧ imaginaryPart.Hidden ∧ poleOnCut.Hidden := by
  decide +kernel

end FractalFormula.Tree
