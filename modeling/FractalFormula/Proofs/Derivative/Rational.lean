import Mathlib
import FractalFormula.Derivative
import FractalFormula.Proofs.Except
import FractalFormula.Proofs.Scalar.Calculus
import FractalFormula.Proofs.Simplify.Value

/-!
# Derivatives of rational formulas

A rational formula has literals, variables, the four operations, minus signs, and powers to integers
without variables. Simplification and differentiation stay among the rational formulas
(`Rational.simplify`, `Rational.derivative`).

The value of the derivative of a rational formula is the derivation of its value, in every algebra
with a derivation in the variable (`DenotesIn.derivative`). The algebra need not be a field, so that
a base that is no unit, and even zero, has a natural power with a derivative.
-/

namespace FractalFormula

/-! ### Derivations of powers -/

section

variable {K R : Type _} [CommRing K] [CommRing R] [Algebra K R] (D : Derivation K R R)

theorem derivation_units_zpow (u : Rˣ) (n : ℤ) :
    D ↑(u ^ n) = n * ↑(u ^ (n - 1)) * D ↑u := by
  -- One more factor, on either side of zero, changes both sides of the rule alike.
  have hstep (m : ℤ) : D ↑(u ^ m) = m * ↑(u ^ (m - 1)) * D ↑u ↔
      D ↑(u ^ (m + 1)) = ↑(m + 1) * ↑(u ^ m) * D ↑u := by
    have hpred : (↑(u ^ m) : R) = ↑(u ^ (m - 1)) * ↑u := by
      rw [← Units.val_mul, ← zpow_add_one, sub_add_cancel]
    have hmul : D ↑(u ^ (m + 1)) = D ↑(u ^ m) * ↑u + ↑(u ^ m) * D ↑u := by
      rw [zpow_add_one, Units.val_mul, derivation_mul]
    have hrule : (↑(m + 1) * ↑(u ^ m) * D ↑u : R) =
        m * ↑(u ^ (m - 1)) * D ↑u * ↑u + ↑(u ^ m) * D ↑u := by
      rw [hpred]
      push_cast
      ring
    rw [hmul, hrule, add_left_inj, Units.mul_left_inj]
  induction n using Int.induction_on with
  | zero => simp
  | succ m ih => simpa using (hstep m).mp ih
  | pred m ih => simpa using (hstep (-m - 1)).mpr (by simpa using ih)

theorem IsPower.derivation {x z w : R} {n : ℤ} (hz : IsPower x n z) (hw : IsPower x (n - 1) w) :
    D z = n * w * D x := by
  obtain ⟨k, hk, rfl⟩ | ⟨u, rfl, rfl⟩ := hw
  · obtain rfl : n = ↑(k + 1) := by omega
    rw [isPower_natCast_iff.mp hz, D.leibniz_pow, Nat.add_sub_cancel, nsmul_eq_mul, smul_eq_mul,
      Int.cast_natCast, mul_assoc]
  · rw [isPower_units_iff.mp hz, derivation_units_zpow]

end

namespace Tree

/-! ### Rational formulas -/

/-- There is no function. -/
def Callless {α : Type _} (t : Tree α) : Prop := t.Everywhere fun l _ => ∀ f, l ≠ .func f

theorem stable_callless {α : Type _} [Scalar α] : Stable (α := α) Callless where
  zero := everywhere_leaf_iff.mpr nofun
  one := everywhere_leaf_iff.mpr nofun
  two := everywhere_leaf_iff.mpr nofun
  finite _ := everywhere_leaf_iff.mpr nofun
  negated _ := everywhere_leaf_iff.mpr nofun
  operand h := (everywhere_one_iff.mp h).2
  operands h := (everywhere_two_iff.mp h).2
  argument h := (everywhere_one_iff.mp h).2
  negation h := everywhere_one_iff.mpr ⟨nofun, h⟩
  binary _ hl hr := everywhere_two_iff.mpr ⟨nofun, hl, hr⟩
  map hchange h := by
    obtain ⟨hl, hcs⟩ := everywhere_iff.mp h
    refine everywhere_iff.mpr ⟨hl, fun c hc => ?_⟩
    obtain ⟨c', hc', rfl⟩ := List.mem_map.mp hc
    exact hchange c' (hcs c' hc')

variable {K : Type _} [Field K] {I : Interpretation K}

/-- Numbers and variables have no children, there is no function, and exponents are integers
without variables. -/
structure Rational (t : Tree (Exact I)) : Prop where
  bare : t.Bare
  callless : t.Callless
  exponents : t.Exponents Whole

theorem rational_leaf {l : Label (Exact I)} (hl : ∀ f, l ≠ .func f) :
    (Tree.node l []).Rational :=
  ⟨everywhere_leaf_iff.mpr fun _ => rfl, everywhere_leaf_iff.mpr hl, exponents_leaf l⟩

theorem rational_negation_iff {o : Operator} {t : Tree (Exact I)} :
    (Tree.node (.operator o) [t]).Rational ↔ t.Rational := by
  constructor
  · rintro ⟨hbare, hcallless, hexponents⟩
    exact ⟨(everywhere_one_iff.mp hbare).2, (everywhere_one_iff.mp hcallless).2,
      exponents_one_iff.mp hexponents⟩
  · rintro ⟨hbare, hcallless, hexponents⟩
    exact ⟨everywhere_one_iff.mpr ⟨by simp, hbare⟩, everywhere_one_iff.mpr ⟨nofun, hcallless⟩,
      exponents_one_iff.mpr hexponents⟩

theorem rational_binary_iff {o : Operator} {l r : Tree (Exact I)} :
    (Tree.node (.operator o) [l, r]).Rational ↔
      l.Rational ∧ r.Rational ∧ (o = .pow → r.Whole) := by
  constructor
  · rintro ⟨hbare, hcallless, hexponents⟩
    obtain ⟨-, hlbare, hrbare⟩ := everywhere_two_iff.mp hbare
    obtain ⟨-, hlcallless, hrcallless⟩ := everywhere_two_iff.mp hcallless
    obtain ⟨hwhole, hlexponents, hrexponents⟩ := exponents_two_iff.mp hexponents
    exact ⟨⟨hlbare, hlcallless, hlexponents⟩, ⟨hrbare, hrcallless, hrexponents⟩, hwhole⟩
  · rintro ⟨hl, hr, hwhole⟩
    exact ⟨everywhere_two_iff.mpr ⟨by simp, hl.bare, hr.bare⟩,
      everywhere_two_iff.mpr ⟨nofun, hl.callless, hr.callless⟩,
      exponents_two_iff.mpr ⟨hwhole, hl.exponents, hr.exponents⟩⟩

theorem not_rational_call {f : Func} {cs : List (Tree (Exact I))} :
    ¬(Tree.node (.func f) cs).Rational :=
  fun h => (everywhere_iff.mp h.callless).1 f rfl

namespace Rational

variable {l r t : Tree (Exact I)}

theorem num (a : Exact I) : (Tree.num a).Rational := rational_leaf nofun

theorem var (name : String) : (Tree.var name : Tree (Exact I)).Rational := rational_leaf nofun

theorem neg (ht : t.Rational) : (-t).Rational := rational_negation_iff.mpr ht

theorem add (hl : l.Rational) (hr : r.Rational) : (l + r).Rational :=
  rational_binary_iff.mpr ⟨hl, hr, nofun⟩

theorem sub (hl : l.Rational) (hr : r.Rational) : (l - r).Rational :=
  rational_binary_iff.mpr ⟨hl, hr, nofun⟩

theorem mul (hl : l.Rational) (hr : r.Rational) : (l * r).Rational :=
  rational_binary_iff.mpr ⟨hl, hr, nofun⟩

theorem div (hl : l.Rational) (hr : r.Rational) : (l / r).Rational :=
  rational_binary_iff.mpr ⟨hl, hr, nofun⟩

theorem pow (hl : l.Rational) (hr : r.Rational) (hwhole : r.Whole) : (l.pow r).Rational :=
  rational_binary_iff.mpr ⟨hl, hr, fun _ => hwhole⟩

end Rational

/-! ### Exponents -/

/-- A tree that has a value although no name has one mentions no name. -/
theorem Denotes.mentions_eq_false {t : Tree (Exact I)} {x : K}
    (h : t.Denotes Bindings.empty.get? x) (hbare : t.Bare) (name : String) :
    t.mentions name = false := by
  induction h with
  | num x cs =>
    obtain rfl := (everywhere_iff.mp hbare).1 (.inl ⟨_, rfl⟩)
    rfl
  | var cs hname => cases hname
  | negation o _ ih =>
    rw [mentions, mentionsAny, mentionsAny, ih (everywhere_one_iff.mp hbare).2, Bool.false_or]
    exact nofun
  | binary _ _ _ ihl ihr =>
    obtain ⟨-, hl, hr⟩ := everywhere_two_iff.mp hbare
    rw [mentions, mentionsAny, mentionsAny, mentionsAny, ihl hl, ihr hr, Bool.false_or,
      Bool.false_or]
    exact nofun
  | call _ _ _ ih =>
    rw [mentions, mentionsAny, mentionsAny, ih (everywhere_one_iff.mp hbare).2, Bool.false_or]
    exact nofun

theorem whole_two [CharZero K] : (two : Tree (Exact I)).Whole :=
  IsInteger.whole ⟨2, by rw [two, Exact.two_eq, Int.cast_ofNat]⟩

namespace Whole

variable {r : Tree (Exact I)}

theorem sub_one (h : r.Whole) : (r - 1).Whole := by
  obtain ⟨hbare, n, hn⟩ := h
  refine ⟨closed_bare.sub hbare closed_bare.one, n - 1, ?_⟩
  rw [Int.cast_sub, Int.cast_one]
  exact ((denotes_iff.mpr hn).sub denotes_one).evaluateWith

theorem mentions_eq_false (h : r.Whole) (name : String) : r.mentions name = false := by
  obtain ⟨hbare, n, hn⟩ := h
  exact (denotes_iff.mpr hn).mentions_eq_false hbare name

/-- The integer is the value in every algebra, whatever the names stand for. -/
theorem exists_denotesIn [CharZero K] {R : Type _} [CommRing R] [Algebra K R] (h : r.Whole) :
    ∃ n : ℤ, ∀ value? : String → Option R, r.DenotesIn value? (n : R) := by
  obtain ⟨-, n, hn⟩ := h
  have hscalar := (denotes_iff_denotesIn.mp (denotes_iff.mpr hn)).map (Algebra.ofId K R)
  rw [map_intCast] at hscalar
  exact ⟨n, fun value? => hscalar.mono nofun⟩

end Whole

/-! ### The passes -/

variable [CharZero K] {R : Type _} [CommRing R] [Algebra K R] [Nontrivial R]
  {value? : String → Option R}

namespace Rational

variable {t d : Tree (Exact I)} {x : R}

/-- A pass keeps a rational formula rational, where the formula has a value. -/
theorem simplify (ht : t.Rational) (hx : t.DenotesIn value? x) : t.simplify.Rational :=
  ⟨closed_bare.simplify ht.bare, stable_callless.simplify ht.callless,
    (hx.simplify ht.bare ht.exponents).exponents.mono fun _ => IsInteger.whole⟩

/-- Passes keep the value of a rational formula, which stays rational. -/
theorem simplifyTimes (ht : t.Rational) (hx : t.DenotesIn value? x) (passes : Nat) :
    (t.simplifyTimes passes).1.Rational ∧ (t.simplifyTimes passes).1.DenotesIn value? x :=
  simplifyTimes_induction (P := fun t => t.Rational ∧ t.DenotesIn value? x)
    (fun _ h => ⟨h.1.simplify h.2, (h.2.simplify h.1.bare h.1.exponents).denotes⟩) passes ⟨ht, hx⟩

theorem operator_derivative {name : String} {o : Operator} {l r dl dr : Tree (Exact I)}
    (ht : (Tree.node (.operator o) [l, r]).Rational) (hdl : dl.Rational) (hdr : dr.Rational)
    (hd : o.derivative name l r dl dr = .ok d) : d.Rational := by
  obtain ⟨hl, hr, hwhole⟩ := rational_binary_iff.mp ht
  cases o with
  | add =>
    obtain rfl := Except.ok.inj hd
    exact hdl.add hdr
  | sub =>
    obtain rfl := Except.ok.inj hd
    exact hdl.sub hdr
  | mul =>
    obtain rfl := Except.ok.inj hd
    exact (hdl.mul hr).add (hl.mul hdr)
  | div =>
    obtain rfl := Except.ok.inj hd
    exact ((hdl.mul hr).sub (hl.mul hdr)).div (hr.pow (.num _) whole_two)
  | pow =>
    have hwhole := hwhole rfl
    rw [Operator.derivative, hwhole.mentions_eq_false] at hd
    obtain rfl := Except.ok.inj hd
    exact (hr.mul (hl.pow (hr.sub (.num _)) hwhole.sub_one)).mul hdl
  | unknown => cases hd

/-- The derivative of a rational formula is rational. -/
theorem derivative {name : String} (ht : t.Rational) (hd : t.derivative name = .ok d) :
    d.Rational := by
  induction t using Tree.derivative.induct generalizing d with
  | case1 x cs =>
    obtain rfl := Except.ok.inj hd
    exact .num _
  | case2 v cs =>
    obtain rfl := Except.ok.inj hd
    split
    · exact .num _
    · exact .num _
  | case3 o t ih =>
    rw [Tree.derivative] at hd
    obtain ⟨dt, hdt, hd⟩ := bind_eq_ok hd
    obtain rfl := Except.ok.inj hd
    exact (ih (rational_negation_iff.mp ht) hdt).neg
  | case4 o l r ihl ihr =>
    rw [Tree.derivative] at hd
    obtain ⟨dl, hdl, hd⟩ := bind_eq_ok hd
    obtain ⟨dr, hdr, hd⟩ := bind_eq_ok hd
    obtain ⟨hl, hr, -⟩ := rational_binary_iff.mp ht
    exact ht.operator_derivative (ihl hl hdl) (ihr hr hdr) hd
  | case5 o cs hone htwo =>
    rw [Tree.derivative] at hd
    · cases hd
    · exact hone
    · exact htwo
  | case6 f u _ => exact absurd ht not_rational_call
  | case7 f cs _ => exact absurd ht not_rational_call

end Rational

/-! ### The rules -/

variable {D : Derivation K R R}

/-- The rule for operators. -/
theorem eq_of_operator_derivative {name : String} {o : Operator} {l r dl dr d : Tree (Exact I)}
    {x y z w : R} (hwhole : o = .pow → r.Whole) (hx : l.DenotesIn value? x)
    (hy : r.DenotesIn value? y) (hz : Operates I o x y z)
    (hl : ∀ a, dl.DenotesIn value? a → a = D x) (hr : ∀ b, dr.DenotesIn value? b → b = D y)
    (hd : o.derivative name l r dl dr = .ok d) (hw : d.DenotesIn value? w) : w = D z := by
  cases o with
  | add =>
    obtain rfl := Except.ok.inj hd
    obtain rfl := operates_add_iff.mp hz
    obtain ⟨a, b, ha, hb, rfl⟩ := denotesIn_add_iff.mp hw
    rw [hl a ha, hr b hb, D.map_add]
  | sub =>
    obtain rfl := Except.ok.inj hd
    obtain rfl := operates_sub_iff.mp hz
    obtain ⟨a, b, ha, hb, rfl⟩ := denotesIn_sub_iff.mp hw
    rw [hl a ha, hr b hb, D.map_sub]
  | mul =>
    obtain rfl := Except.ok.inj hd
    obtain rfl := operates_mul_iff.mp hz
    obtain ⟨_, _, hleft, hright, rfl⟩ := denotesIn_add_iff.mp hw
    obtain ⟨a, y', ha, hy', rfl⟩ := denotesIn_mul_iff.mp hleft
    obtain ⟨x', b, hx', hb, rfl⟩ := denotesIn_mul_iff.mp hright
    rw [hl a ha, hy'.eq hy, hx'.eq hx, hr b hb, derivation_mul]
  | div =>
    obtain rfl := Except.ok.inj hd
    obtain ⟨hunit, rfl⟩ := operates_div_iff.mp hz
    obtain ⟨_, _, hnumerator, hsquare, -, hw⟩ := denotesIn_div_iff.mp hw
    obtain ⟨_, _, hleft, hright, rfl⟩ := denotesIn_sub_iff.mp hnumerator
    obtain ⟨a, y', ha, hy', rfl⟩ := denotesIn_mul_iff.mp hleft
    obtain ⟨x', b, hx', hb, rfl⟩ := denotesIn_mul_iff.mp hright
    rw [hsquare.eq hy.square, hl a ha, hy'.eq hy, hx'.eq hx, hr b hb, derivation_mul] at hw
    -- The divisor is a unit, and so its square cancels.
    refine (hunit.pow 2).mul_right_cancel (hw.trans ?_)
    ring
  | pow =>
    have hwhole := hwhole rfl
    -- The exponent mentions no variable, which leaves the first of the three rules.
    rw [Operator.derivative, hwhole.mentions_eq_false] at hd
    obtain rfl := Except.ok.inj hd
    obtain ⟨_, a, hfactor, ha, rfl⟩ := denotesIn_mul_iff.mp hw
    obtain ⟨y', v, hy', hpower, rfl⟩ := denotesIn_mul_iff.mp hfactor
    obtain ⟨n, hn⟩ := hwhole.exists_denotesIn (R := R)
    obtain ⟨x', _, hx', hexponent, hv⟩ := denotesIn_binary_iff.mp hpower
    obtain rfl := hy.eq (hn value?)
    rw [hexponent.eq (hy.sub denotesIn_one), ← Int.cast_one, ← Int.cast_sub, operates_pow_iff,
      hx'.eq hx] at hv
    rw [hl a ha, hy'.eq hy, (operates_pow_iff.mp hz).derivation D hv]
  | unknown => cases hd

/-- The derivation is the one in the variable `name`: the variable has rate one, and all other names
stand still. -/
structure Moves (D : Derivation K R R) (name : String) (value? : String → Option R) : Prop where
  self {x : R} : value? name = some x → D x = 1
  other {v : String} {x : R} : v ≠ name → value? v = some x → D x = 0

/-- The value of the derivative of a rational formula is the derivation of its value. -/
theorem DenotesIn.derivative {name : String} {t d : Tree (Exact I)} {x y : R}
    (hx : t.DenotesIn value? x) (ht : t.Rational) (hmoves : Moves D name value?)
    (hd : t.derivative name = .ok d) (hy : d.DenotesIn value? y) : y = D x := by
  induction hx generalizing d y with
  | num x cs =>
    obtain rfl := Except.ok.inj hd
    rw [D.map_algebraMap]
    exact hy.eq denotesIn_zero
  | var cs hname =>
    obtain rfl := Except.ok.inj hd
    split_ifs at hy with hv
    · subst hv
      rw [hmoves.self hname]
      exact hy.eq denotesIn_one
    · rw [hmoves.other hv hname]
      exact hy.eq denotesIn_zero
  | negation o _ ih =>
    rw [Tree.derivative] at hd
    obtain ⟨d', hd', hd⟩ := bind_eq_ok hd
    obtain rfl := Except.ok.inj hd
    rw [D.map_neg, ← ih (rational_negation_iff.mp ht) hd' hy.operand, neg_neg]
  | binary hx hy' hz ihl ihr =>
    obtain ⟨hl, hr, hwhole⟩ := rational_binary_iff.mp ht
    rw [Tree.derivative] at hd
    obtain ⟨dl, hdl, hd⟩ := bind_eq_ok hd
    obtain ⟨dr, hdr, hd⟩ := bind_eq_ok hd
    exact eq_of_operator_derivative hwhole hx hy' hz (fun a => ihl hl hdl) (fun b => ihr hr hdr)
      hd hy
  | call => exact absurd ht not_rational_call

end Tree

end FractalFormula
