import Mathlib
import FractalFormula.Proofs.Scalar.Exact

/-!
# Values in an algebra

A tree over a field has values in every commutative algebra over the field: literals are scalars of
the algebra, and names stand for any of its elements. Divisors must be units, and so must the bases
of negative powers. The functions of an interpretation, and its powers to what is no integer, are
defined at scalars only.

In the field itself these are the values that evaluation gives (`denotes_iff_denotesIn`). In the
power series over the field they are expansions of the tree in a variable. Homomorphisms keep values
(`DenotesIn.map`), and those that reflect units let them be lifted (`DenotesIn.lift`).
-/

namespace FractalFormula

/-! ### Powers -/

section

variable {R S : Type _} [CommRing R] [CommRing S] {x y z : R} {m n : ℤ}

/-- The element `z` is `x` to the power `n`. Any element has natural powers, and a unit all. -/
def IsPower (x : R) (n : ℤ) (z : R) : Prop :=
  (∃ k : ℕ, n = k ∧ z = x ^ k) ∨ ∃ u : Rˣ, ↑u = x ∧ z = ↑(u ^ n)

theorem isPower_natCast_iff {k : ℕ} : IsPower x k z ↔ z = x ^ k := by
  constructor
  · rintro (⟨k', hk, rfl⟩ | ⟨u, rfl, rfl⟩)
    · rw [Int.natCast_inj.mp hk]
    · rw [zpow_natCast, Units.val_pow_eq_pow_val]
  · rintro rfl
    exact .inl ⟨k, rfl, rfl⟩

theorem isPower_units_iff {u : Rˣ} : IsPower ↑u n z ↔ z = ↑(u ^ n) := by
  constructor
  · rintro (⟨k, rfl, rfl⟩ | ⟨v, hv, rfl⟩)
    · rw [zpow_natCast, Units.val_pow_eq_pow_val]
    · rw [Units.ext hv]
  · rintro rfl
    exact .inr ⟨u, rfl, rfl⟩

theorem isPower_zero_iff : IsPower x 0 z ↔ z = 1 := by
  rw [← Nat.cast_zero, isPower_natCast_iff, pow_zero]

theorem isPower_one_iff : IsPower x 1 z ↔ z = x := by
  rw [← Nat.cast_one, isPower_natCast_iff, pow_one]

theorem isPower_two_iff : IsPower x 2 z ↔ z = x ^ 2 := isPower_natCast_iff (k := 2)

namespace IsPower

theorem eq (hy : IsPower x n y) (hz : IsPower x n z) : y = z := by
  obtain ⟨k, rfl, rfl⟩ | ⟨u, rfl, rfl⟩ := hy
  · exact (isPower_natCast_iff.mp hz).symm
  · exact (isPower_units_iff.mp hz).symm

theorem neg_one (h : IsPower x (-1) z) : IsUnit x ∧ z * x = 1 := by
  obtain ⟨k, hk, -⟩ | ⟨u, rfl, rfl⟩ := h
  · omega
  · rw [zpow_neg_one]
    exact ⟨u.isUnit, u.inv_mul⟩

theorem zero_base [Nontrivial R] (h : IsPower (0 : R) n z) (hn : n ≠ 0) : z = 0 := by
  obtain ⟨k, rfl, rfl⟩ | ⟨u, hu, -⟩ := h
  · exact zero_pow (Int.natCast_ne_zero.mp hn)
  · exact absurd hu u.ne_zero

theorem one_base (h : IsPower (1 : R) n z) : z = 1 := by
  rw [← Units.val_one, isPower_units_iff, one_zpow] at h
  exact h

/-- The power of a power is the power to the product of the exponents. -/
theorem mul (hy : IsPower x m y) (hz : IsPower y n z) : IsPower x (m * n) z := by
  obtain ⟨k, rfl, rfl⟩ | ⟨u, rfl, rfl⟩ := hy
  · obtain ⟨j, rfl, rfl⟩ | ⟨v, hv, rfl⟩ := hz
    · rw [← pow_mul, ← Nat.cast_mul]
      exact isPower_natCast_iff.mpr rfl
    -- A natural power that is a unit is the power of a unit, unless the exponent is zero.
    obtain rfl | hk := eq_or_ne k 0
    · obtain rfl : v = 1 := Units.ext (hv.trans (pow_zero x))
      rw [one_zpow, Nat.cast_zero, zero_mul, isPower_zero_iff, Units.val_one]
    · obtain ⟨u, rfl⟩ : IsUnit x := (isUnit_pow_iff hk).mp ⟨v, hv⟩
      obtain rfl : v = u ^ k := Units.ext (hv.trans (Units.val_pow_eq_pow_val u k).symm)
      rw [isPower_units_iff, zpow_mul, zpow_natCast]
  · rw [isPower_units_iff.mp hz, isPower_units_iff, zpow_mul]

variable {F : Type _} [FunLike F R S] [MonoidHomClass F R S] (g : F)

theorem map (h : IsPower x n z) : IsPower (g x) n (g z) := by
  obtain ⟨k, rfl, rfl⟩ | ⟨u, rfl, rfl⟩ := h
  · exact isPower_natCast_iff.mpr (map_pow g x k)
  · refine .inr ⟨Units.map g u, rfl, ?_⟩
    rw [← map_zpow]
    rfl

omit [MonoidHomClass F R S] in
theorem exists_of_map [IsLocalHom g] {w : S} (h : IsPower (g x) n w) :
    ∃ z, IsPower x n z := by
  obtain ⟨k, rfl, -⟩ | ⟨u, hu, -⟩ := h
  · exact ⟨x ^ k, isPower_natCast_iff.mpr rfl⟩
  · obtain ⟨v, rfl⟩ : IsUnit x := isUnit_of_map_unit g x ⟨u, hu⟩
    exact ⟨_, isPower_units_iff.mpr rfl⟩

end IsPower

theorem isPower_iff_zpow {K : Type _} [Field K] {x z : K} :
    IsPower x n z ↔ ¬(x = 0 ∧ n < 0) ∧ x ^ n = z := by
  constructor
  · rintro (⟨k, rfl, rfl⟩ | ⟨u, rfl, rfl⟩)
    · exact ⟨by omega, zpow_natCast x k⟩
    · exact ⟨fun h => u.ne_zero h.1, (Units.val_zpow_eq_zpow_val u n).symm⟩
  · rintro ⟨hdefined, rfl⟩
    obtain hn | hn := le_or_gt 0 n
    · lift n to ℕ using hn
      rw [zpow_natCast]
      exact isPower_natCast_iff.mpr rfl
    · have hx : x ≠ 0 := fun hx => hdefined ⟨hx, hn⟩
      exact .inr ⟨Units.mk0 x hx, rfl, (Units.val_zpow_eq_zpow_val (Units.mk0 x hx) n).symm⟩

end

/-! ### Operators -/

variable {K R S : Type _} [Field K] {I : Interpretation K} [CommRing R] [Algebra K R] [CommRing S]
  [Algebra K S]

/-- An operator has the value `z` at two elements of the algebra. -/
inductive Operates (I : Interpretation K) : Operator → R → R → R → Prop where
  | add (x y : R) : Operates I .add x y (x + y)
  | sub (x y : R) : Operates I .sub x y (x - y)
  | mul (x y : R) : Operates I .mul x y (x * y)
  | div {x y z : R} : IsUnit y → z * y = x → Operates I .div x y z
  | pow {x z : R} {n : ℤ} : IsPower x n z → Operates I .pow x n z
  | power {x y z : K} : (∀ n : ℤ, y ≠ n) → I.power x y = some z →
    Operates I .pow (algebraMap K R x) (algebraMap K R y) (algebraMap K R z)

theorem operates_add_iff {x y z : R} : Operates I .add x y z ↔ z = x + y := by
  constructor
  · rintro ⟨⟩
    rfl
  · rintro rfl
    exact .add x y

theorem operates_sub_iff {x y z : R} : Operates I .sub x y z ↔ z = x - y := by
  constructor
  · rintro ⟨⟩
    rfl
  · rintro rfl
    exact .sub x y

theorem operates_mul_iff {x y z : R} : Operates I .mul x y z ↔ z = x * y := by
  constructor
  · rintro ⟨⟩
    rfl
  · rintro rfl
    exact .mul x y

theorem operates_div_iff {x y z : R} : Operates I .div x y z ↔ IsUnit y ∧ z * y = x := by
  constructor
  · rintro ⟨⟩
    exact ⟨‹_›, ‹_›⟩
  · rintro ⟨hy, hz⟩
    exact .div hy hz

section

variable [CharZero K] [Nontrivial R]

include K in
theorem intCast_injective_of_algebra : Function.Injective (Int.cast : ℤ → R) := by
  intro m n h
  rw [← map_intCast (algebraMap K R), ← map_intCast (algebraMap K R)] at h
  exact Int.cast_injective ((algebraMap K R).injective h)

theorem operates_pow_iff {x z : R} {n : ℤ} : Operates I .pow x n z ↔ IsPower x n z := by
  refine ⟨fun h => ?_, .pow⟩
  generalize hy : (n : R) = y at h
  cases h with
  | @pow _ _ m h => rwa [intCast_injective_of_algebra (K := K) hy]
  | @power _ y _ hinteger _ =>
    rw [← map_intCast (algebraMap K R)] at hy
    exact absurd ((algebraMap K R).injective hy).symm (hinteger n)

/-- An operator has at most one value. -/
theorem Operates.eq {o : Operator} {x y z w : R} (hz : Operates I o x y z)
    (hw : Operates I o x y w) : z = w := by
  cases hz with
  | add => exact (operates_add_iff.mp hw).symm
  | sub => exact (operates_sub_iff.mp hw).symm
  | mul => exact (operates_mul_iff.mp hw).symm
  | div hy hz =>
    obtain ⟨-, hw⟩ := operates_div_iff.mp hw
    exact hy.mul_right_cancel (hz.trans hw.symm)
  | pow hz => exact hz.eq (operates_pow_iff.mp hw)
  | @power a b c hb hc =>
    generalize hx : algebraMap K R a = x at hw
    generalize hy : algebraMap K R b = y at hw
    cases hw with
    | @pow _ _ n _ =>
      rw [← map_intCast (algebraMap K R)] at hy
      exact absurd ((algebraMap K R).injective hy) (hb n)
    | power _ hc' =>
      obtain rfl := (algebraMap K R).injective hx
      obtain rfl := (algebraMap K R).injective hy
      rw [Option.some.inj (hc.symm.trans hc')]

end

theorem Operates.map (g : R →ₐ[K] S) {o : Operator} {x y z : R} (h : Operates I o x y z) :
    Operates I o (g x) (g y) (g z) := by
  cases h with
  | add => exact operates_add_iff.mpr (map_add g x y)
  | sub => exact operates_sub_iff.mpr (map_sub g x y)
  | mul => exact operates_mul_iff.mpr (map_mul g x y)
  | div hy hz =>
    obtain rfl := hz
    exact .div (hy.map g) (map_mul g z y).symm
  | pow hz =>
    rw [map_intCast]
    exact .pow (hz.map g)
  | power hb hc =>
    rw [g.commutes, g.commutes, g.commutes]
    exact .power hb hc

/-- An operator has a value if it has one at the images, and powers are to integers. -/
theorem Operates.exists_of_map [CharZero K] [Nontrivial S] (g : R →ₐ[K] S) [IsLocalHom g]
    {o : Operator} {x y : R} {w : S} (h : Operates I o (g x) (g y) w)
    (hpow : o = .pow → ∃ n : ℤ, y = n) : ∃ z, Operates I o x y z := by
  cases o with
  | add => exact ⟨_, .add x y⟩
  | sub => exact ⟨_, .sub x y⟩
  | mul => exact ⟨_, .mul x y⟩
  | div =>
    obtain ⟨u, rfl⟩ : IsUnit y := isUnit_of_map_unit g y (operates_div_iff.mp h).1
    exact ⟨x * ↑u⁻¹, .div u.isUnit (u.inv_mul_cancel_right x)⟩
  | pow =>
    obtain ⟨n, rfl⟩ := hpow rfl
    rw [map_intCast, operates_pow_iff] at h
    obtain ⟨z, hz⟩ := h.exists_of_map g
    exact ⟨z, .pow hz⟩
  | unknown => cases h

/-- In the field itself, an operator has the values of exact arithmetic. -/
theorem operates_iff [CharZero K] {o : Operator} {x y z : K} :
    Operates I o x y z ↔ I.operate? o x y = some z := by
  cases o with
  | add => exact operates_add_iff.trans (eq_comm.trans Option.some_inj.symm)
  | sub => exact operates_sub_iff.trans (eq_comm.trans Option.some_inj.symm)
  | mul => exact operates_mul_iff.trans (eq_comm.trans Option.some_inj.symm)
  | div =>
    rw [operates_div_iff, Interpretation.operate?_div_iff, isUnit_iff_ne_zero]
    exact and_congr_right fun hy => (eq_div_iff hy).symm.trans eq_comm
  | pow =>
    by_cases hy : ∃ n : ℤ, y = n
    · obtain ⟨n, rfl⟩ := hy
      rw [operates_pow_iff, isPower_iff_zpow]
      exact Interpretation.pow_intCast_iff.symm
    · rw [Interpretation.operate?, Interpretation.pow, dif_neg hy]
      constructor
      · rintro ⟨⟩
        · exact absurd ⟨_, rfl⟩ hy
        · assumption
      · exact .power fun n hn => hy ⟨n, hn⟩
  | unknown =>
    constructor
    · rintro ⟨⟩
    · rintro ⟨⟩

/-! ### Trees -/

namespace Tree

/-- The tree has the value `x` in the algebra, where names stand for elements of the algebra. -/
inductive DenotesIn (value? : String → Option R) : Tree (Exact I) → R → Prop where
  | num (x : K) (cs : List (Tree (Exact I))) :
    DenotesIn value? (.node (.num (.value x)) cs) (algebraMap K R x)
  | var {name : String} {x : R} (cs : List (Tree (Exact I))) : value? name = some x →
    DenotesIn value? (.node (.var name) cs) x
  | negation {t : Tree (Exact I)} {x : R} (o : Operator) : DenotesIn value? t x →
    DenotesIn value? (.node (.operator o) [t]) (-x)
  | binary {o : Operator} {l r : Tree (Exact I)} {x y z : R} : DenotesIn value? l x →
    DenotesIn value? r y → Operates I o x y z → DenotesIn value? (.node (.operator o) [l, r]) z
  | call {f : Func} {u : Tree (Exact I)} {x y : K} : f ≠ .unknown →
    DenotesIn value? u (algebraMap K R x) → I.apply f x = some y →
    DenotesIn value? (.node (.func f) [u]) (algebraMap K R y)

variable {value? : String → Option R} {t : Tree (Exact I)}

theorem DenotesIn.num_eq {a : Exact I} {x : R} (h : (Tree.num a).DenotesIn value? x) :
    ∃ y, a = .value y ∧ x = algebraMap K R y := by
  cases h with
  | num y cs => exact ⟨y, rfl, rfl⟩

theorem DenotesIn.operand {o : Operator} {x : R}
    (h : (Tree.node (.operator o) [t]).DenotesIn value? x) : t.DenotesIn value? (-x) := by
  cases h with
  | negation _ h =>
    rw [neg_neg]
    exact h

theorem denotesIn_binary_iff {o : Operator} {l r : Tree (Exact I)} {z : R} :
    (Tree.node (.operator o) [l, r]).DenotesIn value? z ↔
      ∃ x y, l.DenotesIn value? x ∧ r.DenotesIn value? y ∧ Operates I o x y z := by
  constructor
  · rintro ⟨⟩
    exact ⟨_, _, ‹_›, ‹_›, ‹_›⟩
  · rintro ⟨x, y, hx, hy, hz⟩
    exact .binary hx hy hz

theorem denotesIn_zero : (0 : Tree (Exact I)).DenotesIn value? 0 := by
  rw [← map_zero (algebraMap K R)]
  exact .num 0 []

theorem denotesIn_one : (1 : Tree (Exact I)).DenotesIn value? 1 := by
  rw [← map_one (algebraMap K R)]
  exact .num 1 []

theorem denotesIn_two : (two : Tree (Exact I)).DenotesIn value? 2 := by
  rw [two, Exact.two_eq, ← map_ofNat (algebraMap K R)]
  exact .num 2 []

theorem denotesIn_intCast (n : ℤ) :
    (Tree.num (.value n) : Tree (Exact I)).DenotesIn value? (n : R) := by
  rw [← map_intCast (algebraMap K R)]
  exact .num _ []

section

variable {l r : Tree (Exact I)} {x y z : R}

theorem denotesIn_add_iff : (l + r).DenotesIn value? z ↔
    ∃ x y, l.DenotesIn value? x ∧ r.DenotesIn value? y ∧ z = x + y := by
  refine denotesIn_binary_iff.trans ?_
  simp only [operates_add_iff]

theorem denotesIn_sub_iff : (l - r).DenotesIn value? z ↔
    ∃ x y, l.DenotesIn value? x ∧ r.DenotesIn value? y ∧ z = x - y := by
  refine denotesIn_binary_iff.trans ?_
  simp only [operates_sub_iff]

theorem denotesIn_mul_iff : (l * r).DenotesIn value? z ↔
    ∃ x y, l.DenotesIn value? x ∧ r.DenotesIn value? y ∧ z = x * y := by
  refine denotesIn_binary_iff.trans ?_
  simp only [operates_mul_iff]

theorem denotesIn_div_iff : (l / r).DenotesIn value? z ↔
    ∃ x y, l.DenotesIn value? x ∧ r.DenotesIn value? y ∧ IsUnit y ∧ z * y = x := by
  refine denotesIn_binary_iff.trans ?_
  simp only [operates_div_iff]

theorem DenotesIn.sub (hl : l.DenotesIn value? x) (hr : r.DenotesIn value? y) :
    (l - r).DenotesIn value? (x - y) :=
  .binary hl hr (.sub x y)

theorem DenotesIn.div (hl : l.DenotesIn value? x) (hr : r.DenotesIn value? y) (hy : IsUnit y)
    (hz : z * y = x) : (l / r).DenotesIn value? z :=
  .binary hl hr (.div hy hz)

theorem DenotesIn.square (ht : t.DenotesIn value? x) :
    (t.pow two).DenotesIn value? (x ^ 2) := by
  rw [two, Exact.two_eq, ← Int.cast_ofNat]
  exact .binary ht (denotesIn_intCast 2) (.pow (isPower_two_iff.mpr rfl))

end

/-- A tree has at most one value in an algebra. -/
theorem DenotesIn.eq [CharZero K] [Nontrivial R] {x y : R} (hx : t.DenotesIn value? x)
    (hy : t.DenotesIn value? y) : x = y := by
  induction hx generalizing y with
  | num x cs =>
    cases hy with
    | num => rfl
  | var cs hname =>
    cases hy with
    | var _ hname' => exact Option.some.inj (hname.symm.trans hname')
  | negation o _ ih => rw [ih hy.operand, neg_neg]
  | binary _ _ hz ihl ihr =>
    obtain ⟨a, b, ha, hb, hy⟩ := denotesIn_binary_iff.mp hy
    rw [← ihl ha, ← ihr hb] at hy
    exact hz.eq hy
  | call _ _ hx ih =>
    cases hy with
    | call _ hu hy =>
      rw [(algebraMap K R).injective (ih hu)] at hx
      rw [Option.some.inj (hx.symm.trans hy)]

/-- A homomorphism takes values to values. -/
theorem DenotesIn.map (g : R →ₐ[K] S) {x : R} (h : t.DenotesIn value? x) :
    t.DenotesIn (fun name => (value? name).map g) (g x) := by
  induction h with
  | num x cs =>
    rw [g.commutes]
    exact .num x cs
  | var cs hname => exact .var cs (by rw [hname, Option.map_some])
  | negation o _ ih =>
    rw [map_neg]
    exact .negation o ih
  | binary _ _ hz ihl ihr => exact .binary ihl ihr (hz.map g)
  | call hf _ hy ih =>
    rw [g.commutes] at ih ⊢
    exact .call hf ih hy

/-- More names may have values. -/
theorem DenotesIn.mono {value'? : String → Option R} {x : R} (h : t.DenotesIn value? x)
    (hle : ∀ name x, value? name = some x → value'? name = some x) : t.DenotesIn value'? x := by
  induction h with
  | num x cs => exact .num x cs
  | var cs hname => exact .var cs (hle _ _ hname)
  | negation o _ ih => exact .negation o ih
  | binary _ _ hz ihl ihr => exact .binary ihl ihr hz
  | call hf _ hy ih => exact .call hf ih hy

/-! ### The field itself -/

end Tree

/-- The names that stand for elements of the field. -/
def Exact.elements (value? : String → Option (Exact I)) (name : String) : Option K :=
  match value? name with
  | some (.value x) => some x
  | _ => none

omit [Field K] in
theorem Exact.elements_eq_some_iff {value? : String → Option (Exact I)} {name : String} {x : K} :
    elements value? name = some x ↔ value? name = some (.value x) := by
  unfold elements
  split
  · next y hy => rw [hy, Option.some_inj, Option.some_inj, Exact.value.injEq]
  · next hno => exact iff_of_false nofun (hno x)

/-- Evaluation gives the value that the tree has in the field. -/
theorem Tree.denotes_iff_denotesIn [CharZero K] {value? : String → Option (Exact I)}
    {t : Tree (Exact I)} {x : K} : t.Denotes value? x ↔ t.DenotesIn (Exact.elements value?) x := by
  constructor
  · intro h
    induction h with
    | num x cs => exact .num x cs
    | var cs hname => exact .var cs (Exact.elements_eq_some_iff.mpr hname)
    | negation o _ ih => exact .negation o ih
    | binary _ _ hz ihl ihr => exact .binary ihl ihr (operates_iff.mpr hz)
    | call hf _ hy ih => exact .call hf ih hy
  · intro h
    induction h with
    | num x cs => exact .num x cs
    | var cs hname => exact .var cs (Exact.elements_eq_some_iff.mp hname)
    | negation o _ ih => exact .negation o ih
    | binary _ _ hz ihl ihr => exact .binary ihl ihr (operates_iff.mp hz)
    | call hf _ hy ih => exact .call hf ih hy

end FractalFormula
