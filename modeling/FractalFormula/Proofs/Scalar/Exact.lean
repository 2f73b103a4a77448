import Mathlib
import FractalFormula.Proofs.Evaluation.Nodes
import FractalFormula.Proofs.Except

/-!
# Exact arithmetic

The elements of a field as scalars, with one more scalar for what is undefined: a division by zero,
a negative power of zero, a function or a power where its interpretation gives nothing, and every
operation on something undefined. All elements of the field are finite.

`Tree.Denotes` is evaluation in exact arithmetic as a relation, with one case for every kind of
node; it holds exactly if evaluation gives the element (`denotes_iff`).
-/

namespace FractalFormula

variable {K : Type _}

/-- What the functions and the powers to exponents that are not integers mean. Both are partial. -/
structure Interpretation (K : Type _) where
  apply : Func → K → Option K
  power : K → K → Option K

namespace Interpretation

variable [Field K] (I : Interpretation K)

open Classical in
/-- The power of a base to an exponent. To an integer it is the power of the field, which is not
defined for zero to a negative integer. -/
noncomputable def pow (x y : K) : Option K :=
  if h : ∃ n : ℤ, y = n then
    if x = 0 ∧ h.choose < 0 then none else some (x ^ h.choose)
  else I.power x y

open Classical in
/-- The value of an operator. -/
noncomputable def operate? : Operator → K → K → Option K
  | .add, x, y => some (x + y)
  | .sub, x, y => some (x - y)
  | .mul, x, y => some (x * y)
  | .div, x, y => if y = 0 then none else some (x / y)
  | .pow, x, y => I.pow x y
  | .unknown, _, _ => none

variable {I}

theorem operate?_div_iff {x y z : K} :
    I.operate? .div x y = some z ↔ y ≠ 0 ∧ x / y = z := by
  rw [operate?]
  split_ifs with hy
  · simp [hy]
  · simp [hy]

/-- In characteristic zero an element is at most one integer. -/
theorem pow_intCast_iff [CharZero K] {x z : K} {n : ℤ} :
    I.pow x n = some z ↔ ¬(x = 0 ∧ n < 0) ∧ x ^ n = z := by
  have hn : ∃ m : ℤ, (n : K) = m := ⟨n, rfl⟩
  have hchoose : hn.choose = n := Int.cast_injective hn.choose_spec.symm
  rw [pow, dif_pos hn, hchoose]
  split_ifs with hzero
  · simp [hzero]
  · simp [hzero]

theorem pow_two [CharZero K] (x : K) : I.pow x 2 = some (x ^ 2) := by
  have htwo : (2 : K) = (2 : ℤ) := (Int.cast_ofNat 2).symm
  rw [htwo]
  exact pow_intCast_iff.mpr ⟨by simp, zpow_ofNat x 2⟩

theorem pow_of_not_integer {x y : K} (hy : ∀ n : ℤ, y ≠ n) : I.pow x y = I.power x y := by
  rw [pow, dif_neg fun ⟨n, hn⟩ => hy n hn]

end Interpretation

/-- An element of the field, or what is undefined. -/
inductive Exact (I : Interpretation K) where
  | undefined
  | value (x : K)

namespace Exact

variable {I : Interpretation K}

/-- A partial element. -/
def ofOption : Option K → Exact I
  | none => undefined
  | some x => value x

/-- A partial operation, undefined where an operand is. -/
def lift (f : K → K → Option K) : Exact I → Exact I → Exact I
  | value x, value y => ofOption (f x y)
  | _, _ => undefined

theorem ofOption_eq_value_iff {o : Option K} {x : K} :
    (ofOption o : Exact I) = value x ↔ o = some x := by
  cases o with
  | none => exact iff_of_false nofun nofun
  | some y => simp [ofOption]

theorem lift_eq_value_iff {f : K → K → Option K} {a b : Exact I} {z : K} :
    lift f a b = value z ↔ ∃ x y, a = value x ∧ b = value y ∧ f x y = some z := by
  constructor
  · intro h
    match a, b, h with
    | value x, value y, h => exact ⟨x, y, rfl, rfl, ofOption_eq_value_iff.mp h⟩
    | undefined, _, h => nomatch h
    | value _, undefined, h => nomatch h
  · rintro ⟨x, y, rfl, rfl, h⟩
    exact ofOption_eq_value_iff.mpr h

open Classical in
/-- Two scalars compare as equal if they are the same element of the field. -/
noncomputable instance : BEq (Exact I) where
  beq
    | value x, value y => x = y
    | _, _ => false

open Classical in
theorem value_beq_iff {a : Exact I} {y : K} : (a == value y) = true ↔ a = value y := by
  cases a with
  | undefined => exact iff_of_false nofun nofun
  | value x =>
    rw [value.injEq]
    exact decide_eq_true_iff

theorem eq_of_beq {a b : Exact I} (h : (a == b) = true) : a = b := by
  cases b with
  | undefined => cases a <;> nomatch h
  | value y => exact value_beq_iff.mp h

variable [Field K]

noncomputable instance : Scalar (Exact I) where
  zero := value 0
  one := value 1
  add := lift (I.operate? .add)
  sub := lift (I.operate? .sub)
  mul := lift (I.operate? .mul)
  div := lift (I.operate? .div)
  pow := lift (I.operate? .pow)
  apply f
    | value x => ofOption (I.apply f x)
    | undefined => undefined
  isFinite
    | value _ => true
    | undefined => false

theorem zero_eq : (0 : Exact I) = value 0 := rfl

theorem one_eq : (1 : Exact I) = value 1 := rfl

theorem value_add (x y : K) : (value x + value y : Exact I) = value (x + y) := rfl

theorem value_sub (x y : K) : (value x - value y : Exact I) = value (x - y) := rfl

theorem two_eq : (Scalar.two : Exact I) = value 2 := by
  rw [Scalar.two, one_eq, value_add, one_add_one_eq_two]

theorem negated_value (x : K) : Scalar.negated (value x : Exact I) = value (-x) := by
  rw [Scalar.negated, zero_eq, value_sub, zero_sub]

theorem negated_eq_value_iff {a : Exact I} {x : K} :
    Scalar.negated a = value x ↔ ∃ y, a = value y ∧ -y = x := by
  cases a with
  | undefined => exact iff_of_false nofun fun ⟨_, h, _⟩ => nomatch h
  | value y => simp [negated_value]

theorem isFinite_iff {a : Exact I} : Scalar.isFinite a ↔ ∃ x, a = value x := by
  cases a with
  | undefined => exact iff_of_false nofun fun ⟨_, h⟩ => nomatch h
  | value x => exact iff_of_true rfl ⟨x, rfl⟩

theorem isZero_iff {a : Exact I} : Scalar.isZero a ↔ a = value 0 := value_beq_iff

theorem isOne_iff {a : Exact I} : Scalar.isOne a ↔ a = value 1 := value_beq_iff

theorem isMinusOne_iff {a : Exact I} : Scalar.isMinusOne a ↔ a = value (-1) := by
  rw [Scalar.isMinusOne, ← Scalar.negated, one_eq, negated_value]
  exact value_beq_iff

theorem operate?_eq_iff {o : Operator} {a b : Exact I} {z : K} :
    Scalar.operate? o a b = some (value z) ↔
      ∃ x y, a = value x ∧ b = value y ∧ I.operate? o x y = some z := by
  cases o with
  | unknown => exact iff_of_false nofun fun ⟨_, _, _, _, h⟩ => nomatch h
  | _ => exact Option.some_inj.trans lift_eq_value_iff

theorem apply_eq_iff {f : Func} {a : Exact I} {y : K} :
    Scalar.apply f a = value y ↔ ∃ x, a = value x ∧ I.apply f x = some y := by
  cases a with
  | undefined => exact iff_of_false nofun fun ⟨_, h, _⟩ => nomatch h
  | value x =>
    refine ofOption_eq_value_iff.trans ⟨fun h => ⟨x, rfl, h⟩, ?_⟩
    rintro ⟨_, ⟨⟩, h⟩
    exact h

end Exact

namespace Tree

variable [Field K] {I : Interpretation K} {value? : String → Option (Exact I)}

/-- The tree has the value `x` where the names have the values `value?` gives them. -/
inductive Denotes (value? : String → Option (Exact I)) : Tree (Exact I) → K → Prop where
  | num (x : K) (cs : List (Tree (Exact I))) : Denotes value? (.node (.num (.value x)) cs) x
  | var {name : String} {x : K} (cs : List (Tree (Exact I))) : value? name = some (.value x) →
    Denotes value? (.node (.var name) cs) x
  | negation {t : Tree (Exact I)} {x : K} (o : Operator) : Denotes value? t x →
    Denotes value? (.node (.operator o) [t]) (-x)
  | binary {o : Operator} {l r : Tree (Exact I)} {x y z : K} : Denotes value? l x →
    Denotes value? r y → I.operate? o x y = some z → Denotes value? (.node (.operator o) [l, r]) z
  | call {f : Func} {u : Tree (Exact I)} {x y : K} : f ≠ .unknown → Denotes value? u x →
    I.apply f x = some y → Denotes value? (.node (.func f) [u]) y

theorem Denotes.evaluateWith {t : Tree (Exact I)} {x : K} (h : t.Denotes value? x) :
    t.evaluateWith value? = .ok (.value x) := by
  induction h with
  | num x cs => rfl
  | var cs hname => rw [Tree.evaluateWith, hname]
  | @negation t x o _ ih =>
    rw [Tree.evaluateWith, ih]
    exact congrArg Except.ok (Exact.negated_value x)
  | @binary o l r x y z _ _ hz ihl ihr =>
    have hz : Scalar.operate? o (.value x) (.value y) = some (.value z : Exact I) :=
      Exact.operate?_eq_iff.mpr ⟨x, y, rfl, rfl, hz⟩
    exact evaluateWith_binary ihl ihr hz
  | @call f u x y hf _ hy ih =>
    rw [Tree.evaluateWith]
    · rw [ih]
      exact congrArg Except.ok (Exact.apply_eq_iff.mpr ⟨x, rfl, hy⟩)
    · exact hf

theorem denotes_of_evaluateWith {t : Tree (Exact I)} {x : K}
    (h : t.evaluateWith value? = .ok (.value x)) : t.Denotes value? x := by
  induction t using Tree.evaluateWith.induct value? generalizing x with
  | case1 a cs =>
    obtain rfl := Except.ok.inj h
    exact .num x cs
  | case2 name cs a ha =>
    rw [Tree.evaluateWith, ha] at h
    obtain rfl := Except.ok.inj h
    exact .var cs ha
  | case3 name cs ha =>
    rw [Tree.evaluateWith, ha] at h
    cases h
  | case4 o t ih =>
    rw [Tree.evaluateWith] at h
    obtain ⟨a, ha, h⟩ := bind_eq_ok h
    obtain ⟨y, rfl, rfl⟩ := Exact.negated_eq_value_iff.mp (Except.ok.inj h)
    exact .negation o (ih ha)
  | case5 o l r ihl ihr =>
    rw [Tree.evaluateWith] at h
    obtain ⟨a, ha, h⟩ := bind_eq_ok h
    obtain ⟨b, hb, h⟩ := bind_eq_ok h
    split at h
    · next c hc =>
      obtain rfl := Except.ok.inj h
      obtain ⟨x, y, rfl, rfl, hz⟩ := Exact.operate?_eq_iff.mp hc
      exact .binary (ihl ha) (ihr hb) hz
    · cases h
  | case6 o cs hone htwo =>
    rw [Tree.evaluateWith] at h
    · cases h
    · exact hone
    · exact htwo
  | case7 u => cases h
  | case8 f u hf ih =>
    rw [Tree.evaluateWith] at h
    · obtain ⟨a, ha, h⟩ := bind_eq_ok h
      obtain ⟨y, rfl, hy⟩ := Exact.apply_eq_iff.mp (Except.ok.inj h)
      exact .call hf (ih ha) hy
    · exact hf
  | case9 f cs hunknown hone =>
    rw [Tree.evaluateWith] at h
    · cases h
    · exact hunknown
    · exact hone

/-- A tree denotes what it evaluates to. -/
theorem denotes_iff {t : Tree (Exact I)} {x : K} :
    t.Denotes value? x ↔ t.evaluateWith value? = .ok (.value x) :=
  ⟨Denotes.evaluateWith, denotes_of_evaluateWith⟩

/-- A tree denotes at most one element. -/
theorem Denotes.eq {t : Tree (Exact I)} {x y : K} (hx : t.Denotes value? x)
    (hy : t.Denotes value? y) : x = y := by
  have h := hx.evaluateWith.symm.trans hy.evaluateWith
  exact Exact.value.inj (Except.ok.inj h)

section

variable {s t : Tree (Exact I)} {x y z : K}

theorem Denotes.add (hs : s.Denotes value? x) (ht : t.Denotes value? y) :
    (s + t).Denotes value? (x + y) :=
  .binary hs ht rfl

theorem Denotes.sub (hs : s.Denotes value? x) (ht : t.Denotes value? y) :
    (s - t).Denotes value? (x - y) :=
  .binary hs ht rfl

theorem Denotes.mul (hs : s.Denotes value? x) (ht : t.Denotes value? y) :
    (s * t).Denotes value? (x * y) :=
  .binary hs ht rfl

theorem Denotes.div (hs : s.Denotes value? x) (ht : t.Denotes value? y) (hy : y ≠ 0) :
    (s / t).Denotes value? (x / y) :=
  .binary hs ht (Interpretation.operate?_div_iff.mpr ⟨hy, rfl⟩)

theorem Denotes.neg (ht : t.Denotes value? x) : (-t).Denotes value? (-x) := .negation .sub ht

theorem Denotes.pow (hs : s.Denotes value? x) (ht : t.Denotes value? y) (hz : I.pow x y = some z) :
    (s.pow t).Denotes value? z :=
  .binary hs ht hz

theorem denotes_zero : (0 : Tree (Exact I)).Denotes value? 0 := .num 0 []

theorem denotes_one : (1 : Tree (Exact I)).Denotes value? 1 := .num 1 []

theorem denotes_two : (two : Tree (Exact I)).Denotes value? 2 := by
  rw [two, Exact.two_eq]
  exact .num 2 []

theorem Denotes.square [CharZero K] (ht : t.Denotes value? x) :
    (t.pow two).Denotes value? (x ^ 2) :=
  ht.pow denotes_two (Interpretation.pow_two x)

end

end Tree

end FractalFormula
