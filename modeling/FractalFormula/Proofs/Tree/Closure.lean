import FractalFormula.Derivative
import FractalFormula.Proofs.Except
import FractalFormula.Proofs.Simplify.Recursion
import FractalFormula.Proofs.Tree.Nodes

/-!
# Properties of trees that the passes keep

A property is stable if it passes from a node to its operands, and from operands to the nodes that
simplification builds of them, and closed if it passes to calls of functions as well, which
differentiation builds. Every pass keeps a closed property: simplification, derivatives of any
order, and the map of Newton's method as soon as the variable has it (`Stable.simplify`,
`Stable.simplifyTimes`, `Closed.derivative`, `Closed.nthDerivative`, `Closed.newtonMap`).
-/

namespace FractalFormula.Tree

variable {α : Type _} [Scalar α]

/-- What one pass of simplification keeps, any number of passes keeps. -/
theorem simplifyTimes_induction {P : Tree α → Prop} (hP : ∀ t, P t → P t.simplify) (passes : Nat)
    {t : Tree α} (ht : P t) : P (t.simplifyTimes passes).1 := by
  induction passes generalizing t with
  | zero => exact ht
  | succ passes ih =>
    rw [simplifyTimes]
    split
    · exact hP t ht
    · exact ih (hP t ht)

omit [Scalar α] in
/-- If all children have results, the list of the results replaces each child by its own. -/
theorem eq_map_of_mapM {simplify : Tree α → Option (Tree α)} {cs ds : List (Tree α)}
    (h : cs.mapM simplify = some ds) : ds = cs.map fun c => (simplify c).getD c := by
  induction cs generalizing ds with
  | nil =>
    obtain rfl := Option.some.inj h
    rfl
  | cons c cs ih =>
    rw [List.mapM_cons] at h
    obtain ⟨d, hd, h⟩ := Option.bind_eq_some_iff.mp h
    obtain ⟨ds', hds', h⟩ := Option.bind_eq_some_iff.mp h
    obtain rfl := Option.some.inj h
    rw [List.map_cons, hd, ih hds', Option.getD_some]

/-- A property that passes to operands, and from operands to the nodes that simplification
builds. -/
structure Stable (P : Tree α → Prop) : Prop where
  zero : P 0
  one : P 1
  two : P two
  /-- A number that is made up otherwise is finite, or a negated number. -/
  finite {x : α} : Scalar.isFinite x → P (num x)
  negated {x : α} : P (num x) → P (num (Scalar.negated x))
  operand {o : Operator} {t : Tree α} : P (.node (.operator o) [t]) → P t
  operands {o : Operator} {l r : Tree α} : P (.node (.operator o) [l, r]) → P l ∧ P r
  argument {f : Func} {u : Tree α} : P (.node (.func f) [u]) → P u
  negation {t : Tree α} : P t → P (negation t)
  binary {o : Operator} {l r : Tree α} : o ≠ .unknown → P l → P r → P (binary o l r)
  /-- Children may change as long as those with the property keep it. -/
  map {l : Label α} {cs : List (Tree α)} {change : Tree α → Tree α} :
    (∀ c, P c → P (change c)) → P (.node l cs) → P (.node l (cs.map change))

/-- A property that passes to operands, and from operands to the nodes that the passes build. -/
structure Closed (P : Tree α → Prop) : Prop extends Stable P where
  call {f : Func} {u : Tree α} : f ≠ .unknown → P u → P (call f u)

/-- A property of all numbers is closed if the constants have it, finite numbers have it, and the
negations of numbers that have it. -/
theorem closed_numbersAre {p : α → Prop} (hzero : p 0) (hone : p 1) (htwo : p Scalar.two)
    (hfinite : ∀ {x}, Scalar.isFinite x → p x) (hnegated : ∀ {x}, p x → p (Scalar.negated x)) :
    Closed (NumbersAre p) where
  zero := numbersAre_num_iff.mpr hzero
  one := numbersAre_num_iff.mpr hone
  two := numbersAre_num_iff.mpr htwo
  finite h := numbersAre_num_iff.mpr (hfinite h)
  negated h := numbersAre_num_iff.mpr (hnegated (numbersAre_num_iff.mp h))
  operand h := (numbersAre_iff.mp h).2 _ (by simp)
  operands h := ⟨(numbersAre_iff.mp h).2 _ (by simp), (numbersAre_iff.mp h).2 _ (by simp)⟩
  argument h := (numbersAre_iff.mp h).2 _ (by simp)
  negation h := numbersAre_iff.mpr ⟨nofun, by simpa using h⟩
  binary _ hl hr := numbersAre_iff.mpr ⟨nofun, by simpa using ⟨hl, hr⟩⟩
  call _ hu := numbersAre_iff.mpr ⟨nofun, by simpa using hu⟩
  map hchange h := by
    obtain ⟨hl, hcs⟩ := numbersAre_iff.mp h
    refine numbersAre_iff.mpr ⟨hl, fun c hc => ?_⟩
    obtain ⟨c', hc', rfl⟩ := List.mem_map.mp hc
    exact hchange c' (hcs c' hc')

namespace Stable

variable {P : Tree α → Prop} (hP : Stable P)

include hP

section

variable {l r : Tree α}

theorem add (hl : P l) (hr : P r) : P (l + r) := hP.binary (o := .add) (by decide) hl hr

theorem sub (hl : P l) (hr : P r) : P (l - r) := hP.binary (o := .sub) (by decide) hl hr

theorem mul (hl : P l) (hr : P r) : P (l * r) := hP.binary (o := .mul) (by decide) hl hr

theorem div (hl : P l) (hr : P r) : P (l / r) := hP.binary (o := .div) (by decide) hl hr

theorem pow (hl : P l) (hr : P r) : P (l.pow r) := hP.binary (o := .pow) (by decide) hl hr

/-! ### Simplification -/

theorem folds {l : Label α} {cs : List (Tree α)} {z : α} (h : Folds l cs z)
    (ht : P (.node l cs)) : P (num z) := by
  cases h with
  | negation o x => exact hP.negated (hP.operand ht)
  | binary _ hfinite => exact hP.finite hfinite
  | call _ hfinite => exact hP.finite hfinite

theorem negate (hl : P l) : P (negate l) := by
  rw [Tree.negate.eq_def]
  split
  · exact hP.negated hl
  · exact hP.operand hl
  · exact hP.negation hl

theorem reduceSum (hl : P l) (hr : P r) : P (reduceSum l r) := by
  unfold Tree.reduceSum
  split_ifs
  · exact hl
  · exact hr
  · exact hP.mul hP.two hl
  · exact hP.add hl hr

theorem reduceDifference (hl : P l) (hr : P r) : P (reduceDifference l r) := by
  unfold Tree.reduceDifference
  split_ifs
  · exact hl
  · exact hP.negate hr
  · exact hP.zero
  · exact hP.sub hl hr

theorem reduceProduct (hl : P l) (hr : P r) : P (reduceProduct l r) := by
  unfold Tree.reduceProduct
  split_ifs
  · exact hP.zero
  · exact hl
  · exact hr
  · exact hP.negate hl
  · exact hP.negate hr
  · exact hP.pow hl hP.two
  · exact hP.mul hl hr

theorem reduceQuotient (hl : P l) (hr : P r) : P (reduceQuotient l r) := by
  unfold Tree.reduceQuotient
  split_ifs
  · exact hl
  · exact hP.negate hl
  · exact hP.one
  · exact hP.div hl hr

theorem reducePower {simplify : Tree α → Option (Tree α)}
    (hsimplify : ∀ t, P t → ∀ s ∈ simplify t, P s) (hl : P l) (hr : P r) :
    ∀ s ∈ reducePower simplify l r, P s := by
  unfold Tree.reducePower
  split_ifs
  · rintro _ ⟨⟩
    exact hP.one
  · rintro _ ⟨⟩
    exact hP.zero
  · rintro _ ⟨⟩
    exact hP.one
  · rintro _ ⟨⟩
    exact hl
  · rintro _ ⟨⟩
    exact hP.div hP.one hl
  · split
    · next a b _ =>
      obtain ⟨ha, hb⟩ := hP.operands hl
      intro s hs
      obtain ⟨e, he, rfl⟩ := Option.map_eq_some_iff.mp hs
      exact hP.pow ha (hsimplify _ (hP.mul hb hr) e he)
    · rintro _ ⟨⟩
      exact hP.pow hl hr

end

theorem reduce {simplify : Tree α → Option (Tree α)}
    (hsimplify : ∀ t, P t → ∀ s ∈ simplify t, P s) {l : Label α} {cs : List (Tree α)}
    (ht : P (.node l cs)) : ∀ s ∈ reduce simplify l cs, P s := by
  rw [Tree.reduce.eq_def]
  split
  · next z hz =>
    rintro _ ⟨⟩
    exact hP.folds (folds_of_fold? hz) ht
  · split
    · rintro _ ⟨⟩
      exact hP.negate (hP.operand ht)
    · rintro _ ⟨⟩
      exact hP.reduceSum (hP.operands ht).1 (hP.operands ht).2
    · rintro _ ⟨⟩
      exact hP.reduceDifference (hP.operands ht).1 (hP.operands ht).2
    · rintro _ ⟨⟩
      exact hP.reduceProduct (hP.operands ht).1 (hP.operands ht).2
    · rintro _ ⟨⟩
      exact hP.reduceQuotient (hP.operands ht).1 (hP.operands ht).2
    · exact hP.reducePower hsimplify (hP.operands ht).1 (hP.operands ht).2
    · rintro _ ⟨⟩
      exact ht

theorem simplifyWithin (turns : Nat) {t : Tree α} (ht : P t) :
    ∀ s ∈ simplifyWithin turns t, P s := by
  induction turns generalizing t with
  | zero => nofun
  | succ turns ih =>
    obtain ⟨l, cs⟩ := t
    intro s hs
    rw [Option.mem_def, Tree.simplifyWithin] at hs
    obtain ⟨ds, hds, hs⟩ := Option.bind_eq_some_iff.mp hs
    obtain rfl := eq_map_of_mapM hds
    refine hP.reduce (fun _ => ih) (hP.map (fun c hc => ?_) ht) s hs
    cases hd : Tree.simplifyWithin turns c with
    | none => exact hc
    | some d => exact ih hc d hd

theorem simplify {t : Tree α} (ht : P t) : P t.simplify :=
  hP.simplifyWithin t.size ht _ (simplifyWithin_size t)

theorem simplifyTimes (passes : Nat) {t : Tree α} (ht : P t) : P (t.simplifyTimes passes).1 :=
  simplifyTimes_induction (P := P) (fun _ => hP.simplify) passes ht

end Stable

namespace Closed

variable {P : Tree α → Prop} (hP : Closed P)

include hP

/-! ### Differentiation -/

theorem operator_derivative {name : String} {o : Operator} {l r dl dr d : Tree α} (hl : P l)
    (hr : P r) (hdl : P dl) (hdr : P dr) (h : o.derivative name l r dl dr = .ok d) : P d := by
  cases o with
  | add =>
    obtain rfl := Except.ok.inj h
    exact hP.add hdl hdr
  | sub =>
    obtain rfl := Except.ok.inj h
    exact hP.sub hdl hdr
  | mul =>
    obtain rfl := Except.ok.inj h
    exact hP.add (hP.mul hdl hr) (hP.mul hl hdr)
  | div =>
    obtain rfl := Except.ok.inj h
    exact hP.div (hP.sub (hP.mul hdl hr) (hP.mul hl hdr)) (hP.pow hr hP.two)
  | pow =>
    have hlog : P (.call .log l) := hP.call (by decide) hl
    rw [Operator.derivative] at h
    split_ifs at h
    · obtain rfl := Except.ok.inj h
      exact hP.mul (hP.mul hr (hP.pow hl (hP.sub hr hP.one))) hdl
    · obtain rfl := Except.ok.inj h
      exact hP.mul (hP.mul (hP.pow hl hr) hlog) hdr
    · obtain rfl := Except.ok.inj h
      exact hP.mul (hP.pow hl hr) (hP.add (hP.mul hdr hlog) (hP.div (hP.mul hr hdl) hl))
  | unknown => nomatch h

theorem func_derivative {f : Func} {u du d : Tree α} (hu : P u) (hdu : P du)
    (h : f.derivative u du = .ok d) : P d := by
  have hcall (g : Func) (hg : g ≠ .unknown) {t : Tree α} (ht : P t) : P (.call g t) :=
    hP.call hg ht
  have hsquare {t : Tree α} (ht : P t) : P (t.pow .two) := hP.pow ht hP.two
  cases f with
  | sin =>
    obtain rfl := Except.ok.inj h
    exact hP.mul (hcall .cos (by decide) hu) hdu
  | cos =>
    obtain rfl := Except.ok.inj h
    exact hP.mul (hP.negation (hcall .sin (by decide) hu)) hdu
  | tan =>
    obtain rfl := Except.ok.inj h
    exact hP.div hdu (hsquare (hcall .cos (by decide) hu))
  | cot =>
    obtain rfl := Except.ok.inj h
    exact hP.negation (hP.div hdu (hsquare (hcall .sin (by decide) hu)))
  | asin =>
    obtain rfl := Except.ok.inj h
    exact hP.div hdu (hcall .sqrt (by decide) (hP.sub hP.one (hsquare hu)))
  | acos =>
    obtain rfl := Except.ok.inj h
    exact hP.div (hP.negation hdu) (hcall .sqrt (by decide) (hP.sub hP.one (hsquare hu)))
  | atan =>
    obtain rfl := Except.ok.inj h
    exact hP.div hdu (hP.add hP.one (hsquare hu))
  | acot =>
    obtain rfl := Except.ok.inj h
    exact hP.div (hP.negation hdu) (hP.add hP.one (hsquare hu))
  | sinh =>
    obtain rfl := Except.ok.inj h
    exact hP.mul (hcall .cosh (by decide) hu) hdu
  | cosh =>
    obtain rfl := Except.ok.inj h
    exact hP.mul (hcall .sinh (by decide) hu) hdu
  | tanh =>
    obtain rfl := Except.ok.inj h
    exact hP.div hdu (hsquare (hcall .cosh (by decide) hu))
  | coth =>
    obtain rfl := Except.ok.inj h
    exact hP.negation (hP.div hdu (hsquare (hcall .sinh (by decide) hu)))
  | asinh =>
    obtain rfl := Except.ok.inj h
    exact hP.div hdu (hcall .sqrt (by decide) (hP.add (hsquare hu) hP.one))
  | acosh =>
    obtain rfl := Except.ok.inj h
    exact hP.div hdu (hP.mul (hcall .sqrt (by decide) (hP.sub hu hP.one))
      (hcall .sqrt (by decide) (hP.add hu hP.one)))
  | atanh =>
    obtain rfl := Except.ok.inj h
    exact hP.div hdu (hP.sub hP.one (hsquare hu))
  | exp =>
    obtain rfl := Except.ok.inj h
    exact hP.mul (hcall .exp (by decide) hu) hdu
  | log =>
    obtain rfl := Except.ok.inj h
    exact hP.div hdu hu
  | sqrt =>
    obtain rfl := Except.ok.inj h
    exact hP.div hdu (hP.mul hP.two (hcall .sqrt (by decide) hu))
  | abs =>
    obtain rfl := Except.ok.inj h
    exact hP.div (hcall .re (by decide) (hP.mul (hcall .conj (by decide) hu) hdu))
      (hcall .abs (by decide) hu)
  | arg =>
    obtain rfl := Except.ok.inj h
    exact hcall .im (by decide) (hP.div hdu hu)
  | re =>
    obtain rfl := Except.ok.inj h
    exact hcall .re (by decide) hdu
  | im =>
    obtain rfl := Except.ok.inj h
    exact hcall .im (by decide) hdu
  | conj =>
    obtain rfl := Except.ok.inj h
    exact hcall .conj (by decide) hdu
  | unknown => nomatch h

theorem derivative {name : String} {t d : Tree α} (ht : P t) (h : t.derivative name = .ok d) :
    P d := by
  induction t using Tree.derivative.induct generalizing d with
  | case1 x cs =>
    obtain rfl := Except.ok.inj h
    exact hP.zero
  | case2 v cs =>
    obtain rfl := Except.ok.inj h
    split
    · exact hP.one
    · exact hP.zero
  | case3 o t ih =>
    rw [Tree.derivative] at h
    obtain ⟨dt, hdt, h⟩ := bind_eq_ok h
    obtain rfl := Except.ok.inj h
    exact hP.negation (ih (hP.operand ht) hdt)
  | case4 o l r ihl ihr =>
    rw [Tree.derivative] at h
    obtain ⟨dl, hdl, h⟩ := bind_eq_ok h
    obtain ⟨dr, hdr, h⟩ := bind_eq_ok h
    obtain ⟨hl, hr⟩ := hP.operands ht
    exact hP.operator_derivative hl hr (ihl hl hdl) (ihr hr hdr) h
  | case5 o cs hone htwo =>
    rw [Tree.derivative] at h
    · nomatch h
    · exact hone
    · exact htwo
  | case6 f u ih =>
    rw [Tree.derivative] at h
    obtain ⟨du, hdu, h⟩ := bind_eq_ok h
    exact hP.func_derivative (hP.argument ht) (ih (hP.argument ht) hdu) h
  | case7 f cs hone =>
    rw [Tree.derivative] at h
    · nomatch h
    · exact hone

theorem nthDerivative {name : String} {n : Nat} {t d : Tree α} (ht : P t)
    (h : t.nthDerivative name n = .ok d) : P d := by
  induction n generalizing t with
  | zero =>
    obtain rfl := Except.ok.inj h
    exact ht
  | succ n ih =>
    obtain ⟨dt, hdt, h⟩ := bind_eq_ok h
    exact ih (hP.simplify (hP.derivative ht hdt)) h

theorem newtonMap {name : String} {t d : Tree α} (hvar : P (var name)) (ht : P t)
    (h : newtonMap name t = .ok d) : P d := by
  obtain ⟨dt, hdt, h⟩ := bind_eq_ok h
  obtain rfl := Except.ok.inj h
  refine hP.simplifyTimes _ (hP.sub hvar (hP.div ht ?_))
  exact hP.simplifyTimes _ (hP.derivative ht hdt)

end Closed

end FractalFormula.Tree
