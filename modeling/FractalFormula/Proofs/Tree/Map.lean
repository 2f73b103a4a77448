import FractalFormula.Derivative
import FractalFormula.Proofs.Except
import FractalFormula.Shader.Lowering
import FractalFormula.Tree.Printer

/-!
# Trees over other scalars

A function between two kinds of scalars takes a tree over the one to a tree over the other
(`Tree.map`). If it keeps the numbers that derivatives make up, which are zero, one and two, then
differentiation goes along with it (`Tree.derivative_map`); if it keeps the parts of numbers, then
text and shader expression are the same (`Tree.text_map`, `Tree.lower_map`).
-/

namespace FractalFormula

variable {α β : Type}

/-- The label with its number replaced. -/
def Label.map (g : α → β) : Label α → Label β
  | .operator o => .operator o
  | .func f => .func f
  | .var name => .var name
  | .num x => .num (g x)

namespace Tree

mutual

/-- The tree with all numbers replaced. -/
def map (g : α → β) : Tree α → Tree β
  | .node l cs => .node (l.map g) (mapAll g cs)

/-- The trees with all numbers replaced. -/
def mapAll (g : α → β) : List (Tree α) → List (Tree β)
  | [] => []
  | t :: ts => t.map g :: mapAll g ts

end

section

variable (g : α → β)

@[simp] theorem map_call (f : Func) (t : Tree α) : (call f t).map g = call f (t.map g) := rfl

@[simp] theorem map_binary (o : Operator) (l r : Tree α) :
    (binary o l r).map g = binary o (l.map g) (r.map g) := rfl

@[simp] theorem map_negation (t : Tree α) : (negation t).map g = negation (t.map g) := rfl

@[simp] theorem map_pow (l r : Tree α) : (pow l r).map g = pow (l.map g) (r.map g) := rfl

@[simp] theorem map_add (l r : Tree α) : (l + r).map g = l.map g + r.map g := rfl

@[simp] theorem map_sub (l r : Tree α) : (l - r).map g = l.map g - r.map g := rfl

@[simp] theorem map_mul (l r : Tree α) : (l * r).map g = l.map g * r.map g := rfl

@[simp] theorem map_div (l r : Tree α) : (l / r).map g = l.map g / r.map g := rfl

@[simp] theorem map_neg (t : Tree α) : (-t).map g = -t.map g := rfl

theorem mapAll_eq_map (ts : List (Tree α)) : mapAll g ts = ts.map (map g) := by
  induction ts with
  | nil => rfl
  | cons t ts ih => rw [mapAll, ih, List.map_cons]

variable {g}

theorem mapAll_ne_one {ts : List (Tree α)} (h : ∀ t, ts ≠ [t]) (u : Tree β) :
    mapAll g ts ≠ [u] := by
  intro hmap
  rw [mapAll_eq_map] at hmap
  obtain ⟨t, rfl, -⟩ := List.map_eq_singleton_iff.mp hmap
  exact h t rfl

theorem mapAll_ne_two {ts : List (Tree α)} (h : ∀ s t, ts ≠ [s, t]) (u v : Tree β) :
    mapAll g ts ≠ [u, v] := by
  intro hmap
  rw [mapAll_eq_map] at hmap
  obtain ⟨s, ts, rfl, -, hmap⟩ := List.map_eq_cons_iff.mp hmap
  obtain ⟨t, rfl, -⟩ := List.map_eq_singleton_iff.mp hmap
  exact h s t rfl

theorem length_mapAll (ts : List (Tree α)) : (mapAll g ts).length = ts.length := by
  rw [mapAll_eq_map, List.length_map]

end

/-! ### What does not depend on the numbers -/

mutual

theorem depth_map (g : α → β) : ∀ t : Tree α, (t.map g).depth = t.depth
  | .node l cs => by rw [map, depth, depth, depthAll_map g cs]

theorem depthAll_map (g : α → β) : ∀ ts : List (Tree α), depthAll (mapAll g ts) = depthAll ts
  | [] => rfl
  | t :: ts => by rw [mapAll, depthAll, depthAll, depth_map g t, depthAll_map g ts]

end

mutual

theorem mentions_map (g : α → β) (name : String) :
    ∀ t : Tree α, (t.map g).mentions name = t.mentions name
  | .node (.var _) _ => rfl
  | .node (.num _) cs => mentionsAny_map g name cs
  | .node (.operator _) cs => mentionsAny_map g name cs
  | .node (.func _) cs => mentionsAny_map g name cs

theorem mentionsAny_map (g : α → β) (name : String) :
    ∀ ts : List (Tree α), mentionsAny name (mapAll g ts) = mentionsAny name ts
  | [] => rfl
  | t :: ts => by
    rw [mapAll, mentionsAny, mentionsAny, mentions_map g name t, mentionsAny_map g name ts]

end

end Tree

/-! ### Differentiation -/

/-- The numbers that derivatives make up are kept. -/
structure KeepsConstants [Scalar α] [Scalar β] (g : α → β) : Prop where
  zero : g 0 = 0
  one : g 1 = 1
  two : g Scalar.two = Scalar.two

namespace KeepsConstants

variable [Scalar α] [Scalar β] {g : α → β} (hg : KeepsConstants g)

include hg

theorem map_zero : (0 : Tree α).map g = 0 := congrArg Tree.num hg.zero

theorem map_one : (1 : Tree α).map g = 1 := congrArg Tree.num hg.one

theorem map_two : (Tree.two : Tree α).map g = Tree.two := congrArg Tree.num hg.two

theorem operator_derivative (name : String) (o : Operator) (l r dl dr : Tree α) :
    o.derivative name (l.map g) (r.map g) (dl.map g) (dr.map g) =
      (o.derivative name l r dl dr).map (Tree.map g) := by
  cases o with
  | div =>
    simp only [Operator.derivative, Except.map, Tree.map_div, Tree.map_sub, Tree.map_mul,
      Tree.map_pow, hg.map_two]
  | pow =>
    simp only [Operator.derivative, Tree.mentions_map]
    split
    · simp only [Except.map, Tree.map_mul, Tree.map_pow, Tree.map_sub, hg.map_one]
    · split <;> rfl
  | _ => rfl

theorem func_derivative (f : Func) (u du : Tree α) :
    f.derivative (u.map g) (du.map g) = (f.derivative u du).map (Tree.map g) := by
  cases f <;>
    simp only [Func.derivative, Except.map, Tree.map_add, Tree.map_sub, Tree.map_mul, Tree.map_div,
      Tree.map_neg, Tree.map_pow, Tree.map_call, hg.map_one, hg.map_two]

end KeepsConstants

namespace Tree

theorem derivative_map [Scalar α] [Scalar β] {g : α → β} (hg : KeepsConstants g) (name : String)
    (t : Tree α) : (t.map g).derivative name = (t.derivative name).map (map g) := by
  induction t using Tree.derivative.induct with
  | case1 x cs => exact congrArg Except.ok hg.map_zero.symm
  | case2 v cs =>
    rw [map, Label.map, derivative, derivative, Except.map]
    split
    · rw [hg.map_one]
    · rw [hg.map_zero]
  | case3 o t ih =>
    rw [derivative]
    exact bind_eq_map ih fun d => rfl
  | case4 o l r ihl ihr =>
    rw [derivative]
    exact bind_eq_map ihl fun dl => bind_eq_map ihr fun dr =>
      hg.operator_derivative name o l r dl dr
  | case5 o cs hone htwo =>
    rw [map, Label.map, derivative, derivative, length_mapAll]
    · rfl
    · exact hone
    · exact htwo
    · exact mapAll_ne_one hone
    · exact mapAll_ne_two htwo
  | case6 f u ih =>
    rw [derivative]
    exact bind_eq_map ih fun du => hg.func_derivative f u du
  | case7 f cs hone =>
    rw [map, Label.map, derivative, derivative, length_mapAll]
    · rfl
    · exact hone
    · exact mapAll_ne_one hone

/-! ### Printing and lowering -/

section

variable [Numeral α] [Numeral β] {g : α → β}

theorem writeNode_map (hg : ∀ x, Numeral.parts (g x) = Numeral.parts x) (l : Label α)
    (texts : List (List Char)) : writeNode (l.map g) texts = writeNode l texts := by
  cases l with
  | operator o =>
    match texts with
    | [] => rfl
    | [_] => rfl
    | [_, _] => rfl
    | _ :: _ :: _ :: _ => rfl
  | num x => simp only [Label.map, writeNode, writeNumber, hg]
  | _ => rfl

mutual

theorem write_map (hg : ∀ x, Numeral.parts (g x) = Numeral.parts x) :
    ∀ t : Tree α, (t.map g).write = t.write
  | .node l cs => by rw [map, write, write, writeNode_map hg, writeAll_map hg cs]

theorem writeAll_map (hg : ∀ x, Numeral.parts (g x) = Numeral.parts x) :
    ∀ ts : List (Tree α), writeAll (mapAll g ts) = writeAll ts
  | [] => rfl
  | t :: ts => by rw [mapAll, writeAll, writeAll, write_map hg t, writeAll_map hg ts]

end

theorem text_map (hg : ∀ x, Numeral.parts (g x) = Numeral.parts x) (t : Tree α) :
    (t.map g).text = t.text :=
  congrArg String.ofList (write_map hg t)

theorem toShader_map (hg : ∀ x, Numeral.parts (g x) = Numeral.parts x) (m : Mode)
    (t : Tree α) : (t.map g).toShader m = t.toShader m := by
  induction t using Tree.toShader.induct m with
  | case1 x cs => rw [map, Label.map, toShader, toShader, hg]
  | case2 name cs h => rfl
  | case3 name cs h => rfl
  | case4 o t ih => exact congrArg (· >>= _) ih
  | case5 l r => rfl
  | case6 o l r ho ihl ihr =>
    rw [map, Label.map, mapAll, mapAll, mapAll, toShader, toShader, ihl, ihr]
    · exact ho
    · exact ho
  | case7 o cs hone hunknown htwo =>
    rw [map, Label.map, toShader, toShader, length_mapAll]
    · exact hone
    · exact hunknown
    · exact htwo
    · exact mapAll_ne_one hone
    · exact fun u v h => absurd h (mapAll_ne_two htwo u v)
    · exact mapAll_ne_two htwo
  | case8 u => rfl
  | case9 f u hf ih =>
    rw [map, Label.map, mapAll, mapAll, toShader, toShader, ih]
    · exact hf
    · exact hf
  | case10 f cs hunknown hone =>
    rw [map, Label.map, toShader, toShader, length_mapAll]
    · exact hunknown
    · exact hone
    · exact fun u h => absurd h (mapAll_ne_one hone u)
    · exact mapAll_ne_one hone

theorem lower_map (hg : ∀ x, Numeral.parts (g x) = Numeral.parts x) (m : Mode) (t : Tree α) :
    (t.map g).lower m = t.lower m :=
  congrArg (Except.map ShaderTerm.text) (toShader_map hg m t)

end

end Tree

end FractalFormula
