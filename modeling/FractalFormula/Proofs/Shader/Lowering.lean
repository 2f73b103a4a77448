import FractalFormula.Evaluation.Evaluate
import FractalFormula.Proofs.Decimal.Layout
import FractalFormula.Proofs.Except
import FractalFormula.Proofs.Shader.Reading
import FractalFormula.Proofs.Tree.Nodes
import FractalFormula.Shader.Lowering
import FractalFormula.Shader.Prelude

/-!
# Lowering keeps meaning

The shader expression of a tree has exactly one reading, which calls what the prelude defines,
leaves free what the mode allows, and has the value of the tree (`Tree.lower_faithful`). The
induction is over the lowering itself: each node adds one call to the readings of its children.
-/

namespace FractalFormula

/-! ### Intrinsics -/

theorem isName_intrinsic_operator : ∀ o ∈ Operator.all, o ≠ .unknown →
    (IsName o.intrinsic.toList ∧ o.intrinsic.toList ≠ vec2.1) ∧ Prelude.defines o.intrinsic := by
  decide

theorem isName_intrinsic_func : ∀ f ∈ Func.all, f ≠ .unknown →
    (IsName f.intrinsic.toList ∧ f.intrinsic.toList ≠ vec2.1) ∧ Prelude.defines f.intrinsic := by
  decide

theorem find?_intrinsic_operator : ∀ o ∈ Operator.all, o ≠ .unknown →
    (Operator.all.find? fun p => p ≠ .unknown ∧ p.intrinsic = o.intrinsic) = some o := by
  decide

theorem find?_intrinsic_func : ∀ f ∈ Func.all, f ≠ .unknown →
    (Func.all.find? fun g => g ≠ .unknown ∧ g.intrinsic = f.intrinsic) = some f := by
  decide

theorem Operator.mem_all (o : Operator) : o ∈ Operator.all := by cases o <;> decide

theorem Func.mem_all (f : Func) : f ∈ Func.all := by cases f <;> decide

theorem applyIntrinsic?_operator {o : Operator} (ho : o ≠ .unknown) (z w : ComplexFloat) :
    applyIntrinsic? o.intrinsic [z, w] = Scalar.operate? o z w := by
  rw [applyIntrinsic?, find?_intrinsic_operator o o.mem_all ho, Option.bind_some]

theorem applyIntrinsic?_func {f : Func} (hf : f ≠ .unknown) (z : ComplexFloat) :
    applyIntrinsic? f.intrinsic [z] = some (Scalar.apply f z) := by
  rw [applyIntrinsic?, find?_intrinsic_func f f.mem_all hf, Option.map_some]

/-! ### Readings of nodes -/

theorem writeFloat_spec {x : Float} (hx : x.isFinite) :
    IsFloatText (ShaderTerm.writeFloat x) ∧
      Decimal.readFloat? (ShaderTerm.writeFloat x) = some x := by
  obtain ⟨negative, text, htext, hlit, hmem, hread⟩ := Decimal.literal_spec hx
  have hwrite : ShaderTerm.writeFloat x = Decimal.literal x := by
    rw [ShaderTerm.writeFloat, Binary64.isNaN_of_isFinite hx, Binary64.isInf_of_isFinite hx]
    rfl
  rw [hwrite]
  exact ⟨⟨negative, text, htext, hlit, hmem⟩, hread⟩

/-- The text of a float with a point. -/
def floatText (whole fraction : String) (hne : whole.toList ≠ [])
    (hwhole : whole.toList.all Char.isDigit) (hfraction : fraction.toList.all Char.isDigit) :
    FloatText :=
  ⟨whole.toList ++ '.' :: fraction.toList, false, _, rfl,
    ⟨_, [], .point (List.all_eq_true.mp hwhole) hne (List.all_eq_true.mp hfraction), .absent,
      (List.append_nil _).symm⟩, .inl (by simp)⟩

/-- The text of zero. -/
def zeroText : FloatText := floatText "0" "0" (by decide) (by decide) (by decide)

theorem readFloat?_zeroText : Decimal.readFloat? zeroText.1 = some 0.0 := by decide +kernel

/-- The names of a tree and of its reading have the same values: the constants their own, and each
variable one that has the type which the mode gives it. -/
structure Agrees (m : Mode) (value? : String → Option ComplexFloat) (scope : ShaderScope) :
    Prop where
  constant : ∀ name ∈ Mode.constants, value? name = Numeral.constant? name
  point : m = .singleComplex → ∀ name ∈ m.coordinates,
    ∃ z, value? name = some z ∧ scope.vector? name = some z
  coordinate : m = .twoReal → ∀ name ∈ m.coordinates,
    ∃ x, value? name = some ⟨x, 0.0⟩ ∧ scope.float? name = some x

/-- The reading calls what there is, leaves variables of the mode free, and has the value of the
tree whenever the names agree. -/
structure Means (m : Mode) (t : Tree ComplexFloat) (d : ShaderReading .expression) : Prop where
  calls : ∀ f ∈ d.calls, f = "vec2" ∨ Prelude.defines f
  names : ∀ name ∈ d.names, name ∈ m.coordinates
  value : ∀ {value? scope}, Agrees m value? scope →
    ∃ z, t.evaluateWith value? = .ok z ∧ d.value? scope = some z

namespace Means

variable {m : Mode}

/-- The words are a vector of two texts of floats, which read as the parts of `z`. -/
def Denotes (words : List Char) (z : ComplexFloat) : Prop :=
  ∃ re im : FloatText, words = ShaderTerm.writeVector re.1 im.1 ∧
    Decimal.readFloat? re.1 = some z.re ∧ Decimal.readFloat? im.1 = some z.im

theorem denotes_constant {re im : Float} (hre : re.isFinite) (him : im.isFinite) :
    Denotes (ShaderTerm.constant re im).write ⟨re, im⟩ := by
  obtain ⟨hretext, hreread⟩ := writeFloat_spec hre
  obtain ⟨himtext, himread⟩ := writeFloat_spec him
  exact ⟨⟨_, hretext⟩, ⟨_, himtext⟩, rfl, hreread, himread⟩

theorem denotes_zero : Denotes (ShaderTerm.literal "vec2(0.0, 0.0)").write ⟨0.0, 0.0⟩ :=
  ⟨zeroText, zeroText, rfl, readFloat?_zeroText, readFloat?_zeroText⟩

/-- The words for a predeclared constant read as the value that evaluation gives it. -/
theorem denotes_named {name : String} (hname : name ∈ Mode.constants) :
    ∃ z, Numeral.constant? name = some z ∧ Denotes (m.variableTerm name).write z := by
  simp only [Mode.constants, List.mem_cons, List.not_mem_nil, or_false] at hname
  obtain rfl | rfl | rfl := hname
  · exact ⟨⟨Elementary.pi, 0.0⟩, rfl,
      floatText "3" "141592653589793" (by decide) (by decide) (by decide), zeroText, rfl,
      by decide +kernel, readFloat?_zeroText⟩
  · exact ⟨⟨Elementary.e, 0.0⟩, rfl,
      floatText "2" "718281828459045" (by decide) (by decide) (by decide), zeroText, rfl,
      by decide +kernel, readFloat?_zeroText⟩
  · exact ⟨⟨0.0, 1.0⟩, rfl, zeroText, floatText "1" "0" (by decide) (by decide) (by decide), rfl,
      readFloat?_zeroText, by decide +kernel⟩

theorem Denotes.exists_reading {words : List Char} {z : ComplexFloat} (h : Denotes words z) :
    ∃ d : ShaderReading .expression, d.text = words ∧ d.calls = ["vec2"] ∧ d.names = [] ∧
      ∀ scope, d.value? scope = some z := by
  obtain ⟨re, im, rfl, hre, him⟩ := h
  refine ⟨.vector re im, rfl, rfl, rfl, fun scope => ?_⟩
  simp only [ShaderReading.value?, hre, him]
  rfl

/-- A leaf with a value that does not depend on the names, in words that read as this value. -/
theorem exists_leaf {t : Tree ComplexFloat} {words : List Char} {z : ComplexFloat}
    (hwords : Denotes words z)
    (ht : ∀ {value? scope}, Agrees m value? scope → t.evaluateWith value? = .ok z) :
    ∃ d : ShaderReading .expression, d.text = words ∧ Means m t d := by
  obtain ⟨d, htext, hcalls, hnames, hvalue⟩ := hwords.exists_reading
  refine ⟨d, htext, ?_, ?_, fun h => ⟨z, ht h, hvalue _⟩⟩
  · rw [hcalls]
    exact fun f hf => Or.inl (List.mem_singleton.mp hf)
  · rw [hnames]
    exact fun name hname => nomatch hname

theorem exists_number {x : ComplexFloat} (hx : Scalar.isFinite x) (cs : List (Tree ComplexFloat)) :
    ∃ d : ShaderReading .expression, d.text = (ShaderTerm.constant x.re x.im).write ∧
      Means m (.node (.num x) cs) d := by
  obtain ⟨hre, him⟩ := Bool.and_eq_true_iff.mp hx
  exact exists_leaf (denotes_constant hre him) fun _ => rfl

theorem exists_named {name : String} (hname : name ∈ Mode.constants)
    (cs : List (Tree ComplexFloat)) :
    ∃ d : ShaderReading .expression, d.text = (m.variableTerm name).write ∧
      Means m (.node (.var name) cs) d := by
  obtain ⟨z, hvalue, hwords⟩ := denotes_named (m := m) hname
  refine exists_leaf hwords fun h => ?_
  rw [Tree.evaluateWith, h.constant name hname, hvalue]

theorem isName_coordinate : ∀ m ∈ Mode.all, ∀ name ∈ m.coordinates, IsName name.toList := by
  decide

theorem not_mem_constants : ∀ m ∈ Mode.all, ∀ name ∈ m.coordinates, name ∉ Mode.constants := by
  decide

/-- A variable stands bare if it is a vector, and in a vector of its own if it is a float. -/
theorem exists_variable {name : String} (hname : name ∈ m.coordinates)
    (cs : List (Tree ComplexFloat)) :
    ∃ d : ShaderReading .expression, d.text = (m.variableTerm name).write ∧
      Means m (.node (.var name) cs) d := by
  have hm : m ∈ Mode.all := by cases m <;> decide
  have hword := isName_coordinate m hm name hname
  have hconst := not_mem_constants m hm name hname
  simp only [Mode.constants, List.mem_cons, List.not_mem_nil, or_false, not_or] at hconst
  obtain ⟨hpi, he, hi⟩ := hconst
  simp only [Mode.variableTerm, if_neg hpi, if_neg he, if_neg hi]
  cases m with
  | singleComplex =>
    refine ⟨.bare ⟨_, hword⟩, rfl, ?_, ?_, fun {value? scope} h => ?_⟩
    · exact fun f hf => nomatch hf
    · intro name' hname'
      rw [List.mem_singleton.mp hname', String.ofList_toList]
      exact hname
    · obtain ⟨z, hz, hscope⟩ := h.point rfl name hname
      refine ⟨z, ?_, ?_⟩
      · rw [Tree.evaluateWith, hz]
      · rw [ShaderReading.value?, String.ofList_toList, hscope]
  | twoReal =>
    refine ⟨.wrapped ⟨_, hword⟩, rfl, ?_, ?_, fun {value? scope} h => ?_⟩
    · exact fun f hf => Or.inl (List.mem_singleton.mp hf)
    · intro name' hname'
      rw [List.mem_singleton.mp hname', String.ofList_toList]
      exact hname
    · obtain ⟨x, hx, hscope⟩ := h.coordinate rfl name hname
      refine ⟨⟨x, 0.0⟩, ?_, ?_⟩
      · rw [Tree.evaluateWith, hx]
      · rw [ShaderReading.value?, String.ofList_toList, hscope, Option.map_some]

/-- The call of an operator's intrinsic on two readings. -/
theorem exists_operate {o : Operator} (ho : o ≠ .unknown) (d e : ShaderReading .expression)
    {left right : ShaderTerm} (hd : d.text = left.write) (he : e.text = right.write) :
    ∃ c : ShaderReading .expression, c.text = (ShaderTerm.operate o left right).write ∧
      c.calls = o.intrinsic :: (d.calls ++ e.calls) ∧ c.names = d.names ++ e.names ∧
      ∀ {scope z w}, d.value? scope = some z → e.value? scope = some w →
        c.value? scope = Scalar.operate? o z w := by
  obtain ⟨⟨hname, hvec⟩, -⟩ := isName_intrinsic_operator o o.mem_all ho
  refine ⟨.call ⟨⟨_, hname⟩, fun h => hvec (congrArg Subtype.val h)⟩ (.more d (.last e)), ?_, ?_,
    rfl, ?_⟩
  · simp only [ShaderReading.text, hd, he, ShaderTerm.write, List.append_assoc, List.cons_append]
    rfl
  · simp only [ShaderReading.calls, String.ofList_toList]
  · intro scope z w hz hw
    simp only [ShaderReading.value?, hz, hw, String.ofList_toList, Option.map_some]
    exact applyIntrinsic?_operator ho z w

theorem binary {o : Operator} (ho : o ≠ .unknown) {l r : Tree ComplexFloat}
    {d e : ShaderReading .expression} {left right : ShaderTerm} (hd : d.text = left.write)
    (he : e.text = right.write) (hl : Means m l d) (hr : Means m r e) :
    ∃ c : ShaderReading .expression, c.text = (ShaderTerm.operate o left right).write ∧
      Means m (.node (.operator o) [l, r]) c := by
  obtain ⟨c, htext, hcalls, hnames, hvalue⟩ := exists_operate ho d e hd he
  refine ⟨c, htext, ?_, ?_, fun {value? scope} h => ?_⟩
  · rw [hcalls]
    intro f hf
    obtain rfl | hf := List.mem_cons.mp hf
    · exact Or.inr (isName_intrinsic_operator o o.mem_all ho).2
    · exact (List.mem_append.mp hf).elim (hl.calls f) (hr.calls f)
  · rw [hnames]
    exact fun name hname => (List.mem_append.mp hname).elim (hl.names name) (hr.names name)
  · obtain ⟨z, hz, hdz⟩ := hl.value h
    obtain ⟨w, hw, hew⟩ := hr.value h
    obtain ⟨v, hv⟩ : ∃ v, Scalar.operate? o z w = some v := by
      cases o with
      | unknown => exact absurd rfl ho
      | _ => exact ⟨_, rfl⟩
    refine ⟨v, ?_, (hvalue hdz hew).trans hv⟩
    simp only [Tree.evaluateWith, hz, hw, bind, Except.bind, hv]
    rfl

/-- A negation is the difference from a zero that is written out. -/
theorem negation (o : Operator) {t : Tree ComplexFloat} {d : ShaderReading .expression}
    {operand : ShaderTerm} (hd : d.text = operand.write) (ht : Means m t d) :
    ∃ c : ShaderReading .expression,
      c.text = (ShaderTerm.operate .sub (.literal "vec2(0.0, 0.0)") operand).write ∧
      Means m (.node (.operator o) [t]) c := by
  obtain ⟨zero, hzero, hzcalls, hznames, hzvalue⟩ := denotes_zero.exists_reading
  obtain ⟨c, htext, hcalls, hnames, hvalue⟩ :=
    exists_operate (o := .sub) (by decide) zero d hzero hd
  refine ⟨c, htext, ?_, ?_, fun {value? scope} h => ?_⟩
  · rw [hcalls, hzcalls]
    intro f hf
    obtain rfl | hf := List.mem_cons.mp hf
    · exact Or.inr (by decide)
    · obtain rfl | hf := List.mem_cons.mp hf
      · exact Or.inl rfl
      · exact ht.calls f hf
  · rw [hnames, hznames]
    exact ht.names
  · obtain ⟨z, hz, hdz⟩ := ht.value h
    refine ⟨Scalar.negated z, ?_, hvalue (hzvalue scope) hdz⟩
    simp only [Tree.evaluateWith, hz, bind, Except.bind]
    rfl

theorem apply {f : Func} (hf : f ≠ .unknown) {t : Tree ComplexFloat}
    {d : ShaderReading .expression} {argument : ShaderTerm} (hd : d.text = argument.write)
    (ht : Means m t d) :
    ∃ c : ShaderReading .expression, c.text = (ShaderTerm.apply f argument).write ∧
      Means m (.node (.func f) [t]) c := by
  obtain ⟨⟨hname, hvec⟩, hdefines⟩ := isName_intrinsic_func f f.mem_all hf
  refine ⟨.call ⟨⟨_, hname⟩, fun h => hvec (congrArg Subtype.val h)⟩ (.last d), ?_, ?_, ht.names,
    fun {value? scope} h => ?_⟩
  · simp only [ShaderReading.text, hd, ShaderTerm.write]
  · intro g hg
    obtain rfl | hg := List.mem_cons.mp hg
    · rw [String.ofList_toList]
      exact Or.inr hdefines
    · exact ht.calls g hg
  · obtain ⟨z, hz, hdz⟩ := ht.value h
    refine ⟨Scalar.apply f z, ?_, ?_⟩
    · cases f with
      | unknown => exact absurd rfl hf
      | _ =>
        simp only [Tree.evaluateWith, hz, bind, Except.bind]
        rfl
    · simp only [ShaderReading.value?, hdz, String.ofList_toList, Option.map_some]
      exact applyIntrinsic?_func hf z

end Means

/-! ### Trees -/

theorem Tree.numbers_binary {l : Label ComplexFloat} {left right : Tree ComplexFloat}
    {x : ComplexFloat} (h : x ∈ left.numbers ∨ x ∈ right.numbers) :
    x ∈ (Tree.node l [left, right]).numbers := by
  cases l <;> simp [numbers, numbersAll, h]

theorem Tree.numbers_unary {l : Label ComplexFloat} {t : Tree ComplexFloat} {x : ComplexFloat}
    (h : x ∈ t.numbers) : x ∈ (Tree.node l [t]).numbers := by
  cases l <;> simp [numbers, numbersAll, h]

theorem Tree.exists_means {m : Mode} {t : Tree ComplexFloat} {term : ShaderTerm}
    (hfinite : ∀ x ∈ t.numbers, Scalar.isFinite x) (h : t.toShader m = .ok term) :
    ∃ d : ShaderReading .expression, d.text = term.write ∧ Means m t d := by
  induction t using Tree.toShader.induct m generalizing term with
  | case1 x cs =>
    obtain rfl := Except.ok.inj h
    exact Means.exists_number (hfinite x (by simp [numbers])) cs
  | case2 name cs hallows =>
    rw [toShader, if_pos hallows] at h
    obtain rfl := Except.ok.inj h
    obtain hname | hname := List.mem_append.mp (List.contains_iff_mem.mp hallows)
    · exact Means.exists_variable hname cs
    · exact Means.exists_named hname cs
  | case3 name cs hallows =>
    rw [toShader, if_neg hallows] at h
    cases h
  | case4 o operand ih =>
    rw [toShader] at h
    obtain ⟨a, ha, h⟩ := bind_eq_ok h
    obtain rfl := Except.ok.inj h
    obtain ⟨d, hd, hmeans⟩ := ih (fun x hx => hfinite x (numbers_unary hx)) ha
    exact hmeans.negation o hd
  | case5 left right => cases h
  | case6 o left right ho ihl ihr =>
    rw [toShader] at h
    · obtain ⟨a, ha, h⟩ := bind_eq_ok h
      obtain ⟨b, hb, h⟩ := bind_eq_ok h
      obtain rfl := Except.ok.inj h
      obtain ⟨d, hd, hl⟩ := ihl (fun x hx => hfinite x (numbers_binary (Or.inl hx))) ha
      obtain ⟨e, he, hr⟩ := ihr (fun x hx => hfinite x (numbers_binary (Or.inr hx))) hb
      exact Means.binary ho hd he hl hr
    · exact ho
  | case7 o cs hone hunknown htwo =>
    rw [toShader] at h
    · cases h
    · exact hone
    · exact hunknown
    · exact htwo
  | case8 argument => cases h
  | case9 f argument hf ih =>
    rw [toShader] at h
    · obtain ⟨a, ha, h⟩ := bind_eq_ok h
      obtain rfl := Except.ok.inj h
      obtain ⟨d, hd, hmeans⟩ := ih (fun x hx => hfinite x (numbers_unary hx)) ha
      exact hmeans.apply hf hd
    · exact hf
  | case10 f cs hunknown hone =>
    rw [toShader] at h
    · cases h
    · exact hunknown
    · exact hone

/-! ### Bindings -/

/-- The values of a mode's variables: vectors or floats. -/
@[reducible] def Mode.Value : Mode → Type
  | singleComplex => ComplexFloat
  | twoReal => Float

/-- The value of a variable as a complex number. -/
def Mode.toComplex : (m : Mode) → m.Value → ComplexFloat
  | singleComplex, z => z
  | twoReal, x => ⟨x, 0.0⟩

/-- The variables of a mode in the scope of the shader expression. -/
def Mode.scope : (m : Mode) → Bindings m.Value → ShaderScope
  | singleComplex, b => ⟨b.get?, fun _ => none⟩
  | twoReal, b => ⟨fun _ => none, b.get?⟩

/-- The variables of a mode, bound on top of the constants. -/
def Mode.bindings (m : Mode) (b : Bindings m.Value) : Bindings ComplexFloat :=
  Bindings.constants.bindAll (b.toList.map fun entry => (entry.1, m.toComplex entry.2))

/-- A name that is not bound on top has the value of its constant. -/
theorem Mode.get?_bindings (m : Mode) (b : Bindings m.Value) (name : String) :
    (m.bindings b).get? name = ((b.get? name).map m.toComplex).or
      ((Bindings.constants : Bindings ComplexFloat).get? name) := by
  rw [bindings, Bindings.get?, Bindings.stack_bindAll, Bindings.toList, ← List.map_reverse,
    List.reverse_reverse, List.find?_append, List.find?_map, Option.map_or, Bindings.get?,
    Bindings.get?]
  congr 1
  simp only [Option.map_map]
  rfl

theorem get?_constants : ∀ name ∈ Mode.constants,
    (Bindings.constants : Bindings ComplexFloat).get? name = Numeral.constant? name := by
  decide

theorem Mode.agrees {m : Mode} {b : Bindings m.Value}
    (hb : ∀ name, (b.get? name).isSome ↔ name ∈ m.coordinates) :
    Agrees m (m.bindings b).get? (m.scope b) := by
  have hm : m ∈ Mode.all := by cases m <;> decide
  refine ⟨fun name hname => ?_, ?_, ?_⟩
  · have hnone : b.get? name = none := by
      rw [← Option.not_isSome_iff_eq_none, hb name]
      exact fun h => Means.not_mem_constants m hm name h hname
    rw [get?_bindings, hnone, ← get?_constants name hname]
    rfl
  · rintro rfl name hname
    obtain ⟨z, hz⟩ := Option.isSome_iff_exists.mp ((hb name).mpr hname)
    exact ⟨z, by rw [get?_bindings, hz]; rfl, hz⟩
  · rintro rfl name hname
    obtain ⟨x, hx⟩ := Option.isSome_iff_exists.mp ((hb name).mpr hname)
    exact ⟨x, by rw [get?_bindings, hx]; rfl, hx⟩

/-! ### Shader expressions -/

/-- The text has the reading and no other, in which every called name is `vec2` or defined by the
prelude, every free name is a variable of the mode, and the value is that of the tree for all
values of the variables. -/
structure Faithful (m : Mode) (t : Tree ComplexFloat) (text : String)
    (d : ShaderReading .expression) : Prop where
  reads : d.text = text.toList
  unique : ∀ d' : ShaderReading .expression, d'.text = text.toList → d' = d
  calls : ∀ f ∈ d.calls, f = "vec2" ∨ Prelude.defines f
  names : ∀ name ∈ d.names, m.allows name ∧ name ∈ m.coordinates
  value : ∀ b : Bindings m.Value, (∀ name, (b.get? name).isSome ↔ name ∈ m.coordinates) →
    ∃ z, t.evaluate (m.bindings b) = .ok z ∧ d.value? (m.scope b) = some z

/-- The shader expression of a tree with finite numbers is faithful to the tree. -/
theorem Tree.lower_faithful (m : Mode) (t : Tree ComplexFloat) (text : String)
    (hfinite : ∀ x ∈ t.numbers, Scalar.isFinite x) (h : t.lower m = .ok text) :
    ∃ d, Faithful m t text d := by
  obtain ⟨term, hterm, rfl⟩ : ∃ term, t.toShader m = .ok term ∧ term.text = text := by
    rw [lower] at h
    cases hterm : t.toShader m with
    | error error =>
      rw [hterm] at h
      nomatch h
    | ok term =>
      rw [hterm] at h
      exact ⟨term, rfl, Except.ok.inj h⟩
  obtain ⟨d, htext, hmeans⟩ := exists_means hfinite hterm
  have hreads : d.text = term.text.toList := by rw [htext, ShaderTerm.text, String.toList_ofList]
  refine ⟨d, hreads, fun d' hd' => ShaderReading.eq_of_text_eq (hd'.trans hreads.symm),
    hmeans.calls, fun name hname => ?_, fun b hb => hmeans.value (Mode.agrees hb)⟩
  have hname := hmeans.names name hname
  exact ⟨List.contains_iff_mem.mpr (List.mem_append_left _ hname), hname⟩

/-- A number, a negation and a coordinate. -/
theorem Tree.lower_faithful_twoReal :
    (Tree.binary .mul (.num (⟨-1.5e-7, 2.0⟩ : ComplexFloat)) (.negation (.var "cx"))).lower
        .twoReal = .ok "cmul(vec2(-1.5e-7, 2.0), csub(vec2(0.0, 0.0), vec2(cx, 0.0)))" ∧
      ∃ d, Faithful .twoReal
        (Tree.binary .mul (.num (⟨-1.5e-7, 2.0⟩ : ComplexFloat)) (.negation (.var "cx")))
        "cmul(vec2(-1.5e-7, 2.0), csub(vec2(0.0, 0.0), vec2(cx, 0.0)))" d := by
  have h : (Tree.binary .mul (.num (⟨-1.5e-7, 2.0⟩ : ComplexFloat)) (.negation (.var "cx"))).lower
      .twoReal = .ok "cmul(vec2(-1.5e-7, 2.0), csub(vec2(0.0, 0.0), vec2(cx, 0.0)))" := by
    decide +kernel
  exact ⟨h, lower_faithful _ _ _ (by decide) h⟩

end FractalFormula
