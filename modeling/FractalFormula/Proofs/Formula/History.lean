import Mathlib
import FractalFormula.Formula
import FractalFormula.Proofs.Except
import FractalFormula.Proofs.Tree.Equality
import FractalFormula.Scalar.ComplexFloat

/-!
# Formulas over their history

A formula is valid if building one from its text, mode and number of passes yields it. Every new
formula is valid, and an edit of a valid formula does what building a formula from what it asks
for does (`Valid.edited_eq`), although a change of the mode does not parse again. So a formula is
valid after any edits, and nothing of its history can be seen in it.
-/

namespace FractalFormula.Formula

variable {α : Type _} [Numeral α]

/-! ### Building -/

theorem build_eq_ok_iff {source : String} {mode : Mode} {passes : Nat} {f : Formula α} :
    build source mode passes = .ok f ↔
      Tree.parse source = .ok f.tree ∧ f.tree.lower mode = .ok f.shaderText ∧
        f.source = source ∧ f.mode = mode ∧ f.passes = passes := by
  constructor
  · intro h
    obtain ⟨⟨tree, shaderText⟩, hcompile, h⟩ := bind_eq_ok h
    obtain ⟨tree', htree, hcompile⟩ := bind_eq_ok hcompile
    obtain ⟨shaderText', hshader, hcompile⟩ := bind_eq_ok hcompile
    obtain ⟨rfl, rfl⟩ := Prod.mk.inj (Except.ok.inj hcompile)
    obtain rfl := Except.ok.inj h
    exact ⟨htree, hshader, rfl, rfl, rfl⟩
  · rintro ⟨htree, hshader, rfl, rfl, rfl⟩
    simp only [build, compile, htree, hshader, bind, Except.bind]
    rfl

/-- Parsing and lowering succeed exactly if a formula can be built. -/
theorem exists_build_iff {source : String} {mode : Mode} (passes : Nat) :
    (∃ f : Formula α, build source mode passes = .ok f) ↔
      ∃ (t : Tree α) (shaderText : String), Tree.parse source = .ok t ∧
        t.lower mode = .ok shaderText := by
  constructor
  · rintro ⟨f, h⟩
    obtain ⟨htree, hshader, -⟩ := build_eq_ok_iff.mp h
    exact ⟨_, _, htree, hshader⟩
  · rintro ⟨t, shaderText, htree, hshader⟩
    exact ⟨⟨source, t, shaderText, mode, passes⟩,
      build_eq_ok_iff.mpr ⟨htree, hshader, rfl, rfl, rfl⟩⟩

/-! ### Edits -/

/-- The text that a formula is asked to have. -/
def Edit.source (f : Formula α) : Edit → String
  | .text source => source
  | .mode _ => f.source

/-- The mode that a formula is asked to have. -/
def Edit.target (f : Formula α) : Edit → Mode
  | .text _ => f.mode
  | .mode target => target

/-- The formula is what is built from its text, its mode and its number of passes. -/
def Valid (f : Formula α) : Prop := build f.source f.mode f.passes = .ok f

theorem valid_of_build {source : String} {mode : Mode} {passes : Nat} {f : Formula α}
    (h : build source mode passes = .ok f) : f.Valid := by
  obtain ⟨-, -, rfl, rfl, rfl⟩ := build_eq_ok_iff.mp h
  exact h

/-- An edit of a valid formula builds the formula that it asks for. -/
theorem Valid.edited_eq {f : Formula α} (h : f.Valid) (e : Edit) :
    f.edited e = build (e.source f) (e.target f) f.passes := by
  cases e with
  | text source => rfl
  | mode mode =>
    obtain ⟨htree, -⟩ := build_eq_ok_iff.mp h
    simp only [edited, Edit.source, Edit.target, build, compile, htree, bind, Except.bind]
    cases f.tree.lower mode with
    | error error => rfl
    | ok shaderText => rfl

theorem edit_of_ok {f g : Formula α} {e : Edit} (h : f.edited e = .ok g) :
    f.edit e = (g, none) := by
  rw [edit, h]

theorem edit_of_error {f : Formula α} {e : Edit} {error : Error} (h : f.edited e = .error error) :
    f.edit e = (f, some error) := by
  rw [edit, h]

theorem Valid.edit {f : Formula α} (h : f.Valid) (e : Edit) :
    (f.edit e).1.Valid ∧ (f.edit e).1.passes = f.passes := by
  have hedited := h.edited_eq e
  cases hresult : f.edited e with
  | error error =>
    rw [edit_of_error hresult]
    exact ⟨h, rfl⟩
  | ok g =>
    rw [hresult] at hedited
    obtain ⟨-, -, -, -, hpasses⟩ := build_eq_ok_iff.mp hedited.symm
    rw [edit_of_ok hresult]
    exact ⟨valid_of_build hedited.symm, hpasses⟩

/-- The formula after edits one after the other, refused ones among them. -/
def run (f : Formula α) (edits : List Edit) : Formula α :=
  edits.foldl (fun f e => (f.edit e).1) f

theorem Valid.run {f : Formula α} (h : f.Valid) (edits : List Edit) :
    (f.run edits).Valid ∧ (f.run edits).passes = f.passes := by
  induction edits generalizing f with
  | nil => exact ⟨h, rfl⟩
  | cons e edits ih =>
    obtain ⟨hvalid, hpasses⟩ := h.edit e
    obtain ⟨hvalid', hpasses'⟩ := ih hvalid
    exact ⟨hvalid', hpasses'.trans hpasses⟩

/-- A formula is made from a text, in a mode or under a configuration, with the given number of
passes. -/
inductive New : Formula α → Nat → Prop where
  | ofText {source : String} {mode : Mode} {f : Formula α} :
    ofText source mode = .ok f → New f Config.default.passes
  | ofConfig {source : String} {c : Config} {f : Formula α} :
    ofConfig source c = .ok f → New f c.passes

theorem New.valid {f : Formula α} {passes : Nat} (h : New f passes) :
    f.Valid ∧ f.passes = passes := by
  cases h with
  | ofText h =>
    obtain ⟨-, -, -, -, hpasses⟩ := build_eq_ok_iff.mp h
    exact ⟨valid_of_build h, hpasses⟩
  | ofConfig h =>
    obtain ⟨-, -, -, -, hpasses⟩ := build_eq_ok_iff.mp h
    exact ⟨valid_of_build h, hpasses⟩

/-- What is true of a formula with a history, and of the next edit of it. -/
structure Consistent (f : Formula α) (passes : Nat) : Prop where
  parsed : Tree.parse f.source = .ok f.tree
  lowered : f.tree.lower f.mode = .ok f.shaderText
  kept : f.passes = passes
  /-- A new formula for the same text and mode and with as many passes is the same. -/
  fresh : ∀ c : Config, c.mode = f.mode → c.passes = passes → ofConfig f.source c = .ok f
  /-- An edit that is refused changes nothing. -/
  refused : ∀ e error, (f.edit e).2 = some error → (f.edit e).1 = f
  /-- An edit is made exactly if the text it asks for can be parsed and lowered in the mode it asks
  for. -/
  made : ∀ e, (f.edit e).2 = none ↔ ∃ (t : Tree α) (shaderText : String),
    Tree.parse (e.source f) = .ok t ∧ t.lower (e.target f) = .ok shaderText
  /-- An edit that is made gives the formula the text and the mode it asks for. -/
  requested : ∀ e, (f.edit e).2 = none →
    (f.edit e).1.source = e.source f ∧ (f.edit e).1.mode = e.target f

theorem Valid.consistent {f : Formula α} (h : f.Valid) : f.Consistent f.passes := by
  obtain ⟨htree, hshader, -⟩ := build_eq_ok_iff.mp h
  refine ⟨htree, hshader, rfl, ?_, ?_, ?_, ?_⟩
  · rintro c hmode hpasses
    rw [ofConfig, hmode, hpasses]
    exact h
  · intro e error herror
    cases hresult : f.edited e with
    | error error' => rw [edit_of_error hresult]
    | ok g =>
      rw [edit_of_ok hresult] at herror
      nomatch herror
  · intro e
    rw [← exists_build_iff f.passes, ← h.edited_eq e]
    cases hresult : f.edited e with
    | error error => simp [edit_of_error hresult]
    | ok g => simp [edit_of_ok hresult]
  · intro e hnone
    cases hresult : f.edited e with
    | error error =>
      rw [edit_of_error hresult] at hnone
      nomatch hnone
    | ok g =>
      obtain ⟨-, -, hsource, hmode, -⟩ := build_eq_ok_iff.mp ((h.edited_eq e).symm.trans hresult)
      rw [edit_of_ok hresult]
      exact ⟨hsource, hmode⟩

/-- A formula is consistent after any edits, with the number of passes it was made with. -/
theorem consistent_run {f : Formula α} {passes : Nat} (h : New f passes) (edits : List Edit) :
    (f.run edits).Consistent passes := by
  obtain ⟨hvalid, rfl⟩ := h.valid
  obtain ⟨hvalid', hpasses⟩ := hvalid.run edits
  rw [← hpasses]
  exact hvalid'.consistent

/-- A text and a mode that are taken, among others that are refused. -/
theorem consistent_run_twoReal :
    ∃ f : Formula ComplexFloat, ofText "x + 1" .twoReal = .ok f ∧
      (f.run [.text "x +", .mode .singleComplex, .text "2 pi", .text "2*pi",
        .mode .singleComplex]).Consistent 8 := by
  have h : ∃ f : Formula ComplexFloat, ofText "x + 1" .twoReal = .ok f := by
    refine (exists_build_iff _).mpr ⟨.binary .add (.var "x") (.num ⟨1.0, 0.0⟩), _, ?_, rfl⟩
    decide +kernel
  obtain ⟨f, hf⟩ := h
  exact ⟨f, hf, consistent_run (New.ofText hf) _⟩

end FractalFormula.Formula
