import FractalFormula.Orbit.Grid
import FractalFormula.Proofs.Orbit.Escape
import FractalFormula.Proofs.Orbit.Schedule

/-!
# Grids are computed pixel by pixel

The iteration at a pixel has the parameter in its state, where the iterate stands too. It is the same
iteration as that of a tree whose parameter is bound (`Tree.escapeAt_eq`), so the places of a grid
hold what the iterations of the pixels yield, each on its own.

All pixels that fail do so with the same error, since errors depend on the names that have values and
not on the values (`Tree.pixelEscape_error_unique`). So it does not matter in which order the pixels
have their turn, or which of them reports an error.
-/

namespace FractalFormula.Tree

section

variable {α : Type _} [Numeral α]

/-- A name may as well be set in the state as bound: either way the iterate goes first, and then the
other bindings follow. -/
theorem iterate_set_eq_bind (t : Tree α) (b : Bindings α) (name : String) (x : α) :
    t.iterate b (State.empty.set name x) = t.iterate (b.bind name x) State.empty := by
  funext z
  have hvalues : (fun v => (((State.empty.set name x).set iterateName z).get? v).or (b.get? v)) =
      fun v => ((State.empty.set iterateName z).get? v).or ((b.bind name x).get? v) := by
    funext v
    simp only [State.get?_set, Bindings.get?_bind]
    by_cases hz : iterateName = v
    · simp [hz]
    · by_cases hv : name = v
      · simp [hz, hv, State.empty, State.get?]
      · simp [hz, hv]
  exact congrArg t.evaluateWith hvalues

/-- The value that a name is bound to does not change the error. -/
theorem iterate_bind_eq_error {t : Tree α} {b : Bindings α} {s : State α} {name : String}
    {x y z : α} {e : Error} (h : t.iterate (b.bind name x) s z = .error e) :
    t.iterate (b.bind name y) s z = .error e := by
  refine evaluateWith_eq_error_of_alike (fun v => ?_) h
  simp only [Bindings.get?_bind, Option.isSome_or]
  split <;> rfl

end

variable (t : Tree ComplexFloat) (b : Bindings ComplexFloat) (v : Viewport)
  (rule : EscapeRule ComplexFloat) (role : PlaneRole)

/-- The iteration of a pixel on its own, with its parameter bound if it is one. -/
def pixelEscape (column row : Nat) : Except Error (Escape ComplexFloat) :=
  match role with
  | .parameter => t.escape (b.bind parameterName (v.point column row)) rule rule.seed
  | .dynamic => t.escape b rule (v.point column row)

/-- The iteration of the pixel with the given number, counting row by row. -/
def pixelTask (i : Nat) : Except Error (Escape ComplexFloat) :=
  t.escapeAt b rule role (v.point (i % v.width) (i / v.width))

theorem escapeAt_eq (column row : Nat) :
    t.escapeAt b rule role (v.point column row) = t.pixelEscape b v rule role column row := by
  cases role with
  | parameter =>
    have hstep := t.iterate_set_eq_bind b parameterName (v.point column row)
    exact congrArg (rule.escapeFrom · 0 rule.maxIterations.toNat rule.seed) hstep
  | dynamic => rfl

theorem pixelTask_eq {column : Nat} (hcolumn : column < v.width) (row : Nat) :
    t.pixelTask b v rule role (row * v.width + column) =
      t.pixelEscape b v rule role column row := by
  have hmod : (row * v.width + column) % v.width = column := by
    rw [Nat.mul_add_mod_self_right, Nat.mod_eq_of_lt hcolumn]
  have hdiv : (row * v.width + column) / v.width = row := by
    rw [Nat.mul_comm, Nat.mul_add_div (by omega), Nat.div_eq_of_lt hcolumn, Nat.add_zero]
  rw [pixelTask, hmod, hdiv, escapeAt_eq]

/-- The pixels that fail do so with the same error. -/
theorem pixelEscape_error_unique {column row column' row' : Nat} {e e' : Error}
    (h : t.pixelEscape b v rule role column row = .error e)
    (h' : t.pixelEscape b v rule role column' row' = .error e') : e = e' := by
  cases role with
  | parameter =>
    obtain ⟨-, -, hstep⟩ := (EscapeRule.escapeFrom_eq_error_iff (t.uniform_iterate _ _)).mp h
    obtain ⟨-, -, hstep'⟩ := (EscapeRule.escapeFrom_eq_error_iff (t.uniform_iterate _ _)).mp h'
    exact Except.error.inj ((iterate_bind_eq_error hstep).symm.trans hstep')
  | dynamic =>
    obtain ⟨-, -, hstep⟩ := (EscapeRule.escapeFrom_eq_error_iff (t.uniform_iterate _ _)).mp h
    obtain ⟨-, -, hstep'⟩ := (EscapeRule.escapeFrom_eq_error_iff (t.uniform_iterate _ _)).mp h'
    exact Except.error.inj ((t.uniform_iterate _ _ hstep).symm.trans hstep')

theorem answers_escapeGrid :
    Schedule.Answers (t.pixelTask b v rule role) (v.width * v.height)
      (t.escapeGrid b v rule role) :=
  Schedule.answers_mapM _

/-- Whatever answers for the pixels is the grid. -/
theorem eq_escapeGrid_of_answers {outcome : Except Error (List (Escape ComplexFloat))}
    (h : Schedule.Answers (t.pixelTask b v rule role) (v.width * v.height) outcome) :
    outcome = t.escapeGrid b v rule role := by
  refine h.unique (fun i _ j _ e e' he he' => ?_) (t.answers_escapeGrid b v rule role)
  rw [pixelTask, escapeAt_eq] at he he'
  exact t.pixelEscape_error_unique b v rule role he he'

variable {v}

theorem place_lt {column row : Nat} (hcolumn : column < v.width) (hrow : row < v.height) :
    row * v.width + column < v.width * v.height := by
  have hle : (row + 1) * v.width ≤ v.height * v.width := Nat.mul_le_mul_right _ hrow
  rw [Nat.add_mul, Nat.one_mul, Nat.mul_comm v.height] at hle
  omega

/-- Every place is that of a pixel. -/
theorem exists_pixel {i : Nat} (hi : i < v.width * v.height) :
    i % v.width < v.width ∧ i / v.width < v.height := by
  have hwidth : 0 < v.width := Nat.pos_of_ne_zero fun h => by simp [h] at hi
  exact ⟨Nat.mod_lt i hwidth, Nat.div_lt_of_lt_mul hi⟩

variable {t b rule role}

/-- A grid has the result of every pixel in its place. -/
theorem exists_escape_of_escapeGrid {grid : List (Escape ComplexFloat)}
    (h : t.escapeGrid b v rule role = .ok grid) {column row : Nat} (hcolumn : column < v.width)
    (hrow : row < v.height) : ∃ r, grid[row * v.width + column]? = some r ∧
      t.pixelEscape b v rule role column row = .ok r := by
  have hanswers := t.answers_escapeGrid b v rule role
  rw [h] at hanswers
  obtain ⟨r, hr, htask⟩ := hanswers.getElem?_eq (place_lt hcolumn hrow)
  rw [pixelTask_eq _ _ _ _ _ hcolumn] at htask
  exact ⟨r, hr, htask⟩

theorem length_escapeGrid {grid : List (Escape ComplexFloat)}
    (h : t.escapeGrid b v rule role = .ok grid) : grid.length = v.width * v.height := by
  have hanswers := t.answers_escapeGrid b v rule role
  rw [h] at hanswers
  have hlength := congrArg List.length hanswers.of_ok
  simpa using hlength.symm

/-- A grid fails with the error of any pixel that fails, and only if one does. -/
theorem escapeGrid_eq_error_iff {e : Error} : t.escapeGrid b v rule role = .error e ↔
    ∃ column < v.width, ∃ row < v.height, t.pixelEscape b v rule role column row = .error e := by
  constructor
  · intro h
    have hanswers := t.answers_escapeGrid b v rule role
    rw [h] at hanswers
    obtain ⟨i, hi, htask⟩ := hanswers.exists_of_error
    obtain ⟨hcolumn, hrow⟩ := exists_pixel hi
    rw [pixelTask, escapeAt_eq] at htask
    exact ⟨_, hcolumn, _, hrow, htask⟩
  · rintro ⟨column, hcolumn, row, hrow, he⟩
    rw [← pixelTask_eq _ _ _ _ _ hcolumn] at he
    exact (t.eq_escapeGrid_of_answers b v rule role (.error (place_lt hcolumn hrow) he)).symm

variable (t b v rule role)

/-- A grid, whatever the schedule, is what its pixels yield each on its own, or the one error of all
pixels that fail. -/
theorem escapeGrid_pixelwise :
    (∀ outcome, Schedule.Answers (t.pixelTask b v rule role) (v.width * v.height) outcome →
      outcome = t.escapeGrid b v rule role) ∧
    (∀ order : List Nat, order.Perm (List.range (v.width * v.height)) →
      Schedule.runInOrder (t.pixelTask b v rule role) order (v.width * v.height) =
        t.escapeGrid b v rule role) ∧
    ((t.escapeGrid b v rule role).isOk ↔
      ∀ column < v.width, ∀ row < v.height, (t.pixelEscape b v rule role column row).isOk) ∧
    (∀ grid, t.escapeGrid b v rule role = .ok grid → grid.length = v.width * v.height ∧
      ∀ column < v.width, ∀ row < v.height, ∃ r, grid[row * v.width + column]? = some r ∧
        t.pixelEscape b v rule role column row = .ok r) ∧
    (∀ column < v.width, ∀ row < v.height, ∀ e,
      t.pixelEscape b v rule role column row = .error e →
        t.escapeGrid b v rule role = .error e) := by
  refine ⟨fun outcome => t.eq_escapeGrid_of_answers b v rule role, fun order horder => ?_, ?_,
    fun grid h => ?_, fun column hcolumn row hrow e he => ?_⟩
  · exact t.eq_escapeGrid_of_answers b v rule role (Schedule.answers_runInOrder horder)
  · constructor
    · intro h column hcolumn row hrow
      obtain ⟨grid, hgrid⟩ := isOk_iff.mp h
      obtain ⟨r, -, hr⟩ := exists_escape_of_escapeGrid hgrid hcolumn hrow
      exact isOk_iff.mpr ⟨r, hr⟩
    · intro h
      by_contra hfails
      obtain ⟨e, he⟩ := not_isOk_iff.mp hfails
      obtain ⟨column, hcolumn, row, hrow, hpixel⟩ := escapeGrid_eq_error_iff.mp he
      exact not_isOk_iff.mpr ⟨e, hpixel⟩ (h column hcolumn row hrow)
  · exact ⟨length_escapeGrid h, fun column hcolumn row hrow =>
      exists_escape_of_escapeGrid h hcolumn hrow⟩
  · exact escapeGrid_eq_error_iff.mpr ⟨column, hcolumn, row, hrow, he⟩

/-- A pixel at the origin, and one at two. -/
def twoPixels : Viewport := ⟨1, 4.0, 2, 1⟩

/-- One step within the radius one. -/
def oneStep : EscapeRule ComplexFloat := ⟨1, 1.0, 0⟩

/-- A tree without values for its name, with the pixels in reverse order: the first of them has
escaped before the tree is evaluated, and the other fails. -/
theorem escapeGrid_pixelwise_reverse :
    [1, 0].Perm (List.range (twoPixels.width * twoPixels.height)) ∧
      ((var "w").pixelEscape .empty twoPixels oneStep .dynamic 1 0).isOk ∧
      Schedule.runInOrder ((var "w").pixelTask .empty twoPixels oneStep .dynamic) [1, 0] 2 =
        .error (.unknownVariable "w") := by
  have horder : [1, 0].Perm (List.range (twoPixels.width * twoPixels.height)) := by decide
  have hfails : ((var "w").pixelEscape .empty twoPixels oneStep .dynamic 0 0).map (fun _ => ()) =
      .error (.unknownVariable "w") := by decide +kernel
  obtain ⟨-, hschedule, -, -, herror⟩ :=
    escapeGrid_pixelwise (var "w") .empty twoPixels oneStep .dynamic
  refine ⟨horder, by decide +kernel, ?_⟩
  have hgrid := herror 0 (by decide) 0 (by decide) _ (map_eq_error_iff.mp hfails)
  exact (hschedule [1, 0] horder).trans hgrid

end FractalFormula.Tree
