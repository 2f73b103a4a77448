import FractalFormula.Proofs.Except

/-!
# Tasks in any order

Tasks that are independent of each other may be run one after the other, in any order, or at the
same time. What comes of them is all results, in the order of the tasks, or the error of one of the
tasks that fail (`Answers`). If all tasks that fail do so with the same error, that leaves a single
answer, whatever the schedule (`Answers.unique`).

`runInOrder` runs the tasks in a given order, and each result is put into the place of its task. A
step changes one place only (`finished_cons`), and after the whole run all places are as the tasks
say (`foldlM_finish`).
-/

namespace FractalFormula.Schedule

variable {ε β : Type _} (task : Nat → Except ε β)

/-- What may come of the first `n` tasks. -/
inductive Answers (n : Nat) : Except ε (List β) → Prop where
  | ok {results : List β} : (List.range n).map task = results.map .ok → Answers n (.ok results)
  | error {i : Nat} {e : ε} : i < n → task i = .error e → Answers n (.error e)

/-- The places of the results after a task has put its own there. -/
def finish (places : Nat → Option β) (i : Nat) : Except ε (Nat → Option β) := do
  let x ← task i
  return Function.update places i (some x)

/-- The results of the first `n` tasks, run one after the other in the given order. The first one
that fails ends the run. -/
def runInOrder (order : List Nat) (n : Nat) : Except ε (List β) := do
  let places ← order.foldlM (finish task) fun _ => none
  return (List.range n).filterMap places

/-- The places after the given tasks. -/
def finished (done : List Nat) (i : Nat) : Option β :=
  if i ∈ done then (task i).toOption else none

variable {task}

namespace Answers

variable {n : Nat}

theorem of_ok {results : List β} (h : Answers task n (.ok results)) :
    (List.range n).map task = results.map .ok := by
  cases h with
  | ok hresults => exact hresults

theorem exists_of_error {e : ε} (h : Answers task n (.error e)) : ∃ i < n, task i = .error e := by
  cases h with
  | error hi he => exact ⟨_, hi, he⟩

/-- Where there are all results, no task fails. -/
theorem getElem?_eq {results : List β} (h : Answers task n (.ok results)) {i : Nat} (hi : i < n) :
    ∃ x, results[i]? = some x ∧ task i = .ok x := by
  have hplace := congrArg (·[i]?) h.of_ok
  simp only [List.getElem?_map, List.getElem?_range hi, Option.map_some] at hplace
  obtain ⟨x, hx, htask⟩ := Option.map_eq_some_iff.mp hplace.symm
  exact ⟨x, hx, htask.symm⟩

/-- If no two tasks fail with different errors, there is one answer only. -/
theorem unique (hsame : ∀ i < n, ∀ j < n, ∀ e e', task i = .error e → task j = .error e' → e = e')
    {a b : Except ε (List β)} (ha : Answers task n a) (hb : Answers task n b) : a = b := by
  cases ha with
  | ok hresults =>
    cases hb with
    | ok hresults' =>
      have hinj : Function.Injective (Except.ok : β → Except ε β) := fun _ _ => Except.ok.inj
      exact congrArg _ (hinj.list_map (hresults.symm.trans hresults'))
    | error hi he =>
      obtain ⟨x, -, hx⟩ := (Answers.ok hresults).getElem?_eq hi
      rw [he] at hx
      nomatch hx
  | error hi he =>
    cases hb with
    | ok hresults =>
      obtain ⟨x, -, hx⟩ := (Answers.ok hresults).getElem?_eq hi
      rw [he] at hx
      nomatch hx
    | error hj he' => exact congrArg _ (hsame _ hi _ hj _ _ he he')

end Answers

/-! ### One task after the other -/

/-- From the first task to the last, the results are found in their order. -/
theorem answers_mapM (n : Nat) : Answers task n ((List.range n).mapM task) := by
  have hrun (l : List Nat) : (∃ i ∈ l, ∃ e, task i = .error e ∧ l.mapM task = .error e) ∨
      ∃ results, l.mapM task = .ok results ∧ l.map task = results.map .ok := by
    induction l with
    | nil => exact .inr ⟨[], rfl, rfl⟩
    | cons i l ih =>
      rw [List.mapM_cons]
      cases hi : task i with
      | error e => exact .inl ⟨i, by simp, e, hi, rfl⟩
      | ok x =>
        obtain ⟨j, hj, e, he, hl⟩ | ⟨results, hl, hresults⟩ := ih
        · refine .inl ⟨j, by simp [hj], e, he, ?_⟩
          rw [hl]
          rfl
        · refine .inr ⟨x :: results, ?_, by rw [List.map_cons, hi, hresults, List.map_cons]⟩
          rw [hl]
          rfl
  obtain ⟨i, hi, e, he, hn⟩ | ⟨results, hn, hresults⟩ := hrun (List.range n)
  · rw [hn]
    exact .error (List.mem_range.mp hi) he
  · rw [hn]
    exact .ok hresults

/-! ### Any order -/

/-- A task changes its own place only. -/
theorem finished_cons {i : Nat} {x : β} (done : List Nat) (hx : task i = .ok x) :
    Function.update (finished task done) i (some x) = finished task (i :: done) := by
  funext j
  by_cases hj : j = i
  · subst hj
    simp [finished, hx, Except.toOption]
  · simp [finished, hj]

/-- A run fails with the error of one of its tasks, or all its tasks have results in their places. -/
theorem foldlM_finish (order done : List Nat) :
    (∃ i ∈ order, ∃ e, task i = .error e ∧
      order.foldlM (finish task) (finished task done) = .error e) ∨
    (∀ i ∈ order, (task i).isOk) ∧
      order.foldlM (finish task) (finished task done) =
        .ok (finished task (order.reverse ++ done)) := by
  induction order generalizing done with
  | nil => exact .inr ⟨nofun, rfl⟩
  | cons i order ih =>
    cases hi : task i with
    | error e =>
      refine .inl ⟨i, by simp, e, hi, ?_⟩
      rw [List.foldlM_cons, finish, hi]
      rfl
    | ok x =>
      have hstep : (i :: order).foldlM (finish task) (finished task done) =
          order.foldlM (finish task) (finished task (i :: done)) := by
        rw [List.foldlM_cons, finish, hi, ← finished_cons done hi]
        rfl
      rw [hstep]
      obtain ⟨j, hj, e, he, hrun⟩ | ⟨hok, hrun⟩ := ih (i :: done)
      · exact .inl ⟨j, by simp [hj], e, he, hrun⟩
      · refine .inr ⟨fun j hj => ?_, by simpa using hrun⟩
        obtain rfl | hj := List.mem_cons.mp hj
        · rw [hi]
          rfl
        · exact hok j hj

theorem map_eq_of_places {l : List Nat} {places : Nat → Option β}
    (h : ∀ i ∈ l, ∃ x, task i = .ok x ∧ places i = some x) :
    l.map task = (l.filterMap places).map .ok := by
  induction l with
  | nil => rfl
  | cons i l ih =>
    obtain ⟨x, hx, hplace⟩ := h i (by simp)
    rw [List.filterMap_cons_some hplace, List.map_cons, List.map_cons, hx,
      ih fun j hj => h j (List.mem_cons_of_mem i hj)]

/-- In any order in which every task has its turn, the run answers. -/
theorem answers_runInOrder {order : List Nat} {n : Nat} (h : order.Perm (List.range n)) :
    Answers task n (runInOrder task order n) := by
  have hempty : (fun _ => none) = finished task [] := rfl
  rw [runInOrder, hempty]
  obtain ⟨i, hi, e, he, hrun⟩ | ⟨hok, hrun⟩ := foldlM_finish order []
  · rw [hrun]
    exact .error (List.mem_range.mp (h.mem_iff.mp hi)) he
  · rw [hrun]
    refine .ok (map_eq_of_places fun i hi => ?_)
    have hi := h.mem_iff.mpr hi
    obtain ⟨x, hx⟩ := isOk_iff.mp (hok i hi)
    exact ⟨x, hx, by simp [finished, hi, hx, Except.toOption]⟩

end FractalFormula.Schedule
