/-!
# Iteration state

Values that change from step to step of an iteration. A name holds one value, and setting
it again replaces the value.
-/

namespace FractalFormula

/-- Values by name. -/
structure State (α : Type _) where
  /-- The names with their values, in the order in which they were first set. -/
  entries : List (String × α)
  /-- No name occurs twice. -/
  nodup : (entries.map (·.1)).Nodup

namespace State

variable {α : Type _}

/-- No values. -/
def empty : State α := ⟨[], by simp⟩

/-- `name` with the value `x` in a list of names and values. -/
def setIn (name : String) (x : α) : List (String × α) → List (String × α)
  | [] => [(name, x)]
  | entry :: entries =>
    if entry.1 = name then (name, x) :: entries else entry :: setIn name x entries

theorem map_fst_setIn (name : String) (x : α) (entries : List (String × α)) :
    (setIn name x entries).map (·.1) =
      if name ∈ entries.map (·.1) then entries.map (·.1) else entries.map (·.1) ++ [name] := by
  induction entries with
  | nil => simp [setIn]
  | cons entry entries ih =>
    by_cases h : entry.1 = name
    · simp [setIn, h]
    · have h' : name ≠ entry.1 := fun e => h e.symm
      simp only [setIn, h, if_false, List.map_cons, ih, List.mem_cons, h', false_or]
      split <;> simp

/-- The state with `name` set to `x`. -/
def set (s : State α) (name : String) (x : α) : State α where
  entries := setIn name x s.entries
  nodup := by
    rw [map_fst_setIn]
    split
    · exact s.nodup
    · next h => exact List.nodup_append.2 ⟨s.nodup, by simp, by grind⟩

/-- The value of `name`. -/
def get? (s : State α) (name : String) : Option α :=
  (s.entries.find? fun entry => entry.1 = name).map (·.2)

/-- The state without `name`. -/
def remove (s : State α) (name : String) : State α where
  entries := s.entries.filter fun entry => entry.1 ≠ name
  nodup := List.Nodup.sublist ((List.filter_sublist).map _) s.nodup

/-- The pairs of a list, set in order. -/
def setAll (s : State α) (pairs : List (String × α)) : State α :=
  pairs.foldl (fun s pair => s.set pair.1 pair.2) s

theorem find?_setIn (name other : String) (x : α) (entries : List (String × α)) :
    ((setIn name x entries).find? fun entry => entry.1 = other).map (·.2) =
      if name = other then some x
      else (entries.find? fun entry => entry.1 = other).map (·.2) := by
  induction entries with
  | nil => by_cases h : name = other <;> simp [setIn, h]
  | cons entry entries ih =>
    by_cases he : entry.1 = name <;> by_cases h : name = other <;>
      by_cases ho : entry.1 = other <;> simp_all [setIn]

theorem get?_set (s : State α) (name other : String) (x : α) :
    (s.set name x).get? other = if name = other then some x else s.get? other :=
  find?_setIn name other x s.entries

theorem get?_remove (s : State α) (name other : String) :
    (s.remove name).get? other = if name = other then none else s.get? other := by
  by_cases h : name = other
  · subst h
    simp [get?, remove, List.find?_filter]
  · have (entry : String × α) :
        (!decide (entry.1 = name) && decide (entry.1 = other)) = decide (entry.1 = other) := by
      by_cases ho : entry.1 = other <;> simp [ho, Ne.symm h]
    simp [get?, remove, List.find?_filter, h, this]

end State

end FractalFormula
