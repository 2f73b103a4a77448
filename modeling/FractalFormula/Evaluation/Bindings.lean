import FractalFormula.Scalar.Basic

/-!
# Bindings

A stack of names with values. The latest binding of a name counts, and undoing a binding
uncovers what it shadowed.
-/

namespace FractalFormula

/-- Names bound to values. -/
structure Bindings (α : Type _) where
  /-- The bindings, the latest first. -/
  stack : List (String × α)

namespace Bindings

variable {α : Type _}

/-- No bindings. -/
def empty : Bindings α := ⟨[]⟩

/-- Another binding, which shadows earlier ones of the name. -/
def bind (b : Bindings α) (name : String) (x : α) : Bindings α := ⟨(name, x) :: b.stack⟩

/-- The latest binding and the bindings without it. -/
def unbindLast? (b : Bindings α) : Option ((String × α) × Bindings α) :=
  match b.stack with
  | [] => none
  | entry :: stack => some (entry, ⟨stack⟩)

/-- The value of the latest binding of `name`. -/
def get? (b : Bindings α) (name : String) : Option α :=
  (b.stack.find? fun entry => entry.1 = name).map (·.2)

/-- The number of bindings, shadowed ones included. -/
def size (b : Bindings α) : Nat := b.stack.length

/-- Whether there is no binding. -/
def isEmpty (b : Bindings α) : Bool := b.stack.isEmpty

/-- All bindings in the order in which they were made. -/
def toList (b : Bindings α) : List (String × α) := b.stack.reverse

/-- The pairs of a list, bound in order on top of `b`. -/
def bindAll (b : Bindings α) (pairs : List (String × α)) : Bindings α :=
  pairs.foldl (fun b pair => b.bind pair.1 pair.2) b

/-- The predeclared constants that the scalars have. -/
def constants [Numeral α] : Bindings α :=
  empty.bindAll (["pi", "e", "i"].filterMap fun name =>
    (Numeral.constant? name).map fun (x : α) => (name, x))

@[simp] theorem toList_empty : (empty : Bindings α).toList = [] := rfl

@[simp] theorem toList_bind (b : Bindings α) (name : String) (x : α) :
    (b.bind name x).toList = b.toList ++ [(name, x)] := by
  simp [toList, bind]

theorem stack_bindAll (b : Bindings α) (pairs : List (String × α)) :
    (b.bindAll pairs).stack = pairs.reverse ++ b.stack := by
  induction pairs generalizing b with
  | nil => rfl
  | cons pair pairs ih =>
    rw [bindAll, List.foldl_cons]
    refine (ih (b.bind pair.1 pair.2)).trans ?_
    simp [bind]

theorem unbindLast?_bind (b : Bindings α) (name : String) (x : α) :
    (b.bind name x).unbindLast? = some ((name, x), b) := rfl

theorem get?_bind (b : Bindings α) (name other : String) (x : α) :
    (b.bind name x).get? other = if name = other then some x else b.get? other := by
  by_cases h : name = other <;> simp [bind, get?, h]

end Bindings

end FractalFormula
