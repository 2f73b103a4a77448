import Mathlib
import FractalFormula.Evaluation.Evaluate
import FractalFormula.Scalar.Real

/-!
# Names are resolved by the history

Bindings and the state of an iteration change between evaluations. Bindings are a stack, in which a
later binding of a name hides an earlier one until it is undone. The state is a table, in which a
later value takes the place of an earlier one. What a name stands for can be read off the history of
both (`Resolves`): it is the value that the name was last set to, if it has not been removed since,
or else that of the latest binding of the name that is live.

Which bindings are live is said by the history alone (`Live`): undoing ends the latest of those that
are. The stack holds the live bindings, the latest first (`exists_stacks`).
-/

namespace FractalFormula

/-- What is done to bindings and state between evaluations. -/
inductive Change (α : Type _) where
  | bind (name : String) (x : α)
  | unbindLast
  | set (name : String) (x : α)
  | remove (name : String)
  | clear

namespace Change

variable {α : Type _}

/-- The bindings after a change. Without a binding there is nothing to undo. -/
def onBindings (b : Bindings α) : Change α → Bindings α
  | bind name x => b.bind name x
  | unbindLast => (b.unbindLast?.map (·.2)).getD b
  | _ => b

/-- The state after a change. -/
def onState (s : State α) : Change α → State α
  | set name x => s.set name x
  | remove name => s.remove name
  | clear => .empty
  | _ => s

/-- The bindings after a history, the earliest change first. -/
def bindingsAfter (history : List (Change α)) : Bindings α := history.foldl onBindings .empty

/-- The state after a history. -/
def stateAfter (history : List (Change α)) : State α := history.foldl onState .empty

/-- Whether the change is one of the bindings. -/
def ofBindings : Change α → Bool
  | bind _ _ => true
  | unbindLast => true
  | _ => false

/-- The change ends what the state has for the name before. -/
def Ends (name : String) : Change α → Prop
  | set v _ => v = name
  | remove v => v = name
  | clear => True
  | _ => False

/-! ### What the history says -/

/-- The name was set to `x` at some place of the history, and nothing has ended that since. -/
def SetTo (history : List (Change α)) (name : String) (x : α) : Prop :=
  ∃ i : ℕ, history[i]? = some (.set name x) ∧ ∀ j > i, ∀ c, history[j]? = some c → ¬c.Ends name

/-- The binding made at a place of the history is not yet undone. -/
inductive Live : List (Change α) → ℕ → Prop where
  /-- A binding is live from when it is made. -/
  | made (history : List (Change α)) (name : String) (x : α) :
    Live (history ++ [.bind name x]) history.length
  | kept {history : List (Change α)} {c : Change α} {i : ℕ} : c ≠ .unbindLast → Live history i →
    Live (history ++ [c]) i
  /-- Undoing ends the latest live binding and no other. -/
  | passed {history : List (Change α)} {i j : ℕ} : Live history i → Live history j → i < j →
    Live (history ++ [.unbindLast]) i

/-- The binding made at a place is the latest of those that are live. -/
def Latest (history : List (Change α)) (i : ℕ) : Prop :=
  Live history i ∧ ∀ j > i, ¬Live history j

/-- The latest live binding of the name is one to `x`. -/
def BoundTo (history : List (Change α)) (name : String) (x : α) : Prop :=
  ∃ i : ℕ, Live history i ∧ history[i]? = some (.bind name x) ∧
    ∀ j > i, Live history j → ∀ y, history[j]? ≠ some (.bind name y)

/-- What a name stands for after a history. -/
inductive Resolves (history : List (Change α)) (name : String) : Except Error α → Prop where
  | set {x : α} : SetTo history name x → Resolves history name (.ok x)
  | bound {x : α} : (∀ y, ¬SetTo history name y) → BoundTo history name x →
    Resolves history name (.ok x)
  | unknown : (∀ y, ¬SetTo history name y) → (∀ y, ¬BoundTo history name y) →
    Resolves history name (.error (.unknownVariable name))

/-! ### One change more -/

section

variable {history : List (Change α)} {c : Change α} {name : String} {x : α}

theorem getElem?_append_eq_some_iff {d : Change α} {i : ℕ} :
    (history ++ [c])[i]? = some d ↔ history[i]? = some d ∨ i = history.length ∧ d = c := by
  obtain hi | rfl | hi := Nat.lt_trichotomy i history.length
  · rw [List.getElem?_append_left hi]
    simp [hi.ne]
  · simp [eq_comm]
  · rw [List.getElem?_eq_none (by simp; omega), List.getElem?_eq_none hi.le]
    simp [hi.ne']

theorem lt_length_of_getElem? {d : Change α} {i : ℕ} (h : history[i]? = some d) :
    i < history.length := (List.getElem?_eq_some_iff.mp h).1

theorem bindingsAfter_append :
    bindingsAfter (history ++ [c]) = onBindings (bindingsAfter history) c := by
  rw [bindingsAfter, List.foldl_append]
  rfl

theorem stateAfter_append : stateAfter (history ++ [c]) = onState (stateAfter history) c := by
  rw [stateAfter, List.foldl_append]
  rfl

theorem setTo_append_iff :
    SetTo (history ++ [c]) name x ↔ c = .set name x ∨ SetTo history name x ∧ ¬c.Ends name := by
  constructor
  · rintro ⟨i, hi, hlater⟩
    obtain hi | ⟨-, rfl⟩ := getElem?_append_eq_some_iff.mp hi
    · right
      refine ⟨⟨i, hi, fun j hj d hd => hlater j hj d ?_⟩, ?_⟩
      · exact getElem?_append_eq_some_iff.mpr (.inl hd)
      · exact hlater _ (lt_length_of_getElem? hi) c
          (getElem?_append_eq_some_iff.mpr (.inr ⟨rfl, rfl⟩))
    · exact .inl rfl
  · rintro (rfl | ⟨⟨i, hi, hlater⟩, hc⟩)
    · refine ⟨history.length, getElem?_append_eq_some_iff.mpr (.inr ⟨rfl, rfl⟩), ?_⟩
      intro j hj d hd
      obtain hd | ⟨rfl, -⟩ := getElem?_append_eq_some_iff.mp hd
      · exact absurd (lt_length_of_getElem? hd) (by omega)
      · omega
    · refine ⟨i, getElem?_append_eq_some_iff.mpr (.inl hi), fun j hj d hd => ?_⟩
      obtain hd | ⟨-, rfl⟩ := getElem?_append_eq_some_iff.mp hd
      · exact hlater j hj d hd
      · exact hc

theorem live_append_iff {i : ℕ} : Live (history ++ [c]) i ↔
    (∃ name x, c = .bind name x) ∧ i = history.length ∨ c ≠ .unbindLast ∧ Live history i ∨
      c = .unbindLast ∧ Live history i ∧ ∃ j > i, Live history j := by
  constructor
  · generalize hg : history ++ [c] = g
    intro h
    cases h with
    | made history' name x =>
      obtain ⟨rfl, hc⟩ := List.append_inj' hg rfl
      exact .inl ⟨⟨name, x, List.singleton_inj.mp hc⟩, rfl⟩
    | kept hne h =>
      obtain ⟨rfl, hc⟩ := List.append_inj' hg rfl
      obtain rfl := List.singleton_inj.mp hc
      exact .inr (.inl ⟨hne, h⟩)
    | @passed history' _ j h hj hlt =>
      obtain ⟨rfl, hc⟩ := List.append_inj' hg rfl
      exact .inr (.inr ⟨List.singleton_inj.mp hc, h, j, hlt, hj⟩)
  · rintro (⟨⟨name, x, rfl⟩, rfl⟩ | ⟨hne, h⟩ | ⟨rfl, h, j, hlt, hj⟩)
    · exact .made history name x
    · exact .kept hne h
    · exact .passed h hj hlt

theorem live_append_unbindLast_iff {i : ℕ} :
    Live (history ++ [.unbindLast]) i ↔ Live history i ∧ ∃ j > i, Live history j := by
  simp [live_append_iff]

end

/-! ### The state -/

section

variable {history : List (Change α)} {name : String} {x : α}

theorem get?_onState_iff {s : State α} {c : Change α} :
    (onState s c).get? name = some x ↔ c = .set name x ∨ s.get? name = some x ∧ ¬c.Ends name := by
  cases c with
  | bind v y => simp [onState, Ends]
  | unbindLast => simp [onState, Ends]
  | set v y =>
    simp only [onState, Ends, State.get?_set]
    by_cases hv : v = name <;> simp [hv]
  | remove v =>
    simp only [onState, Ends, State.get?_remove]
    by_cases hv : v = name <;> simp [hv]
  | clear => simp [onState, Ends, State.get?, State.empty]

theorem get?_stateAfter_iff : (stateAfter history).get? name = some x ↔ SetTo history name x := by
  induction history using List.reverseRecOn with
  | nil => simp [stateAfter, SetTo, State.get?, State.empty]
  | append_singleton history c ih =>
    rw [stateAfter_append, get?_onState_iff, setTo_append_iff, ih]

theorem get?_stateAfter_eq_none_iff :
    (stateAfter history).get? name = none ↔ ∀ x, ¬SetTo history name x := by
  simp only [Option.eq_none_iff_forall_ne_some, ne_eq, get?_stateAfter_iff]

theorem stateAfter_filter (history : List (Change α)) :
    stateAfter (history.filter ofBindings) = .empty := by
  induction history using List.reverseRecOn with
  | nil => rfl
  | append_singleton history c ih =>
    rw [List.filter_append]
    cases c with
    | bind name x => exact stateAfter_append.trans ih
    | unbindLast => exact stateAfter_append.trans ih
    | _ => exact (congrArg stateAfter (List.append_nil _)).trans ih

end

/-! ### The bindings -/

section

variable {history : List (Change α)} {name : String}

theorem Live.lt_length {i : ℕ} (h : Live history i) : i < history.length := by
  induction h with
  | made history name x => simp
  | kept _ _ ih => exact ih.trans (by simp)
  | passed _ _ _ ih _ => exact ih.trans (by simp)

/-- No place is later than the first one, which is the latest. -/
theorem not_mem_of_gt {latest j : ℕ} {places : List ℕ} (hlt : ∀ i ∈ places, latest > i)
    (hj : j > latest) : j ∉ latest :: places := by
  intro hmem
  obtain rfl | hmem := List.mem_cons.mp hmem
  · omega
  · have hlater := hlt j hmem
    omega

/-- The stack holds the bindings made at the places, which are those that are live, the latest
first. -/
structure Stacks (history : List (Change α)) (places : List ℕ) (stack : List (String × α)) :
    Prop where
  mem_iff (i : ℕ) : i ∈ places ↔ Live history i
  descending : places.Pairwise (· > ·)
  made : List.Forall₂ (fun i entry => history[i]? = some (.bind entry.1 entry.2)) places stack

namespace Stacks

variable {places : List ℕ} {stack : List (String × α)}

/-- What was made earlier stays where it is in the history. -/
theorem made_append (h : Stacks history places stack) (c : Change α) : List.Forall₂
    (fun i entry => (history ++ [c])[i]? = some (.bind entry.1 entry.2)) places stack :=
  h.made.imp fun _ _ hmade => getElem?_append_eq_some_iff.mpr (.inl hmade)

theorem bind (h : Stacks history places stack) (name : String) (x : α) :
    Stacks (history ++ [.bind name x]) (history.length :: places) ((name, x) :: stack) where
  mem_iff i := by simp [live_append_iff, h.mem_iff]
  descending := List.pairwise_cons.mpr ⟨fun i hi => ((h.mem_iff i).mp hi).lt_length, h.descending⟩
  made := .cons (by simp) (h.made_append _)

theorem unbindLast (h : Stacks history places stack) :
    Stacks (history ++ [.unbindLast]) places.tail stack.tail := by
  have hmade := h.made_append .unbindLast
  obtain ⟨hmem, hdescending, -⟩ := h
  cases hmade with
  | nil =>
    refine ⟨fun i => ?_, .nil, .nil⟩
    simp [live_append_unbindLast_iff, ← hmem]
  | @cons latest entry places stack hlatest hmade =>
    obtain ⟨hlt, hdescending⟩ := List.pairwise_cons.mp hdescending
    refine ⟨fun i => ?_, hdescending, hmade⟩
    simp only [List.tail_cons, live_append_unbindLast_iff, ← hmem, List.mem_cons]
    constructor
    · intro hi
      exact ⟨.inr hi, latest, hlt i hi, .inl rfl⟩
    · rintro ⟨rfl | hi, j, hj, hmem⟩
      · exact absurd (List.mem_cons.mpr hmem) (not_mem_of_gt hlt hj)
      · exact hi

theorem other (h : Stacks history places stack) {c : Change α} (hc : c.ofBindings = false) :
    Stacks (history ++ [c]) places stack where
  mem_iff i := by
    cases c with
    | bind name x => cases hc
    | unbindLast => cases hc
    | _ => simp [live_append_iff, h.mem_iff]
  descending := h.descending
  made := h.made_append c

/-- The latest live binding was made at the first of the places. -/
theorem latest_iff (h : Stacks history places stack) {i : ℕ} :
    Latest history i ↔ places.head? = some i := by
  simp only [Latest, ← h.mem_iff]
  cases places with
  | nil => simp
  | cons latest places =>
    have hlt := (List.pairwise_cons.mp h.descending).1
    rw [List.head?_cons, Option.some_inj]
    constructor
    · rintro ⟨hi, hafter⟩
      obtain rfl | hi := List.mem_cons.mp hi
      · rfl
      · exact absurd List.mem_cons_self (hafter latest (hlt i hi))
    · rintro rfl
      exact ⟨List.mem_cons_self, fun j hj => not_mem_of_gt hlt hj⟩

end Stacks

theorem stack_onBindings_unbindLast (b : Bindings α) :
    (onBindings b .unbindLast).stack = b.stack.tail := by
  obtain ⟨_ | ⟨entry, stack⟩⟩ := b
  · rfl
  · rfl

/-- The stack of bindings can be read off the history. -/
theorem exists_stacks (history : List (Change α)) :
    ∃ places, Stacks history places (bindingsAfter history).stack := by
  induction history using List.reverseRecOn with
  | nil =>
    refine ⟨[], fun i => ?_, .nil, .nil⟩
    exact iff_of_false (by simp) fun h => absurd h.lt_length (by simp)
  | append_singleton history c ih =>
    obtain ⟨places, h⟩ := ih
    rw [bindingsAfter_append]
    cases c with
    | bind name x => exact ⟨_, h.bind name x⟩
    | unbindLast =>
      rw [stack_onBindings_unbindLast]
      exact ⟨_, h.unbindLast⟩
    | _ => exact ⟨places, h.other rfl⟩

/-- Of the places at which the name was bound, it was bound to `x` at the latest. -/
def BoundAmong (history : List (Change α)) (places : List ℕ) (name : String) (x : α) : Prop :=
  ∃ i ∈ places, history[i]? = some (.bind name x) ∧
    ∀ j > i, j ∈ places → ∀ y, history[j]? ≠ some (.bind name y)

section

variable {latest : ℕ} {places : List ℕ} {x y : α}

theorem boundAmong_cons_iff_of_bound (hlt : ∀ i ∈ places, latest > i)
    (hlatest : history[latest]? = some (.bind name y)) :
    BoundAmong history (latest :: places) name x ↔ y = x := by
  constructor
  · rintro ⟨i, hi, hx, hafter⟩
    obtain rfl | hi := List.mem_cons.mp hi
    · rw [hlatest] at hx
      cases hx
      rfl
    · exact absurd hlatest (hafter latest (hlt i hi) List.mem_cons_self y)
  · rintro rfl
    exact ⟨latest, List.mem_cons_self, hlatest,
      fun j hj hmem => absurd hmem (not_mem_of_gt hlt hj)⟩

theorem boundAmong_cons_iff_of_not_bound
    (hlatest : ∀ y, history[latest]? ≠ some (.bind name y)) :
    BoundAmong history (latest :: places) name x ↔ BoundAmong history places name x := by
  constructor
  · rintro ⟨i, hi, hx, hafter⟩
    obtain rfl | hi := List.mem_cons.mp hi
    · exact absurd hx (hlatest x)
    · exact ⟨i, hi, hx, fun j hj hmem => hafter j hj (List.mem_cons_of_mem _ hmem)⟩
  · rintro ⟨i, hi, hx, hafter⟩
    refine ⟨i, List.mem_cons_of_mem _ hi, hx, fun j hj hmem => ?_⟩
    obtain rfl | hmem := List.mem_cons.mp hmem
    · exact hlatest
    · exact hafter j hj hmem

/-- In the stack the first binding of a name counts, which is the latest one. -/
theorem find?_eq_some_iff {stack : List (String × α)} (hdescending : places.Pairwise (· > ·))
    (hmade : List.Forall₂ (fun i entry => history[i]? = some (.bind entry.1 entry.2)) places
      stack) :
    (stack.find? fun entry => entry.1 = name).map (·.2) = some x ↔
      BoundAmong history places name x := by
  induction hmade with
  | nil => simp [BoundAmong]
  | @cons latest entry places stack hlatest hmade ih =>
    obtain ⟨hlt, hdescending⟩ := List.pairwise_cons.mp hdescending
    obtain ⟨v, y⟩ := entry
    by_cases hv : v = name
    · subst hv
      rw [List.find?_cons_of_pos (by simp), boundAmong_cons_iff_of_bound hlt hlatest]
      exact Option.some_inj
    · rw [List.find?_cons_of_neg (by simpa using hv), ih hdescending,
        boundAmong_cons_iff_of_not_bound]
      intro z hz
      rw [hlatest] at hz
      cases hz
      exact hv rfl

end

theorem get?_bindingsAfter_iff {x : α} :
    (bindingsAfter history).get? name = some x ↔ BoundTo history name x := by
  obtain ⟨places, h⟩ := exists_stacks history
  rw [Bindings.get?, find?_eq_some_iff h.descending h.made]
  simp only [BoundAmong, h.mem_iff, BoundTo]

theorem get?_bindingsAfter_eq_none_iff :
    (bindingsAfter history).get? name = none ↔ ∀ x, ¬BoundTo history name x := by
  simp only [Option.eq_none_iff_forall_ne_some, ne_eq, get?_bindingsAfter_iff]

/-- What is done to the state leaves the bindings as they are. -/
theorem bindingsAfter_filter (history : List (Change α)) :
    bindingsAfter (history.filter ofBindings) = bindingsAfter history := by
  induction history using List.reverseRecOn with
  | nil => rfl
  | append_singleton history c ih =>
    rw [List.filter_append, bindingsAfter_append, ← ih]
    cases c with
    | bind name x => exact bindingsAfter_append
    | unbindLast => exact bindingsAfter_append
    | _ => exact congrArg bindingsAfter (List.append_nil _)

/-- What undoing hands back and what it leaves. -/
theorem unbindLast?_bindingsAfter_iff {entry : String × α} {b : Bindings α} :
    (bindingsAfter history).unbindLast? = some (entry, b) ↔
      b = bindingsAfter (history ++ [.unbindLast]) ∧
        ∃ i, Latest history i ∧ history[i]? = some (.bind entry.1 entry.2) := by
  obtain ⟨places, h⟩ := exists_stacks history
  have hmade := h.made
  simp only [h.latest_iff, bindingsAfter_append]
  generalize bindingsAfter history = bindings at hmade ⊢
  obtain ⟨stack⟩ := bindings
  cases hmade with
  | nil => simp [Bindings.unbindLast?]
  | @cons latest latestEntry places stack hlatest hmade =>
    simp only [List.head?_cons, Option.some.injEq, exists_eq_left', hlatest, bind.injEq]
    show some (latestEntry, (⟨stack⟩ : Bindings α)) = some (entry, b) ↔ b = ⟨stack⟩ ∧ _
    rw [Option.some.injEq, Prod.mk.injEq, Prod.ext_iff, and_comm, eq_comm]

theorem unbindLast?_eq_none_iff :
    (bindingsAfter history).unbindLast? = none ↔ ∀ i, ¬Live history i := by
  obtain ⟨places, h⟩ := exists_stacks history
  have hmade := h.made
  simp only [← h.mem_iff]
  generalize bindingsAfter history = bindings at hmade ⊢
  obtain ⟨stack⟩ := bindings
  cases hmade with
  | nil => simp [Bindings.unbindLast?]
  | @cons latest latestEntry places stack hlatest hmade =>
    exact iff_of_false nofun fun hnone => hnone latest (by simp)

/-- Undoing ends the latest live binding and no other. -/
theorem live_undone_iff {i : ℕ} :
    Live (history ++ [.unbindLast]) i ↔ Live history i ∧ ¬Latest history i := by
  rw [live_append_unbindLast_iff, Latest]
  constructor
  · rintro ⟨h, j, hj, hlive⟩
    exact ⟨h, fun hlatest => hlatest.2 j hj hlive⟩
  · rintro ⟨h, hnot⟩
    refine ⟨h, ?_⟩
    by_contra hnone
    exact hnot ⟨h, fun j hj hlive => hnone ⟨j, hj, hlive⟩⟩

end

/-! ### Variables -/

section

variable [Scalar α] {history : List (Change α)} {name : String}

theorem resolves_evaluateIn (cs : List (Tree α)) : Resolves history name
    ((Tree.node (.var name) cs).evaluateIn (bindingsAfter history) (stateAfter history)) := by
  rw [Tree.evaluateIn, Tree.evaluateWith]
  cases hset : (stateAfter history).get? name with
  | some x => exact .set (get?_stateAfter_iff.mp hset)
  | none =>
    have hset := get?_stateAfter_eq_none_iff.mp hset
    cases hbound : (bindingsAfter history).get? name with
    | some x => exact .bound hset (get?_bindingsAfter_iff.mp hbound)
    | none => exact .unknown hset (get?_bindingsAfter_eq_none_iff.mp hbound)

theorem Resolves.evaluateIn_eq {r : Except Error α} (h : Resolves history name r)
    (cs : List (Tree α)) :
    (Tree.node (.var name) cs).evaluateIn (bindingsAfter history) (stateAfter history) = r := by
  rw [Tree.evaluateIn, Tree.evaluateWith]
  cases h with
  | set hset =>
    rw [get?_stateAfter_iff.mpr hset]
    rfl
  | bound hset hbound =>
    rw [get?_stateAfter_eq_none_iff.mpr hset, get?_bindingsAfter_iff.mpr hbound]
    rfl
  | unknown hset hbound =>
    rw [get?_stateAfter_eq_none_iff.mpr hset, get?_bindingsAfter_eq_none_iff.mpr hbound]
    rfl

theorem evaluateIn_eq_iff {cs : List (Tree α)} {r : Except Error α} :
    (Tree.node (.var name) cs).evaluateIn (bindingsAfter history) (stateAfter history) = r ↔
      Resolves history name r :=
  ⟨fun h => h ▸ resolves_evaluateIn cs, fun h => h.evaluateIn_eq cs⟩

theorem evaluate_eq_iff {cs : List (Tree α)} {r : Except Error α} :
    (Tree.node (.var name) cs).evaluate (bindingsAfter history) = r ↔
      Resolves (history.filter ofBindings) name r := by
  rw [← evaluateIn_eq_iff, bindingsAfter_filter, stateAfter_filter]
  rfl

end

/-- What bindings and state are after a history. -/
structure Follows [Scalar α] (history : List (Change α)) : Prop where
  /-- The value of a variable where the state goes first. -/
  evaluateIn (name : String) (cs : List (Tree α)) (r : Except Error α) :
    (Tree.node (.var name) cs).evaluateIn (bindingsAfter history) (stateAfter history) = r ↔
      Resolves history name r
  /-- The value of a variable without the state. -/
  evaluate (name : String) (cs : List (Tree α)) (r : Except Error α) :
    (Tree.node (.var name) cs).evaluate (bindingsAfter history) = r ↔
      Resolves (history.filter ofBindings) name r
  /-- Undoing hands back the latest live binding. -/
  undone (entry : String × α) (b : Bindings α) :
    (bindingsAfter history).unbindLast? = some (entry, b) ↔
      b = bindingsAfter (history ++ [.unbindLast]) ∧
        ∃ i, Latest history i ∧ history[i]? = some (.bind entry.1 entry.2)
  /-- There is nothing to undo if no binding is live. -/
  nothing : (bindingsAfter history).unbindLast? = none ↔ ∀ i, ¬Live history i
  /-- Undoing ends the latest live binding and no other. -/
  ended (i : ℕ) : Live (history ++ [.unbindLast]) i ↔ Live history i ∧ ¬Latest history i

/-- After any history, the variables have the values that it says, and undoing ends the latest live
binding. -/
theorem follows_history [Scalar α] (history : List (Change α)) : Follows history where
  evaluateIn _ _ _ := evaluateIn_eq_iff
  evaluate _ _ _ := evaluate_eq_iff
  undone _ _ := unbindLast?_bindingsAfter_iff
  nothing := unbindLast?_eq_none_iff
  ended _ := live_undone_iff

/-- Undoing uncovers the binding before, once the state does not go first any more. -/
example :
    let history := [.bind "z" (1.0 : Float), .bind "z" 2.0, .set "z" 3.0, .unbindLast, .remove "z"]
    (Tree.var "z").evaluateIn (bindingsAfter history) (stateAfter history) = .ok 1.0 := rfl

end Change

end FractalFormula
