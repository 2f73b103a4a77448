import FractalFormula.Proofs.Parser.Literal

/-!
# The parser with a cursor

The parser of `FractalFormula.Tree.Parser` hands on the characters that it has not read, and the
number of powers that may still be opened is an argument of it. Here the same procedures share a
cursor instead: characters are looked at and passed without a check, the number of open powers is
counted up and down by hand around a procedure that may fail, and the calls follow no measure. The
cursor also keeps a journal of the calls that have returned.

Nothing in the procedures bounds their calls and loops, so a run is given fuel: the calls within a
call have less of it, and a loop takes no more turns than there is fuel. A run that would need more
has no result, which is not a failure.

`Parser.Cursor.formula` reads a formula in this way. That it reads what the parser reads, how much
fuel is enough, and what each call does to the cursor, is shown in
`FractalFormula.Proofs.Parser.Discipline`.
-/

namespace FractalFormula.Parser.Cursor

open Literal Text

/-- The procedures that are called for parts of a formula. -/
inductive Procedure where
  | expr
  | term
  | power
  | atom
  | name
  | number
deriving DecidableEq, Repr

/-- A place of the cursor. -/
structure Place where
  /-- How many characters are passed. -/
  pos : Nat
  /-- How many powers are open. -/
  nesting : Nat
  /-- How many powers have been open at most. -/
  peak : Nat
deriving DecidableEq, Repr

/-- What a call returns: a tree with its depth, or a failure. -/
abbrev Outcome (α : Type) := Except Failure (Tree α × Nat)

/-- A call that has returned. -/
structure Call (α : Type) where
  procedure : Procedure
  entry : Place
  outcome : Outcome α
  exit : Place

/-- The cursor, and the calls that have returned, the last one first. -/
structure State (α : Type) where
  place : Place
  calls : List (Call α)

namespace State

variable {α : Type}

/-- The cursor before the first character. -/
def start : State α := ⟨⟨0, 0, 0⟩, []⟩

/-- The unread characters. -/
def rest (chars : List Char) (s : State α) : List Char := chars.drop s.place.pos

/-- The cursor moved over some characters, also where there are none. -/
def past (s : State α) (n : Nat) : State α := { s with place.pos := s.place.pos + n }

/-- Another power opened. -/
def entered (s : State α) : State α :=
  { s with
    place.nesting := s.place.nesting + 1
    place.peak := max s.place.peak (s.place.nesting + 1) }

/-- A power closed. -/
def left (s : State α) : State α := { s with place.nesting := s.place.nesting - 1 }

/-- The call of a procedure put into the journal when it returns. -/
def recorded (s : State α) (procedure : Procedure) (entry : Place) (outcome : Outcome α) :
    State α :=
  { s with calls := ⟨procedure, entry, outcome, s.place⟩ :: s.calls }

theorem rest_past (chars : List Char) (s : State α) (n : Nat) :
    (s.past n).rest chars = (s.rest chars).drop n := by
  rw [rest, rest, List.drop_drop]
  rfl

theorem rest_past_of_append {chars : List Char} {s : State α} {l after : List Char}
    (h : s.rest chars = l ++ after) : (s.past l.length).rest chars = after := by
  rw [rest_past, h, List.drop_left]

theorem past_past (s : State α) (m n : Nat) : (s.past m).past n = s.past (m + n) := by
  simp only [past, Nat.add_assoc]

end State

/-- A step of the parser. It changes the cursor whether it fails or not; a step that is not finished
has no result. -/
abbrev Machine (α β : Type) := ExceptT Failure (StateT (State α) Option) β

/-- A step that is not finished. -/
def unfinished {α β : Type} : Machine α β :=
  (fun _ => none : State α → Option (Except Failure β × State α))

section

variable {α : Type} (chars : List Char)

/-! ### The cursor -/

/-- The character that stands some characters ahead. -/
def peekAt (offset : Nat) : Machine α (Option Char) := do
  return chars[(← get).place.pos + offset]?

/-- The next character. -/
def peek : Machine α (Option Char) := peekAt chars 0

/-- How many characters are unread. -/
def unread : Machine α Nat := do return chars.length - (← get).place.pos

/-- Passes a character, also where there is none. -/
def advance : Machine α Unit := modify fun s => s.past 1

/-- Passes the character if it is the next one, and says whether it was. -/
def eat (expected : Char) : Machine α Bool := do
  if (← peek chars) = some expected then
    advance
    return true
  else
    return false

/-- The depth of a node over children of depth `below`. -/
def parentDepth (below : Nat) : Machine α Nat := do
  if maxDepth ≤ below then throw (.unreadable (← unread chars)) else return below + 1

/-! ### Names and numbers -/

section

variable (turns : Nat)

/-- Passes the characters of a class, and adds them to those taken before. -/
def takeRun (p : Char → Bool) : Nat → List Char → Machine α (List Char)
  | 0, _ => unfinished
  | turns + 1, taken => do
    match ← peek chars with
    | some c =>
      if p c then
        advance
        takeRun p turns (taken ++ [c])
      else
        return taken
    | none => return taken

/-- Digits with an optional point, and the number of digits among them. -/
def mantissa : Machine α (List Char × Nat) := do
  let whole ← takeRun chars Char.isDigit turns []
  if ← eat chars '.' then
    let fraction ← takeRun chars Char.isDigit turns []
    return (whole ++ '.' :: fraction, whole.length + fraction.length)
  else
    return (whole, whole.length)

/-- Passes the next character, whatever it is. -/
def takeNext : Machine α (List Char) := do
  let next ← peek chars
  advance
  return next.toList

/-- An exponent, if digits follow its letter and sign. -/
def exponent : Machine α (List Char) := do
  match ← peek chars with
  | some e =>
    if e = 'e' ∨ e = 'E' then
      let next ← peekAt chars 1
      let signed := next = some '+' ∨ next = some '-'
      let first ← peekAt chars (if signed then 2 else 1)
      if first.any Char.isDigit then
        advance
        let sign ← (if signed then takeNext chars else pure [])
        let digits ← takeRun chars Char.isDigit turns []
        return e :: (sign ++ digits)
      else
        return []
    else
      return []
  | none => return []

/-- A number, and `i` directly behind it. Every failure is about the start of the number. -/
def number [Numeral α] : Machine α (Tree α × Nat) := do
  let start ← unread chars
  let (mantissa, digits) ← mantissa chars turns
  if digits = 0 then
    throw (.unreadable start)
  else
    let exponent ← exponent chars turns
    match Literal.value? (mantissa ++ exponent) with
    | none => throw (.unreadable start)
    | some value =>
      let imaginary ← eat chars 'i'
      match Numeral.ofLiteral? value imaginary with
      | none => throw (.unreadable start)
      | some x => return (.num x, 1)

end

/-! ### Procedures

What they call they call by `run`.
-/

section

variable (turns : Nat) (run : Procedure → Machine α (Tree α × Nat))

/-- Operators for which `joins` holds, each with another operand, behind `first`. -/
def more (operand : Procedure) (joins : Char → Bool) : Nat → Tree α × Nat → Machine α (Tree α × Nat)
  | 0, _ => unfinished
  | turns + 1, first => do
    match ← peek chars with
    | some c =>
      if joins c then
        advance
        let second ← run operand
        let depth ← parentDepth chars (max first.2 second.2)
        more operand joins turns (.binary (Operator.ofChar c) first.1 second.1, depth)
      else
        return first
    | none => return first

/-- A minus sign belongs to the first term. -/
def expr : Machine α (Tree α × Nat) := do
  let negate ← eat chars '-'
  let first ← run .term
  if negate then
    let depth ← parentDepth chars first.2
    more chars run .term joinsTerms turns (.negation first.1, depth)
  else
    more chars run .term joinsTerms turns first

def term : Machine α (Tree α × Nat) := do
  let first ← run .power
  more chars run .power joinsPowers turns first

def unguarded : Machine α (Tree α × Nat) := do
  let base ← run .atom
  if ← eat chars '^' then
    let exponent ← run .power
    let depth ← parentDepth chars (max base.2 exponent.2)
    return (.pow base.1 exponent.1, depth)
  else
    return base

/-- A power is closed also if it fails. -/
def power : Machine α (Tree α × Nat) := (do
  if maxNesting ≤ (← get).place.nesting then
    return .error (.unreadable (chars.length - (← get).place.pos))
  else
    modify State.entered
    let outcome ← (unguarded chars run).run
    modify State.left
    return outcome : StateT (State α) Option (Outcome α))

/-- The next character is the opening bracket. -/
def bracketed : Machine α (Tree α × Nat) := do
  let opened ← unread chars
  advance
  let inner ← run .expr
  if ← eat chars ')' then return inner else throw (.unclosed opened)

def atom : Machine α (Tree α × Nat) := do
  match ← peek chars with
  | some c =>
    if c = '(' then bracketed chars run
    else if startsName c then run .name
    else if startsNumber c then run .number
    else throw (.unreadable (← unread chars))
  | none => throw (.unreadable (← unread chars))

def name : Machine α (Tree α × Nat) := do
  let name ← takeRun chars inName turns []
  if (← peek chars) = some '(' then
    match Func.ofSymbol (String.ofList name) with
    | .unknown => throw (.noFunction name)
    | f =>
      let argument ← bracketed chars run
      let depth ← parentDepth chars argument.2
      return (.call f argument.1, depth)
  else
    return (.var (String.ofList name), 1)

def body [Numeral α] : Procedure → Machine α (Tree α × Nat)
  | .expr => expr chars turns run
  | .term => term chars turns run
  | .power => power chars run
  | .atom => atom chars run
  | .name => name chars turns run
  | .number => number chars turns

end

/-- Calls a procedure, and puts the call into the journal when it returns. -/
def call [Numeral α] : Nat → Procedure → Machine α (Tree α × Nat)
  | 0, _ => unfinished
  | fuel + 1, procedure => (do
    let entry ← get
    let outcome ← (body chars fuel (call fuel) procedure).run
    modify fun s => s.recorded procedure entry.place outcome
    return outcome : StateT (State α) Option (Outcome α))

/-- A formula that fills the text. -/
def formula [Numeral α] (fuel : Nat) : Machine α (Tree α) := do
  let all ← call chars fuel .expr
  match ← peek chars with
  | none => return all.1
  | some c => throw (.leftover (← unread chars) c)

end

/-! ### What the steps do -/

section

variable {α β γ : Type} {chars : List Char} {s s' : State α}

theorem bind_ok {m : Machine α β} {f : β → Machine α γ} {b : β} (h : m s = some (.ok b, s')) :
    (m >>= f) s = f b s' := by
  show StateT.bind m (ExceptT.bindCont f) s = _
  simp only [StateT.bind, h]
  rfl

theorem bind_error {m : Machine α β} {f : β → Machine α γ} {e : Failure}
    (h : m s = some (.error e, s')) : (m >>= f) s = some (.error e, s') := by
  show StateT.bind m (ExceptT.bindCont f) s = _
  simp only [StateT.bind, h]
  rfl

theorem bind_unfinished {m : Machine α β} {f : β → Machine α γ} (h : m s = none) :
    (m >>= f) s = none := by
  show StateT.bind m (ExceptT.bindCont f) s = _
  simp only [StateT.bind, h]
  rfl

theorem pure_apply (b : β) (s : State α) : (pure b : Machine α β) s = some (.ok b, s) := rfl

theorem advance_apply (s : State α) : advance s = some (.ok (), s.past 1) := rfl

theorem peekAt_apply (chars : List Char) (n : Nat) (s : State α) :
    peekAt chars n s = some (.ok (s.rest chars)[n]?, s) := by
  rw [State.rest, List.getElem?_drop]
  rfl

theorem peek_apply (chars : List Char) (s : State α) :
    peek chars s = some (.ok (s.rest chars).head?, s) := by
  rw [List.head?_eq_getElem?]
  exact peekAt_apply chars 0 s

theorem unread_apply (chars : List Char) (s : State α) :
    unread chars s = some (.ok (s.rest chars).length, s) := by
  rw [State.rest, List.length_drop]
  rfl

theorem eat_of_head {c : Char} {rest : List Char} (h : s.rest chars = c :: rest) :
    eat chars c s = some (.ok true, s.past 1) := by
  rw [eat, bind_ok (peek_apply chars s), h, List.head?_cons, if_pos rfl]
  rfl

theorem eat_of_ne {c : Char} (h : (s.rest chars).head? ≠ some c) :
    eat chars c s = some (.ok false, s) := by
  rw [eat, bind_ok (peek_apply chars s), if_neg h]
  rfl

/-- A loop that passes a run has a turn for each of its characters, and one to see its end. -/
theorem takeRun_apply (p : Char → Bool) {turns : Nat} (hturns : (s.rest chars).length < turns)
    (taken : List Char) :
    takeRun chars p turns taken s = some (.ok (taken ++ (s.rest chars).takeWhile p),
      s.past ((s.rest chars).takeWhile p).length) := by
  induction turns generalizing s taken with
  | zero => exact absurd hturns (Nat.not_lt_zero _)
  | succ turns ih =>
    rw [takeRun, bind_ok (peek_apply chars s)]
    cases hrest : s.rest chars with
    | nil =>
      rw [List.takeWhile_nil, List.append_nil]
      rfl
    | cons c rest =>
      have hnext : (s.past 1).rest chars = rest := State.rest_past_of_append (l := [c]) hrest
      rw [hrest, List.length_cons] at hturns
      simp only [List.head?_cons]
      by_cases hc : p c
      · rw [if_pos hc, bind_ok (advance_apply s), ih (hnext ▸ Nat.lt_of_succ_lt_succ hturns), hnext,
          List.takeWhile_cons_of_pos hc, State.past_past, List.append_assoc, List.length_cons,
          Nat.add_comm 1]
        rfl
      · rw [if_neg hc, List.takeWhile_cons_of_neg hc, List.append_nil]
        rfl

theorem rest_past_takeWhile (chars : List Char) (p : Char → Bool) (s : State α) :
    (s.past ((s.rest chars).takeWhile p).length).rest chars = (s.rest chars).dropWhile p :=
  State.rest_past_of_append List.takeWhile_append_dropWhile.symm

theorem takeNext_of_head {c : Char} {rest : List Char} (h : s.rest chars = c :: rest) :
    takeNext chars s = some (.ok [c], s.past 1) := by
  rw [takeNext, bind_ok (peek_apply chars s), h]
  rfl

/-! ### Literals -/

theorem any_isDigit_of_isRun {ds : List Char} (h : IsRun ds) :
    ds.any Char.isDigit = !ds.isEmpty := by
  cases ds with
  | nil => rfl
  | cons d ds => simp [h.cons.1]

theorem mantissa_apply {turns : Nat} (hturns : (s.rest chars).length < turns) : ∃ digits,
    mantissa chars turns s = some (.ok ((splitMantissa (s.rest chars)).1, digits),
      s.past (splitMantissa (s.rest chars)).1.length) ∧
    (digits = 0 ↔ ¬(splitMantissa (s.rest chars)).1.any Char.isDigit) := by
  have hwhole := isRun_takeWhile (s.rest chars)
  have hbehind := rest_past_takeWhile chars Char.isDigit s
  have hlength : ((s.rest chars).dropWhile Char.isDigit).length < turns :=
    Nat.lt_of_le_of_lt (List.dropWhile_suffix _).length_le hturns
  rw [mantissa, bind_ok (takeRun_apply Char.isDigit hturns []), List.nil_append, splitMantissa]
  generalize (s.rest chars).takeWhile Char.isDigit = whole at hwhole hbehind ⊢
  split
  · next after hafter =>
    rw [hafter] at hbehind
    have hfraction := isRun_takeWhile after
    have hnext : ((s.past whole.length).past 1).rest chars = after :=
      State.rest_past_of_append (l := ['.']) hbehind
    rw [hafter, List.length_cons, ← hnext] at hlength
    refine ⟨whole.length + (after.takeWhile Char.isDigit).length, ?_, ?_⟩
    · dsimp only
      rw [bind_ok (eat_of_head hbehind), if_pos rfl,
        bind_ok (takeRun_apply Char.isDigit (Nat.lt_of_succ_lt hlength) []), hnext,
        State.past_past, State.past_past, List.nil_append, List.length_append, List.length_cons,
        Nat.add_comm 1]
      rfl
    · have hdot : Char.isDigit '.' = false := by decide
      simp [any_isDigit_of_isRun hwhole, any_isDigit_of_isRun hfraction, hdot]
  · next hne =>
    refine ⟨whole.length, ?_, ?_⟩
    · have hhead : ((s.past whole.length).rest chars).head? ≠ some '.' := by
        rw [hbehind]
        intro h
        obtain ⟨after, h⟩ := List.head?_eq_some_iff.mp h
        exact hne after h
      rw [bind_ok (eat_of_ne hhead)]
      rfl
    · simp [any_isDigit_of_isRun hwhole]

theorem any_head?_isDigit (s : List Char) :
    s.head?.any Char.isDigit = !(s.takeWhile Char.isDigit).isEmpty := by
  cases s with
  | nil => rfl
  | cons c s => by_cases hc : c.isDigit <;> simp [hc]

/-- The sign is looked at twice before it is passed. -/
theorem splitSign_cases (s : List Char) :
    (∃ c after, (c = '+' ∨ c = '-') ∧ s = c :: after ∧ splitSign s = ([c], after)) ∨
      ¬(s.head? = some '+' ∨ s.head? = some '-') ∧ splitSign s = ([], s) := by
  unfold splitSign
  split
  · exact .inl ⟨_, _, .inl rfl, rfl, rfl⟩
  · exact .inl ⟨_, _, .inr rfl, rfl, rfl⟩
  · next hplus hminus =>
    refine .inr ⟨?_, rfl⟩
    rintro (h | h) <;> obtain ⟨after, h⟩ := List.head?_eq_some_iff.mp h
    · exact hplus after h
    · exact hminus after h

theorem exponent_apply {turns : Nat} (hturns : (s.rest chars).length < turns) :
    exponent chars turns s = some (.ok (splitExponent (s.rest chars)).1,
      s.past (splitExponent (s.rest chars)).1.length) := by
  rw [exponent, bind_ok (peek_apply chars s)]
  obtain ⟨rest, hrest⟩ : ∃ rest, s.rest chars = rest := ⟨_, rfl⟩
  rw [hrest]
  cases rest with
  | nil => rfl
  | cons e rest =>
    have hpast : (s.past 1).rest chars = rest := State.rest_past_of_append (l := [e]) hrest
    rw [hrest, List.length_cons, ← hpast] at hturns
    simp only [List.head?_cons, splitExponent]
    by_cases he : e = 'e' ∨ e = 'E'
    · rw [if_pos he, if_pos he, bind_ok (peekAt_apply chars 1 s),
        bind_ok (peekAt_apply chars _ s), hrest]
      obtain ⟨sign, after, hsign, rfl, hsplit⟩ | ⟨hsign, hsplit⟩ := splitSign_cases rest
      · rw [hsplit]
        simp only [List.getElem?_cons_succ, List.getElem?_cons_zero, Option.some.injEq,
          if_pos hsign]
        rw [← List.head?_eq_getElem?, any_head?_isDigit]
        by_cases hds : (after.takeWhile Char.isDigit).isEmpty
        · rw [if_pos hds, hds]
          rfl
        · have hsecond : ((s.past 1).past 1).rest chars = after :=
            State.rest_past_of_append (l := [sign]) hpast
          rw [hpast, List.length_cons, ← hsecond] at hturns
          rw [if_neg hds, if_pos (by simpa using hds), bind_ok (advance_apply s),
            bind_ok (takeNext_of_head hpast),
            bind_ok (takeRun_apply Char.isDigit (Nat.lt_of_succ_lt (Nat.lt_of_succ_lt hturns)) []),
            hsecond, State.past_past, State.past_past]
          simp only [List.length_cons, List.nil_append, List.cons_append, Nat.add_comm 1]
          rfl
      · rw [hsplit, List.getElem?_cons_succ, ← List.head?_eq_getElem?, if_neg hsign, if_neg hsign,
          List.getElem?_cons_succ, ← List.head?_eq_getElem?, any_head?_isDigit]
        by_cases hds : (rest.takeWhile Char.isDigit).isEmpty
        · rw [if_pos hds, hds]
          rfl
        · rw [if_neg hds, if_pos (by simpa using hds), bind_ok (advance_apply s),
            bind_ok (pure_apply _ _),
            bind_ok (takeRun_apply Char.isDigit (Nat.lt_of_succ_lt hturns) []), hpast,
            State.past_past]
          simp only [List.length_cons, List.nil_append, Nat.add_comm 1]
          rfl
    · rw [if_neg he, if_neg he]
      rfl

/-! ### Calls -/

section

variable {turns fuel : Nat} {run : Procedure → Machine α (Tree α × Nat)} {outcome : Outcome α}

theorem power_of_full (h : maxNesting ≤ s.place.nesting) :
    power chars run s = some (.error (.unreadable (s.rest chars).length), s) := by
  rw [power, State.rest, List.length_drop]
  show (if maxNesting ≤ s.place.nesting then _ else _ : StateT (State α) Option (Outcome α)) s = _
  rw [if_pos h]
  rfl

theorem power_of_free (h : s.place.nesting < maxNesting)
    (hrun : unguarded chars run s.entered = some (outcome, s')) :
    power chars run s = some (outcome, s'.left) := by
  rw [power]
  show (if maxNesting ≤ s.place.nesting then _ else _ : StateT (State α) Option (Outcome α)) s = _
  rw [if_neg (Nat.not_le.mpr h)]
  show (unguarded chars run s.entered).bind _ = _
  rw [hrun]
  rfl

variable [Numeral α] {p : Procedure}

theorem call_apply (h : body chars fuel (call chars fuel) p s = some (outcome, s')) :
    call chars (fuel + 1) p s = some (outcome, s'.recorded p s.place outcome) := by
  rw [call]
  show (body chars fuel (call chars fuel) p s).bind _ = _
  rw [h]
  rfl

/-- A call that returns is in the journal. -/
theorem mem_calls_of_call (h : call chars fuel p s = some (outcome, s')) :
    ⟨p, s.place, outcome, s'.place⟩ ∈ s'.calls := by
  cases fuel with
  | zero => cases h
  | succ fuel =>
    rw [call] at h
    obtain ⟨⟨outcome', s₀⟩, -, h⟩ := Option.bind_eq_some_iff.mp h
    obtain ⟨rfl, rfl⟩ := Prod.mk.inj (Option.some.inj h)
    exact List.mem_cons_self

end

end

end FractalFormula.Parser.Cursor
