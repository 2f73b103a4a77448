import FractalFormula.Proofs.Parser.Cursor
import FractalFormula.Proofs.Parser.Failure
import FractalFormula.Scalar.Real

/-!
# The discipline of the cursor

Whatever a call of one of the procedures does, it leaves the cursor within the text, not before the
place where it found it, and with as many open powers; if it yields a tree it has passed something,
and the depth that it yields is that of the tree. `Disciplined` spells this out for a call in the
journal, and `formula_disciplined` says that it is so for all calls of a run, that every run is
finished, and that it reads what the parser reads.

The proof goes through both parsers at once. `Tracks` says of a step that it is finished and comes
to what a reader comes to, and `Obeys` says so of the calls of a procedure. A power enters an atom
before anything is passed, so the unread characters alone do not bound the calls. What does is the
number of powers that may still be opened together with the rank of the procedure: a power is below
what it calls, but opens a power, and every other procedure is above what it calls.
-/

namespace FractalFormula.Parser.Cursor

variable {α : Type} {chars : List Char}

/-- Whether a procedure may be entered before `next`. Names and numbers are entered at their first
character only, the other procedures anywhere. -/
def Procedure.Starts : Procedure → Option Char → Prop
  | .name, next => ∃ c ∈ next, startsName c
  | .number, next => ∃ c ∈ next, startsNumber c
  | _, _ => True

/-- What a call does to the cursor, whether it yields a tree or fails. -/
structure Disciplined (chars : List Char) (c : Call α) : Prop where
  entry_le : c.entry.pos ≤ chars.length
  starts : c.procedure.Starts chars[c.entry.pos]?
  nesting : c.exit.nesting = c.entry.nesting
  pos_le : c.entry.pos ≤ c.exit.pos
  exit_le : c.exit.pos ≤ chars.length
  /-- The limit was kept at all times up to the return. -/
  peak_le : c.exit.peak ≤ maxNesting
  passes : ∀ t, c.outcome = .ok t → c.entry.pos < c.exit.pos
  depth : ∀ t depth, c.outcome = .ok (t, depth) → depth = t.depth ∧ depth ≤ maxDepth
  number : ∀ t depth, c.procedure = .number → c.outcome = .ok (t, depth) → depth = 1

/-- The cursor is in the text, and nothing has gone wrong before. -/
structure Ready (chars : List Char) (s : State α) : Prop where
  pos_le : s.place.pos ≤ chars.length
  peak_le : s.place.peak ≤ maxNesting
  calls : ∀ c ∈ s.calls, Disciplined chars c

/-- The cursor has gone from `s` to `s'` as it should. -/
structure Moves (chars : List Char) (s s' : State α) : Prop where
  ready : Ready chars s'
  nesting : s'.place.nesting = s.place.nesting
  pos_le : s.place.pos ≤ s'.place.pos

namespace Moves

variable {s s' s'' : State α}

theorem refl (h : Ready chars s) : Moves chars s s := ⟨h, rfl, Nat.le_refl _⟩

theorem trans (h : Moves chars s s') (h' : Moves chars s' s'') : Moves chars s s'' :=
  ⟨h'.ready, h'.nesting.trans h.nesting, Nat.le_trans h.pos_le h'.pos_le⟩

theorem past (h : Ready chars s) {n : Nat} (hn : n ≤ (s.rest chars).length) :
    Moves chars s (s.past n) := by
  have hpos := h.pos_le
  rw [State.rest, List.length_drop] at hn
  refine ⟨⟨?_, h.peak_le, h.calls⟩, rfl, Nat.le_add_right _ _⟩
  show s.place.pos + n ≤ chars.length
  omega

theorem past_of_append (h : Ready chars s) {l after : List Char} (hl : s.rest chars = l ++ after) :
    Moves chars s (s.past l.length) := by
  refine past h ?_
  rw [hl, List.length_append]
  exact Nat.le_add_right _ _

theorem length_rest_le (h : Moves chars s s') :
    (s'.rest chars).length ≤ (s.rest chars).length := by
  have hpos := h.pos_le
  simp only [State.rest, List.length_drop]
  omega

end Moves

/-! ### Going through both parsers -/

/-- The outcome is a failure if `x` is this failure, and else is related to what `x` yields. -/
inductive Follows {β γ : Type} (R : γ → β → Prop) : Except Failure γ → Except Failure β → Prop where
  | ok {c : γ} {b : β} : R c b → Follows R (.ok c) (.ok b)
  | error (f : Failure) : Follows R (.error f) (.error f)

theorem Follows.imp {β γ : Type} {R R' : γ → β → Prop} {x : Except Failure γ}
    {outcome : Except Failure β} (h : Follows R x outcome) (hR : ∀ c b, R c b → R' c b) :
    Follows R' x outcome := by
  cases h with
  | ok h => exact .ok (hR _ _ h)
  | error f => exact .error f

/-- From `s` the step `m` is finished, moves the cursor as it should, and follows `x`. -/
def Tracks {β γ : Type} (chars : List Char) (R : γ → β → State α → Prop) (x : Except Failure γ)
    (m : Machine α β) (s : State α) : Prop :=
  ∃ outcome s', m s = some (outcome, s') ∧ Moves chars s s' ∧ Follows (R · · s') x outcome

namespace Tracks

variable {β γ β' γ' : Type} {R : γ → β → State α → Prop} {R' : γ' → β' → State α → Prop}
  {s s' : State α}

theorem ok {c : γ} {m : Machine α β} {b : β} (hm : m s = some (.ok b, s'))
    (h : Moves chars s s') (hR : R c b s') : Tracks chars R (.ok c) m s :=
  ⟨_, _, hm, h, .ok hR⟩

theorem error {m : Machine α β} {f : Failure} (hm : m s = some (.error f, s'))
    (h : Moves chars s s') : Tracks chars R (.error f) m s :=
  ⟨_, _, hm, h, .error f⟩

/-- A step that only the cursor takes. -/
theorem after {x : Except Failure γ'} {m : Machine α β} {f : β → Machine α β'} {b : β}
    (hm : m s = some (.ok b, s')) (h : Moves chars s s') (hf : Tracks chars R' x (f b) s') :
    Tracks chars R' x (m >>= f) s := by
  obtain ⟨outcome, s'', hrun, hmoves, hfollows⟩ := hf
  exact ⟨outcome, s'', (bind_ok hm).trans hrun, h.trans hmoves, hfollows⟩

theorem bind {x : Except Failure γ} {g : γ → Except Failure γ'} {m : Machine α β}
    {f : β → Machine α β'} (h : Tracks chars R x m s)
    (hf : ∀ c b s', Moves chars s s' → R c b s' → Tracks chars R' (g c) (f b) s') :
    Tracks chars R' (x >>= g) (m >>= f) s := by
  obtain ⟨outcome, s', hm, hmoves, hfollows⟩ := h
  cases hfollows with
  | ok hR => exact after hm hmoves (hf _ _ s' hmoves hR)
  | error e => exact error (bind_error hm) hmoves

end Tracks

/-- The tree and its depth are those that were read, and so are the unread characters. -/
structure Yields (chars : List Char) (r : Reading α) (t : Tree α × Nat) (s : State α) : Prop where
  tree : t = (r.tree, r.depth)
  rest : s.rest chars = r.rest

/-- The reader that does what a procedure does while `n` powers may be opened. -/
def reader [Numeral α] (n : Nat) : Procedure → Reader α
  | .expr => Parser.expr (Parser.power n)
  | .term => Parser.term (Parser.power n)
  | .power => Parser.power n
  | .atom => Parser.atom (Parser.power n)
  | .name => Parser.named (Parser.power n)
  | .number => Parser.number

/-- From every cursor that is ready, with `n` powers left to open, a call of the procedure follows
its reader. -/
def Obeys [Numeral α] (chars : List Char) (run : Procedure → Machine α (Tree α × Nat)) (n : Nat)
    (p : Procedure) : Prop :=
  ∀ s : State α, Ready chars s → maxNesting - s.place.nesting = n →
    p.Starts (s.rest chars).head? →
    Tracks chars (Yields chars) (reader n p (s.rest chars)) (run p) s

theorem Obeys.at [Numeral α] {run : Procedure → Machine α (Tree α × Nat)} {n : Nat}
    {p : Procedure} (h : Obeys chars run n p) {s : State α} {text : List Char}
    (hs : Ready chars s) (hn : maxNesting - s.place.nesting = n) (htext : s.rest chars = text)
    (hstarts : p.Starts text.head?) :
    Tracks chars (Yields chars) (reader n p text) (run p) s := by
  subst htext
  exact h s hs hn hstarts

/-! ### Steps -/

section

variable {s : State α}

/-- The next character is passed or left, as it is the one that may be passed or not. -/
theorem eat_cases (c : Char) (hs : Ready chars s) :
    (∃ rest, s.rest chars = c :: rest ∧ eat chars c s = some (.ok true, s.past 1) ∧
        (s.past 1).rest chars = rest ∧ Moves chars s (s.past 1)) ∨
      (∀ rest, s.rest chars = c :: rest → False) ∧ eat chars c s = some (.ok false, s) := by
  by_cases hc : (s.rest chars).head? = some c
  · obtain ⟨rest, hrest⟩ := List.head?_eq_some_iff.mp hc
    exact .inl ⟨rest, hrest, eat_of_head hrest, State.rest_past_of_append (l := [c]) hrest,
      .past_of_append (l := [c]) hs hrest⟩
  · refine .inr ⟨fun rest hrest => hc ?_, eat_of_ne hc⟩
    rw [hrest, List.head?_cons]

theorem tracks_parentDepth (hs : Ready chars s) (below : Nat) :
    Tracks chars (fun depth depth' s' => depth' = depth ∧ s' = s) (deeper below (s.rest chars))
      (parentDepth chars below) s := by
  rw [deeper, parentDepth]
  split
  · exact .error (bind_ok (unread_apply chars s)) (.refl hs)
  · exact .ok rfl (.refl hs) ⟨rfl, rfl⟩

theorem length_rest_lt {turns : Nat} (hturns : chars.length < turns) (s : State α) :
    (s.rest chars).length < turns := by
  rw [State.rest, List.length_drop]
  omega

end

section

variable [Numeral α] {turns n : Nat} {run : Procedure → Machine α (Tree α × Nat)} {s : State α}

open Literal in
theorem tracks_number (hturns : chars.length < turns) (hs : Ready chars s) :
    Tracks chars (Yields chars) (Parser.number (s.rest chars)) (number chars turns) s := by
  obtain ⟨digits, hmantissa, hdigits⟩ := mantissa_apply (length_rest_lt hturns s)
  obtain ⟨hsplit, -⟩ := splitMantissa_spec (s.rest chars)
  have hmoves := Moves.past_of_append hs hsplit
  have hbehind := State.rest_past_of_append hsplit
  rw [number, Parser.number, split?]
  refine .after (unread_apply chars s) (.refl hs) (.after hmantissa hmoves ?_)
  dsimp only
  generalize s.past (splitMantissa (s.rest chars)).1.length = s₁ at hbehind hmoves ⊢
  by_cases hany : (splitMantissa (s.rest chars)).1.any Char.isDigit
  · rw [if_neg (fun hzero => hdigits.mp hzero hany), if_pos hany]
    obtain ⟨hsplit', -⟩ := splitExponent_spec (s₁.rest chars)
    have hmoves' := Moves.past_of_append hmoves.ready hsplit'
    have hbehind' := State.rest_past_of_append hsplit'
    refine .after (exponent_apply (length_rest_lt hturns s₁)) hmoves' ?_
    generalize s₁.past (splitExponent (s₁.rest chars)).1.length = s₂ at hbehind' hmoves' ⊢
    rw [← hbehind, ← hbehind']
    dsimp only
    cases value? ((splitMantissa (s.rest chars)).1 ++ (splitExponent (s₁.rest chars)).1) with
    | none => exact .error rfl (.refl hmoves'.ready)
    | some v =>
      obtain ⟨rest, hrest, heat, hpast, hpasses⟩ | ⟨hne, heat⟩ := eat_cases 'i' hmoves'.ready
      · refine .after heat hpasses ?_
        rw [hrest]
        simp only
        cases (Numeral.ofLiteral? v true : Option α) with
        | none => exact .error rfl (.refl hpasses.ready)
        | some x => exact .ok rfl (.refl hpasses.ready) ⟨rfl, hpast⟩
      · refine .after heat (.refl hmoves'.ready) ?_
        -- By `hne` the reader takes the second case of its match, here and below.
        simp only
        cases (Numeral.ofLiteral? v false : Option α) with
        | none => exact .error rfl (.refl hmoves'.ready)
        | some x => exact .ok rfl (.refl hmoves'.ready) ⟨rfl, rfl⟩
  · rw [if_pos (hdigits.mpr hany), if_neg hany]
    exact .error rfl (.refl hmoves.ready)

/-! ### Procedures over calls that follow their readers -/

omit [Numeral α] in
theorem chain_of_rest_nil {operand : Reader α} {joins : Char → Bool} {first : Reading α}
    (h : first.rest = []) (turns : Nat) : chain operand joins turns first = .ok first := by
  cases turns with
  | zero => rfl
  | succ turns => rw [chain, h]

/-- Further operands are read alike, a turn for each operator. The loop of the cursor has another
turn to see that there is none left. -/
theorem tracks_more {operand : Procedure} (hoperand : Obeys chars run n operand)
    (hstarts : ∀ next, operand.Starts next) {joins : Char → Bool} {turns turns' : Nat}
    {first : Reading α} {t : Tree α × Nat} {s : State α} (hs : Ready chars s)
    (hn : maxNesting - s.place.nesting = n) (hfirst : Yields chars first t s)
    (hturns : first.rest.length ≤ turns) (hturns' : first.rest.length < turns') :
    Tracks chars (Yields chars) (chain (reader n operand) joins turns first)
      (more chars run operand joins turns' t) s := by
  induction turns' generalizing turns first t s with
  | zero => exact absurd hturns' (Nat.not_lt_zero _)
  | succ turns' ih =>
    rw [more]
    refine .after (peek_apply chars s) (.refl hs) ?_
    rw [hfirst.rest]
    cases hrest : first.rest with
    | nil =>
      rw [chain_of_rest_nil hrest]
      exact .ok rfl (.refl hs) hfirst
    | cons c rest =>
      rw [hrest, List.length_cons] at hturns hturns'
      obtain ⟨turns, rfl⟩ : ∃ k, turns = k + 1 := ⟨turns - 1, by omega⟩
      rw [chain, hrest]
      simp only [List.head?_cons]
      by_cases hc : joins c
      · rw [if_pos hc, if_pos hc]
        have hnext : s.rest chars = [c] ++ rest := hfirst.rest.trans hrest
        have hmoves := Moves.past_of_append hs hnext
        have hbehind := State.rest_past_of_append hnext
        refine .after (advance_apply s) hmoves ?_
        refine (hoperand.at hmoves.ready hn hbehind (hstarts _)).bind ?_
        intro second t' s' hmoves' hsecond
        obtain rfl := hfirst.tree
        obtain rfl := hsecond.tree
        rw [← hsecond.rest]
        refine (tracks_parentDepth hmoves'.ready _).bind ?_
        rintro depth depth' s'' hmoves'' ⟨rfl, rfl⟩
        have hlength := hmoves'.length_rest_le
        rw [hbehind] at hlength
        exact ih hmoves'.ready (hmoves'.nesting.trans hmoves.nesting ▸ hn) ⟨rfl, rfl⟩
          (Nat.le_trans hlength (Nat.le_of_succ_le_succ hturns))
          (Nat.lt_of_le_of_lt hlength (Nat.lt_of_succ_lt_succ hturns'))
      · rw [if_neg hc, if_neg hc]
        exact .ok rfl (.refl hs) hfirst

theorem tracks_term (hpower : Obeys chars run n .power) (hturns : chars.length < turns)
    (hs : Ready chars s) (hn : maxNesting - s.place.nesting = n) :
    Tracks chars (Yields chars) (Parser.term (Parser.power n) (s.rest chars))
      (term chars turns run) s := by
  rw [term]
  refine (hpower s hs hn trivial).bind fun first t s' hmoves hfirst => ?_
  exact tracks_more hpower (fun _ => trivial) hmoves.ready (hmoves.nesting ▸ hn) hfirst
    (Nat.le_refl _) (hfirst.rest ▸ length_rest_lt hturns s')

theorem tracks_expr (hterm : Obeys chars run n .term) (hturns : chars.length < turns)
    (hs : Ready chars s) (hn : maxNesting - s.place.nesting = n) :
    Tracks chars (Yields chars) (Parser.expr (Parser.power n) (s.rest chars))
      (expr chars turns run) s := by
  rw [expr, Parser.expr.eq_def]
  obtain ⟨rest, hrest, heat, hpast, hpasses⟩ | ⟨hne, heat⟩ := eat_cases '-' hs
  · refine .after heat hpasses ?_
    rw [hrest]
    simp only [negatedTerm, bind_assoc, pure_bind]
    refine (hterm.at hpasses.ready hn hpast trivial).bind fun first t s' hmoves hfirst => ?_
    obtain rfl := hfirst.tree
    rw [if_pos trivial, ← hfirst.rest]
    refine (tracks_parentDepth hmoves.ready _).bind ?_
    rintro depth depth' s'' hmoves' ⟨rfl, rfl⟩
    exact tracks_more hterm (fun _ => trivial) hmoves.ready (hmoves.nesting ▸ hn) ⟨rfl, rfl⟩
      (Nat.le_refl _) (length_rest_lt hturns s'')
  · refine .after heat (.refl hs) ?_
    simp only [Bool.false_eq_true, if_false]
    refine (hterm s hs hn trivial).bind fun first t s' hmoves hfirst => ?_
    exact tracks_more hterm (fun _ => trivial) hmoves.ready (hmoves.nesting ▸ hn) hfirst
      (Nat.le_refl _) (hfirst.rest ▸ length_rest_lt hturns s')

theorem tracks_bracketed (hexpr : Obeys chars run n .expr) {rest : List Char}
    (hs : Ready chars s) (hn : maxNesting - s.place.nesting = n)
    (hrest : s.rest chars = '(' :: rest) :
    Tracks chars (Yields chars) (Parser.bracketed (Parser.power n) ('(' :: rest) rest)
      (bracketed chars run) s := by
  have hnext : s.rest chars = ['('] ++ rest := hrest
  have hmoves := Moves.past_of_append hs hnext
  rw [bracketed, Parser.bracketed]
  refine .after (unread_apply chars s) (.refl hs) (.after (advance_apply s) hmoves ?_)
  refine (hexpr.at hmoves.ready hn (State.rest_past_of_append hnext) trivial).bind ?_
  intro inner t s' hmoves' hinner
  obtain rfl := hinner.tree
  obtain ⟨rest', hrest', heat, hpast, hpasses⟩ | ⟨hne, heat⟩ := eat_cases ')' hmoves'.ready
  · refine .after heat hpasses ?_
    rw [← hinner.rest, hrest']
    exact .ok rfl (.refl hpasses.ready) ⟨rfl, hpast⟩
  · refine .after heat (.refl hmoves'.ready) ?_
    rw [← hinner.rest]
    simp only
    rw [hrest]
    exact .error rfl (.refl hmoves'.ready)

theorem tracks_name (hexpr : Obeys chars run n .expr) (hturns : chars.length < turns)
    (hs : Ready chars s) (hn : maxNesting - s.place.nesting = n) :
    Tracks chars (Yields chars) (named (Parser.power n) (s.rest chars)) (name chars turns run)
      s := by
  have hbehind := rest_past_takeWhile chars inName s
  have hmoves : Moves chars s (s.past ((s.rest chars).takeWhile inName).length) :=
    .past_of_append hs List.takeWhile_append_dropWhile.symm
  rw [name, named]
  refine .after (takeRun_apply inName (length_rest_lt hturns s) []) hmoves ?_
  rw [List.nil_append, ← hbehind]
  generalize (s.rest chars).takeWhile inName = taken at hmoves ⊢
  generalize s.past taken.length = s₁ at hmoves ⊢
  refine .after (peek_apply chars s₁) (.refl hmoves.ready) ?_
  by_cases hcall : (s₁.rest chars).head? = some '('
  · obtain ⟨rest, hrest⟩ := List.head?_eq_some_iff.mp hcall
    rw [if_pos hcall, hrest]
    simp only
    by_cases hfunc : Func.ofSymbol (String.ofList taken) = .unknown
    · rw [hfunc]
      exact .error rfl (.refl hmoves.ready)
    · have hknown : Func.ofSymbol (String.ofList taken) = .unknown → False := hfunc
      simp only
      refine (tracks_bracketed hexpr hmoves.ready (hmoves.nesting ▸ hn) hrest).bind ?_
      intro argument t s₂ hmoves' hargument
      obtain rfl := hargument.tree
      rw [← hargument.rest]
      refine (tracks_parentDepth hmoves'.ready _).bind ?_
      rintro depth depth' s₃ hmoves'' ⟨rfl, rfl⟩
      exact .ok rfl (.refl hmoves'.ready) ⟨rfl, rfl⟩
  · rw [if_neg hcall]
    have hne : ∀ rest, s₁.rest chars = '(' :: rest → False := by
      intro rest hrest
      rw [hrest] at hcall
      exact hcall rfl
    simp only
    exact .ok rfl (.refl hmoves.ready) ⟨rfl, rfl⟩

theorem tracks_atom (hexpr : Obeys chars run n .expr) (hname : Obeys chars run n .name)
    (hnumber : Obeys chars run n .number) (hs : Ready chars s)
    (hn : maxNesting - s.place.nesting = n) :
    Tracks chars (Yields chars) (Parser.atom (Parser.power n) (s.rest chars)) (atom chars run)
      s := by
  rw [atom]
  refine .after (peek_apply chars s) (.refl hs) ?_
  have hunread := unread_apply chars s
  cases hrest : s.rest chars with
  | nil =>
    rw [hrest] at hunread
    exact .error (bind_ok hunread) (.refl hs)
  | cons c rest =>
    simp only [List.head?_cons, Parser.atom]
    by_cases hopen : c = '('
    · subst hopen
      exact tracks_bracketed hexpr hs hn hrest
    · rw [if_neg hopen, if_neg hopen]
      by_cases hletter : startsName c
      · rw [if_pos hletter, if_pos hletter]
        exact hname.at hs hn hrest ⟨c, rfl, hletter⟩
      · rw [if_neg hletter, if_neg hletter]
        by_cases hdigit : startsNumber c
        · rw [if_pos hdigit, if_pos hdigit]
          exact hnumber.at hs hn hrest ⟨c, rfl, hdigit⟩
        · rw [if_neg hdigit, if_neg hdigit, ← hrest]
          exact .error (bind_ok hunread) (.refl hs)

theorem tracks_unguarded (hatom : Obeys chars run n .atom) (hpower : Obeys chars run n .power)
    (hs : Ready chars s) (hn : maxNesting - s.place.nesting = n) :
    Tracks chars (Yields chars) (Parser.power (n + 1) (s.rest chars)) (unguarded chars run) s := by
  rw [unguarded, Parser.power]
  refine (hatom s hs hn trivial).bind fun base t s' hmoves hbase => ?_
  obtain rfl := hbase.tree
  obtain ⟨rest, hrest, heat, hpast, hpasses⟩ | ⟨hne, heat⟩ := eat_cases '^' hmoves.ready
  · refine .after heat hpasses ?_
    rw [← hbase.rest, hrest]
    simp only [if_true]
    refine (hpower.at hpasses.ready (hmoves.nesting ▸ hn) hpast trivial).bind ?_
    intro exponent t s'' hmoves' hexponent
    obtain rfl := hexponent.tree
    rw [← hexponent.rest]
    refine (tracks_parentDepth hmoves'.ready _).bind ?_
    rintro depth depth' s₃ hmoves'' ⟨rfl, rfl⟩
    exact .ok rfl (.refl hmoves'.ready) ⟨rfl, rfl⟩
  · refine .after heat (.refl hmoves.ready) ?_
    rw [← hbase.rest]
    simp only [Bool.false_eq_true, if_false]
    exact .ok rfl (.refl hmoves.ready) hbase

/-- A power opens another one within the limit, and fails at the limit. -/
theorem tracks_power (hatom : ∀ m, m + 1 = n → Obeys chars run m .atom)
    (hpower : ∀ m, m + 1 = n → Obeys chars run m .power) (hs : Ready chars s)
    (hn : maxNesting - s.place.nesting = n) :
    Tracks chars (Yields chars) (Parser.power n (s.rest chars)) (power chars run) s := by
  cases n with
  | zero => exact .error (power_of_full (Nat.sub_eq_zero_iff_le.mp hn)) (.refl hs)
  | succ n =>
    have hentered : Ready chars s.entered := by
      refine ⟨hs.pos_le, ?_, hs.calls⟩
      show max s.place.peak (s.place.nesting + 1) ≤ maxNesting
      have := hs.peak_le
      omega
    obtain ⟨outcome, s', hrun, hmoves, hfollows⟩ :=
      tracks_unguarded (hatom n rfl) (hpower n rfl) hentered
        (show maxNesting - (s.place.nesting + 1) = n by omega)
    refine ⟨outcome, s'.left, power_of_free (by omega) hrun,
      ⟨⟨hmoves.ready.pos_le, hmoves.ready.peak_le, hmoves.ready.calls⟩, ?_, hmoves.pos_le⟩,
      hfollows.imp fun _ _ hyield => ⟨hyield.tree, hyield.rest⟩⟩
    show s'.place.nesting - 1 = s.place.nesting
    rw [hmoves.nesting]
    rfl

/-! ### Calls -/

theorem measured_of_reads {p : Phrase} {text : List Char} {r : Reading α} {d : Derivation p}
    {t : Tree α} (h : Parser.Reads n text r d t) (hd : d.text ≠ []) :
    Measured r ∧ r.rest.length < text.length := by
  have hpos := List.length_pos_of_ne_nil hd
  refine ⟨h.measured, ?_⟩
  rw [h.text, List.length_append]
  omega

/-- What a reader yields is measured, and it takes something off the text. -/
theorem reader_sound {p : Procedure} {text : List Char} {r : Reading α}
    (hstarts : p.Starts text.head?) (h : reader n p text = .ok r) :
    Measured r ∧ r.rest.length < text.length := by
  cases p with
  | expr =>
    obtain ⟨d, hd⟩ := expr_sound power_sound h
    refine measured_of_reads hd ?_
    cases d with
    | plain first more =>
      obtain ⟨c, s, hs, -⟩ := first.head_term
      simp [Derivation.text, hs]
    | negated first more => simp [Derivation.text]
  | term =>
    obtain ⟨d, hd⟩ := term_sound power_sound h
    obtain ⟨c, s, hs, -⟩ := d.head_term
    exact measured_of_reads hd (by simp [hs])
  | power =>
    obtain ⟨d, hd⟩ := power_sound h
    obtain ⟨c, s, hs, -⟩ := d.head_power
    exact measured_of_reads hd (by simp [hs])
  | atom =>
    obtain ⟨d, hd⟩ := atom_sound power_sound h
    obtain ⟨c, s, hs, -⟩ := d.head_atom
    exact measured_of_reads hd (by simp [hs])
  | name =>
    obtain ⟨c, hc, hname⟩ := hstarts
    obtain ⟨s, rfl⟩ := List.head?_eq_some_iff.mp hc
    obtain ⟨d, hd⟩ := named_sound power_sound hname h
    obtain ⟨c, s, hs, -⟩ := d.head_atom
    exact measured_of_reads hd (by simp [hs])
  | number =>
    obtain ⟨d, hd⟩ := number_sound h
    obtain ⟨c, s, hs, -⟩ := d.head_atom
    exact measured_of_reads (n := 0) hd (by simp [hs])

theorem depth_number {text : List Char} {r : Reading α} (h : Parser.number text = .ok r) :
    r.depth = 1 := by
  obtain ⟨literal, imaginary, rest, v, x, -, -, -, -, rfl⟩ := number_eq_ok_iff.mp h
  rfl

/-- A call that follows its reader keeps the discipline. -/
theorem disciplined_of_follows {p : Procedure} {outcome : Outcome α} {s s' : State α}
    (hs : Ready chars s) (hmoves : Moves chars s s') (hstarts : p.Starts (s.rest chars).head?)
    (h : Follows (fun (r : Reading α) t => Yields chars r t s') (reader n p (s.rest chars))
      outcome) :
    Disciplined chars ⟨p, s.place, outcome, s'.place⟩ := by
  have hyields {t : Tree α × Nat} (ht : outcome = .ok t) :
      ∃ r : Reading α, reader n p (s.rest chars) = .ok r ∧ Yields chars r t s' := by
    subst ht
    generalize (reader n p (s.rest chars) : Except Failure (Reading α)) = x at h
    cases h with
    | ok h => exact ⟨_, rfl, h⟩
  refine ⟨hs.pos_le, ?_, hmoves.nesting, hmoves.pos_le, hmoves.ready.pos_le,
    hmoves.ready.peak_le, ?_, ?_, ?_⟩
  · rw [State.rest, List.head?_drop] at hstarts
    exact hstarts
  · intro t ht
    obtain ⟨r, hr, hyield⟩ := hyields ht
    have hlt := (reader_sound hstarts hr).2
    rw [← hyield.rest, State.rest, State.rest, List.length_drop, List.length_drop] at hlt
    show s.place.pos < s'.place.pos
    omega
  · intro t depth ht
    obtain ⟨r, hr, hyield⟩ := hyields ht
    obtain ⟨rfl, rfl⟩ := Prod.mk.inj hyield.tree
    have hmeasured := (reader_sound hstarts hr).1
    exact ⟨hmeasured.depth, hmeasured.depth ▸ hmeasured.shallow⟩
  · rintro t depth rfl ht
    obtain ⟨r, hr, hyield⟩ := hyields ht
    obtain ⟨-, rfl⟩ := Prod.mk.inj hyield.tree
    exact depth_number hr

/-- The call of a procedure follows its reader if its body does. -/
theorem obeys_call {p : Procedure} {fuel : Nat}
    (h : ∀ s : State α, Ready chars s → maxNesting - s.place.nesting = n →
      Tracks chars (Yields chars) (reader n p (s.rest chars))
        (body chars fuel (call chars fuel) p) s) :
    Obeys (α := α) chars (call chars (fuel + 1)) n p := by
  intro s hs hn hstarts
  obtain ⟨outcome, s', hm, hmoves, hfollows⟩ := h s hs hn
  have hdisc := disciplined_of_follows hs hmoves hstarts hfollows
  refine ⟨outcome, _, call_apply hm, ⟨⟨hmoves.ready.pos_le, hmoves.ready.peak_le, ?_⟩,
    hmoves.nesting, hmoves.pos_le⟩, hfollows.imp fun _ _ hyield => ⟨hyield.tree, hyield.rest⟩⟩
  exact List.forall_mem_cons.mpr ⟨hdisc, hmoves.ready.calls⟩

end

/-- Above every procedure that it calls without opening a power. -/
def Procedure.rank : Procedure → Nat
  | .power => 1
  | .number => 1
  | .term => 2
  | .expr => 3
  | .name => 4
  | .atom => 5

/-- With a turn for every character, and five calls for every power that may still be opened, there
is fuel enough. -/
theorem obeys [Numeral α] {fuel n : Nat} {p : Procedure}
    (hfuel : chars.length + 5 * n + p.rank < fuel) :
    Obeys (α := α) chars (call chars fuel) n p := by
  induction fuel generalizing n p with
  | zero => exact absurd hfuel (Nat.not_lt_zero _)
  | succ fuel ih =>
    have hturns : chars.length < fuel := by
      cases p <;> simp only [Procedure.rank] at hfuel <;> omega
    refine obeys_call fun s hs hn => ?_
    cases p with
    | expr =>
      have hterm := @ih n .term (by simp only [Procedure.rank] at hfuel ⊢; omega)
      exact tracks_expr hterm hturns hs hn
    | term =>
      have hpower := @ih n .power (by simp only [Procedure.rank] at hfuel ⊢; omega)
      exact tracks_term hpower hturns hs hn
    | power =>
      refine tracks_power (fun m hm => ih ?_) (fun m hm => ih ?_) hs hn <;>
        simp only [Procedure.rank] at hfuel ⊢ <;> omega
    | atom =>
      refine tracks_atom (ih ?_) (ih ?_) (ih ?_) hs hn <;>
        simp only [Procedure.rank] at hfuel ⊢ <;> omega
    | name =>
      have hexpr := @ih n .expr (by simp only [Procedure.rank] at hfuel ⊢; omega)
      exact tracks_name hexpr hturns hs hn
    | number => exact tracks_number hturns hs

/-! ### Formulas -/

/-- Fuel that is enough to read a text. -/
def fuelFor (chars : List Char) : Nat := chars.length + 5 * maxNesting + 4

theorem ready_start : Ready chars (State.start : State α) :=
  ⟨Nat.zero_le _, Nat.zero_le _, List.forall_mem_nil _⟩

section

variable [Numeral α] {fuel : Nat}

theorem obeys_expr (hfuel : fuelFor chars ≤ fuel) :
    Obeys (α := α) chars (call chars fuel) maxNesting .expr :=
  obeys hfuel

theorem tracks_formula (hfuel : fuelFor chars ≤ fuel) :
    Tracks chars (fun (t t' : Tree α) _ => t' = t) (Parser.formula chars) (formula chars fuel)
      .start := by
  have hs : Ready chars (State.start : State α) := ready_start
  rw [Parser.formula, formula]
  refine (obeys_expr hfuel .start hs rfl trivial).bind fun all t s hmoves hall => ?_
  obtain rfl := hall.tree
  refine .after (peek_apply chars s) (.refl hmoves.ready) ?_
  rw [← hall.rest]
  cases hrest : s.rest chars with
  | nil => exact .ok rfl (.refl hmoves.ready) rfl
  | cons c rest =>
    have hunread := unread_apply chars s
    rw [hrest] at hunread
    exact .error (bind_ok hunread) (.refl hmoves.ready)

/-- The call for the whole formula is in the journal. -/
theorem exists_call_of_formula {outcome : Except Failure (Tree α)} {s : State α}
    (h : formula chars fuel .start = some (outcome, s)) :
    ∃ c ∈ s.calls, c.procedure = .expr ∧ c.entry = ⟨0, 0, 0⟩ := by
  rw [formula] at h
  cases hcall : call chars fuel .expr (State.start : State α) with
  | none =>
    rw [bind_unfinished hcall] at h
    cases h
  | some returned =>
    obtain ⟨all, s₁⟩ := returned
    have hmem := mem_calls_of_call hcall
    cases all with
    | error f =>
      rw [bind_error hcall] at h
      obtain ⟨-, rfl⟩ := Prod.mk.inj (Option.some.inj h)
      exact ⟨_, hmem, rfl, rfl⟩
    | ok all =>
      rw [bind_ok hcall, bind_ok (peek_apply chars s₁)] at h
      cases hnext : (s₁.rest chars).head? with
      | none =>
        rw [hnext] at h
        obtain ⟨-, rfl⟩ := Prod.mk.inj (Option.some.inj h)
        exact ⟨_, hmem, rfl, rfl⟩
      | some c =>
        rw [hnext] at h
        obtain ⟨-, rfl⟩ := Prod.mk.inj (Option.some.inj h)
        exact ⟨_, hmem, rfl, rfl⟩

end

/-- Every text is read to an end, with the tree or the error of the parser, and every call that is
made on the way keeps the discipline. More fuel than enough makes no difference. -/
theorem formula_disciplined [Numeral α] (text : String) (more : Nat) :
    ∃ (outcome : Except Failure (Tree α)) (s : State α),
      formula (inked text.toList) (fuelFor (inked text.toList) + more) .start =
        some (outcome, s) ∧
      outcome.mapError (Failure.locate text.toList) = Tree.parse text ∧
      (∃ c ∈ s.calls, c.procedure = .expr ∧ c.entry = ⟨0, 0, 0⟩) ∧
      ∀ c ∈ s.calls, Disciplined (inked text.toList) c := by
  obtain ⟨outcome, s, hrun, hmoves, hfollows⟩ :=
    tracks_formula (α := α) (Nat.le_add_right (fuelFor (inked text.toList)) more)
  refine ⟨outcome, s, hrun, ?_, exists_call_of_formula hrun, hmoves.ready.calls⟩
  rw [Tree.parse]
  generalize (Parser.formula (inked text.toList) : Except Failure (Tree α)) = x at hfollows
  cases hfollows with
  | ok h => rw [h]
  | error f => rfl

-- The bracket is not closed, but both powers are.
example : (formula ['(', 'x'] 20 (State.start : State Float)).map (fun r => r.2.place) =
    some ⟨2, 0, 2⟩ := rfl

end FractalFormula.Parser.Cursor
