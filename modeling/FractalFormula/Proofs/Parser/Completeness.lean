import FractalFormula.Proofs.Parser.Soundness
import FractalFormula.Proofs.Parser.Unambiguous

/-!
# What is derived is read

The other direction: a text that has a derivation within the limits is read, and read as that
derivation says. The procedures are greedy, so this needs a text behind the phrase that may
follow it; with it, each procedure stops exactly where its phrase ends.

The statement about a phrase is `Derivation.Read`, and `Derivation.read` proves it by induction
on the derivation, with one lemma for each production. Soundness, unambiguity and this together
say what the parser accepts (`Tree.parse_eq_ok_iff`).
-/

namespace FractalFormula

open FractalFormula.Parser

theorem Sign.joins (s : Sign) :
    joinsTerms s.char ∧ Operator.ofChar s.char = s.operator := by cases s <;> decide

theorem Scale.joins (s : Scale) :
    joinsPowers s.char ∧ Operator.ofChar s.char = s.operator := by cases s <;> decide

namespace Parser

variable {α : Type _}

/-- A tree that was read with its own depth beside it. -/
def Reading.of (t : Tree α) (rest : List Char) : Reading α := ⟨t, t.depth, rest⟩

/-! ### Chains -/

/-- A chain ends before a character that does not join. -/
theorem chain_of_stops {operand : Reader α} {joins : Char → Bool} {turns : Nat}
    {first : Reading α} (h : Text.Stops joins first.rest) :
    chain operand joins turns first = .ok first := by
  cases turns with
  | zero => rfl
  | succ turns =>
    rw [chain]
    split
    · rfl
    · next c rest hrest =>
      rw [hrest] at h
      simp [Text.stops_cons.mp h]

/-- A chain takes an operator that joins and the operand behind it. -/
theorem chain_cons {operand : Reader α} {joins : Char → Bool} {turns : Nat}
    {left right : Tree α} {c : Char} {o : Operator} {s rest : List Char}
    (hc : joins c ∧ Operator.ofChar c = o) (h : operand s = .ok (.of right rest))
    (hd : (Tree.binary o left right).depth ≤ maxDepth) :
    chain operand joins (turns + 1) (.of left (c :: s)) =
      chain operand joins turns (.of (.binary o left right) rest) := by
  obtain ⟨hc, rfl⟩ := hc
  rw [Tree.depth_binary] at hd
  have hdeeper : deeper (max left.depth right.depth) rest = .ok _ := deeper_of_le rest hd
  simp only [chain, Reading.of, if_pos hc, h, Tree.depth_binary]
  simp only [Reading.of] at h
  simp only [bind, Except.bind, hdeeper]

/-- A chain fails where the operand behind an operator that joins does. -/
theorem chain_cons_error {operand : Reader α} {joins : Char → Bool} {turns : Nat} {left : Tree α}
    {c : Char} {s : List Char} {f : Failure} (hc : joins c) (h : operand s = .error f) :
    chain operand joins (turns + 1) (.of left (c :: s)) = .error f := by
  simp only [chain, Reading.of, if_pos hc, h]
  rfl

/-- Turns that suffice for a further operand suffice for those behind it. -/
theorem exists_turn {c : Char} {s s' : List Char} {turns : Nat}
    (h : (c :: (s ++ s')).length ≤ turns) : ∃ t, turns = t + 1 ∧ s'.length ≤ t := by
  rw [List.length_cons, List.length_append] at h
  exact ⟨turns - 1, by omega, by omega⟩

/-! ### Calls -/

/-- The name of a function before a bracket is a call of it. -/
theorem named_call (power : Reader α) {name : Name} {f : Func}
    (hf : Func.named? (String.ofList name.1) = some f) (s : List Char) :
    named power (name.1 ++ '(' :: s) = do
      let argument ← bracketed power ('(' :: s) s
      let depth ← deeper argument.depth argument.rest
      return ⟨.call f argument.tree, depth, argument.rest⟩ := by
  obtain ⟨-, -, -, -, hname⟩ := name.2.head
  have hsymbol : Func.ofSymbol (String.ofList name.1) = f := by
    rw [Func.ofSymbol_eq_named?, hf]
    rfl
  have hstop := Derivation.stops_bracket s
  rw [named, Text.takeWhile_append_of_stops hname hstop,
    Text.dropWhile_append_of_stops hname hstop]
  simp only [hsymbol]
  split
  · exact absurd rfl (Func.named?_ne_unknown hf)
  · rfl

end Parser

namespace Derivation

variable {α : Type _} [Numeral α]

/-- The derivation of the tree `t` stays within the limits when `n` powers may be opened, and
`rest` may stand behind it. -/
structure Fits {p : Phrase} (n : Nat) (d : Derivation p) (t : Tree α) (rest : List Char) :
    Prop where
  admissible : d.Admissible α
  opens : d.opens ≤ n
  ends : p.EndsAt rest
  shallow : t.depth ≤ maxDepth

/-! ### The parts of a phrase that fits -/

namespace Fits

variable {n : Nat} {rest : List Char}

theorem term {first : Derivation .power} {more : Derivation .morePowers}
    (h : (term first more).Fits n (more.tree (first.tree : Tree α)) rest) :
    first.Fits n (first.tree : Tree α) (more.text ++ rest) ∧
      more.Fits n (more.tree (first.tree : Tree α)) rest := by
  obtain ⟨hf, hm⟩ := Nat.max_le.mp h.opens
  exact ⟨⟨h.admissible.1, hf, endsAt_morePowers more h.ends,
    Nat.le_trans (depth_le_morePowers more first.tree) h.shallow⟩,
    ⟨h.admissible.2, hm, h.ends, h.shallow⟩⟩

theorem plain {first : Derivation .term} {more : Derivation .moreTerms}
    (h : (plain first more).Fits n (more.tree (first.tree : Tree α)) rest) :
    first.Fits n (first.tree : Tree α) (more.text ++ rest) ∧
      more.Fits n (more.tree (first.tree : Tree α)) rest := by
  obtain ⟨hf, hm⟩ := Nat.max_le.mp h.opens
  exact ⟨⟨h.admissible.1, hf, endsAt_moreTerms more h.ends,
    Nat.le_trans (depth_le_moreTerms more first.tree) h.shallow⟩,
    ⟨h.admissible.2, hm, h.ends, h.shallow⟩⟩

theorem negated {first : Derivation .term} {more : Derivation .moreTerms}
    (h : (negated first more).Fits n (more.tree (.negation (first.tree : Tree α))) rest) :
    first.Fits n (first.tree : Tree α) (more.text ++ rest) ∧
      (first.tree : Tree α).depth + 1 ≤ maxDepth ∧
      more.Fits n (more.tree (.negation (first.tree : Tree α))) rest := by
  obtain ⟨hf, hm⟩ := Nat.max_le.mp h.opens
  have hnode := Nat.le_trans (depth_le_moreTerms more (.negation (first.tree : Tree α))) h.shallow
  rw [Tree.depth_negation] at hnode
  exact ⟨⟨h.admissible.1, hf, endsAt_moreTerms more h.ends, Nat.le_of_succ_le hnode⟩, hnode,
    ⟨h.admissible.2, hm, h.ends, h.shallow⟩⟩

theorem nextPower {s : Scale} {operand : Derivation .power} {more : Derivation .morePowers}
    {left : Tree α} (h : (nextPower s operand more).Fits n
      (more.tree (.binary s.operator left (operand.tree : Tree α))) rest) :
    operand.Fits n (operand.tree : Tree α) (more.text ++ rest) ∧
      (Tree.binary s.operator left (operand.tree : Tree α)).depth ≤ maxDepth ∧
      more.Fits n (more.tree (.binary s.operator left (operand.tree : Tree α))) rest := by
  obtain ⟨ho, hm⟩ := Nat.max_le.mp h.opens
  have hnode := Nat.le_trans
    (depth_le_morePowers more (.binary s.operator left (operand.tree : Tree α))) h.shallow
  have hright : (operand.tree : Tree α).depth ≤ maxDepth := by
    rw [Tree.depth_binary] at hnode
    omega
  exact ⟨⟨h.admissible.1, ho, endsAt_morePowers more h.ends, hright⟩, hnode,
    ⟨h.admissible.2, hm, h.ends, h.shallow⟩⟩

theorem nextTerm {s : Sign} {operand : Derivation .term} {more : Derivation .moreTerms}
    {left : Tree α} (h : (nextTerm s operand more).Fits n
      (more.tree (.binary s.operator left (operand.tree : Tree α))) rest) :
    operand.Fits n (operand.tree : Tree α) (more.text ++ rest) ∧
      (Tree.binary s.operator left (operand.tree : Tree α)).depth ≤ maxDepth ∧
      more.Fits n (more.tree (.binary s.operator left (operand.tree : Tree α))) rest := by
  obtain ⟨ho, hm⟩ := Nat.max_le.mp h.opens
  have hnode := Nat.le_trans
    (depth_le_moreTerms more (.binary s.operator left (operand.tree : Tree α))) h.shallow
  have hright : (operand.tree : Tree α).depth ≤ maxDepth := by
    rw [Tree.depth_binary] at hnode
    omega
  exact ⟨⟨h.admissible.1, ho, endsAt_moreTerms more h.ends, hright⟩, hnode,
    ⟨h.admissible.2, hm, h.ends, h.shallow⟩⟩

theorem base {a : Derivation .atom} (h : (base a).Fits n (a.tree : Tree α) rest) :
    ∃ m, n = m + 1 ∧ a.Fits m (a.tree : Tree α) rest := by
  obtain ⟨m, rfl⟩ : ∃ m, n = m + 1 :=
    Nat.exists_eq_add_one.mpr (Nat.lt_of_lt_of_le (Nat.succ_pos _) h.opens)
  exact ⟨m, rfl, h.admissible, Nat.le_of_succ_le_succ h.opens, h.ends.atom, h.shallow⟩

theorem raised {a : Derivation .atom} {exponent : Derivation .power}
    (h : (raised a exponent).Fits n (.pow (a.tree : Tree α) exponent.tree) rest) :
    ∃ m, n = m + 1 ∧ a.Fits m (a.tree : Tree α) ('^' :: (exponent.text ++ rest)) ∧
      exponent.Fits m (exponent.tree : Tree α) rest ∧
      max (a.tree : Tree α).depth (exponent.tree : Tree α).depth + 1 ≤ maxDepth := by
  obtain ⟨m, rfl⟩ : ∃ m, n = m + 1 :=
    Nat.exists_eq_add_one.mpr (Nat.lt_of_lt_of_le (Nat.succ_pos _) h.opens)
  obtain ⟨hoa, hoe⟩ := Nat.max_le.mp (Nat.le_of_succ_le_succ h.opens)
  have hnode := h.shallow
  rw [Tree.depth_pow] at hnode
  obtain ⟨hda, hde⟩ := Nat.max_le.mp (Nat.le_of_succ_le hnode)
  exact ⟨m, rfl, ⟨h.admissible.1, hoa, Phrase.endsAt_caret _, hda⟩,
    ⟨h.admissible.2, hoe, h.ends, hde⟩, hnode⟩

theorem bracket {inner : Derivation .expr}
    (h : (bracket inner).Fits n (inner.tree : Tree α) rest) :
    inner.Fits n (inner.tree : Tree α) (')' :: rest) :=
  ⟨h.admissible, h.opens, Phrase.endsAt_close rest, h.shallow⟩

theorem call {name : Name} {argument : Derivation .expr} {f : Func}
    (h : (call name argument).Fits n (.call f (argument.tree : Tree α)) rest) :
    argument.Fits n (argument.tree : Tree α) (')' :: rest) ∧
      (argument.tree : Tree α).depth + 1 ≤ maxDepth := by
  have hnode := h.shallow
  rw [Tree.depth_call] at hnode
  exact ⟨⟨h.admissible.2, h.opens, Phrase.endsAt_close rest, Nat.le_of_succ_le hnode⟩, hnode⟩

end Fits

/-- The phrase is read from any text that goes on with what may follow, while the given number of
powers may be opened. -/
def Read (α : Type _) [Numeral α] : {p : Phrase} → Derivation p → Prop
  | .atom, d => ∀ {n rest}, d.Fits n (d.tree : Tree α) rest →
    atom (power n) (d.text ++ rest) = .ok (.of (d.tree : Tree α) rest)
  | .power, d => ∀ {n rest}, d.Fits n (d.tree : Tree α) rest →
    power n (d.text ++ rest) = .ok (.of (d.tree : Tree α) rest)
  | .term, d => ∀ {n rest}, d.Fits n (d.tree : Tree α) rest →
    Parser.term (power n) (d.text ++ rest) = .ok (.of (d.tree : Tree α) rest)
  | .expr, d => ∀ {n rest}, d.Fits n (d.tree : Tree α) rest →
    expr (power n) (d.text ++ rest) = .ok (.of (d.tree : Tree α) rest)
  | .morePowers, d => ∀ {n rest turns} {left : Tree α}, d.Fits n (d.tree left) rest →
    d.text.length ≤ turns →
    chain (power n) joinsPowers turns (.of left (d.text ++ rest)) = .ok (.of (d.tree left) rest)
  | .moreTerms, d => ∀ {n rest turns} {left : Tree α}, d.Fits n (d.tree left) rest →
    d.text.length ≤ turns →
    chain (Parser.term (power n)) joinsTerms turns (.of left (d.text ++ rest)) =
      .ok (.of (d.tree left) rest)

/-! ### Chains -/

theorem Fits.stops_joinsPowers {n : Nat} {t : Tree α} {d : Derivation .morePowers}
    {rest : List Char} (h : d.Fits n t rest) : Text.Stops joinsPowers rest :=
  Text.stops_of_all (by decide) h.ends

theorem Fits.stops_joinsTerms {n : Nat} {t : Tree α} {d : Derivation .moreTerms}
    {rest : List Char} (h : d.Fits n t rest) : Text.Stops joinsTerms rest :=
  Text.stops_of_all (by decide) h.ends

theorem read_lastPower : (lastPower).Read α := by
  intro n rest turns left h _
  exact chain_of_stops h.stops_joinsPowers

theorem read_lastTerm : (lastTerm).Read α := by
  intro n rest turns left h _
  exact chain_of_stops h.stops_joinsTerms

theorem read_nextPower {s : Scale} {operand : Derivation .power} {more : Derivation .morePowers}
    (hoperand : operand.Read α) (hmore : more.Read α) : (nextPower s operand more).Read α := by
  intro n rest turns left h hturns
  obtain ⟨ho, hnode, hm⟩ := h.nextPower
  obtain ⟨turns, rfl, hturn⟩ := exists_turn hturns
  rw [text, List.cons_append, List.append_assoc, chain_cons s.joins (hoperand ho) hnode]
  exact hmore hm hturn

theorem read_nextTerm {s : Sign} {operand : Derivation .term} {more : Derivation .moreTerms}
    (hoperand : operand.Read α) (hmore : more.Read α) : (nextTerm s operand more).Read α := by
  intro n rest turns left h hturns
  obtain ⟨ho, hnode, hm⟩ := h.nextTerm
  obtain ⟨turns, rfl, hturn⟩ := exists_turn hturns
  rw [text, List.cons_append, List.append_assoc, chain_cons s.joins (hoperand ho) hnode]
  exact hmore hm hturn

/-! ### Terms and expressions -/

theorem read_term {first : Derivation .power} {more : Derivation .morePowers}
    (hfirst : first.Read α) (hmore : more.Read α) : (term first more).Read α := by
  intro n rest h
  obtain ⟨hf, hm⟩ := h.term
  rw [text, List.append_assoc, Parser.term, hfirst hf]
  refine hmore hm ?_
  simp only [Reading.of, List.length_append]
  omega

theorem read_plain {first : Derivation .term} {more : Derivation .moreTerms}
    (hfirst : first.Read α) (hmore : more.Read α) : (plain first more).Read α := by
  intro n rest h
  obtain ⟨hf, hm⟩ := h.plain
  rw [text, List.append_assoc]
  simp only [expr]
  split
  · next s hs => exact absurd hs (first.term_text_ne _ _)
  · rw [hfirst hf]
    refine hmore hm ?_
    simp only [Reading.of, List.length_append]
    omega

theorem negatedTerm_eq_ok {first : Derivation .term} (hfirst : first.Read α) {n : Nat}
    {rest : List Char} (h : first.Fits n (first.tree : Tree α) rest)
    (hnode : (first.tree : Tree α).depth + 1 ≤ maxDepth) :
    negatedTerm (power n) (first.text ++ rest) =
      .ok (.of (.negation (first.tree : Tree α)) rest) := by
  have hread := hfirst h
  have hdeeper : deeper (first.tree : Tree α).depth rest = .ok _ := deeper_of_le _ hnode
  simp only [negatedTerm, hread, bind, Except.bind, Reading.of, hdeeper, Tree.depth_negation]
  rfl

theorem read_negated {first : Derivation .term} {more : Derivation .moreTerms}
    (hfirst : first.Read α) (hmore : more.Read α) : (negated first more).Read α := by
  intro n rest h
  obtain ⟨hf, hnode, hm⟩ := h.negated
  rw [text, List.cons_append, List.append_assoc]
  simp only [expr, negatedTerm_eq_ok hfirst hf hnode]
  refine hmore hm ?_
  simp only [Reading.of, List.length_append]
  omega

/-! ### Powers -/

theorem read_base {a : Derivation .atom} (ha : a.Read α) : (base a).Read α := by
  intro n rest h
  obtain ⟨n, rfl, hbase⟩ := h.base
  have hread := ha hbase
  rw [text, Parser.power]
  simp only [hread, bind, Except.bind]
  split
  · next s hs => exact absurd (congrArg List.head? hs) (h.ends.head?_ne (by decide))
  · rfl

theorem read_raised {a : Derivation .atom} {exponent : Derivation .power} (ha : a.Read α)
    (hexponent : exponent.Read α) : (raised a exponent).Read α := by
  intro n rest h
  obtain ⟨n, rfl, hfits, hfits', hnode⟩ := h.raised
  have hbase := ha hfits
  have hright := hexponent hfits'
  have hdeeper := deeper_of_le rest hnode
  rw [text, List.append_assoc, List.cons_append, Parser.power]
  simp only [hbase, hright, bind, Except.bind, Reading.of, hdeeper, tree, Tree.depth_pow]
  rfl

/-! ### Atoms -/

/-- An expression between brackets is read with its closing bracket. -/
theorem bracketed_eq_ok {inner : Derivation .expr} (hinner : inner.Read α) {n : Nat}
    (opened : List Char) {rest : List Char}
    (h : inner.Fits n (inner.tree : Tree α) (')' :: rest)) :
    bracketed (power n) opened (inner.text ++ ')' :: rest) =
      .ok (.of (inner.tree : Tree α) rest) := by
  rw [bracketed, hinner h]
  rfl

theorem read_bracket {inner : Derivation .expr} (hinner : inner.Read α) :
    (bracket inner).Read α := by
  intro n rest h
  simp only [text, List.cons_append, List.append_assoc, List.nil_append, Parser.atom, if_true]
  exact bracketed_eq_ok hinner _ h.bracket

theorem atom_name (power : Reader α) (name : Name) (s : List Char) :
    Parser.atom power (name.1 ++ s) = named power (name.1 ++ s) := by
  obtain ⟨c, cs, hcs, hc, -⟩ := name.2.head
  have hne : c ≠ '(' := by
    rintro rfl
    exact absurd hc (by decide)
  rw [hcs, List.cons_append, Parser.atom, if_neg hne, if_pos hc]

theorem read_call {name : Name} {argument : Derivation .expr} (hargument : argument.Read α) :
    (call name argument).Read α := by
  intro n rest h
  obtain ⟨⟨f, hf⟩, -⟩ := h.admissible
  obtain ⟨hfits, hnode⟩ := h.call
  have hread := bracketed_eq_ok hargument ('(' :: (argument.text ++ ')' :: rest)) hfits
  have hdeeper := deeper_of_le rest hnode
  simp only [text, List.append_assoc, List.cons_append, List.nil_append]
  rw [atom_name, named_call _ hf]
  simp only [hread, bind, Except.bind, Reading.of, hdeeper, tree, hf, Option.getD_some,
    Tree.depth_call]
  rfl

theorem read_var {name : Name} : (var name).Read α := by
  intro n rest h
  obtain ⟨-, -, -, -, hname⟩ := name.2.head
  rw [text, atom_name, named, Text.takeWhile_append_of_stops hname h.ends.stops,
    Text.dropWhile_append_of_stops hname h.ends.stops]
  split
  · exact absurd rfl (h.ends.head?_ne (c := '(') (by decide))
  · simp only [Reading.of, tree, Tree.depth_var]

theorem atom_number (power : Reader α) (literal : Digits) (s : List Char) :
    Parser.atom power (literal.1 ++ s) = Parser.number (literal.1 ++ s) := by
  obtain ⟨c, cs, hcs, hc⟩ := literal.2.head
  have hne : c ≠ '(' := by
    rintro rfl
    exact absurd hc (by decide)
  rw [hcs, List.cons_append, Parser.atom, if_neg hne,
    if_neg (by simp [startsName_of_startsNumber hc]), if_pos hc]

theorem read_number {literal : Digits} {imaginary : Bool} :
    (number literal imaginary).Read α := by
  intro n rest h
  obtain ⟨hfin, hsome⟩ := h.admissible
  obtain ⟨v, hv⟩ := (Literal.exists_value?_iff literal.2).mpr hfin
  obtain ⟨x, hx⟩ := Option.isSome_iff_exists.mp (hsome v hv)
  have htree : tree (α := α) (number literal imaginary) = .num x := by
    simp only [tree, scalar?, hv, Option.bind_some, hx, Option.getD_some]
  rw [htree, text, List.append_assoc, atom_number]
  refine number_eq_ok_iff.mpr ⟨literal.1, imaginary, rest, v, x,
    Literal.split?_append literal.2 (ended_suffix imaginary h.ends),
    fun _ => h.ends.head?_ne (by decide), hv, hx, ?_⟩
  rw [Reading.of, Tree.depth_num]

/-! ### Formulas -/

theorem read {p : Phrase} (d : Derivation p) : d.Read α := by
  induction d with
  | plain first more hfirst hmore => exact read_plain hfirst hmore
  | negated first more hfirst hmore => exact read_negated hfirst hmore
  | lastTerm => exact read_lastTerm
  | nextTerm s operand more hoperand hmore => exact read_nextTerm hoperand hmore
  | term first more hfirst hmore => exact read_term hfirst hmore
  | lastPower => exact read_lastPower
  | nextPower s operand more hoperand hmore => exact read_nextPower hoperand hmore
  | base a ha => exact read_base ha
  | raised a exponent ha hexponent => exact read_raised ha hexponent
  | bracket inner hinner => exact read_bracket hinner
  | call name argument hargument => exact read_call hargument
  | number literal imaginary => exact read_number
  | var name => exact read_var

end Derivation

/-- A derivation within the limits is read from its text. -/
theorem Parser.formula_complete {α : Type _} [Numeral α] (d : Derivation .expr)
    (hadm : d.Admissible α) (hopens : d.opens ≤ maxNesting)
    (hshallow : (d.tree : Tree α).depth ≤ maxDepth) : formula d.text = .ok (d.tree : Tree α) := by
  have hread := d.read (α := α) ⟨hadm, hopens, Phrase.endsAt_nil _, hshallow⟩
  rw [List.append_nil] at hread
  rw [formula, hread]
  rfl

theorem Tree.parse_eq_ok_iff_formula {α : Type _} [Numeral α] {text : String} {t : Tree α} :
    Tree.parse text = .ok t ↔ formula (inked text.toList) = .ok t := by
  rw [Tree.parse]
  cases (formula (inked text.toList) : Except Failure (Tree α)) with
  | error failure => simp [Except.mapError]
  | ok t' => simp [Except.mapError]

/-- The parser accepts exactly the texts that have, without their blanks, a derivation whose
called names are functions, whose literals are finite and have values among the scalars, whose
tree is at most `maxDepth` deep and in which no atom lies in more than `maxNesting` powers. It
returns the tree of the derivation, which is the only one. -/
theorem Tree.parse_eq_ok_iff {α : Type _} [Numeral α] (text : String) (t : Tree α) :
    Tree.parse text = .ok t ↔
      ∃ d : Derivation .expr, d.text = inked text.toList ∧
        (∀ d' : Derivation .expr, d'.text = inked text.toList → d' = d) ∧
        d.Admissible α ∧ (d.tree : Tree α).depth ≤ 256 ∧ d.opens ≤ 513 ∧ d.tree = t := by
  rw [Tree.parse_eq_ok_iff_formula]
  constructor
  · intro h
    obtain ⟨d, hd, rfl, hadm, hopens, hshallow⟩ := formula_sound h
    exact ⟨d, hd, fun d' hd' => Derivation.eq_of_text_eq (hd'.trans hd.symm), hadm, hshallow,
      hopens, rfl⟩
  · rintro ⟨d, hd, -, hadm, hshallow, hopens, rfl⟩
    rw [← hd]
    exact formula_complete d hadm hopens hshallow

end FractalFormula
