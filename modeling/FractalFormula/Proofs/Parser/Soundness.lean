import FractalFormula.Proofs.Parser.Readings

/-!
# What the parser reads is derived

`Reads n s r d t` says what a reading `r` of the start of `s` owes to a derivation `d` of the
tree `t`: the text taken off is that of `d`, the tree and its depth are right, and neither of
the two limits is passed. Each procedure of the parser is sound in this sense as soon as the
reader of powers is that it is given, and the reader of powers is by induction on the number of
powers that may be opened (`power_sound`).
-/

namespace FractalFormula.Parser

variable {α : Type _}

/-- The depth beside a tree is its own and within the limit. -/
structure Measured (r : Reading α) : Prop where
  depth : r.depth = r.tree.depth
  shallow : r.tree.depth ≤ maxDepth

namespace Measured

variable {first second : Reading α} {depth : Nat} {rest rest' : List Char}

theorem binary (h : Measured first) (h' : Measured second)
    (hd : deeper (max first.depth second.depth) rest = .ok depth) (o : Operator) :
    Measured ⟨.binary o first.tree second.tree, depth, rest'⟩ := by
  obtain ⟨hlt, rfl⟩ := deeper_eq_ok_iff.mp hd
  rw [h.depth, h'.depth] at hlt
  refine ⟨?_, ?_⟩
  · rw [h.depth, h'.depth, Tree.depth_binary]
  · rw [Tree.depth_binary]
    exact hlt

theorem under {t : Tree α} (h : Measured first) (hd : deeper first.depth rest = .ok depth)
    (ht : t.depth = first.tree.depth + 1) : Measured ⟨t, depth, rest'⟩ := by
  obtain ⟨hlt, rfl⟩ := deeper_eq_ok_iff.mp hd
  rw [h.depth] at hlt
  refine ⟨?_, ?_⟩
  · rw [h.depth, ht]
  · rw [ht]
    exact hlt

end Measured

/-! ### Chains -/

/-- What holds of a chain that ends, and of a chain that goes on if it holds of what follows
its first operand, holds of every chain. -/
theorem chain_induction {operand : Reader α} {joins : Char → Bool}
    {motive : Reading α → Reading α → Prop} (last : ∀ first, motive first first)
    (next : ∀ {first second r : Reading α} {c : Char} {rest : List Char} {depth : Nat},
      first.rest = c :: rest → joins c → operand rest = .ok second →
      deeper (max first.depth second.depth) second.rest = .ok depth →
      motive ⟨.binary (Operator.ofChar c) first.tree second.tree, depth, second.rest⟩ r →
      motive first r)
    {turns : Nat} {first r : Reading α} (h : chain operand joins turns first = .ok r) :
    motive first r := by
  induction turns generalizing first with
  | zero =>
    obtain rfl := Except.ok.inj h
    exact last first
  | succ turns ih =>
    rw [chain] at h
    split at h
    · obtain rfl := Except.ok.inj h
      exact last first
    · next c rest hrest =>
      split at h
      · next hc =>
        obtain ⟨second, hsecond, h⟩ := bind_eq_ok h
        obtain ⟨depth, hdepth, h⟩ := bind_eq_ok h
        exact next hrest hc hsecond hdepth (ih h)
      · obtain rfl := Except.ok.inj h
        exact last first

theorem exists_sign {c : Char} (h : joinsTerms c) :
    ∃ s : Sign, s.char = c ∧ Operator.ofChar c = s.operator := by
  simp only [joinsTerms, Bool.or_eq_true, decide_eq_true_eq] at h
  obtain rfl | rfl := h
  · exact ⟨.plus, rfl, by decide⟩
  · exact ⟨.minus, rfl, by decide⟩

theorem exists_scale {c : Char} (h : joinsPowers c) :
    ∃ s : Scale, s.char = c ∧ Operator.ofChar c = s.operator := by
  simp only [joinsPowers, Bool.or_eq_true, decide_eq_true_eq] at h
  obtain rfl | rfl := h
  · exact ⟨.times, rfl, by decide⟩
  · exact ⟨.divided, rfl, by decide⟩

/-! ### Procedures over a sound reader of powers -/

/-- The start of `s` is read as `d` says, with at most `n` powers open in it. -/
structure Reads [Numeral α] {p : Phrase} (n : Nat) (s : List Char) (r : Reading α)
    (d : Derivation p) (t : Tree α) : Prop where
  text : s = d.text ++ r.rest
  tree : r.tree = t
  admissible : d.Admissible α
  opens : d.opens ≤ n
  measured : Measured r

section

variable [Numeral α] {n : Nat} {power : Reader α} {s : List Char} {r : Reading α}

theorem morePowers_sound
    (hp : ∀ {s r}, power s = .ok r → ∃ d : Derivation .power, Reads n s r d d.tree)
    {turns : Nat} {first : Reading α} (h : chain power joinsPowers turns first = .ok r)
    (hfirst : Measured first) :
    ∃ d : Derivation .morePowers, Reads n first.rest r d (d.tree first.tree) := by
  refine chain_induction (motive := fun first r => Measured first →
    ∃ d : Derivation .morePowers, Reads n first.rest r d (d.tree first.tree)) ?last ?next h hfirst
  case last =>
    intro first hfirst
    exact ⟨.lastPower, rfl, rfl, trivial, Nat.zero_le n, hfirst⟩
  case next =>
    intro first second r c rest depth hrest hc hsecond hdepth ih hfirst
    obtain ⟨s, rfl, hs⟩ := exists_scale hc
    obtain ⟨d, hd⟩ := hp hsecond
    obtain ⟨more, hmore⟩ := ih (hfirst.binary hd.measured hdepth _)
    refine ⟨.nextPower s d more, ?_, ?_, ⟨hd.admissible, hmore.admissible⟩,
      Nat.max_le.mpr ⟨hd.opens, hmore.opens⟩, hmore.measured⟩
    · rw [hrest, hd.text, hmore.text]
      simp only [Derivation.text, List.cons_append, List.append_assoc]
    · rw [hmore.tree, hd.tree, hs]
      rfl

theorem term_sound
    (hp : ∀ {s r}, power s = .ok r → ∃ d : Derivation .power, Reads n s r d d.tree)
    (h : term power s = .ok r) : ∃ d : Derivation .term, Reads n s r d d.tree := by
  obtain ⟨first, hfirst, h⟩ := bind_eq_ok h
  obtain ⟨d, hd⟩ := hp hfirst
  obtain ⟨more, hmore⟩ := morePowers_sound hp h hd.measured
  refine ⟨.term d more, ?_, ?_, ⟨hd.admissible, hmore.admissible⟩,
    Nat.max_le.mpr ⟨hd.opens, hmore.opens⟩, hmore.measured⟩
  · rw [hd.text, hmore.text, Derivation.text, List.append_assoc]
  · rw [hmore.tree, hd.tree]
    rfl

theorem moreTerms_sound
    (ht : ∀ {s r}, term power s = .ok r → ∃ d : Derivation .term, Reads n s r d d.tree)
    {turns : Nat} {first : Reading α} (h : chain (term power) joinsTerms turns first = .ok r)
    (hfirst : Measured first) :
    ∃ d : Derivation .moreTerms, Reads n first.rest r d (d.tree first.tree) := by
  refine chain_induction (motive := fun first r => Measured first →
    ∃ d : Derivation .moreTerms, Reads n first.rest r d (d.tree first.tree)) ?last ?next h hfirst
  case last =>
    intro first hfirst
    exact ⟨.lastTerm, rfl, rfl, trivial, Nat.zero_le n, hfirst⟩
  case next =>
    intro first second r c rest depth hrest hc hsecond hdepth ih hfirst
    obtain ⟨s, rfl, hs⟩ := exists_sign hc
    obtain ⟨d, hd⟩ := ht hsecond
    obtain ⟨more, hmore⟩ := ih (hfirst.binary hd.measured hdepth _)
    refine ⟨.nextTerm s d more, ?_, ?_, ⟨hd.admissible, hmore.admissible⟩,
      Nat.max_le.mpr ⟨hd.opens, hmore.opens⟩, hmore.measured⟩
    · rw [hrest, hd.text, hmore.text]
      simp only [Derivation.text, List.cons_append, List.append_assoc]
    · rw [hmore.tree, hd.tree, hs]
      rfl

/-- The minus sign is read as a negation of the first term, before any further term. -/
theorem expr_sound
    (hp : ∀ {s r}, power s = .ok r → ∃ d : Derivation .power, Reads n s r d d.tree)
    (h : expr power s = .ok r) : ∃ d : Derivation .expr, Reads n s r d d.tree := by
  simp only [expr] at h
  split at h
  · next s =>
    obtain ⟨first, hfirst, h⟩ := bind_eq_ok h
    obtain ⟨operand, hoperand, hfirst⟩ := bind_eq_ok hfirst
    obtain ⟨depth, hdepth, hfirst⟩ := bind_eq_ok hfirst
    obtain rfl := Except.ok.inj hfirst
    obtain ⟨d, hd⟩ := term_sound hp hoperand
    obtain ⟨more, hmore⟩ := moreTerms_sound (term_sound hp) h
      (hd.measured.under hdepth (Tree.depth_negation _))
    refine ⟨.negated d more, ?_, ?_, ⟨hd.admissible, hmore.admissible⟩,
      Nat.max_le.mpr ⟨hd.opens, hmore.opens⟩, hmore.measured⟩
    · rw [hd.text, hmore.text, Derivation.text, List.cons_append, List.append_assoc]
    · rw [hmore.tree, hd.tree]
      rfl
  · obtain ⟨first, hfirst, h⟩ := bind_eq_ok h
    obtain ⟨d, hd⟩ := term_sound hp hfirst
    obtain ⟨more, hmore⟩ := moreTerms_sound (term_sound hp) h hd.measured
    refine ⟨.plain d more, ?_, ?_, ⟨hd.admissible, hmore.admissible⟩,
      Nat.max_le.mpr ⟨hd.opens, hmore.opens⟩, hmore.measured⟩
    · rw [hd.text, hmore.text, Derivation.text, List.append_assoc]
    · rw [hmore.tree, hd.tree]
      rfl

/-- Between the brackets stands an expression, and nothing else. -/
theorem bracketed_sound
    (hp : ∀ {s r}, power s = .ok r → ∃ d : Derivation .power, Reads n s r d d.tree)
    {opened : List Char} (h : bracketed power opened s = .ok r) :
    ∃ d : Derivation .expr, Reads n s ⟨r.tree, r.depth, ')' :: r.rest⟩ d d.tree := by
  obtain ⟨inner, hinner, h⟩ := bind_eq_ok h
  obtain ⟨d, hd⟩ := expr_sound hp hinner
  split at h
  · next rest hrest =>
    obtain rfl := Except.ok.inj h
    exact ⟨d, by rw [hd.text, hrest], hd.tree, hd.admissible, hd.opens, hd.measured.1,
      hd.measured.2⟩
  · nomatch h

theorem isName_takeWhile {c : Char} (hc : startsName c) (s : List Char) :
    IsName ((c :: s).takeWhile inName) := by
  rw [List.takeWhile_cons_of_pos (inName_of_startsName hc)]
  exact ⟨hc, fun d hd => List.all_eq_true.mp List.all_takeWhile d hd⟩

theorem named_sound
    (hp : ∀ {s r}, power s = .ok r → ∃ d : Derivation .power, Reads n s r d d.tree)
    {c : Char} (hc : startsName c) (h : named power (c :: s) = .ok r) :
    ∃ d : Derivation .atom, Reads n (c :: s) r d d.tree := by
  have hname := isName_takeWhile hc s
  have hs : c :: s = (c :: s).takeWhile inName ++ (c :: s).dropWhile inName :=
    List.takeWhile_append_dropWhile.symm
  rw [named] at h
  generalize (c :: s).takeWhile inName = name at hname hs h
  split at h
  · next s' hs' =>
    rw [hs'] at hs
    split at h
    · cases h
    · next f hf =>
      obtain ⟨argument, hargument, h⟩ := bind_eq_ok h
      obtain ⟨depth, hdepth, h⟩ := bind_eq_ok h
      obtain rfl := Except.ok.inj h
      obtain ⟨d, hd⟩ := bracketed_sound hp hargument
      have hfunc := Func.ofSymbol_eq_named? (String.ofList name)
      have hsome : ∃ f, Func.named? (String.ofList name) = some f := by
        cases hn : Func.named? (String.ofList name) with
        | none => exact absurd (by rw [hfunc, hn]; rfl) hf
        | some f => exact ⟨f, rfl⟩
      refine ⟨.call ⟨name, hname⟩ d, ?_, ?_, ⟨hsome, hd.admissible⟩, hd.opens,
        hd.measured.under hdepth (Tree.depth_call _ _)⟩
      · rw [hs, hd.text]
        simp only [Derivation.text, List.append_assoc, List.cons_append, List.nil_append]
      · rw [Derivation.tree, ← hfunc, ← hd.tree]
  · obtain rfl := Except.ok.inj h
    refine ⟨.var ⟨name, hname⟩, hs, rfl, trivial, Nat.zero_le n, ?_, ?_⟩ <;>
      rw [Tree.depth_var]
    decide

theorem number_sound (h : number s = .ok r) :
    ∃ d : Derivation .atom, Reads n s r d d.tree := by
  obtain ⟨literal, imaginary, rest, v, x, hsplit, -, hv, hx, rfl⟩ := number_eq_ok_iff.mp h
  obtain ⟨hs, hliteral⟩ := Literal.isLiteral_of_split? hsplit
  refine ⟨.number ⟨literal, hliteral⟩ imaginary, ?_, ?_, ?_, Nat.zero_le n, ?_⟩
  · rw [hs, Derivation.text, List.append_assoc]
  · simp only [Derivation.tree, Derivation.scalar?, hv, Option.bind_some, hx, Option.getD_some]
  · refine ⟨(Literal.exists_value?_iff hliteral).mp ⟨v, hv⟩, fun v' hv' => ?_⟩
    obtain rfl := Option.some.inj (hv.symm.trans hv')
    rw [hx]
    rfl
  · refine ⟨(Tree.depth_num x).symm, ?_⟩
    rw [Tree.depth_num]
    decide

theorem atom_sound
    (hp : ∀ {s r}, power s = .ok r → ∃ d : Derivation .power, Reads n s r d d.tree)
    (h : atom power s = .ok r) : ∃ d : Derivation .atom, Reads n s r d d.tree := by
  unfold atom at h
  split at h
  · cases h
  · next c s =>
    split at h
    · next hc =>
      subst hc
      obtain ⟨d, hd⟩ := bracketed_sound hp h
      refine ⟨.bracket d, ?_, hd.tree, hd.admissible, hd.opens, hd.measured.1, hd.measured.2⟩
      rw [hd.text]
      simp only [Derivation.text, List.cons_append, List.append_assoc, List.nil_append]
    · split at h
      · next hc => exact named_sound hp hc h
      · split at h
        · exact number_sound h
        · cases h

end

variable [Numeral α]

/-- What is read while at most `n` powers may be opened is derived with at most `n` powers
open. -/
theorem power_sound {n : Nat} {s : List Char} {r : Reading α} (h : power n s = .ok r) :
    ∃ d : Derivation .power, Reads n s r d d.tree := by
  induction n generalizing s r with
  | zero => nomatch h
  | succ n ih =>
    rw [power] at h
    obtain ⟨base, hbase, h⟩ := bind_eq_ok h
    obtain ⟨a, ha⟩ := atom_sound ih hbase
    split at h
    · next rest hrest =>
      obtain ⟨exponent, hexponent, h⟩ := bind_eq_ok h
      obtain ⟨depth, hdepth, h⟩ := bind_eq_ok h
      obtain rfl := Except.ok.inj h
      obtain ⟨e, he⟩ := ih hexponent
      refine ⟨.raised a e, ?_, ?_, ⟨ha.admissible, he.admissible⟩,
        Nat.succ_le_succ (Nat.max_le.mpr ⟨ha.opens, he.opens⟩),
        ha.measured.binary he.measured hdepth .pow⟩
      · rw [ha.text, hrest, he.text]
        simp only [Derivation.text, List.append_assoc, List.cons_append]
      · rw [ha.tree, he.tree]
        rfl
    · obtain rfl := Except.ok.inj h
      exact ⟨.base a, ha.text, ha.tree, ha.admissible, Nat.succ_le_succ ha.opens, ha.measured⟩

/-- A text that is read to its end has a derivation within the limits, whose tree it is. -/
theorem formula_sound {s : List Char} {t : Tree α} (h : formula s = .ok t) :
    ∃ d : Derivation .expr, d.text = s ∧ d.tree = t ∧ d.Admissible α ∧
      d.opens ≤ maxNesting ∧ t.depth ≤ maxDepth := by
  obtain ⟨all, hall, h⟩ := bind_eq_ok h
  obtain ⟨d, hd⟩ := expr_sound power_sound hall
  split at h
  · next hrest =>
    obtain rfl := Except.ok.inj h
    refine ⟨d, ?_, hd.tree.symm, hd.admissible, hd.opens, hd.measured.shallow⟩
    rw [hd.text, hrest, List.append_nil]
  · cases h

end FractalFormula.Parser
