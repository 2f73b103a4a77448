import FractalFormula.Proofs.Parser.Completeness
import FractalFormula.Proofs.Parser.Position

/-!
# What failures are about

A failure of the parser is about a part of the text that the parser has looked at. `Failure.Within`
says which part this is for each kind of failure, and `power_error` that every procedure fails in
this way. A procedure that stops before the end of the text has read a formula up to there, which
would be read alike if the text ended: this is how soundness and completeness of the parser meet in
`exists_formula_of_expr`.
-/

namespace FractalFormula.Parser

section

variable (α : Type _) [Numeral α]

/-- The part of `s` that a failure to read it is about. -/
def Failure.Within (s : List Char) : Failure → Prop
  | .unreadable unread => unread ≤ s.length
  -- An opening bracket, a formula, and something other than the closing bracket.
  | .unclosed unread => ∃ inner rest, '(' :: (inner ++ rest) <:+ s ∧
      (∃ t : Tree α, formula inner = .ok t) ∧ rest.head? ≠ some ')' ∧
      unread = (inner ++ rest).length + 1
  | .noFunction name => Func.named? (String.ofList name) = none ∧
      ∃ rest, name ++ '(' :: rest <:+ s
  | .leftover _ _ => False

end

variable {α : Type _} [Numeral α]

/-- The number of unread characters that a failure names. -/
def Failure.unread? : Failure → Option Nat
  | .unreadable unread => some unread
  | .unclosed unread => some unread
  | .noFunction _ => none
  | .leftover unread _ => some unread

theorem Failure.Within.of_suffix {s t : List Char} {f : Failure} (h : f.Within α s)
    (hs : s <:+ t) : f.Within α t := by
  cases f with
  | unreadable unread => exact Nat.le_trans h hs.length_le
  | unclosed unread =>
    obtain ⟨inner, rest, hin, hread⟩ := h
    exact ⟨inner, rest, hin.trans hs, hread⟩
  | noFunction name =>
    obtain ⟨hname, rest, hin⟩ := h
    exact ⟨hname, rest, hin.trans hs⟩
  | leftover unread symbol => exact h

theorem within_unreadable (s : List Char) : (Failure.unreadable s.length).Within α s :=
  Nat.le_refl s.length

theorem deeper_error {below : Nat} {rest : List Char} {f : Failure}
    (h : deeper below rest = .error f) : f = .unreadable rest.length := by
  rw [deeper] at h
  split at h
  · exact (Except.error.inj h).symm
  · cases h

theorem Reads.rest_suffix {p : Phrase} {n : Nat} {s : List Char} {r : Reading α}
    {d : Derivation p} {t : Tree α} (h : Reads n s r d t) : r.rest <:+ s :=
  ⟨d.text, h.text.symm⟩

/-- What is read as an expression is a formula on its own. -/
theorem exists_formula_of_expr {n : Nat} (hn : n ≤ maxNesting) {s : List Char} {r : Reading α}
    (h : expr (power n) s = .ok r) :
    ∃ read, s = read ++ r.rest ∧ formula read = .ok r.tree := by
  obtain ⟨d, hd⟩ := expr_sound power_sound h
  have hshallow := hd.measured.shallow
  rw [hd.tree] at hshallow
  refine ⟨d.text, hd.text, ?_⟩
  rw [hd.tree]
  exact formula_complete d hd.admissible (Nat.le_trans hd.opens hn) hshallow

/-! ### Chains -/

theorem chain_error {operand : Reader α} {joins : Char → Bool}
    (hrest : ∀ {s r}, operand s = .ok r → r.rest <:+ s)
    (hoperand : ∀ {s f}, operand s = .error f → f.Within α s)
    {turns : Nat} {first : Reading α} {f : Failure}
    (h : chain operand joins turns first = .error f) : f.Within α first.rest := by
  induction turns generalizing first with
  | zero => cases h
  | succ turns ih =>
    rw [chain] at h
    split at h
    · cases h
    · next c rest hc =>
      rw [hc]
      split at h
      · have hbehind := List.suffix_cons c rest
        obtain h | ⟨second, hsecond, h⟩ := bind_eq_error h
        · exact (hoperand h).of_suffix hbehind
        · have hs := (hrest hsecond).trans hbehind
          obtain h | ⟨depth, -, h⟩ := bind_eq_error h
          · rw [deeper_error h]
            exact (within_unreadable second.rest).of_suffix hs
          · exact (ih h).of_suffix hs
      · cases h

/-! ### Procedures over powers that fail within their text -/

section

variable {n : Nat} {s : List Char} {f : Failure}

section

variable (hpower : ∀ {s : List Char} {f : Failure},
  (power n s : Except Failure (Reading α)) = .error f → f.Within α s)

include hpower

theorem term_error (h : (term (power n) s : Except Failure (Reading α)) = .error f) :
    f.Within α s := by
  obtain h | ⟨first, hfirst, h⟩ := bind_eq_error h
  · exact hpower h
  · obtain ⟨d, hd⟩ := power_sound hfirst
    refine (chain_error (fun h => ?_) hpower h).of_suffix hd.rest_suffix
    obtain ⟨d', hd'⟩ := power_sound h
    exact hd'.rest_suffix

theorem negatedTerm_error
    (h : (negatedTerm (power n) s : Except Failure (Reading α)) = .error f) :
    f.Within α s := by
  obtain h | ⟨first, hfirst, h⟩ := bind_eq_error h
  · exact term_error hpower h
  · obtain h | ⟨depth, -, h⟩ := bind_eq_error h
    · obtain ⟨d, hd⟩ := term_sound power_sound hfirst
      rw [deeper_error h]
      exact (within_unreadable first.rest).of_suffix hd.rest_suffix
    · cases h

theorem expr_error (h : (expr (power n) s : Except Failure (Reading α)) = .error f) :
    f.Within α s := by
  have hterm {s : List Char} {r : Reading α} (h : term (power n) s = .ok r) : r.rest <:+ s := by
    obtain ⟨d, hd⟩ := term_sound power_sound h
    exact hd.rest_suffix
  simp only [expr] at h
  split at h
  · next s =>
    have hbehind := List.suffix_cons '-' s
    obtain h | ⟨first, hfirst, h⟩ := bind_eq_error h
    · exact (negatedTerm_error hpower h).of_suffix hbehind
    · obtain ⟨operand, hoperand, hfirst⟩ := bind_eq_ok hfirst
      obtain ⟨depth, -, hfirst⟩ := bind_eq_ok hfirst
      obtain rfl := Except.ok.inj hfirst
      exact (chain_error hterm (term_error hpower) h).of_suffix ((hterm hoperand).trans hbehind)
  · obtain h | ⟨first, hfirst, h⟩ := bind_eq_error h
    · exact term_error hpower h
    · exact (chain_error hterm (term_error hpower) h).of_suffix (hterm hfirst)

theorem bracketed_error (hn : n ≤ maxNesting)
    (h : (bracketed (power n) ('(' :: s) s : Except Failure (Reading α)) = .error f) :
    f.Within α ('(' :: s) := by
  obtain h | ⟨inner, hinner, h⟩ := bind_eq_error h
  · exact (expr_error hpower h).of_suffix (List.suffix_cons '(' s)
  · obtain ⟨read, rfl, hread⟩ := exists_formula_of_expr hn hinner
    split at h
    · cases h
    · next hclose =>
      obtain rfl := Except.error.inj h
      refine ⟨read, inner.rest, List.suffix_refl _, ⟨_, hread⟩, fun hhead => ?_, rfl⟩
      obtain ⟨rest, hrest⟩ := List.head?_eq_some_iff.mp hhead
      exact hclose rest hrest

theorem named_error (hn : n ≤ maxNesting)
    (h : (named (power n) s : Except Failure (Reading α)) = .error f) : f.Within α s := by
  have hs : s.takeWhile inName ++ s.dropWhile inName = s := List.takeWhile_append_dropWhile
  rw [named] at h
  split at h
  · next s' hs' =>
    rw [hs'] at hs
    have hopened : '(' :: s' <:+ s := ⟨_, hs⟩
    split at h
    · next hunknown =>
      obtain rfl := Except.error.inj h
      refine ⟨?_, s', ⟨[], hs⟩⟩
      rw [Func.ofSymbol_eq_named?] at hunknown
      cases hnamed : Func.named? (String.ofList (s.takeWhile inName)) with
      | none => rfl
      | some g =>
        rw [hnamed] at hunknown
        exact absurd hunknown (Func.named?_ne_unknown hnamed)
    · obtain h | ⟨argument, hargument, h⟩ := bind_eq_error h
      · exact (bracketed_error hpower hn h).of_suffix hopened
      · obtain h | ⟨depth, -, h⟩ := bind_eq_error h
        · obtain ⟨d, hd⟩ := bracketed_sound power_sound hargument
          have hclosed := (List.suffix_cons ')' argument.rest).trans hd.rest_suffix
          rw [deeper_error h]
          exact (within_unreadable argument.rest).of_suffix
            ((hclosed.trans (List.suffix_cons '(' s')).trans hopened)
        · cases h
  · cases h

end

theorem number_error (h : (number s : Except Failure (Reading α)) = .error f) :
    f = .unreadable s.length := by
  simp only [number] at h
  split at h
  · exact (Except.error.inj h).symm
  · split at h
    · exact (Except.error.inj h).symm
    · split at h
      · exact (Except.error.inj h).symm
      · cases h

theorem atom_error (hn : n ≤ maxNesting)
    (hpower : ∀ {s : List Char} {f : Failure},
      (power n s : Except Failure (Reading α)) = .error f → f.Within α s)
    (h : (atom (power n) s : Except Failure (Reading α)) = .error f) : f.Within α s := by
  unfold atom at h
  split at h
  · obtain rfl := Except.error.inj h
    exact within_unreadable []
  · next c s =>
    split at h
    · next hc =>
      subst hc
      exact bracketed_error hpower hn h
    · split at h
      · exact named_error hpower hn h
      · split at h
        · rw [number_error h]
          exact within_unreadable _
        · obtain rfl := Except.error.inj h
          exact within_unreadable _

end

/-- A power that cannot be read fails within its text. -/
theorem power_error {n : Nat} (hn : n ≤ maxNesting) {s : List Char} {f : Failure}
    (h : (power n s : Except Failure (Reading α)) = .error f) : f.Within α s := by
  induction n generalizing s f with
  | zero =>
    obtain rfl := Except.error.inj h
    exact within_unreadable s
  | succ n ih =>
    have hn := Nat.le_of_succ_le hn
    rw [power] at h
    obtain h | ⟨base, hbase, h⟩ := bind_eq_error h
    · exact atom_error hn (ih hn) h
    · obtain ⟨a, ha⟩ := atom_sound power_sound hbase
      split at h
      · next rest hrest =>
        have hraised : rest <:+ s := by
          refine (List.suffix_cons '^' rest).trans ?_
          rw [← hrest]
          exact ha.rest_suffix
        obtain h | ⟨exponent, hexponent, h⟩ := bind_eq_error h
        · exact (ih hn h).of_suffix hraised
        · obtain h | ⟨depth, -, h⟩ := bind_eq_error h
          · obtain ⟨e, he⟩ := power_sound hexponent
            rw [deeper_error h]
            exact (within_unreadable exponent.rest).of_suffix (he.rest_suffix.trans hraised)
          · cases h
      · cases h

/-- A text that is no formula fails within it, or behind a formula that it starts with. -/
theorem formula_error {s : List Char} {f : Failure}
    (h : (formula s : Except Failure (Tree α)) = .error f) :
    f.Within α s ∨ ∃ read c rest, s = read ++ c :: rest ∧ (∃ t : Tree α, formula read = .ok t) ∧
      f = .leftover (rest.length + 1) c := by
  have hn := Nat.le_refl maxNesting
  obtain h | ⟨all, hall, h⟩ := bind_eq_error h
  · exact .inl (expr_error (power_error hn) h)
  · obtain ⟨read, hs, hread⟩ := exists_formula_of_expr hn hall
    split at h
    · cases h
    · next c rest hrest =>
      obtain rfl := Except.error.inj h
      rw [hrest] at hs ⊢
      exact .inr ⟨read, c, rest, hs, ⟨_, hread⟩, rfl⟩

/-- No more characters are unread than there are. -/
theorem unread_le_of_formula_error {s : List Char} {f : Failure}
    (h : (formula s : Except Failure (Tree α)) = .error f) {unread : Nat}
    (hu : f.unread? = some unread) : unread ≤ s.length := by
  obtain hwithin | ⟨read, c, rest, rfl, -, rfl⟩ := formula_error h
  · cases f with
    | unreadable unread =>
      obtain rfl := Option.some.inj hu
      exact hwithin
    | unclosed unread =>
      obtain ⟨inner, rest, hin, -, -, rfl⟩ := hwithin
      obtain rfl := Option.some.inj hu
      exact hin.length_le
    | noFunction name => cases hu
    | leftover unread symbol => exact hwithin.elim
  · obtain rfl := Option.some.inj hu
    rw [List.length_append, List.length_cons]
    exact Nat.le_add_left _ _

end FractalFormula.Parser
