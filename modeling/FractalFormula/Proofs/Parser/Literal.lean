import FractalFormula.Proofs.Text.Run

/-!
# The grammar of number literals

A literal is digits with an optional point and optional further digits, or a point with digits,
and then an optional exponent `[eE][+-]?digits`. `IsLiteral` states this without a reader.

`split?_append` and `isLiteral_of_split?` say that the reader takes such a text, and nothing
but such a text, off the front of its input. `exists_read?` says that the conversion to a
number cannot fail on one.
-/

namespace FractalFormula.Literal

open Text

/-- A run of digits, possibly empty. -/
def IsRun (ds : List Char) : Prop := ∀ d ∈ ds, d.isDigit

/-- What stands before the exponent. -/
inductive IsMantissa : List Char → Prop where
  /-- Digits. -/
  | whole {ds : List Char} : IsRun ds → ds ≠ [] → IsMantissa ds
  /-- Digits, a point, and perhaps further digits. -/
  | point {ds fs : List Char} : IsRun ds → ds ≠ [] → IsRun fs → IsMantissa (ds ++ '.' :: fs)
  /-- A point and digits. -/
  | fraction {fs : List Char} : IsRun fs → fs ≠ [] → IsMantissa ('.' :: fs)

/-- A sign or nothing. -/
def IsSign (s : List Char) : Prop := s = [] ∨ s = ['+'] ∨ s = ['-']

/-- An exponent or nothing. -/
inductive IsExponent : List Char → Prop where
  /-- No exponent. -/
  | absent : IsExponent []
  /-- The letter, a sign or nothing, and digits. -/
  | present {e : Char} {s ds : List Char} :
      (e = 'e' ∨ e = 'E') → IsSign s → IsRun ds → ds ≠ [] → IsExponent (e :: (s ++ ds))

/-- A number literal. -/
def IsLiteral (l : List Char) : Prop := ∃ m x, IsMantissa m ∧ IsExponent x ∧ l = m ++ x

/-- The text does not go on with a literal read before it. -/
def Ended (rest : List Char) : Prop :=
  ∀ c ∈ rest.head?, c.isDigit = false ∧ c ≠ '.' ∧ c ≠ 'e' ∧ c ≠ 'E'

@[simp] theorem ended_cons {c : Char} {rest : List Char} :
    Ended (c :: rest) ↔ c.isDigit = false ∧ c ≠ '.' ∧ c ≠ 'e' ∧ c ≠ 'E' := by simp [Ended]

theorem Ended.stops {rest : List Char} (h : Ended rest) : Stops Char.isDigit rest :=
  fun c hc => (h c hc).1

/-! ### The first character -/

theorem IsRun.cons {d : Char} {ds : List Char} (h : IsRun (d :: ds)) : d.isDigit ∧ IsRun ds :=
  List.forall_mem_cons.mp h

theorem IsRun.append {ds es : List Char} (h : IsRun ds) (h' : IsRun es) : IsRun (ds ++ es) :=
  List.forall_mem_append.mpr ⟨h, h'⟩

theorem isRun_takeWhile (s : List Char) : IsRun (s.takeWhile Char.isDigit) :=
  fun d hd => List.all_eq_true.mp List.all_takeWhile d hd

theorem IsMantissa.head {m : List Char} (h : IsMantissa m) :
    ∃ c m', m = c :: m' ∧ Parser.startsNumber c := by
  cases h with
  | whole h hne =>
    obtain ⟨d, ds, rfl⟩ := List.exists_cons_of_ne_nil hne
    exact ⟨d, ds, rfl, by simp [Parser.startsNumber, h.cons.1]⟩
  | @point ds fs h hne _ =>
    obtain ⟨d, ds, rfl⟩ := List.exists_cons_of_ne_nil hne
    exact ⟨d, ds ++ '.' :: fs, rfl, by simp [Parser.startsNumber, h.cons.1]⟩
  | fraction _ _ => exact ⟨'.', _, rfl, by decide⟩

theorem IsLiteral.head {l : List Char} (h : IsLiteral l) :
    ∃ c l', l = c :: l' ∧ Parser.startsNumber c := by
  obtain ⟨m, x, hm, -, rfl⟩ := h
  obtain ⟨c, m', rfl, hc⟩ := hm.head
  exact ⟨c, m' ++ x, rfl, hc⟩

theorem IsMantissa.any_isDigit {m : List Char} (h : IsMantissa m) : m.any Char.isDigit := by
  cases h with
  | whole h hne =>
    obtain ⟨d, ds, rfl⟩ := List.exists_cons_of_ne_nil hne
    simp [h.cons.1]
  | point h hne _ =>
    obtain ⟨d, ds, rfl⟩ := List.exists_cons_of_ne_nil hne
    simp [h.cons.1]
  | fraction h hne =>
    obtain ⟨d, ds, rfl⟩ := List.exists_cons_of_ne_nil hne
    simp [h.cons.1]

/-- A character that stands in a literal. -/
def InLiteral (c : Char) : Prop := c.isDigit ∨ c ∈ ['.', 'e', 'E', '+', '-']

theorem IsMantissa.inLiteral {m : List Char} (h : IsMantissa m) : ∀ c ∈ m, InLiteral c := by
  have hdot : InLiteral '.' := Or.inr (by decide)
  cases h with
  | whole h _ => exact fun c hc => Or.inl (h c hc)
  | point h _ hf =>
    intro c hc
    obtain hc | hc := List.mem_append.mp hc
    · exact Or.inl (h c hc)
    · obtain rfl | hc := List.mem_cons.mp hc
      · exact hdot
      · exact Or.inl (hf c hc)
  | fraction hf _ =>
    intro c hc
    obtain rfl | hc := List.mem_cons.mp hc
    · exact hdot
    · exact Or.inl (hf c hc)

theorem IsExponent.inLiteral {x : List Char} (h : IsExponent x) : ∀ c ∈ x, InLiteral c := by
  cases h with
  | absent => exact fun c hc => absurd hc (by simp)
  | present he hs hd _ =>
    intro c hc
    obtain rfl | hc := List.mem_cons.mp hc
    · obtain rfl | rfl := he <;> exact Or.inr (by decide)
    · obtain hc | hc := List.mem_append.mp hc
      · obtain rfl | rfl | rfl := hs
        · exact absurd hc (by simp)
        · obtain rfl := List.mem_singleton.mp hc
          exact Or.inr (by decide)
        · obtain rfl := List.mem_singleton.mp hc
          exact Or.inr (by decide)
      · exact Or.inl (hd c hc)

theorem IsLiteral.inLiteral {l : List Char} (h : IsLiteral l) : ∀ c ∈ l, InLiteral c := by
  obtain ⟨m, x, hm, hx, rfl⟩ := h
  intro c hc
  obtain hc | hc := List.mem_append.mp hc
  · exact hm.inLiteral c hc
  · exact hx.inLiteral c hc

/-! ### What is split off -/

/-- A mantissa is split off whole from a text that goes on neither with digits nor a point. -/
theorem splitMantissa_append {m rest : List Char} (h : IsMantissa m)
    (hr : Stops Char.isDigit rest) (hp : rest.head? ≠ some '.') :
    splitMantissa (m ++ rest) = (m, rest) := by
  have hdot : ∀ s : List Char, Stops Char.isDigit ('.' :: s) := fun s => stops_cons.mpr (by decide)
  cases h with
  | whole h _ =>
    rw [splitMantissa, takeWhile_append_of_stops h hr, dropWhile_append_of_stops h hr]
    split
    · simp at hp
    · rfl
  | @point ds fs h _ hf =>
    rw [splitMantissa, List.append_assoc, List.cons_append, takeWhile_append_of_stops h (hdot _),
      dropWhile_append_of_stops h (hdot _)]
    simp only [takeWhile_append_of_stops hf hr, dropWhile_append_of_stops hf hr]
  | @fraction fs hf _ =>
    have h : ∀ d ∈ ([] : List Char), d.isDigit := by simp
    rw [splitMantissa, List.cons_append, ← List.nil_append ('.' :: (fs ++ rest)),
      takeWhile_append_of_stops h (hdot _), dropWhile_append_of_stops h (hdot _)]
    simp only [takeWhile_append_of_stops hf hr, dropWhile_append_of_stops hf hr, List.nil_append]

/-- What is split off is a mantissa as soon as a digit is in it. -/
theorem splitMantissa_spec (s : List Char) :
    s = (splitMantissa s).1 ++ (splitMantissa s).2 ∧
      ((splitMantissa s).1.any Char.isDigit → IsMantissa (splitMantissa s).1) := by
  have hw := isRun_takeWhile s
  have hs : s = s.takeWhile Char.isDigit ++ s.dropWhile Char.isDigit :=
    List.takeWhile_append_dropWhile.symm
  rw [splitMantissa]
  generalize s.takeWhile Char.isDigit = whole at hw hs ⊢
  split
  · next after hd =>
    rw [hd] at hs
    have hf := isRun_takeWhile after
    refine ⟨?_, fun h => ?_⟩
    · simp only [List.append_assoc, List.cons_append, List.takeWhile_append_dropWhile]
      exact hs
    · simp only at h ⊢
      by_cases hne : whole = []
      · subst hne
        refine IsMantissa.fraction hf fun hnil => ?_
        rw [hnil] at h
        exact absurd h (by decide)
      · exact IsMantissa.point hw hne hf
  · refine ⟨hs, fun h => IsMantissa.whole hw fun hnil => ?_⟩
    simp only at h hnil
    simp [hnil] at h

theorem splitSign_append {s ds rest : List Char} (h : IsSign s) (hd : IsRun ds) (hne : ds ≠ []) :
    splitSign (s ++ (ds ++ rest)) = (s, ds ++ rest) := by
  obtain ⟨d, ds, rfl⟩ := List.exists_cons_of_ne_nil hne
  have hd := hd.cons.1
  obtain rfl | rfl | rfl := h
  · simp only [List.nil_append, List.cons_append, splitSign]
    split <;> simp_all
  · rfl
  · rfl

/-- An exponent is split off whole from a text that ends a literal. -/
theorem splitExponent_append {x rest : List Char} (h : IsExponent x) (hr : Ended rest) :
    splitExponent (x ++ rest) = (x, rest) := by
  cases h with
  | absent =>
    cases rest with
    | nil => rfl
    | cons c rest =>
      obtain ⟨-, -, he, hE⟩ := ended_cons.mp hr
      simp [splitExponent, he, hE]
  | present he hs hd hne =>
    simp only [List.cons_append, List.append_assoc, splitExponent, if_pos he,
      splitSign_append hs hd hne, takeWhile_append_of_stops hd hr.stops,
      dropWhile_append_of_stops hd hr.stops]
    simp [hne]

theorem splitSign_spec (s : List Char) :
    s = (splitSign s).1 ++ (splitSign s).2 ∧ IsSign (splitSign s).1 := by
  unfold splitSign
  split <;> simp [IsSign]

theorem splitExponent_spec (s : List Char) :
    s = (splitExponent s).1 ++ (splitExponent s).2 ∧ IsExponent (splitExponent s).1 := by
  fun_cases splitExponent s with
  | case1 => exact ⟨rfl, IsExponent.absent⟩
  | case2 => exact ⟨rfl, IsExponent.absent⟩
  | case3 c s he sign after hsign ds hne =>
    obtain ⟨hs, hsgn⟩ := splitSign_spec s
    rw [hsign] at hs hsgn
    refine ⟨?_, IsExponent.present he hsgn (isRun_takeWhile after) (by simpa [ds] using hne)⟩
    simp only [ds, List.cons_append, List.append_assoc, List.takeWhile_append_dropWhile]
    exact congrArg _ hs
  | case4 => exact ⟨rfl, IsExponent.absent⟩

/-- A literal is split off whole from a text that ends it. -/
theorem split?_append {l rest : List Char} (h : IsLiteral l) (hr : Ended rest) :
    split? (l ++ rest) = some (l, rest) := by
  obtain ⟨m, x, hm, hx, rfl⟩ := h
  have hnext : Stops Char.isDigit (x ++ rest) ∧ (x ++ rest).head? ≠ some '.' := by
    cases hx with
    | absent => exact ⟨hr.stops, fun hc => (hr _ hc).2.1 rfl⟩
    | present he => obtain rfl | rfl := he <;> exact ⟨stops_cons.mpr (by decide), by simp⟩
  rw [split?, List.append_assoc, splitMantissa_append hm hnext.1 hnext.2]
  simp only [hm.any_isDigit, if_true, splitExponent_append hx hr]

/-- Only literals are split off. -/
theorem isLiteral_of_split? {s l after : List Char} (h : split? s = some (l, after)) :
    s = l ++ after ∧ IsLiteral l := by
  obtain ⟨hm, hmant⟩ := splitMantissa_spec s
  obtain ⟨hx, hexp⟩ := splitExponent_spec (splitMantissa s).2
  simp only [split?] at h
  split at h
  · next hany =>
    obtain ⟨rfl, rfl⟩ := Prod.mk.injEq .. ▸ Option.some.inj h
    refine ⟨?_, _, _, hmant hany, hexp, rfl⟩
    rw [List.append_assoc, ← hx, ← hm]
  · exact absurd h (by simp)

/-! ### The number that is read -/

theorem IsExponent.stops {x : List Char} (h : IsExponent x) : Stops Char.isDigit x := by
  cases h with
  | absent => simp
  | present he => obtain rfl | rfl := he <;> exact stops_cons.mpr (by decide)

theorem IsExponent.head?_ne {x : List Char} (h : IsExponent x) : x.head? ≠ some '.' := by
  cases h with
  | absent => simp
  | present he => obtain rfl | rfl := he <;> simp

/-- The exponent is the number behind its letter, negative behind a minus sign. -/
theorem readExponent?_eq {e : Char} {s ds : List Char} (he : e = 'e' ∨ e = 'E') (hs : IsSign s)
    (hd : IsRun ds) (hne : ds ≠ []) :
    Decimal.readExponent? (e :: (s ++ ds)) =
      some (if s = ['-'] then -(Decimal.ofDigits 0 ds : Int) else Decimal.ofDigits 0 ds) := by
  have hall : (ds.isEmpty || !ds.all Char.isDigit) = false := by
    simp only [List.isEmpty_eq_false_iff.mpr hne, List.all_eq_true.mpr hd, Bool.not_true,
      Bool.or_false]
  obtain rfl | rfl | rfl := hs
  · obtain ⟨d, ds, rfl⟩ := List.exists_cons_of_ne_nil hne
    have hdig := hd.cons.1
    simp only [Decimal.readExponent?, if_pos he, List.nil_append]
    split
    · next heq =>
      obtain ⟨rfl, -⟩ := List.cons.inj heq
      exact absurd hdig (by decide)
    · next heq =>
      obtain ⟨rfl, -⟩ := List.cons.inj heq
      exact absurd hdig (by decide)
    · rw [hall]
      rfl
  · simp only [Decimal.readExponent?, if_pos he, List.cons_append, List.nil_append, hall]
    rfl
  · simp only [Decimal.readExponent?, if_pos he, List.cons_append, List.nil_append, hall]
    rfl

theorem exists_readExponent? {x : List Char} (h : IsExponent x) :
    ∃ e, Decimal.readExponent? x = some e := by
  cases h with
  | absent => exact ⟨0, rfl⟩
  | present he hs hd hne => exact ⟨_, readExponent?_eq he hs hd hne⟩

/-- Digits without a point are read as a whole number. -/
theorem read?_whole {ds x : List Char} {e : Int} (h : IsRun ds) (hne : ds ≠ [])
    (hx : IsExponent x) (he : Decimal.readExponent? x = some e) :
    Decimal.read? (ds ++ x) = some ⟨Decimal.ofDigits 0 ds, e⟩ := by
  have hdot := hx.head?_ne
  simp only [Decimal.read?, takeWhile_append_of_stops h hx.stops,
    dropWhile_append_of_stops h hx.stops]
  split
  · simp at hdot
  · simp [hne, he, Decimal.ofDigits]

/-- Digits behind the point lower the exponent by their number. -/
theorem read?_point {ds fs x : List Char} {e : Int} (h : IsRun ds) (hf : IsRun fs)
    (hne : ds ≠ [] ∨ fs ≠ []) (hx : IsExponent x) (he : Decimal.readExponent? x = some e) :
    Decimal.read? (ds ++ '.' :: (fs ++ x)) =
      some ⟨Decimal.ofDigits (Decimal.ofDigits 0 ds) fs, e - fs.length⟩ := by
  have hdot : Stops Char.isDigit ('.' :: (fs ++ x)) := stops_cons.mpr (by decide)
  have hboth : (ds.isEmpty && fs.isEmpty) = false := by
    obtain hne | hne := hne <;> simp [hne]
  simp only [Decimal.read?, takeWhile_append_of_stops h hdot, dropWhile_append_of_stops h hdot,
    takeWhile_append_of_stops hf hx.stops, dropWhile_append_of_stops hf hx.stops, hboth, he]
  rfl

/-- Every literal is read as a number. -/
theorem exists_read? {l : List Char} (h : IsLiteral l) : ∃ d, Decimal.read? l = some d := by
  obtain ⟨m, x, hm, hx, rfl⟩ := h
  obtain ⟨e, he⟩ := exists_readExponent? hx
  cases hm with
  | whole h hne => exact ⟨_, read?_whole h hne hx he⟩
  | @point ds fs h hne hf =>
    rw [List.append_assoc, List.cons_append]
    exact ⟨_, read?_point h hf (Or.inl hne) hx he⟩
  | @fraction fs hf hne =>
    have h : IsRun [] := by simp [IsRun]
    exact ⟨_, read?_point h hf (Or.inr hne) hx he⟩

/-- The number nearest to the literal is finite. -/
def IsFinite (l : List Char) : Prop :=
  ∀ d, Decimal.read? l = some d → d.toBits < Binary64.infinityBits

/-- A literal has a value exactly when it is finite: there is no other way to fail. -/
theorem exists_value?_iff {l : List Char} (h : IsLiteral l) :
    (∃ v, value? l = some v) ↔ IsFinite l := by
  obtain ⟨d, hd⟩ := exists_read? h
  simp only [value?, hd, Option.bind_some, IsFinite, Option.some.injEq, forall_eq']
  split
  · next hlt => simp [hlt]
  · next hlt => simp [hlt]

end FractalFormula.Literal
