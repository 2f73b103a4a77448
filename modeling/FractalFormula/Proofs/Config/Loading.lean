import FractalFormula.Proofs.Config.Keys

/-!
# Loading configurations

A table is accepted exactly if every key in it is valid (`isOk_ofTable_iff`). Accepted settings are
the values of the keys or their defaults (`holds_of_ofTable`), and iterations can run under them
(`usable_of_ofTable`). A table is refused for the first key that is not valid
(`firstInvalid_of_ofTable`), and keys that are not looked at do not matter (`ofTable_congr`). This
holds of every table whose integers fit into 64 bits (`settles_ofTable`), and so of the tables of
documents in text (`ofToml_accepts_exactly_valid`).
-/

namespace FractalFormula.Config

/-- Iterations can run under the settings, and logging can be started. -/
structure Usable (c : Config) : Prop where
  maxIterations : 1 ≤ c.maxIterations
  passes : 1 ≤ c.passes
  bailout : 0.0 < c.bailout ∧ c.bailout.isFinite
  level : (Level.parse c.level).isOk

/-- The error is about the first key that is not valid. -/
def FirstInvalid (t : Toml.Table) (e : Error) : Prop :=
  ∃ ahead k behind, Key.inOrder = ahead ++ k :: behind ∧ (∀ j ∈ ahead, j.ValidIn t) ∧ k.Fails t e

/-- The outcome is the one that the keys of the table ask for: the settings are accepted exactly if
every key has a valid value, and then each setting is the value of its key or the default, and the
settings are usable; if not, the error is about the first key in order that is not valid. -/
structure Settles (t : Toml.Table) (outcome : Except Error Config) : Prop where
  accepts : outcome.isOk ↔ ∀ k : Key, k.ValidIn t
  holds : ∀ c, outcome = .ok c → (∀ k : Key, k.Holds t c) ∧ c.Usable
  refuses : ∀ e, outcome = .error e → FirstInvalid t e

/-- The tables have the same values under the keys. Of the values on logging it matters only
whether they are tables, since what is in them has keys of its own. -/
structure SameKeys (t t' : Toml.Table) : Prop where
  value : ∀ k : Key, k ≠ .logging → k.find? t = k.find? t'
  logging : (Key.logging.find? t).map (fun v => v.table?.isSome) =
    (Key.logging.find? t').map (fun v => v.table?.isSome)

section

variable {t t' : Toml.Table}

/-- The table on logging, empty if it is left out. -/
theorem get?_of_setting_logging {entries : Toml.Table}
    (h : setting t "logging" [] tableAt = .ok entries) (key : String) :
    entries.get? key = Key.findInLogging? t key := by
  rw [setting] at h
  rw [Key.findInLogging?]
  cases hv : t.get? "logging" with
  | none =>
    rw [hv] at h
    obtain rfl := Except.ok.inj h
    rfl
  | some v =>
    rw [hv] at h
    have h : tableAt v = .ok entries := h
    cases v with
    | table entries' =>
      obtain rfl := Except.ok.inj h
      rfl
    | _ => cases h

/-! ### The checks of a document -/

theorem checks_mode : Checks .mode t (fun v (m : Mode) => v = .string m.name) default.mode
    (setting t "input_mode" default.mode (modeAt "input_mode")) :=
  checks_setting rfl fun v _ => judges_modeAt v

theorem checks_maxIterations :
    Checks .maxIterations t (fun v (n : Nat) => v = .integer n) default.maxIterations
      (setting t "max_iterations" default.maxIterations (positiveIntegerAt "max_iterations")) :=
  checks_setting rfl fun v _ => judges_positiveIntegerAt v Iff.rfl rfl

theorem checks_passes : Checks .passes t (fun v (n : Nat) => v = .integer n) default.passes
    (setting t "simplify_passes" default.passes (positiveIntegerAt "simplify_passes")) :=
  checks_setting rfl fun v _ => judges_positiveIntegerAt v Iff.rfl rfl

theorem checks_bailout (hfits : t.Fits) :
    Checks .bailout t (fun v (x : Float) => v = .float x ∨ ∃ n, v = .integer n ∧ x = Float.ofInt n)
      default.bailout (setting t "bailout" default.bailout (positiveNumberAt "bailout")) :=
  checks_setting rfl fun v hv => judges_positiveNumberAt (hfits _ v hv)

theorem checks_logging : Checks .logging t (fun v entries => v = .table entries) []
    (setting t "logging" [] tableAt) :=
  checks_setting rfl fun v _ => judges_tableAt v

section

variable {entries : Toml.Table} (hentries : setting t "logging" [] tableAt = .ok entries)

include hentries

theorem checks_level : Checks .level t (fun v name => v = .string name) default.level
    (setting entries "level" default.level (levelAt "logging.level")) :=
  checks_setting (get?_of_setting_logging hentries "level").symm fun v _ => judges_levelAt v

theorem checks_logFile : Checks .logFile t
    (fun v file => ∃ path, v = .string path ∧
      file = some (if path = "auto" then LogFile.timestamped else .path path)) default.logFile
    (setting entries "file" default.logFile fun v => some <$> logFileAt "logging.file" v) :=
  checks_setting (get?_of_setting_logging hentries "file").symm fun v _ => judges_logFileAt v

end

/-- The keys `ks` are checked in turn, and a failure is about the first of them that is not
valid. -/
def Refuses {β : Type} (t : Toml.Table) (ks : List Key) (x : Setting β) : Prop :=
  ∀ e, x = .error e → ∃ ahead k behind, ks = ahead ++ k :: behind ∧ (∀ j ∈ ahead, j.ValidIn t) ∧
    k.Fails t e

namespace Refuses

variable {β γ : Type}

theorem pure (b : β) : Refuses t [] (Pure.pure b) := fun _ he => by cases he

/-- The check of a key, and the other keys behind it. -/
theorem bind {k : Key} {ks : List Key} {reads : Toml.Value → β → Prop} {default : β}
    {x : Setting β} {f : β → Setting γ} (h : Checks k t reads default x)
    (hf : ∀ b, x = .ok b → Refuses t ks (f b)) : Refuses t (k :: ks) (x >>= f) := by
  intro e he
  obtain he | ⟨b, hb, he⟩ := bind_eq_error he
  · exact ⟨[], k, ks, rfl, List.forall_mem_nil _, h.error he⟩
  · obtain ⟨ahead, j, behind, rfl, hahead, hfails⟩ := hf b hb e he
    exact ⟨k :: ahead, j, behind, rfl, List.forall_mem_cons.mpr ⟨(h.ok hb).1, hahead⟩, hfails⟩

end Refuses

/-- What an accepted table says about each key, in the order of the keys. -/
theorem exists_of_ofTable_eq_ok {c : Config} (h : ofTable t = .ok c) : ∃ entries,
    setting t "input_mode" default.mode (modeAt "input_mode") = .ok c.mode ∧
    setting t "max_iterations" default.maxIterations (positiveIntegerAt "max_iterations") =
      .ok c.maxIterations ∧
    setting t "bailout" default.bailout (positiveNumberAt "bailout") = .ok c.bailout ∧
    setting t "simplify_passes" default.passes (positiveIntegerAt "simplify_passes") =
      .ok c.passes ∧
    setting t "logging" [] tableAt = .ok entries ∧
    setting entries "level" default.level (levelAt "logging.level") = .ok c.level ∧
    (setting entries "file" default.logFile fun v => some <$> logFileAt "logging.file" v) =
      .ok c.logFile := by
  obtain ⟨mode, hmode, h⟩ := bind_eq_ok h
  obtain ⟨maxIterations, hmaxIterations, h⟩ := bind_eq_ok h
  obtain ⟨bailout, hbailout, h⟩ := bind_eq_ok h
  obtain ⟨passes, hpasses, h⟩ := bind_eq_ok h
  obtain ⟨entries, hentries, h⟩ := bind_eq_ok h
  obtain ⟨level, hlevel, h⟩ := bind_eq_ok h
  obtain ⟨logFile, hlogFile, h⟩ := bind_eq_ok h
  obtain rfl := Except.ok.inj h
  exact ⟨entries, hmode, hmaxIterations, hbailout, hpasses, hentries, hlevel, hlogFile⟩

section

variable (hfits : t.Fits)

include hfits

/-- The keys of an accepted table are valid, and the settings are their values or the defaults. -/
theorem holds_of_ofTable {c : Config} (h : ofTable t = .ok c) (k : Key) :
    k.ValidIn t ∧ k.Holds t c := by
  obtain ⟨entries, hmode, hmaxIterations, hbailout, hpasses, hentries, hlevel, hlogFile⟩ :=
    exists_of_ofTable_eq_ok h
  cases k with
  | mode => exact checks_mode.ok hmode
  | maxIterations => exact checks_maxIterations.ok hmaxIterations
  | bailout => exact (checks_bailout hfits).ok hbailout
  | passes => exact checks_passes.ok hpasses
  | logging => exact ⟨(checks_logging.ok hentries).1, fun _ _ => trivial, fun _ => trivial⟩
  | level => exact (checks_level hentries).ok hlevel
  | logFile => exact (checks_logFile hentries).ok hlogFile

theorem firstInvalid_of_ofTable {e : Error} (h : ofTable t = .error e) : FirstInvalid t e := by
  have hrefuses : Refuses t Key.inOrder (ofTable t) :=
    .bind checks_mode fun _ _ => .bind checks_maxIterations fun _ _ =>
      .bind (checks_bailout hfits) fun _ _ => .bind checks_passes fun _ _ =>
        .bind checks_logging fun _ hentries => .bind (checks_level hentries) fun _ _ =>
          .bind (checks_logFile hentries) fun _ _ => .pure _
  exact hrefuses e h

theorem isOk_ofTable_iff : (ofTable t).isOk ↔ ∀ k : Key, k.ValidIn t := by
  constructor
  · intro hok k
    obtain ⟨c, hc⟩ := isOk_iff.mp hok
    exact (holds_of_ofTable hfits hc k).1
  · intro hvalid
    by_contra hnot
    obtain ⟨e, he⟩ := not_isOk_iff.mp hnot
    obtain ⟨ahead, k, behind, -, -, v, hfind, hinvalid, -⟩ := firstInvalid_of_ofTable hfits he
    exact hinvalid (hvalid k v hfind)

/-- The defaults are usable, and so is what valid keys set. -/
theorem usable_of_ofTable {c : Config} (h : ofTable t = .ok c) : c.Usable := by
  obtain ⟨entries, -, hmaxIterations, hbailout, hpasses, hentries, hlevel, -⟩ :=
    exists_of_ofTable_eq_ok h
  have hpositive {v : Toml.Value} {n : Nat} (hvalid : ∃ m : Int, 0 < m ∧ v = .integer m)
      (hread : v = .integer n) : 1 ≤ n := by
    obtain ⟨m, hm, rfl⟩ := hvalid
    have heq := Toml.Value.integer.inj hread
    omega
  refine ⟨?maxIterations, ?passes, ?bailout, ?level⟩
  case maxIterations =>
    exact checks_maxIterations.ok_induction (P := (1 ≤ ·)) hmaxIterations (by decide)
      fun _ _ => hpositive
  case passes =>
    exact checks_passes.ok_induction (P := (1 ≤ ·)) hpasses (by decide) fun _ _ => hpositive
  case bailout =>
    refine (checks_bailout hfits).ok_induction (P := fun x => 0.0 < x ∧ x.isFinite) hbailout
      (by decide) fun v hv hvalid hread => ?_
    rcases hvalid with ⟨n, hpos, rfl⟩ | ⟨x, hx, hfinite, rfl⟩
    · rcases hread with heq | ⟨m, heq, hset⟩
      · cases heq
      · obtain rfl := Toml.Value.integer.inj heq
        obtain ⟨hlow, hhigh⟩ := hfits _ _ hv n rfl
        rw [hset]
        exact (Binary64.zero_lt_ofInt_iff hlow hhigh).mpr hpos
    · rcases hread with heq | ⟨m, heq, -⟩
      · rw [← Toml.Value.float.inj heq]
        exact ⟨hx, hfinite⟩
      · cases heq
  case level =>
    refine (checks_level hentries).ok_induction (P := fun name => (Level.parse name).isOk) hlevel
      (by decide) fun v _ hvalid hread => ?_
    obtain ⟨name, rfl, hok⟩ := hvalid
    rw [← Toml.Value.string.inj hread]
    exact hok

theorem settles_ofTable : Settles t (ofTable t) where
  accepts := isOk_ofTable_iff hfits
  holds _ hc := ⟨fun k => (holds_of_ofTable hfits hc k).2, usable_of_ofTable hfits hc⟩
  refuses _ he := firstInvalid_of_ofTable hfits he

end

/-! ### Other keys -/

theorem setting_congr {β : Type} {key : String} (h : t.get? key = t'.get? key) (default : β)
    (read : Toml.Value → Setting β) : setting t key default read = setting t' key default read := by
  rw [setting, setting, h]

/-- Values on logging that are tables in both or in neither document have the same check. -/
theorem bind_logging_congr {β : Type} (h : SameKeys t t') {f : Toml.Table → Setting β}
    (hf : ∀ {entries entries' : Toml.Table}, entries.get? "level" = entries'.get? "level" →
      entries.get? "file" = entries'.get? "file" → f entries = f entries') :
    setting t "logging" [] tableAt >>= f = setting t' "logging" [] tableAt >>= f := by
  have hkeys {entries entries' : Toml.Table} (hl : setting t "logging" [] tableAt = .ok entries)
      (hr : setting t' "logging" [] tableAt = .ok entries') : f entries = f entries' := by
    apply hf
    · rw [get?_of_setting_logging hl, get?_of_setting_logging hr]
      exact h.value .level (by decide)
    · rw [get?_of_setting_logging hl, get?_of_setting_logging hr]
      exact h.value .logFile (by decide)
  have hsome : (t.get? "logging").map (fun v => v.table?.isSome) =
    (t'.get? "logging").map (fun v => v.table?.isSome) := h.logging
  have hcase (t : Toml.Table) :
      (∃ entries, setting t "logging" [] tableAt = .ok entries ∧
        (t.get? "logging").map (fun v => v.table?.isSome) ≠ some false) ∨
      setting t "logging" [] tableAt = .error (.config .loggingNotTable) ∧
        (t.get? "logging").map (fun v => v.table?.isSome) = some false := by
    rw [setting]
    cases t.get? "logging" with
    | none => exact .inl ⟨[], rfl, by simp⟩
    | some v =>
      cases v with
      | table entries => exact .inl ⟨entries, rfl, by simp [Toml.Value.table?]⟩
      | _ => exact .inr ⟨rfl, rfl⟩
  rcases hcase t with ⟨entries, hl, hnot⟩ | ⟨hl, hnot⟩
  · rcases hcase t' with ⟨entries', hr, -⟩ | ⟨-, hnot'⟩
    · have hfeq := hkeys hl hr
      rw [hl, hr]
      exact hfeq
    · exact absurd (hsome.trans hnot') hnot
  · rcases hcase t' with ⟨-, -, hnot'⟩ | ⟨hr, -⟩
    · exact absurd (hsome.symm.trans hnot) hnot'
    · rw [hl, hr]

/-- Only the keys matter. -/
theorem ofTable_congr (h : SameKeys t t') : ofTable t = ofTable t' := by
  rw [ofTable, ofTable, setting_congr (h.value .mode nofun),
    setting_congr (h.value .maxIterations nofun), setting_congr (h.value .bailout nofun),
    setting_congr (h.value .passes nofun)]
  refine bind_congr fun mode => bind_congr fun maxIterations => bind_congr fun bailout =>
    bind_congr fun passes => bind_logging_congr h fun hlevel hfile => ?_
  rw [setting_congr hlevel, setting_congr hfile]

end

/-! ### Documents in text -/

/-- A table whose integers fit into 64 bits, and so the table of every document, is accepted exactly
if every key in it has a valid value. Tables, and documents, with the same values under the keys
have the same settings or the same error, whatever else is in them. -/
theorem ofToml_accepts_exactly_valid :
    (∀ t : Toml.Table, t.Fits →
      Settles t (ofTable t) ∧ ∀ t', SameKeys t t' → ofTable t' = ofTable t) ∧
    ∀ document t, Toml.parse? document = some t →
      Settles t (ofToml document) ∧
        ∀ document' t', Toml.parse? document' = some t' → SameKeys t t' →
          ofToml document' = ofToml document := by
  have htable (t : Toml.Table) (hfits : t.Fits) :
      Settles t (ofTable t) ∧ ∀ t', SameKeys t t' → ofTable t' = ofTable t :=
    ⟨settles_ofTable hfits, fun _ hsame => (ofTable_congr hsame).symm⟩
  have hread {document : String} {t : Toml.Table} (h : Toml.parse? document = some t) :
      ofToml document = ofTable t := by
    rw [ofToml, h]
  refine ⟨htable, fun document t h => ?_⟩
  obtain ⟨hsettles, hcongr⟩ := htable t (Toml.parse?_fits h)
  rw [hread h]
  refine ⟨hsettles, fun document' t' h' hsame => ?_⟩
  rw [hread h', hcongr t' hsame]

/-- Two keys that are not valid: the error is about the one that is looked at first, which is not
the one that is written first. -/
theorem ofToml_accepts_exactly_valid_twoInvalid :
    ∃ t, Toml.parse? "simplify_passes = 0\nbailout = -2" = some t ∧
      ofToml "simplify_passes = 0\nbailout = -2" = .error (.config (.notPositiveNumber "bailout")) ∧
      FirstInvalid t (.config (.notPositiveNumber "bailout")) ∧ ¬∀ k : Key, k.ValidIn t := by
  have hsome : (Toml.parse? "simplify_passes = 0\nbailout = -2").isSome := by decide +kernel
  have herror : ofToml "simplify_passes = 0\nbailout = -2" =
      .error (.config (.notPositiveNumber "bailout")) := by decide +kernel
  obtain ⟨t, ht⟩ := Option.isSome_iff_exists.mp hsome
  obtain ⟨-, hdocument⟩ := ofToml_accepts_exactly_valid
  obtain ⟨hsettles, -⟩ := hdocument _ t ht
  refine ⟨t, ht, herror, hsettles.refuses _ herror, fun hvalid => ?_⟩
  have hok := hsettles.accepts.mpr hvalid
  rw [herror] at hok
  cases hok

end FractalFormula.Config
