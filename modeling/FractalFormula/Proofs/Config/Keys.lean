import FractalFormula.Config.Basic
import FractalFormula.Proofs.Decimal.Whole
import FractalFormula.Proofs.Except
import FractalFormula.Proofs.Toml.Integers

/-!
# The keys of a configuration

What each key of a document asks of its value, what the settings then are, and what is wrong with
a value that is not valid. `Valid` says the first without a reader. A reader of one value `Judges`
it: the value is valid and read, or it is not valid and the problem is reported. The check of a key
`Checks` it in a document, where it may also be left out.
-/

namespace FractalFormula

theorem Mode.ofName?_eq_some_iff {name : String} {m : Mode} :
    Mode.ofName? name = some m ↔ m.name = name := by
  constructor
  · intro h
    simpa using List.find?_some h
  · rintro rfl
    cases m <;> decide

namespace Config

/-- The keys that are looked at. The last two stand in the table of the key before them. -/
inductive Key where
  | mode
  | maxIterations
  | bailout
  | passes
  | logging
  | level
  | logFile
deriving DecidableEq

namespace Key

/-- The keys in the order in which they are checked. -/
def inOrder : List Key := [mode, maxIterations, bailout, passes, logging, level, logFile]

/-- The key as messages have it. -/
def path : Key → String
  | mode => "input_mode"
  | maxIterations => "max_iterations"
  | bailout => "bailout"
  | passes => "simplify_passes"
  | logging => "logging"
  | level => "logging.level"
  | logFile => "logging.file"

/-- The value of a key of the table on logging. -/
def findInLogging? (t : Toml.Table) (key : String) : Option Toml.Value :=
  ((t.get? "logging").bind Toml.Value.table?).bind fun logging => logging.get? key

/-- The value of a key in a document. -/
def find? (t : Toml.Table) : Key → Option Toml.Value
  | mode => t.get? "input_mode"
  | maxIterations => t.get? "max_iterations"
  | bailout => t.get? "bailout"
  | passes => t.get? "simplify_passes"
  | logging => t.get? "logging"
  | level => findInLogging? t "level"
  | logFile => findInLogging? t "file"

/-- The values that a key may have. -/
def Valid : Key → Toml.Value → Prop
  | mode, v => ∃ m : Mode, v = .string m.name
  | maxIterations, v => ∃ n : Int, 0 < n ∧ v = .integer n
  | bailout, v => (∃ n : Int, 0 < n ∧ v = .integer n) ∨
    ∃ x : Float, 0.0 < x ∧ x.isFinite ∧ v = .float x
  | passes, v => ∃ n : Int, 0 < n ∧ v = .integer n
  | logging, v => ∃ entries, v = .table entries
  | level, v => ∃ name, v = .string name ∧ (Level.parse name).isOk
  | logFile, v => ∃ path, v = .string path

/-- The setting of the key is what the value says. -/
def Sets : Key → Toml.Value → Config → Prop
  | mode, v, c => v = .string c.mode.name
  | maxIterations, v, c => v = .integer c.maxIterations
  | bailout, v, c => v = .float c.bailout ∨ ∃ n, v = .integer n ∧ c.bailout = Float.ofInt n
  | passes, v, c => v = .integer c.passes
  | logging, _, _ => True
  | level, v, c => v = .string c.level
  | logFile, v, c => ∃ path, v = .string path ∧
      c.logFile = some (if path = "auto" then .timestamped else .path path)

/-- The setting of the key is the one of an empty document. -/
def IsDefault : Key → Config → Prop
  | mode, c => c.mode = default.mode
  | maxIterations, c => c.maxIterations = default.maxIterations
  | bailout, c => c.bailout = default.bailout
  | passes, c => c.passes = default.passes
  | logging, _ => True
  | level, c => c.level = default.level
  | logFile, c => c.logFile = default.logFile

/-- What is wrong with a value that is not valid. -/
def problem : Key → Toml.Value → Problem
  | mode, .string name => .unknownMode name
  | maxIterations, _ => .notPositiveInteger maxIterations.path
  | bailout, _ => .notPositiveNumber bailout.path
  | passes, _ => .notPositiveInteger passes.path
  | logging, _ => .loggingNotTable
  | level, .string name => .unknownLevel (Level.normalize name)
  | k, _ => .notString k.path

/-- If the key is in the document, its value is valid. -/
def ValidIn (k : Key) (t : Toml.Table) : Prop := ∀ v, k.find? t = some v → k.Valid v

/-- The setting is the value of the key, or the default if the key is left out. -/
def Holds (k : Key) (t : Toml.Table) (c : Config) : Prop :=
  (∀ v, k.find? t = some v → k.Sets v c) ∧ (k.find? t = none → k.IsDefault c)

/-- The error is about the key and the value that it has in the document, which is not valid. -/
def Fails (k : Key) (t : Toml.Table) (e : Error) : Prop :=
  ∃ v, k.find? t = some v ∧ ¬k.Valid v ∧ e = .config (k.problem v)

end Key

/-! ### One value -/

section

variable {β : Type}

/-- A reader of the value of a key accepts it as `b`, for which `reads b` holds, exactly if it is
valid. -/
inductive Judges (k : Key) (v : Toml.Value) (reads : β → Prop) : Setting β → Prop where
  | accepts {b : β} : k.Valid v → reads b → Judges k v reads (.ok b)
  | rejects : ¬k.Valid v → Judges k v reads (.error (.config (k.problem v)))

/-- A value that is not a string is not read as one. -/
theorem stringAt_eq (key : String) (v : Toml.Value) :
    (∃ s, v = .string s ∧ stringAt key v = .ok s) ∨
      (∀ s, v ≠ .string s) ∧ stringAt key v = .error (.config (.notString key)) := by
  cases v with
  | string s => exact .inl ⟨s, rfl, rfl⟩
  | _ => exact .inr ⟨nofun, rfl⟩

/-- The three keys with a string reject every other value alike. -/
theorem judges_notString {k : Key} (hk : k = .mode ∨ k = .level ∨ k = .logFile) {v : Toml.Value}
    (hv : ∀ s, v ≠ .string s) {reads : β → Prop} :
    Judges k v reads (.error (.config (.notString k.path))) := by
  have hvalid : ¬k.Valid v := by
    rcases hk with rfl | rfl | rfl
    · rintro ⟨m, heq⟩
      exact hv _ heq
    · rintro ⟨name, heq, -⟩
      exact hv _ heq
    · rintro ⟨path, heq⟩
      exact hv _ heq
  have hproblem : k.problem v = .notString k.path := by
    cases v with
    | string s => exact absurd rfl (hv s)
    | _ => rcases hk with rfl | rfl | rfl <;> rfl
  exact hproblem ▸ Judges.rejects hvalid

end

theorem judges_modeAt (v : Toml.Value) :
    Judges .mode v (fun m => v = .string m.name) (modeAt "input_mode" v) := by
  rcases stringAt_eq "input_mode" v with ⟨name, rfl, h⟩ | ⟨hv, h⟩
  · rw [modeAt, h]
    simp only [bind, Except.bind]
    cases hm : Mode.ofName? name with
    | some m =>
      obtain rfl := Mode.ofName?_eq_some_iff.mp hm
      exact .accepts ⟨m, rfl⟩ rfl
    | none =>
      refine .rejects ?_
      rintro ⟨m, heq⟩
      obtain rfl := Toml.Value.string.inj heq
      rw [Mode.ofName?_eq_some_iff.mpr rfl] at hm
      cases hm
  · rw [modeAt, h]
    exact judges_notString (.inl rfl) hv

/-- The two keys with a positive integer. -/
theorem judges_positiveIntegerAt {k : Key} (v : Toml.Value)
    (hvalid : k.Valid v ↔ ∃ n : Int, 0 < n ∧ v = .integer n)
    (hproblem : k.problem v = .notPositiveInteger k.path) :
    Judges k v (fun n => v = .integer (n : Nat)) (positiveIntegerAt k.path v) := by
  by_cases h : ∃ n : Int, 0 < n ∧ v = .integer n
  · obtain ⟨n, hpos, rfl⟩ := id h
    have hread : positiveIntegerAt k.path (.integer n) = .ok n.toNat := if_pos hpos
    rw [hread]
    refine .accepts (hvalid.mpr h) ?_
    rw [Int.toNat_of_nonneg (Int.le_of_lt hpos)]
  · have hread : positiveIntegerAt k.path v = .error (.config (k.problem v)) := by
      rw [hproblem]
      cases v with
      | integer n => exact if_neg fun hpos => h ⟨n, hpos, rfl⟩
      | _ => rfl
    rw [hread]
    exact .rejects (mt hvalid.mp h)

/-- A positive integer of 64 bits is a positive finite number, so only floats can be out of
bounds. -/
theorem judges_positiveNumberAt {v : Toml.Value} (hv : v.Fits) :
    Judges .bailout v (fun x => v = .float x ∨ ∃ n, v = .integer n ∧ x = Float.ofInt n)
      (positiveNumberAt "bailout" v) := by
  cases v with
  | integer n =>
    show Judges Key.bailout _ _ (if (0.0 < Float.ofInt n && (Float.ofInt n).isFinite) = true then
      .ok (Float.ofInt n) else .error (.config (.notPositiveNumber "bailout")))
    obtain ⟨hlow, hhigh⟩ := hv n rfl
    have hiff := Binary64.zero_lt_ofInt_iff hlow hhigh
    by_cases hpos : 0 < n
    · obtain ⟨hlt, hfinite⟩ := hiff.mpr hpos
      rw [if_pos (by simp [hlt, hfinite])]
      exact .accepts (.inl ⟨n, hpos, rfl⟩) (.inr ⟨n, rfl, rfl⟩)
    · rw [if_neg (by simpa using mt hiff.mp hpos)]
      refine .rejects ?_
      rintro (⟨m, hm, heq⟩ | ⟨x, -, -, heq⟩)
      · obtain rfl := Toml.Value.integer.inj heq
        exact hpos hm
      · cases heq
  | float x =>
    show Judges Key.bailout _ _ (if (0.0 < x && x.isFinite) = true then .ok x
      else .error (.config (.notPositiveNumber "bailout")))
    by_cases hx : 0.0 < x ∧ x.isFinite
    · rw [if_pos (by simp [hx.1, hx.2])]
      exact .accepts (.inr ⟨x, hx.1, hx.2, rfl⟩) (.inl rfl)
    · rw [if_neg (by simpa using hx)]
      refine .rejects ?_
      rintro (⟨m, -, heq⟩ | ⟨y, hlt, hfinite, heq⟩)
      · cases heq
      · obtain rfl := Toml.Value.float.inj heq
        exact hx ⟨hlt, hfinite⟩
  | _ =>
    refine .rejects ?_
    rintro (⟨m, -, heq⟩ | ⟨y, -, -, heq⟩) <;> cases heq

theorem judges_tableAt (v : Toml.Value) :
    Judges .logging v (fun entries => v = .table entries) (tableAt v) := by
  cases v with
  | table entries => exact .accepts ⟨entries, rfl⟩ rfl
  | _ => exact .rejects nofun

theorem judges_levelAt (v : Toml.Value) :
    Judges .level v (fun name => v = .string name) (levelAt "logging.level" v) := by
  rcases stringAt_eq "logging.level" v with ⟨name, rfl, h⟩ | ⟨hv, h⟩
  · rw [levelAt, h]
    show Judges Key.level (.string name) _ (Level.parse name >>= fun _ => pure name)
    cases hl : Level.parse name with
    | ok l => exact .accepts ⟨name, rfl, by rw [hl]; rfl⟩ rfl
    | error e =>
      have he : e = .config (.unknownLevel (Level.normalize name)) := by
        rw [Level.parse] at hl
        split at hl
        · cases hl
        · exact (Except.error.inj hl).symm
      subst he
      refine .rejects ?_
      rintro ⟨name', heq, hok⟩
      obtain rfl := Toml.Value.string.inj heq
      rw [hl] at hok
      cases hok
  · rw [levelAt, h]
    exact judges_notString (.inr (.inl rfl)) hv

theorem judges_logFileAt (v : Toml.Value) :
    Judges .logFile v
      (fun file => ∃ path, v = .string path ∧
        file = some (if path = "auto" then LogFile.timestamped else .path path))
      (some <$> logFileAt "logging.file" v) := by
  rcases stringAt_eq "logging.file" v with ⟨path, rfl, h⟩ | ⟨hv, h⟩
  · rw [logFileAt, h]
    exact .accepts ⟨path, rfl⟩ ⟨path, rfl, rfl⟩
  · rw [logFileAt, h]
    exact judges_notString (.inr (.inr rfl)) hv

/-! ### One key -/

section

variable {β : Type}

/-- The check of a key yields the default if the key is left out, and judges its value if not. -/
inductive Checks (k : Key) (t : Toml.Table) (reads : Toml.Value → β → Prop) (default : β) :
    Setting β → Prop where
  | absent : k.find? t = none → Checks k t reads default (.ok default)
  | accepts {v : Toml.Value} {b : β} : k.find? t = some v → k.Valid v → reads v b →
    Checks k t reads default (.ok b)
  | rejects {v : Toml.Value} : k.find? t = some v → ¬k.Valid v →
    Checks k t reads default (.error (.config (k.problem v)))

variable {k : Key} {t : Toml.Table} {reads : Toml.Value → β → Prop} {default : β}

theorem checks_setting {t' : Toml.Table} {key : String} {read : Toml.Value → Setting β}
    (hkey : k.find? t = t'.get? key)
    (hread : ∀ v, t'.get? key = some v → Judges k v (reads v) (read v)) :
    Checks k t reads default (setting t' key default read) := by
  rw [setting]
  cases hv : t'.get? key with
  | none => exact .absent (hkey.trans hv)
  | some v =>
    have hjudged := hread v hv
    show Checks k t reads default (read v)
    generalize read v = x at hjudged
    cases hjudged with
    | accepts hvalid hb => exact .accepts (hkey.trans hv) hvalid hb
    | rejects hvalid => exact .rejects (hkey.trans hv) hvalid

theorem Checks.ok {x : Setting β} {b : β} (h : Checks k t reads default x) (hx : x = .ok b) :
    k.ValidIn t ∧ (∀ v, k.find? t = some v → reads v b) ∧ (k.find? t = none → b = default) := by
  cases h with
  | absent hfind =>
    obtain rfl := Except.ok.inj hx
    refine ⟨fun v hv => ?_, fun v hv => ?_, fun _ => rfl⟩
    · rw [hfind] at hv
      cases hv
    · rw [hfind] at hv
      cases hv
  | accepts hfind hvalid hb =>
    obtain rfl := Except.ok.inj hx
    refine ⟨fun v hv => ?_, fun v hv => ?_, fun hnone => ?_⟩
    · obtain rfl := Option.some.inj (hfind.symm.trans hv)
      exact hvalid
    · obtain rfl := Option.some.inj (hfind.symm.trans hv)
      exact hb
    · rw [hfind] at hnone
      cases hnone
  | rejects => cases hx

/-- What holds of the default and of what is read from valid values holds of the setting. -/
theorem Checks.ok_induction {P : β → Prop} {x : Setting β} {b : β}
    (h : Checks k t reads default x) (hx : x = .ok b) (hdefault : P default)
    (hread : ∀ v, k.find? t = some v → k.Valid v → reads v b → P b) : P b := by
  cases h with
  | absent =>
    obtain rfl := Except.ok.inj hx
    exact hdefault
  | accepts hfind hvalid hb =>
    obtain rfl := Except.ok.inj hx
    exact hread _ hfind hvalid hb
  | rejects => cases hx

theorem Checks.error {x : Setting β} {e : Error} (h : Checks k t reads default x)
    (hx : x = .error e) : k.Fails t e := by
  cases h with
  | absent => cases hx
  | accepts => cases hx
  | rejects hfind hvalid =>
    obtain rfl := Except.error.inj hx
    exact ⟨_, hfind, hvalid, rfl⟩

end

end Config

end FractalFormula
