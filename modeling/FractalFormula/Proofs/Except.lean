import Mathlib

/-!
# Computations that may fail

What a successful sequence of steps says about its steps, when a sequence succeeds, and decidable
equality of outcomes.
-/

namespace FractalFormula

instance decEqExcept {ε β : Type _} [DecidableEq ε] [DecidableEq β] : DecidableEq (Except ε β)
  | .ok b, .ok c => decidable_of_iff (b = c) ⟨congrArg _, Except.ok.inj⟩
  | .error e, .error e' => decidable_of_iff (e = e') ⟨congrArg _, Except.error.inj⟩
  | .ok _, .error _ => isFalse nofun
  | .error _, .ok _ => isFalse nofun

/-- A sequence succeeds only if its first step does, and the rest on what the first step yields. -/
theorem bind_eq_ok {ε β γ : Type _} {x : Except ε β} {f : β → Except ε γ} {c : γ}
    (h : x >>= f = .ok c) : ∃ b, x = .ok b ∧ f b = .ok c := by
  cases x with
  | error e => nomatch h
  | ok b => exact ⟨b, rfl, h⟩

/-- A sequence fails with the failure of its first step, or with that of the rest. -/
theorem bind_eq_error {ε β γ : Type _} {x : Except ε β} {f : β → Except ε γ} {e : ε}
    (h : x >>= f = .error e) : x = .error e ∨ ∃ b, x = .ok b ∧ f b = .error e := by
  cases x with
  | error e' => exact .inl (congrArg _ (Except.error.inj h))
  | ok b => exact .inr ⟨b, rfl, h⟩

theorem map_eq_ok {ε β γ : Type _} {x : Except ε β} {f : β → γ} {c : γ} (h : x.map f = .ok c) :
    ∃ b, x = .ok b ∧ f b = c := by
  cases x with
  | error e => cases h
  | ok b => exact ⟨b, rfl, Except.ok.inj h⟩

theorem map_eq_error_iff {ε β γ : Type _} {x : Except ε β} {f : β → γ} {e : ε} :
    x.map f = .error e ↔ x = .error e := by
  cases x with
  | error e' => exact ⟨fun h => congrArg _ (Except.error.inj h), fun h => by rw [h]; rfl⟩
  | ok b => exact iff_of_false nofun nofun

/-- Where the first step and the rest go along with functions of what they yield, so does the
sequence. -/
theorem bind_eq_map {ε β γ β' γ' : Type _} {x : Except ε β} {x' : Except ε β'}
    {f : β → Except ε γ} {f' : β' → Except ε γ'} {g : β → β'} {h : γ → γ'} (hx : x' = x.map g)
    (hf : ∀ b, f' (g b) = (f b).map h) : x' >>= f' = (x >>= f).map h := by
  subst hx
  cases x with
  | error e => rfl
  | ok b => exact hf b

theorem not_isOk_iff {ε β : Type _} {x : Except ε β} : ¬x.isOk ↔ ∃ e, x = .error e := by
  cases x with
  | error e => exact iff_of_true nofun ⟨e, rfl⟩
  | ok b => exact iff_of_false (fun h => h rfl) fun ⟨_, h⟩ => nomatch h

theorem isOk_iff {ε β : Type _} {x : Except ε β} : x.isOk ↔ ∃ b, x = .ok b := by
  cases x with
  | error e => exact iff_of_false nofun fun ⟨_, h⟩ => nomatch h
  | ok b => exact iff_of_true rfl ⟨b, rfl⟩

/-- Where what the first step yields does not decide whether the rest succeeds, a sequence
succeeds if its first step and the rest do. -/
theorem isOk_bind_iff {ε β γ : Type _} {x : Except ε β} {f : β → Except ε γ} {p : Prop}
    (hf : ∀ b, (f b).isOk ↔ p) : (x >>= f).isOk ↔ x.isOk ∧ p := by
  cases x with
  | error e => exact iff_of_false nofun fun h => nomatch h.1
  | ok b => exact (hf b).trans (and_iff_right rfl).symm

theorem isOk_bind_pure_iff {ε β γ : Type _} {x : Except ε β} {f : β → γ} :
    (x >>= fun b => pure (f b)).isOk ↔ x.isOk :=
  (isOk_bind_iff fun _ => iff_of_true rfl trivial).trans (and_iff_left trivial)

theorem isOk_map_iff {ε β γ : Type _} {x : Except ε β} {f : β → γ} :
    (x.map f).isOk ↔ x.isOk := by
  cases x with
  | error e => exact Iff.rfl
  | ok b => exact Iff.rfl

end FractalFormula
