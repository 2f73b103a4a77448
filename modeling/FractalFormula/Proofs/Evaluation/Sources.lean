import FractalFormula.Proofs.Evaluation.Environment
import FractalFormula.Proofs.Tree.Nodes
import FractalFormula.Scalar.Real

/-!
# Sources of values

The value of a tree, or its error, depends on the values that its names have, and on nothing else
of the environment (`Tree.evaluateWith_congr`). So it does not matter whether a name has its value
from the state, from the bindings or as the argument of a function: a state is as good as one more
binding for each of its names, made in any order (`Bindings.get?_bindAll_entries`).
-/

namespace FractalFormula

variable {α : Type _}

namespace Bindings

/-- The names of a state, bound in any order, go before other bindings as the state does. -/
theorem get?_bindAll_entries (b : Bindings α) {s : State α} {pairs : List (String × α)}
    (h : pairs.Perm s.entries) (name : String) :
    (b.bindAll pairs).get? name = (s.get? name).or (b.get? name) := by
  have hunique : {entry ∈ s.entries | decide (entry.1 = name)}.Subsingleton := by
    rintro entry ⟨hentry, hname⟩ entry' ⟨hentry', hname'⟩
    refine List.inj_on_of_nodup_map s.nodup hentry hentry' ?_
    exact (of_decide_eq_true hname).trans (of_decide_eq_true hname').symm
  have hfind := List.find?_eq_find?_of_perm (h.symm.trans pairs.reverse_perm.symm) hunique
  rw [get?, stack_bindAll, List.find?_append, Option.map_or, ← hfind]
  rfl

end Bindings

namespace Tree

variable [Scalar α] {value? value'? : String → Option α}

/-- The value of a tree depends on the values of its names alone. -/
theorem evaluateWith_congr {t : Tree α} (h : ∀ name ∈ t.names, value? name = value'? name) :
    t.evaluateWith value? = t.evaluateWith value'? := by
  induction t using Tree.evaluateWith.induct value? with
  | case1 x cs => rw [evaluateWith, evaluateWith]
  | case2 name cs x hx => rw [evaluateWith, evaluateWith, h name (mem_names_iff.mpr (.inl rfl))]
  | case3 name cs hnone =>
    rw [evaluateWith, evaluateWith, h name (mem_names_iff.mpr (.inl rfl))]
  | case4 o t ih =>
    have ht := ih fun name hname => h name (mem_names_iff.mpr (.inr ⟨t, by simp, hname⟩))
    rw [evaluateWith, evaluateWith, ht]
  | case5 o l r ihl ihr =>
    have hl := ihl fun name hname => h name (mem_names_iff.mpr (.inr ⟨l, by simp, hname⟩))
    have hr := ihr fun name hname => h name (mem_names_iff.mpr (.inr ⟨r, by simp, hname⟩))
    rw [evaluateWith, evaluateWith, hl, hr]
  | case6 o cs hone htwo =>
    rw [evaluateWith, evaluateWith]
    · exact hone
    · exact htwo
    · exact hone
    · exact htwo
  | case7 u => rw [evaluateWith, evaluateWith]
  | case8 f u hf ih =>
    have hu := ih fun name hname => h name (mem_names_iff.mpr (.inr ⟨u, by simp, hname⟩))
    rw [evaluateWith, evaluateWith]
    · rw [hu]
    · exact hf
    · exact hf
  | case9 f cs hunknown hone =>
    rw [evaluateWith, evaluateWith]
    · exact hunknown
    · exact hone
    · exact hunknown
    · exact hone

theorem evaluateIn_eq_evaluate_bindAll (t : Tree α) (b : Bindings α) {s : State α}
    {pairs : List (String × α)} (h : pairs.Perm s.entries) :
    t.evaluateIn b s = t.evaluate (b.bindAll pairs) :=
  evaluateWith_congr fun name _ => (b.get?_bindAll_entries h name).symm

/-- Where a name has its value from makes no difference to a tree: a state may be bound name by name
in any order, the argument of a function may be bound, and environments in which the names of the
tree have the same values, or none, give the same result. -/
theorem evaluate_sources_agree (t : Tree α) :
    (∀ (b : Bindings α) (s : State α) (pairs : List (String × α)), pairs.Perm s.entries →
      t.evaluateIn b s = t.evaluate (b.bindAll pairs)) ∧
    (∀ (name : String) (b : Bindings α) (x : α),
      t.toFunction name b x = t.evaluate (b.bind name x)) ∧
    ∀ e e' : Environment α, (∀ name ∈ t.nameSet, e.value? name = e'.value? name) →
      t.evaluateUnder e = t.evaluateUnder e' := by
  refine ⟨fun b s pairs h => t.evaluateIn_eq_evaluate_bindAll b h, fun name b x => ?_,
    fun e e' h => ?_⟩
  · exact t.evaluateIn_eq_evaluate_bindAll b (s := State.empty.set name x) (.refl [(name, x)])
  · rw [evaluateUnder_eq, evaluateUnder_eq]
    exact evaluateWith_congr fun name hname => h name (mem_nameSet_iff.mpr hname)

/-- A state with two names, one of which is bound to another value. -/
def twoNames : State Float := (State.empty.set "z" 2.0).set "c" 3.0

/-- The state bound the other way round, and an environment that has its values, and one value more,
without any state. The name that has no value in either is the error in both. -/
theorem evaluate_sources_agree_twoNames :
    let t := binary .add (binary .mul (var "z") (var "c")) (var "w")
    let b := Bindings.empty.bind "z" (1.0 : Float)
    let flat := ((Bindings.empty.bind "z" (2.0 : Float)).bind "c" 3.0).bind "k" 4.0
    [("c", 3.0), ("z", 2.0)].Perm twoNames.entries ∧
      t.evaluateIn b twoNames = t.evaluate ((b.bind "c" 3.0).bind "z" 2.0) ∧
      t.evaluateUnder ⟨b, some twoNames⟩ = t.evaluateUnder ⟨flat, none⟩ ∧
      t.evaluateUnder ⟨flat, none⟩ = .error (.unknownVariable "w") := by
  intro t b flat
  have horder : [("c", (3.0 : Float)), ("z", 2.0)].Perm twoNames.entries := .swap _ _ _
  obtain ⟨hstate, -, henvironments⟩ := evaluate_sources_agree t
  exact ⟨horder, hstate b twoNames _ horder,
    henvironments ⟨b, some twoNames⟩ ⟨flat, none⟩ (by decide), rfl⟩

end Tree

end FractalFormula
