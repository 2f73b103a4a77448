import Mathlib
import FractalFormula.Proofs.Simplify.Fold

/-!
# The recursion of simplification

One pass never runs out of turns, and the turns never show: a result that there is in a number of
turns is the result in any greater number (`simplifyWithin_mono`), so every number of turns from the
size of the tree on gives the result of `simplify` (`simplifyWithin_eq`). One pass therefore reduces
the node over the simplified children, and calls itself for the exponent of a power of a power
(`simplify_node`).
-/

namespace FractalFormula.Tree

variable {α : Type _} [Scalar α]

omit [Scalar α] in
theorem sizeAll_map_le {change : Tree α → Tree α} {cs : List (Tree α)}
    (h : ∀ c ∈ cs, (change c).size ≤ c.size) : sizeAll (cs.map change) ≤ sizeAll cs := by
  induction cs with
  | nil => exact Nat.le_refl _
  | cons c cs ih =>
    have hc := h c List.mem_cons_self
    have hcs := ih fun c' hc' => h c' (List.mem_cons_of_mem _ hc')
    rw [List.map_cons, sizeAll, sizeAll]
    omega

/-! ### More turns -/

section

variable {simplify simplify' : Tree α → Option (Tree α)}

omit [Scalar α] in
theorem mapM_eq_some_of_imp (h : ∀ t s, simplify t = some s → simplify' t = some s)
    {cs ds : List (Tree α)} (hcs : cs.mapM simplify = some ds) : cs.mapM simplify' = some ds := by
  induction cs generalizing ds with
  | nil => exact hcs
  | cons c cs ih =>
    rw [List.mapM_cons] at hcs ⊢
    obtain ⟨d, hd, hcs⟩ := Option.bind_eq_some_iff.mp hcs
    obtain ⟨ds', hds', hcs⟩ := Option.bind_eq_some_iff.mp hcs
    exact Option.bind_eq_some_iff.mpr ⟨d, h c d hd, Option.bind_eq_some_iff.mpr ⟨ds', ih hds', hcs⟩⟩

theorem reducePower_eq_some_of_imp (h : ∀ t s, simplify t = some s → simplify' t = some s)
    {base exponent s : Tree α} (hs : reducePower simplify base exponent = some s) :
    reducePower simplify' base exponent = some s := by
  unfold reducePower at hs ⊢
  split_ifs at hs ⊢
  · exact hs
  · exact hs
  · exact hs
  · exact hs
  · exact hs
  · split at hs
    · obtain ⟨e, he, rfl⟩ := Option.map_eq_some_iff.mp hs
      exact Option.map_eq_some_iff.mpr ⟨e, h _ e he, rfl⟩
    · exact hs

/-- What a node is reduced to does not depend on how a result of the inner call is found. -/
theorem reduce_eq_some_of_imp (h : ∀ t s, simplify t = some s → simplify' t = some s)
    {l : Label α} {cs : List (Tree α)} {s : Tree α} (hs : reduce simplify l cs = some s) :
    reduce simplify' l cs = some s := by
  unfold reduce at hs ⊢
  split
  · next hfold => rwa [hfold] at hs
  · next hfold =>
    rw [hfold] at hs
    split
    · exact hs
    · exact hs
    · exact hs
    · exact hs
    · exact hs
    · exact reducePower_eq_some_of_imp h hs
    · simp_all

end

theorem simplifyWithin_mono {turns turns' : Nat} (h : turns ≤ turns') {t s : Tree α}
    (hs : simplifyWithin turns t = some s) : simplifyWithin turns' t = some s := by
  induction turns generalizing turns' t s with
  | zero => cases hs
  | succ turns ih =>
    obtain ⟨turns', rfl⟩ := Nat.exists_eq_add_of_lt h
    obtain ⟨l, cs⟩ := t
    rw [simplifyWithin] at hs ⊢
    obtain ⟨ds, hds, hs⟩ := Option.bind_eq_some_iff.mp hs
    have hmore : ∀ t s, simplifyWithin turns t = some s →
        simplifyWithin (turns + turns') t = some s := fun t s => ih (Nat.le_add_right _ _)
    exact Option.bind_eq_some_iff.mpr
      ⟨ds, mapM_eq_some_of_imp hmore hds, reduce_eq_some_of_imp hmore hs⟩

/-! ### One pass -/

theorem simplifyWithin_size (t : Tree α) : simplifyWithin t.size t = some t.simplify :=
  (Option.some_get _).symm

/-- All numbers of turns from the size of the tree on give the same result. -/
theorem simplifyWithin_eq {turns : Nat} {t : Tree α} (h : t.size ≤ turns) :
    simplifyWithin turns t = some t.simplify :=
  simplifyWithin_mono h (simplifyWithin_size t)

theorem simplify_eq_of_simplifyWithin {turns : Nat} {t s : Tree α}
    (h : simplifyWithin turns t = some s) : t.simplify = s := by
  have hmore := simplifyWithin_mono (Nat.le_max_left turns t.size) h
  rw [simplifyWithin_eq (Nat.le_max_right turns t.size)] at hmore
  exact Option.some.inj hmore

theorem size_simplify_le (t : Tree α) : t.simplify.size ≤ t.size := by
  obtain ⟨s, hs, hle⟩ := exists_simplifyWithin (Nat.le_refl t.size)
  rwa [simplify_eq_of_simplifyWithin hs]

omit [Scalar α] in
theorem mapM_eq_some_map {simplify : Tree α → Option (Tree α)} {change : Tree α → Tree α}
    {cs : List (Tree α)} (h : ∀ c ∈ cs, simplify c = some (change c)) :
    cs.mapM simplify = some (cs.map change) := by
  induction cs with
  | nil => rfl
  | cons c cs ih =>
    rw [List.mapM_cons, h c List.mem_cons_self, ih fun c' hc' => h c' (List.mem_cons_of_mem _ hc')]
    rfl

/-- One pass, without a number of turns: the node is reduced over its simplified children. -/
theorem simplify_node (l : Label α) (cs : List (Tree α)) :
    reduce (fun t => some t.simplify) l (cs.map simplify) = some (Tree.node l cs).simplify := by
  have hsize : (Tree.node l cs).size = sizeAll cs + 1 := Nat.add_comm _ _
  have hchildren : cs.mapM (simplifyWithin (sizeAll cs)) = some (cs.map simplify) := by
    refine mapM_eq_some_map fun c hc => simplifyWithin_eq ?_
    have hlt := size_lt_of_mem (l := l) hc
    omega
  have hnode := simplifyWithin_size (Tree.node l cs)
  rw [hsize, simplifyWithin, hchildren] at hnode
  exact reduce_eq_some_of_imp (fun t s hs => congrArg some (simplify_eq_of_simplifyWithin hs)) hnode

theorem simplify_eq_of_reduce {l : Label α} {cs : List (Tree α)} {s : Tree α}
    (h : reduce (fun t => some t.simplify) l (cs.map simplify) = some s) :
    (Tree.node l cs).simplify = s :=
  Option.some.inj ((simplify_node l cs).symm.trans h)

@[simp]
theorem simplify_num (x : α) : (num x).simplify = num x := simplify_eq_of_reduce rfl

@[simp]
theorem simplify_var (name : String) : (var name : Tree α).simplify = var name :=
  simplify_eq_of_reduce rfl

/-- A node over children that simplify to numbers folds. -/
theorem simplify_eq_of_folds {l : Label α} {cs : List (Tree α)} {z : α}
    (h : Folds l (cs.map simplify) z) : (Tree.node l cs).simplify = num z := by
  refine simplify_eq_of_reduce ?_
  rw [reduce.eq_def, h.fold?_eq]

end FractalFormula.Tree
