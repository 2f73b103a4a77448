import FractalFormula.Simplify.Reduction

/-!
# The recursion of one pass ends

A power of a power calls simplification for a product that is no part of the tree. But no rule makes
a tree larger, so this product is smaller than the tree that was to be simplified, and so are the
children of a node. As many turns as a tree has nodes are enough (`exists_simplifyWithin`).
-/

namespace FractalFormula.Tree

variable {α : Type _}

/-! ### Sizes -/

theorem size_pos (t : Tree α) : 0 < t.size := by
  cases t
  rw [size]
  omega

@[simp]
theorem size_num (x : α) : (num x).size = 1 := rfl

@[simp]
theorem size_one_child (l : Label α) (t : Tree α) : (Tree.node l [t]).size = 1 + t.size := rfl

@[simp]
theorem size_two_children (l : Label α) (s t : Tree α) :
    (Tree.node l [s, t]).size = 1 + (s.size + t.size) := rfl

theorem size_lt_of_mem {t : Tree α} {l : Label α} {cs : List (Tree α)} (h : t ∈ cs) :
    t.size < (Tree.node l cs).size := by
  have hle : t.size ≤ sizeAll cs := by
    induction cs with
    | nil => cases h
    | cons c cs ih =>
      rw [sizeAll]
      obtain rfl | h := List.mem_cons.mp h
      · omega
      · have := ih h
        omega
  rw [size]
  omega

/-! ### No rule makes a tree larger -/

variable [Scalar α]

theorem size_negate_le (t : Tree α) : (negate t).size ≤ 1 + t.size := by
  rw [negate.eq_def]
  split
  · exact Nat.le_add_right 1 _
  · rw [size_one_child]
    omega
  · exact Nat.le_refl _

theorem size_reduceSum_le (l r : Tree α) : (reduceSum l r).size ≤ 1 + (l.size + r.size) := by
  have hr := r.size_pos
  unfold reduceSum
  split
  · omega
  split
  · omega
  split
  · show 1 + (1 + l.size) ≤ _
    omega
  · exact Nat.le_refl _

theorem size_reduceDifference_le (l r : Tree α) :
    (reduceDifference l r).size ≤ 1 + (l.size + r.size) := by
  have hnegate := size_negate_le r
  unfold reduceDifference
  split
  · omega
  split
  · omega
  split
  · show 1 ≤ _
    omega
  · exact Nat.le_refl _

theorem size_reduceProduct_le (l r : Tree α) :
    (reduceProduct l r).size ≤ 1 + (l.size + r.size) := by
  have hl := size_negate_le l
  have hr := size_negate_le r
  have hpos := r.size_pos
  unfold reduceProduct
  split
  · show 1 ≤ _
    omega
  split
  · omega
  split
  · omega
  split
  · omega
  split
  · omega
  split
  · show 1 + (l.size + 1) ≤ _
    omega
  · exact Nat.le_refl _

theorem size_reduceQuotient_le (l r : Tree α) :
    (reduceQuotient l r).size ≤ 1 + (l.size + r.size) := by
  have hl := size_negate_le l
  unfold reduceQuotient
  split
  · omega
  split
  · omega
  split
  · show 1 ≤ _
    omega
  · exact Nat.le_refl _

/-- The product of the exponents is smaller than the power of a power. -/
theorem exists_reducePower {simplify : Tree α → Option (Tree α)} {l r : Tree α}
    (h : ∀ t, t.size < 1 + (l.size + r.size) → ∃ s, simplify t = some s ∧ s.size ≤ t.size) :
    ∃ s, reducePower simplify l r = some s ∧ s.size ≤ 1 + (l.size + r.size) := by
  have hr := r.size_pos
  have hone : (1 : Tree α).size = 1 := rfl
  have hzero : (0 : Tree α).size = 1 := rfl
  unfold reducePower
  split
  · exact ⟨1, rfl, by omega⟩
  split
  · exact ⟨0, rfl, by omega⟩
  split
  · exact ⟨1, rfl, by omega⟩
  split
  · exact ⟨l, rfl, by omega⟩
  split
  · refine ⟨1 / l, rfl, ?_⟩
    show 1 + (1 + l.size) ≤ _
    omega
  split
  · next a b _ _ =>
    have hproduct : (b * r).size = 1 + (b.size + r.size) := rfl
    have ha := a.size_pos
    rw [size_two_children] at h ⊢
    obtain ⟨s, hs, hle⟩ := h (b * r) (by omega)
    refine ⟨a.pow s, by rw [hs]; rfl, ?_⟩
    show 1 + (a.size + s.size) ≤ _
    omega
  · exact ⟨_, rfl, Nat.le_refl _⟩

theorem exists_reduce {simplify : Tree α → Option (Tree α)} {l : Label α} {cs : List (Tree α)}
    (h : ∀ t, t.size < (Tree.node l cs).size → ∃ s, simplify t = some s ∧ s.size ≤ t.size) :
    ∃ s, reduce simplify l cs = some s ∧ s.size ≤ (Tree.node l cs).size := by
  unfold reduce
  split
  · exact ⟨_, rfl, size_pos (.node l cs)⟩
  · split
    · exact ⟨_, rfl, size_negate_le _⟩
    · exact ⟨_, rfl, size_reduceSum_le _ _⟩
    · exact ⟨_, rfl, size_reduceDifference_le _ _⟩
    · exact ⟨_, rfl, size_reduceProduct_le _ _⟩
    · exact ⟨_, rfl, size_reduceQuotient_le _ _⟩
    · exact exists_reducePower h
    · exact ⟨_, rfl, Nat.le_refl _⟩

/-! ### Enough turns -/

omit [Scalar α] in
theorem exists_mapM {simplify : Tree α → Option (Tree α)} {cs : List (Tree α)}
    (h : ∀ c ∈ cs, ∃ d, simplify c = some d ∧ d.size ≤ c.size) :
    ∃ ds, cs.mapM simplify = some ds ∧ sizeAll ds ≤ sizeAll cs := by
  induction cs with
  | nil => exact ⟨[], rfl, Nat.le_refl _⟩
  | cons c cs ih =>
    obtain ⟨d, hd, hle⟩ := h c List.mem_cons_self
    obtain ⟨ds, hds, hdsle⟩ := ih fun c' hc' => h c' (List.mem_cons_of_mem _ hc')
    refine ⟨d :: ds, by simp [hd, hds], ?_⟩
    rw [sizeAll, sizeAll]
    omega

/-- With as many turns as the tree has nodes there is a result, and it is no larger than the
tree. -/
theorem exists_simplifyWithin {turns : Nat} {t : Tree α} (h : t.size ≤ turns) :
    ∃ s, simplifyWithin turns t = some s ∧ s.size ≤ t.size := by
  induction turns generalizing t with
  | zero => exact absurd t.size_pos (Nat.not_lt.mpr h)
  | succ turns ih =>
    obtain ⟨l, cs⟩ := t
    have hsmaller : ∀ c : Tree α, c.size < (Tree.node l cs).size →
        ∃ d, simplifyWithin turns c = some d ∧ d.size ≤ c.size := fun c hc => ih (by omega)
    obtain ⟨ds, hds, hle⟩ := exists_mapM fun c hc => hsmaller c (size_lt_of_mem hc)
    have hnode : (Tree.node l ds).size ≤ (Tree.node l cs).size := Nat.add_le_add_left hle 1
    have hreduce : ∃ s, reduce (simplifyWithin turns) l ds = some s ∧
        s.size ≤ (Tree.node l ds).size := exists_reduce fun c hc => hsmaller c (by omega)
    obtain ⟨s, hs, hsize⟩ := hreduce
    refine ⟨s, ?_, by omega⟩
    rw [simplifyWithin, hds]
    exact hs

theorem isSome_simplifyWithin {turns : Nat} {t : Tree α} (h : t.size ≤ turns) :
    (simplifyWithin turns t).isSome := by
  obtain ⟨s, hs, -⟩ := exists_simplifyWithin h
  rw [hs]
  rfl

end FractalFormula.Tree
