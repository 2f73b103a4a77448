import FractalFormula.Proofs.Except
import FractalFormula.Proofs.Parser.Derivation

/-!
# Readings

The parser carries the depth of every tree beside it and stops before the limit is passed. A
phrase only makes trees deeper, so the depth of the whole bounds the depths on the way. Numbers
are the one kind of atom that is read without recursion; `number_eq_ok_iff` says when one is.
-/

namespace FractalFormula

namespace Tree

variable {α : Type _}

@[simp] theorem depth_num (x : α) : (num x).depth = 1 := rfl

@[simp] theorem depth_var (name : String) : (var name : Tree α).depth = 1 := rfl

@[simp] theorem depth_call (f : Func) (t : Tree α) : (call f t).depth = t.depth + 1 := by
  show 1 + max t.depth 0 = _
  rw [Nat.max_zero, Nat.add_comm]

@[simp] theorem depth_binary (o : Operator) (l r : Tree α) :
    (binary o l r).depth = max l.depth r.depth + 1 := by
  show 1 + max l.depth (max r.depth 0) = _
  rw [Nat.max_zero, Nat.add_comm]

@[simp] theorem depth_negation (t : Tree α) : (negation t).depth = t.depth + 1 := by
  show 1 + max t.depth 0 = _
  rw [Nat.max_zero, Nat.add_comm]

@[simp] theorem depth_pow (l r : Tree α) : (pow l r).depth = max l.depth r.depth + 1 :=
  depth_binary .pow l r

end Tree

namespace Parser

theorem deeper_eq_ok_iff {below depth : Nat} {rest : List Char} :
    deeper below rest = .ok depth ↔ below < maxDepth ∧ depth = below + 1 := by
  simp only [deeper]
  split
  · simp only [reduceCtorEq, false_iff]
    omega
  · simp only [Except.ok.injEq]
    omega

theorem deeper_of_le {below : Nat} (rest : List Char) (h : below + 1 ≤ maxDepth) :
    deeper below rest = .ok (below + 1) :=
  deeper_eq_ok_iff.mpr ⟨h, rfl⟩

section

variable {α : Type _} [Numeral α]

open Literal in
/-- A number is a literal with or without the suffix `i`, which is taken if it is there. -/
theorem number_eq_ok_iff {s : List Char} {r : Reading α} :
    number s = .ok r ↔ ∃ literal imaginary rest v x,
      split? s = some (literal, (if imaginary then ['i'] else []) ++ rest) ∧
      (imaginary = false → rest.head? ≠ some 'i') ∧ value? literal = some v ∧
      Numeral.ofLiteral? v imaginary = some x ∧ r = ⟨.num x, 1, rest⟩ := by
  constructor
  · intro h
    simp only [number] at h
    split at h
    · nomatch h
    · next literal after hsplit =>
      split at h
      · nomatch h
      · next v hv =>
        by_cases hi : ∃ rest, after = 'i' :: rest
        · obtain ⟨rest, rfl⟩ := hi
          split at h
          · nomatch h
          · next x hx =>
            exact ⟨literal, true, rest, v, x, hsplit, nofun, hv, hx, (Except.ok.inj h).symm⟩
        · have hne : ∀ rest, after = 'i' :: rest → False := fun rest hr => hi ⟨rest, hr⟩
          simp only at h
          split at h
          · nomatch h
          · next x hx =>
            refine ⟨literal, false, after, v, x, hsplit, fun _ hhead => ?_, hv, hx,
              (Except.ok.inj h).symm⟩
            obtain ⟨rest, rfl⟩ := List.head?_eq_some_iff.mp hhead
            exact hi ⟨rest, rfl⟩
  · rintro ⟨literal, imaginary, rest, v, x, hsplit, hi, hv, hx, rfl⟩
    cases imaginary with
    | true =>
      simp only [number, hsplit, hv]
      simp [hx]
    | false =>
      have hne : ∀ after, rest = 'i' :: after → False := by
        rintro after rfl
        exact hi rfl rfl
      simp only [number, hsplit, hv]
      simp [hx]

end

end Parser

namespace Derivation

variable {α : Type _} [Numeral α]

/-- Further terms do not make a tree less deep. -/
theorem depth_le_moreTerms : (d : Derivation .moreTerms) → (left : Tree α) →
    left.depth ≤ (d.tree left).depth
  | lastTerm, left => Nat.le_refl left.depth
  | nextTerm s operand more, left => by
    have h := depth_le_moreTerms more (.binary s.operator left operand.tree)
    rw [Tree.depth_binary] at h
    simp only [tree]
    omega

/-- Further powers do not make a tree less deep. -/
theorem depth_le_morePowers : (d : Derivation .morePowers) → (left : Tree α) →
    left.depth ≤ (d.tree left).depth
  | lastPower, left => Nat.le_refl left.depth
  | nextPower s operand more, left => by
    have h := depth_le_morePowers more (.binary s.operator left operand.tree)
    rw [Tree.depth_binary] at h
    simp only [tree]
    omega

end Derivation

end FractalFormula
