/-!
# Order of texts

Texts are ordered as in a dictionary, character by character in the order of code points,
and a text comes before its continuations. This is also the order of their UTF-8 bytes.
-/

namespace FractalFormula.Text

/-- Where `s` stands relative to `t`. -/
def order : List Char → List Char → Ordering
  | [], [] => .eq
  | [], _ :: _ => .lt
  | _ :: _, [] => .gt
  | a :: s, b :: t =>
    if a.toNat < b.toNat then .lt else if b.toNat < a.toNat then .gt else order s t

theorem order_eq_eq_iff {s t : List Char} : order s t = .eq ↔ s = t := by
  induction s generalizing t with
  | nil => cases t <;> simp [order]
  | cons a s ih =>
    cases t with
    | nil => simp [order]
    | cons b t =>
      simp only [order]
      split
      · next h => simp; rintro rfl; omega
      · split
        · next h => simp; rintro rfl; omega
        · rw [ih, List.cons.injEq, ← Char.toNat_inj]
          constructor <;> intro h <;> grind

end FractalFormula.Text
