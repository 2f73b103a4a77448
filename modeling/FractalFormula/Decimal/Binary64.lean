/-!
# Binary64 numbers taken apart

A finite binary64 number is a whole number of units of `2 ^ -1074`, so its magnitude is
the natural number `significand · 2 ^ scale`. The bit pattern of a magnitude is
`scale · 2 ^ 52 + significand`, for subnormal and normal numbers alike, which is why
bit patterns are ordered like the numbers they stand for.
-/

namespace FractalFormula

/-- A binary64 number by its parts. A finite one is `significand · 2 ^ scale` units of
`2 ^ -1074`. -/
inductive Binary64 where
  | nan
  | infinite (negative : Bool)
  | finite (negative : Bool) (significand scale : Nat)
deriving DecidableEq, Repr

namespace Binary64

/-- How many units of `2 ^ -1074` make one. -/
def unit : Nat := Nat.pow 2 1074

/-- The bit pattern of positive infinity, the first one past the finite magnitudes. -/
def infinityBits : Nat := 2047 * Nat.pow 2 52

/-- The parts of the number with the given bit pattern. -/
def ofBits (bits : Nat) : Binary64 :=
  let negative := decide (Nat.pow 2 63 ≤ bits)
  let biased := bits % Nat.pow 2 63 / Nat.pow 2 52
  let fraction := bits % Nat.pow 2 52
  if biased = 2047 then (if fraction = 0 then .infinite negative else .nan)
  else if biased = 0 then .finite negative fraction 0
  else .finite negative (fraction + Nat.pow 2 52) (biased - 1)

/-- The parts of `x`. -/
def ofFloat (x : Float) : Binary64 := ofBits x.toBits.toNat

/-- The number of the given sign and magnitude bits. -/
def toFloat (negative : Bool) (magnitude : Nat) : Float :=
  Float.ofBits (UInt64.ofNat (magnitude + if negative then Nat.pow 2 63 else 0))

end Binary64

end FractalFormula
