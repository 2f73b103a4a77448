/-!
# Room for the points of an orbit

An orbit keeps its points in a list, and asks for room for as many points as its cap allows before
the first of them is computed. Such a request may end the program. Nothing is returned then, so a
`Halt` is not one of the errors of a formula.

How a request ends depends on more than the input: on the allocator, on how lists grow, and on
whether the program was built to notice sums that are too great for a word. A `Machine` says so.
-/

namespace FractalFormula

/-- Why a program has ended without a result. -/
inductive Halt where
  /-- A sum is too great for a word. -/
  | sumOverflow
  /-- A list has more bytes than any allocation may have. -/
  | capacityOverflow
  /-- The allocator has refused a request of so many bytes. -/
  | outOfMemory (bytes : Nat)
deriving DecidableEq, Repr

/-- The last words of the program. -/
def Halt.message : Halt → String
  | sumOverflow => "attempt to add with overflow"
  | capacityOverflow => "capacity overflow"
  | outOfMemory bytes => "memory allocation of " ++ Nat.repr bytes ++ " bytes failed"

/-- What a run depends on besides its input. -/
structure Machine where
  /-- Whether a sum that is too great for a word ends the program, or else wraps around. -/
  checksSums : Bool
  /-- Whether the allocator grants a request of so many bytes. -/
  grants : Nat → Bool
  /-- The places that a full list would like to have next, by those it has. -/
  grown : Nat → Nat

/-- Room in a list: the places it has, and how many of them are taken. -/
structure Room where
  places : Nat
  taken : Nat
  fits : taken ≤ places

namespace Machine

/-- A machine on which sums wrap around, lists double, and no request is refused. -/
def ample : Machine := ⟨false, fun _ => true, fun places => max 4 (2 * places)⟩

/-- The greatest number of bytes that an allocation may have. -/
def maxBytes : Nat := 0x7fffffffffffffff

/-- The next word. -/
def successor (m : Machine) (n : UInt64) : Except Halt UInt64 :=
  if m.checksSums && n + 1 == 0 then .error .sumOverflow else .ok (n + 1)

/-- A request for places of so many bytes each. -/
def reserve (m : Machine) (bytes places : Nat) : Except Halt Unit :=
  let size := places * bytes
  if maxBytes < size then .error .capacityOverflow
  else if size = 0 || m.grants size then .ok ()
  else .error (.outOfMemory size)

/-- A list without elements that has room for one point more than the cap has steps. -/
def roomFor (m : Machine) (bytes : Nat) (cap : UInt64) : Except Halt Room := do
  let places ← m.successor cap
  m.reserve bytes places.toNat
  return ⟨places.toNat, 0, Nat.zero_le _⟩

/-- Puts an element into a list, which grows if it is full. -/
def push (m : Machine) (bytes : Nat) (room : Room) : Except Halt Room :=
  if h : room.taken < room.places then .ok ⟨room.places, room.taken + 1, h⟩
  else do
    let places := max (room.taken + 1) (m.grown room.places)
    m.reserve bytes places
    return ⟨places, room.taken + 1, Nat.le_max_left ..⟩

end Machine

end FractalFormula
