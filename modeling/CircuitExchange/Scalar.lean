import CircuitExchange.Decimal.Binary64

/-!
The numbers that angles and amplitudes are made of. Circuits and their simulation are written for
any type with these operations; programs run on double precision numbers, and a theory of exact
angles reads the same definitions over another type.
-/

namespace CircuitExchange

/-- Arithmetic with the functions and the constant that rotations need. -/
class Scalar (α : Type) extends Zero α, One α, Add α, Sub α, Mul α, Div α, Neg α, BEq α where
  pi : α
  sqrt : α → α
  sin : α → α
  cos : α → α

namespace Scalar

variable {α : Type} [Scalar α]

def two : α := 1 + 1

def half : α := 1 / two

/-- A quarter turn. -/
def halfPi : α := pi / two

/-- An eighth of a full turn. -/
def quarterPi : α := pi / (two + two)

end Scalar

/-- Double precision numbers; the constant is the nearest one to π. -/
instance : Scalar Float where
  zero := Float.ofBits 0
  one := Float.ofBits 0x3ff0000000000000
  pi := Float.ofBits 0x400921fb54442d18
  sqrt := Float.sqrt
  sin := Float.sin
  cos := Float.cos

end CircuitExchange
