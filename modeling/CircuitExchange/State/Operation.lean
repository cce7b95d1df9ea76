import CircuitExchange.Scalar
import CircuitExchange.Decimal.Text

/-!
The elementary operations on the bits of a state index, with the number of bits each acts on.
-/

namespace CircuitExchange

/-- An elementary operation. Controls come before the target. -/
inductive Operation (α : Type) where
  | i | x | y | z | h
  /-- The diagonal matrix of one and the phase of the angle. -/
  | phase (theta : α)
  | rx (theta : α)
  | ry (theta : α)
  | rz (theta : α)
  /-- The general rotation with three angles. -/
  | u (theta phi lambda : α)
  | cx | cz | swap | iswap
  | ccx
deriving DecidableEq, Repr

namespace Operation

/-- The number of bits the operation acts on. -/
def arity {α : Type} : Operation α → Nat
  | cx | cz | swap | iswap => 2
  | ccx => 3
  | _ => 1

/-- The operation in messages. -/
def text : Operation Float → String
  | i => "i"
  | x => "x"
  | y => "y"
  | z => "z"
  | h => "h"
  | phase theta => s!"p({angle theta})"
  | rx theta => s!"rx({angle theta})"
  | ry theta => s!"ry({angle theta})"
  | rz theta => s!"rz({angle theta})"
  | u theta phi lambda => s!"u({angle theta}, {angle phi}, {angle lambda})"
  | cx => "cx"
  | cz => "cz"
  | swap => "swap"
  | iswap => "iswap"
  | ccx => "ccx"
where
  angle (x : Float) : String := Decimal.Style.plain.text x

end Operation

end CircuitExchange
