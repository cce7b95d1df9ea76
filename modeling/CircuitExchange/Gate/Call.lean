import CircuitExchange.Gate.Record

/-!
Gate calls: what the other circuit models write a gate as. An angle of a call may be a formula with
π, which is kept in the token and evaluated when the token is read.

* `GateCall.token`: the token, with formulas spelled out.
* `GateCall.record`: the record, with formulas evaluated.
-/

namespace CircuitExchange

/-- The formulas that angles are written as. -/
inductive Angle (α : Type) where
  /-- A number by itself. -/
  | value (x : α)
  | pi
  | twoPi
  | halfPi
  /-- A number less a quarter turn. -/
  | minusHalfPi (x : α)
  /-- A number and a quarter turn. -/
  | plusHalfPi (x : α)
deriving DecidableEq, Repr

namespace Angle

def eval {α : Type} [Scalar α] : Angle α → α
  | value x => x
  | pi => Scalar.pi
  | twoPi => Scalar.two * Scalar.pi
  | halfPi => Scalar.pi / Scalar.two
  | minusHalfPi x => x - Scalar.pi / Scalar.two
  | plusHalfPi x => x + Scalar.pi / Scalar.two

def text : Angle Float → String
  | value x => angleText x
  | pi => "PI"
  | twoPi => "2*PI"
  | halfPi => "PI/2"
  | minusHalfPi x => angleText x ++ " - PI/2"
  | plusHalfPi x => angleText x ++ " + PI/2"

end Angle

/-- A gate with angles that may be formulas, applied to qubits. -/
structure GateCall (α : Type) where
  name : GateName
  angles : List (Angle α)
  qubits : List Qubit
deriving DecidableEq, Repr

namespace GateCall

def token (c : GateCall Float) : String := tokenText c.name (c.angles.map Angle.text) c.qubits

def record {α : Type} [Scalar α] (c : GateCall α) : Record α :=
  ⟨c.name, c.angles.map Angle.eval, c.qubits⟩

end GateCall

end CircuitExchange
