import CircuitExchange.Conversion.Error
import CircuitExchange.Gate.Call

/-!
Circuits of moments from and to canonical circuits. Qubits keep their index; angles are turned into
half-turns and back. Exported half-turns of one and two keep π in the token. Measurements are left
out.

* `MomentCircuit.ofRecords`, `MomentCircuit.ofCircuit`: records appended one after the other.
* `MomentCircuit.calls`, `MomentCircuit.toCircuit`: the operations moment by moment.
-/

namespace CircuitExchange

variable {α : Type} [Scalar α]

/-- The gate of a record. -/
def MomentGate.ofRecord (r : Record α) : Except RecordError (MomentGate α) :=
  match r.name with
  | .i => .ok .i
  | .h => .ok .h
  | .x => .ok .x
  | .y => .ok .y
  | .z => .ok .z
  | .s => .ok .s
  | .t => .ok .t
  | .cx => .ok .cnot
  | .cz => .ok .cz
  | .swap => .ok .swap
  | .ccx => .ok .toffoli
  | .rx => r.angle.map (.rx <| halfTurns ·)
  | .ry => r.angle.map (.ry <| halfTurns ·)
  | .rz => r.angle.map (.rz <| halfTurns ·)

namespace MomentCircuit

/-- Appends the operation of a record that its gate allows. -/
def appendRecord (c : MomentCircuit α) (r : Record α) :
    Except ConversionError (MomentCircuit α) := do
  r.checkArity.mapError .record
  let gate ← (MomentGate.ofRecord r).mapError .record
  (c.append ⟨gate, r.qubits⟩).mapError .moment

def ofRecords (records : List (Record α)) : Except ConversionError (MomentCircuit α) :=
  records.foldlM appendRecord empty

def ofCircuit (c : Circuit) : Except ConversionError (MomentCircuit Float) := do
  ofRecords (← c.gates.mapError .circuit)

end MomentCircuit

namespace MomentOperation

/-- The angle of a number of half-turns. -/
def angle (exponent : α) : Angle α :=
  if exponent == 1 then .pi
  else if exponent == Scalar.two then .twoPi
  else .value (exponent * Scalar.pi)

/-- The canonical gate and its angles, none for a measurement, or an error where there is no such
gate. -/
def canonicalGate? : MomentGate α → Except MomentError (Option (GateName × List (Angle α)))
  | .measure _ => .ok none
  | .iswap => .error (.unsupportedGate (MomentGate.iswap : MomentGate α).name)
  | .i => .ok (some (.i, []))
  | .h => .ok (some (.h, []))
  | .x => .ok (some (.x, []))
  | .y => .ok (some (.y, []))
  | .z => .ok (some (.z, []))
  | .s => .ok (some (.s, []))
  | .t => .ok (some (.t, []))
  | .cnot => .ok (some (.cx, []))
  | .cz => .ok (some (.cz, []))
  | .swap => .ok (some (.swap, []))
  | .toffoli => .ok (some (.ccx, []))
  | .rx exponent => .ok (some (.rx, [angle exponent]))
  | .ry exponent => .ok (some (.ry, [angle exponent]))
  | .rz exponent => .ok (some (.rz, [angle exponent]))

/-- The call of a valid operation, none for a measurement. -/
def call? (op : MomentOperation α) : Except MomentError (Option (GateCall α)) := do
  op.validate
  return (← canonicalGate? op.gate).map fun (name, angles) => ⟨name, angles, op.qubits⟩

end MomentOperation

namespace MomentCircuit

/-- The calls of all operations, in the order they are applied. -/
def calls (c : MomentCircuit α) : Except MomentError (List (GateCall α)) := do
  return (← c.operations.mapM MomentOperation.call?).filterMap id

def toCircuit (c : MomentCircuit Float) : Except ConversionError Circuit := do
  return ⟨(← c.calls.mapError .moment).map GateCall.token⟩

end MomentCircuit

end CircuitExchange
