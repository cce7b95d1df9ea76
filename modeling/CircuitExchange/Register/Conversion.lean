import CircuitExchange.Conversion.Error
import CircuitExchange.Gate.Call

/-!
Register circuits from and to canonical circuits. Registers count their qubits from the other end,
so an index is reversed in both directions: against the implied size on the way in, and against the
declared size on the way out. General rotations are exported as three rotations with the same action
up to a global phase. Measurements are left out.

* `RegisterCircuit.ofRecords`, `RegisterCircuit.ofCircuit`: one instruction a record.
* `RegisterCircuit.calls`, `RegisterCircuit.toCircuit`: the calls of each instruction in turn.
-/

namespace CircuitExchange

variable {α : Type}

/-- The gate of a record. -/
def RegisterGate.ofRecord (r : Record α) : Except RecordError (RegisterGate α) :=
  match r.name with
  | .i => .ok .id
  | .h => .ok .h
  | .x => .ok .x
  | .y => .ok .y
  | .z => .ok .z
  | .s => .ok .s
  | .t => .ok .t
  | .cx => .ok .cx
  | .cz => .ok .cz
  | .swap => .ok .swap
  | .ccx => .ok .ccx
  | .rx => r.angle.map .rx
  | .ry => r.angle.map .ry
  | .rz => r.angle.map .rz

namespace RegisterCircuit

/-- Appends the instruction of a record that its gate allows. -/
def appendRecord (c : RegisterCircuit α) (r : Record α) :
    Except ConversionError (RegisterCircuit α) := do
  r.checkArity.mapError .record
  let qubits ← (r.qubits.mapM (Qubit.reversed · c.qubitCount)).mapError .record
  let gate ← (RegisterGate.ofRecord r).mapError .record
  (c.append gate qubits).mapError .register

/-- A circuit over a register of the implied size. -/
def ofRecords (records : List (Record α)) : Except ConversionError (RegisterCircuit α) :=
  records.foldlM appendRecord (new (Circuit.sizeOf records) 0)

def ofCircuit (c : Circuit) : Except ConversionError (RegisterCircuit Float) := do
  ofRecords (← c.gates.mapError .circuit)

end RegisterCircuit

namespace RegisterInstruction

/-- The rotations of a general rotation around `Z`, `X` and `Z`, in the order they are applied. -/
def euler (theta : Angle α) (phi lambda : α) (qubits : List Qubit) : List (GateCall α) :=
  [⟨.rz, [.minusHalfPi lambda], qubits⟩, ⟨.rx, [theta], qubits⟩, ⟨.rz, [.plusHalfPi phi], qubits⟩]

/-- The calls of a gate on qubits in canonical order. -/
def gateCalls (gate : RegisterGate α) (qubits : List Qubit) :
    Except RegisterError (List (GateCall α)) :=
  match gate with
  | .measure _ => .ok []
  | .sdg => .error (.unsupportedGate gate.name)
  | .tdg => .error (.unsupportedGate gate.name)
  | .id => .ok [⟨.i, [], qubits⟩]
  | .h => .ok [⟨.h, [], qubits⟩]
  | .x => .ok [⟨.x, [], qubits⟩]
  | .y => .ok [⟨.y, [], qubits⟩]
  | .z => .ok [⟨.z, [], qubits⟩]
  | .s => .ok [⟨.s, [], qubits⟩]
  | .t => .ok [⟨.t, [], qubits⟩]
  | .cx => .ok [⟨.cx, [], qubits⟩]
  | .cz => .ok [⟨.cz, [], qubits⟩]
  | .swap => .ok [⟨.swap, [], qubits⟩]
  | .ccx => .ok [⟨.ccx, [], qubits⟩]
  | .rx theta => .ok [⟨.rx, [.value theta], qubits⟩]
  | .ry theta => .ok [⟨.ry, [.value theta], qubits⟩]
  | .rz theta => .ok [⟨.rz, [.value theta], qubits⟩]
  | .u1 lambda => .ok [⟨.rz, [.value lambda], qubits⟩]
  | .u2 phi lambda => .ok (euler .halfPi phi lambda qubits)
  | .u3 theta phi lambda => .ok (euler (.value theta) phi lambda qubits)

/-- The calls of an instruction in a register of the given size. -/
def calls (size : UInt32) (inst : RegisterInstruction α) :
    Except ConversionError (List (GateCall α)) := do
  if inst.qubits.length ≠ inst.gate.qubitCount then
    throw (.register (.malformedInstruction inst.text))
  let qubits ← (inst.qubits.mapM (Qubit.reversed · size)).mapError .record
  (gateCalls inst.gate qubits).mapError .register

end RegisterInstruction

namespace RegisterCircuit

/-- The calls of all instructions. -/
def calls (c : RegisterCircuit α) : Except ConversionError (List (GateCall α)) := do
  return (← c.instructions.mapM (RegisterInstruction.calls c.qubitCount)).flatten

def toCircuit (c : RegisterCircuit Float) : Except ConversionError Circuit := do
  return ⟨(← c.calls).map GateCall.token⟩

end RegisterCircuit

end CircuitExchange
