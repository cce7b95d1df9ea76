import CircuitExchange.State.Vector
import CircuitExchange.Circuit
import CircuitExchange.Moment.Basic
import CircuitExchange.Register.Basic
import CircuitExchange.Timed.Basic

/-!
Running circuits of every kind. Canonical circuits and circuits of moments and of timed gates have
their first qubit at the most significant bit of an index, register circuits at the least
significant one. Measurements have no action on the state.

* `Circuit.statevector`, `MomentCircuit.statevector`, `RegisterCircuit.statevector`,
  `TimedCircuit.statevector`: the final state.
-/

namespace CircuitExchange

variable {α : Type}

/-- Why a circuit cannot be run. -/
inductive SimulationError (α : Type) where
  | circuit (e : CircuitError)
  | record (e : RecordError)
  /-- A gate whose action is not determined. -/
  | gate (g : TimedGate α)
  | run (e : RunError α)
deriving DecidableEq

def SimulationError.message : SimulationError Float → String
  | .circuit e => e.message
  | .record e => e.message
  | .gate g => s!"Cannot simulate gate '{g.text}'"
  | .run e => e.message

variable [Scalar α]

/-! ### Canonical circuits -/

/-- The operation of a record that its gate allows. -/
def Record.operation (r : Record α) : Except RecordError (Operation α) := do
  r.checkArity
  match r.name with
  | .i => return .i
  | .h => return .h
  | .x => return .x
  | .y => return .y
  | .z => return .z
  | .s => return .phase Scalar.halfPi
  | .t => return .phase Scalar.quarterPi
  | .cx => return .cx
  | .cz => return .cz
  | .swap => return .swap
  | .ccx => return .ccx
  | .rx => return .rx (← r.angle)
  | .ry => return .ry (← r.angle)
  | .rz => return .rz (← r.angle)

/-- The program of a list of records. -/
def Record.program (records : List (Record α)) : Except RecordError (Program α) :=
  records.mapM fun r => do return (← r.operation, r.qubits)

/-- The final state of a list of records, on as many qubits as they imply. -/
def Record.statevector (records : List (Record α)) :
    Except (SimulationError α) (Statevector α) := do
  let program ← (Record.program records).mapError .record
  (run (Circuit.sizeOf records).toNat .bigEndian program).mapError .run

def Circuit.statevector (c : Circuit) : Except (SimulationError Float) (Statevector Float) := do
  Record.statevector (← c.gates.mapError .circuit)

/-! ### Circuits of moments -/

/-- The operation of a gate, none for a measurement. -/
def MomentGate.operation? : MomentGate α → Option (Operation α)
  | .i => some .i
  | .h => some .h
  | .x => some .x
  | .y => some .y
  | .z => some .z
  | .s => some (.phase Scalar.halfPi)
  | .t => some (.phase Scalar.quarterPi)
  | .cnot => some .cx
  | .cz => some .cz
  | .swap => some .swap
  | .toffoli => some .ccx
  | .iswap => some .iswap
  | .rx exponent => some (.rx (exponent * Scalar.pi))
  | .ry exponent => some (.ry (exponent * Scalar.pi))
  | .rz exponent => some (.rz (exponent * Scalar.pi))
  | .measure _ => none

namespace MomentCircuit

/-- The program of all operations but measurements. -/
def program (c : MomentCircuit α) : Program α :=
  c.operations.filterMap fun op => op.gate.operation?.map (·, op.qubits)

/-- The final state, on as many qubits as the program implies. -/
def statevector (c : MomentCircuit α) : Except (SimulationError α) (Statevector α) :=
  let size := (c.program.flatMap (·.2)).foldl (fun n q => max n (q.toNat + 1)) 0
  (run size .bigEndian c.program).mapError .run

end MomentCircuit

/-! ### Register circuits -/

/-- The operation of a gate, none for a measurement. -/
def RegisterGate.operation? : RegisterGate α → Option (Operation α)
  | .id => some .i
  | .h => some .h
  | .x => some .x
  | .y => some .y
  | .z => some .z
  | .s => some (.phase Scalar.halfPi)
  | .sdg => some (.phase (-Scalar.pi / Scalar.two))
  | .t => some (.phase Scalar.quarterPi)
  | .tdg => some (.phase (-Scalar.pi / (Scalar.two + Scalar.two)))
  | .cx => some .cx
  | .cz => some .cz
  | .swap => some .swap
  | .ccx => some .ccx
  | .rx theta => some (.rx theta)
  | .ry theta => some (.ry theta)
  | .rz theta => some (.rz theta)
  | .u1 lambda => some (.phase lambda)
  | .u2 phi lambda => some (.u Scalar.halfPi phi lambda)
  | .u3 theta phi lambda => some (.u theta phi lambda)
  | .measure _ => none

namespace RegisterCircuit

/-- The program of all instructions but measurements. -/
def program (c : RegisterCircuit α) : Program α :=
  c.instructions.filterMap fun inst => inst.gate.operation?.map (·, inst.qubits)

/-- The final state of the whole register. -/
def statevector (c : RegisterCircuit α) : Except (SimulationError α) (Statevector α) :=
  (run c.qubitCount.toNat .littleEndian c.program).mapError .run

end RegisterCircuit

/-! ### Circuits of timed gates -/

/-- The operation of a gate; a rotation needs `theta`, and other parameters have no effect. -/
def TimedGate.operation (g : TimedGate α) : Except (SimulationError α) (Operation α) :=
  match g.name with
  | .i => .ok .i
  | .h => .ok .h
  | .x => .ok .x
  | .y => .ok .y
  | .z => .ok .z
  | .s => .ok (.phase Scalar.halfPi)
  | .st => .ok (.phase (-Scalar.pi / Scalar.two))
  | .t => .ok (.phase Scalar.quarterPi)
  | .cx => .ok .cx
  | .cz => .ok .cz
  | .swap => .ok .swap
  | .ccx => .ok .ccx
  | .rx => rotation .rx
  | .ry => rotation .ry
  | .rz => rotation .rz
where
  rotation (make : α → Operation α) : Except (SimulationError α) (Operation α) :=
    match g.theta? with
    | some theta => .ok (make (Scalar.two * theta))
    | none => .error (.gate g)

namespace TimedCircuit

/-- The program of all entries. -/
def program (c : TimedCircuit α) : Except (SimulationError α) (Program α) :=
  c.entries.mapM fun e => do return (← e.gate.operation, e.qubits)

/-- The final state, on as many qubits as the entries imply. -/
def statevector (c : TimedCircuit α) : Except (SimulationError α) (Statevector α) := do
  let program ← c.program
  (run c.qubitCount.toNat .bigEndian program).mapError .run

end TimedCircuit

end CircuitExchange
