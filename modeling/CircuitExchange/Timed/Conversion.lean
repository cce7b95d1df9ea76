import CircuitExchange.Conversion.Error

/-!
Circuits of timed gates from and to canonical circuits. Qubits keep their index; angles are halved
on the way in and doubled on the way out.

* `TimedCircuit.ofRecords`, `TimedCircuit.ofCircuit`: records added one after the other, each as
  early as its qubits allow.
* `TimedCircuit.records`, `TimedCircuit.toCircuit`: the entries in their order.
-/

namespace CircuitExchange

variable {α : Type} [Scalar α]

/-- The timed gate of a record. -/
def TimedGate.ofRecord (r : Record α) : Except RecordError (TimedGate α) :=
  match r.name with
  | .i => .ok (.plain .i)
  | .h => .ok (.plain .h)
  | .x => .ok (.plain .x)
  | .y => .ok (.plain .y)
  | .z => .ok (.plain .z)
  | .s => .ok (.plain .s)
  | .t => .ok (.plain .t)
  | .cx => .ok (.plain .cx)
  | .cz => .ok (.plain .cz)
  | .swap => .ok (.plain .swap)
  | .ccx => .ok (.plain .ccx)
  | .rx => r.angle.map fun angle => .rotation .rx (angle / Scalar.two)
  | .ry => r.angle.map fun angle => .rotation .ry (angle / Scalar.two)
  | .rz => r.angle.map fun angle => .rotation .rz (angle / Scalar.two)

namespace TimedCircuit

/-- Adds the gate of a record that its gate allows. -/
def addRecord (c : TimedCircuit α) (r : Record α) : Except ConversionError (TimedCircuit α) := do
  r.checkArity.mapError .record
  let gate ← (TimedGate.ofRecord r).mapError .record
  return (← (c.add gate r.qubits).mapError .timed).2

def ofRecords (records : List (Record α)) : Except ConversionError (TimedCircuit α) :=
  records.foldlM addRecord empty

def ofCircuit (c : Circuit) : Except ConversionError (TimedCircuit Float) := do
  ofRecords (← c.gates.mapError .circuit)

end TimedCircuit

/-- The canonical gate of a kind, if there is one. -/
def TimedName.canonical? : TimedName → Option GateName
  | .st => none
  | .i => some .i
  | .h => some .h
  | .x => some .x
  | .y => some .y
  | .z => some .z
  | .s => some .s
  | .t => some .t
  | .cx => some .cx
  | .cz => some .cz
  | .swap => some .swap
  | .ccx => some .ccx
  | .rx => some .rx
  | .ry => some .ry
  | .rz => some .rz

namespace TimedGate

/-- The first parameter that the gate does not have. -/
def unexpectedKey? (g : TimedGate α) : Option String :=
  (g.parameters.entries.map (·.1)).find? fun key => !(g.name.isRotation && key == thetaKey)

/-- The angles of the canonical gate: for a rotation twice `theta`. -/
def angles (g : TimedGate α) : Except TimedError (List α) :=
  if g.name.isRotation then
    match g.theta? with
    | some theta => .ok [theta * Scalar.two]
    | none => .error (.missingTheta g.name)
  else .ok []

end TimedGate

/-- The record of an entry. -/
def TimedEntry.record (e : TimedEntry α) : Except ConversionError (Record α) := do
  match e.gate.name.canonical? with
  | none => throw (.timed (.unsupportedGate e.gate.name))
  | some name =>
    match e.gate.unexpectedKey? with
    | some key => throw (.timed (.unexpectedParameter e.gate.name key))
    | none =>
      let params ← e.gate.angles.mapError .timed
      let r : Record α := ⟨name, params, e.qubits⟩
      r.checkArity.mapError .record
      return r

namespace TimedCircuit

/-- The records of all entries, in their order. -/
def records (c : TimedCircuit α) : Except ConversionError (List (Record α)) :=
  c.entries.mapM TimedEntry.record

def toCircuit (c : TimedCircuit Float) : Except ConversionError Circuit := do
  return .ofRecords (← c.records)

end TimedCircuit

end CircuitExchange
