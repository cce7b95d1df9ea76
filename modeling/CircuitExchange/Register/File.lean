import CircuitExchange.Register.Basic
import CircuitExchange.Json.Writer
import CircuitExchange.Json.Reader

/-!
Register circuits as JSON. An instruction is one object with the name of its gate, the values of the
gate and the qubits. Sizes and instructions are taken as they are written, without the checks of
appending.
-/

namespace CircuitExchange

namespace RegisterGate

/-- The values of a gate under their names. -/
def values : RegisterGate Float → List (String × Json)
  | rx theta | ry theta | rz theta => [("theta", .ofFloat theta)]
  | u1 lambda => [("lambda", .ofFloat lambda)]
  | u2 phi lambda => [("phi", .ofFloat phi), ("lambda", .ofFloat lambda)]
  | u3 theta phi lambda =>
    [("theta", .ofFloat theta), ("phi", .ofFloat phi), ("lambda", .ofFloat lambda)]
  | measure clbit => [("clbit", .ofNat clbit.toNat)]
  | _ => []

/-- The kinds of gates in their order, each with arbitrary values. -/
def kinds : List (RegisterGate Float) :=
  [id, h, x, y, z, s, sdg, t, tdg, cx, cz, swap, ccx, rx 0, ry 0, rz 0, u1 0, u2 0 0, u3 0 0 0,
   measure 0]

/-- The gate of the kind of another one with the values it has in an object. -/
def ofMembers? (kind : RegisterGate Float) (members : List (String × Json)) :
    Option (RegisterGate Float) :=
  match kind with
  | rx _ => do return rx (← angle "theta")
  | ry _ => do return ry (← angle "theta")
  | rz _ => do return rz (← angle "theta")
  | u1 _ => do return u1 (← angle "lambda")
  | u2 .. => do return u2 (← angle "phi") (← angle "lambda")
  | u3 .. => do return u3 (← angle "theta") (← angle "phi") (← angle "lambda")
  | measure _ => do return measure (← (← Json.member? "clbit" members).bind Json.uint32?)
  | g => some g
where
  angle (key : String) : Option Float := do (← Json.member? key members).bind Json.float?

/-- The kind that a name stands for: its spelling, or its place in the order of kinds. -/
def kind? : Json → Option (RegisterGate Float)
  | .string name => kinds.find? fun g => g.name == name
  | .number (.integer (.ofNat place)) => kinds[place]?
  | _ => none

end RegisterGate

namespace RegisterInstruction

def toJson (inst : RegisterInstruction Float) : Json :=
  .object (("name", .string inst.gate.name) :: inst.gate.values ++
    [("qubits", .ofQubits inst.qubits)])

/-- How deep the values of an instruction lie in a file: three values contain them. -/
def nesting : Nat := 3

def ofJson? : Json → Option (RegisterInstruction Float)
  | .object members => do
    let qubits ← (← Json.member? "qubits" members).bind Json.qubits?
    let rest := members.filter (·.1 != "qubits")
    guard (Json.allSoundMembers (Json.maxNesting - nesting) rest)
    let kind ← (← Json.member? "name" rest).bind RegisterGate.kind?
    return ⟨← RegisterGate.ofMembers? kind rest, qubits⟩
  | _ => none

end RegisterInstruction

namespace RegisterCircuit

def toJson (c : RegisterCircuit Float) : Json :=
  .object [("num_qubits", .ofNat c.qubitCount.toNat), ("num_clbits", .ofNat c.clbitCount.toNat),
    ("instructions", .array (c.instructions.map RegisterInstruction.toJson))]

def ofJson? (j : Json) : Option (RegisterCircuit Float) := do
  match ← j.struct ["num_qubits", "num_clbits", "instructions"] with
  | [some qubits, clbits, instructions] =>
    return ⟨← qubits.uint32?, ← Json.orDefault Json.uint32? 0 clbits,
      ← Json.orDefault (Json.list? RegisterInstruction.ofJson?) [] instructions⟩
  | _ => none

end RegisterCircuit

end CircuitExchange
