import CircuitExchange.Moment.Basic
import CircuitExchange.Json.Writer
import CircuitExchange.Json.Reader

/-!
Circuits of moments as JSON. The kind of a gate is its field `type`; a gate may also be a list that
starts with its kind and goes on with its values.
-/

namespace CircuitExchange

namespace MomentGate

def toJson (g : MomentGate Float) : Json :=
  match g with
  | rx exponent | ry exponent | rz exponent =>
    .object [("type", .string g.name), ("exponent", .ofFloat exponent)]
  | measure key => .object [("type", .string g.name), ("key", .string key)]
  | _ => .object [("type", .string g.name)]

/-- The gates that have no values. -/
def fixed : List (MomentGate Float) := [i, h, x, y, z, s, t, cnot, cz, swap, toffoli, iswap]

/-- The rotation with the given spelling. -/
def rotation? : String → Option (Float → MomentGate Float)
  | "Rx" => some rx
  | "Ry" => some ry
  | "Rz" => some rz
  | _ => none

/-- The gate of a kind with its values, given as an object or as a list. -/
def ofParts? (kind : String) (values : Json) : Option (MomentGate Float) :=
  match fixed.find? fun g => g.name == kind with
  | some g => (values.struct []).map fun _ => g
  | none =>
    match rotation? kind with
    | some make => do
      match ← values.struct ["exponent"] with
      | [some exponent] => return make (← exponent.float?)
      | _ => none
    | none =>
      if kind = "measure" then do
        match ← values.struct ["key"] with
        | [key] => return measure (← Json.orDefault Json.string? "" key)
        | _ => none
      else none

/-- How deep the object of a gate lies in a file: five values contain it. -/
def nesting : Nat := 5

def ofJson? (j : Json) : Option (MomentGate Float) := do
  guard (j.isSound (Json.maxNesting - nesting))
  match j with
  | .object members =>
    let kind ← (← Json.member? "type" members).bind Json.string?
    ofParts? kind (.object (members.filter (·.1 != "type")))
  | .array (kind :: values) => ofParts? (← kind.string?) (.array values)
  | _ => none

end MomentGate

namespace MomentOperation

def toJson (op : MomentOperation Float) : Json :=
  .object [("gate", op.gate.toJson), ("qubits", .ofQubits op.qubits)]

def ofJson? (j : Json) : Option (MomentOperation Float) := do
  match ← j.struct ["gate", "qubits"] with
  | [some gate, some qubits] => return ⟨← MomentGate.ofJson? gate, ← qubits.qubits?⟩
  | _ => none

end MomentOperation

namespace MomentCircuit

def momentToJson (m : Moment Float) : Json :=
  .object [("operations", .array (m.map MomentOperation.toJson))]

def momentOfJson? (j : Json) : Option (Moment Float) := do
  match ← j.struct ["operations"] with
  | [some operations] => operations.list? MomentOperation.ofJson?
  | _ => none

def toJson (c : MomentCircuit Float) : Json :=
  .object [("moments", .array (c.moments.map momentToJson))]

def ofJson? (j : Json) : Option (MomentCircuit Float) := do
  match ← j.struct ["moments"] with
  | [some moments] => return ⟨← moments.list? momentOfJson?⟩
  | _ => none

end MomentCircuit

end CircuitExchange
