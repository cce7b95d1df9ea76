import CircuitExchange.Gate.Record
import CircuitExchange.Json.Writer
import CircuitExchange.Json.Reader

/-!
Gate records as JSON: an object with the name, the angles and the qubits.
-/

namespace CircuitExchange

/-- The gate with exactly this spelling. -/
def GateName.ofText? (text : String) : Option GateName := all.find? fun g => g.text == text

namespace Record

def toJson (r : Record Float) : Json :=
  .object [("name", .string r.name.text), ("params", .array (r.params.map Json.ofFloat)),
    ("qubits", .ofQubits r.qubits)]

def ofJson? (j : Json) : Option (Record Float) := do
  match ← j.struct ["name", "params", "qubits"] with
  | [some name, some params, some qubits] =>
    return ⟨← name.nameWith? GateName.ofText?, ← params.list? Json.float?, ← qubits.qubits?⟩
  | _ => none

end Record

end CircuitExchange
