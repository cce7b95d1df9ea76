import CircuitExchange.Timed.Basic
import CircuitExchange.Json.Writer
import CircuitExchange.Json.Reader

/-!
Circuits of timed gates as JSON: a list of entries. A gate without parameters has no field for them.
Of a repeated parameter the last value counts. The entries of a file are added one after the other,
so they are checked like gates that are added by hand.
-/

namespace CircuitExchange

/-- The kind with exactly this spelling. -/
def TimedName.ofText? (text : String) : Option TimedName := all.find? fun g => g.text == text

namespace TimedGate

def toJson (g : TimedGate Float) : Json :=
  .object (("name", .string g.name.text) ::
    if g.parameters.entries.isEmpty then []
    else
      [("parameters",
        .object (g.parameters.entries.map fun (key, value) => (key, .ofFloat value)))])

/-- The parameters of an object. -/
def parametersOfJson? : Json → Option (Parameters Float)
  | .object members =>
    members.foldlM (fun parameters (key, j) => do
      return parameters.insert key (← j.float?)) .empty
  | _ => none

def ofJson? (j : Json) : Option (TimedGate Float) := do
  match ← j.struct ["name", "parameters"] with
  | [some name, parameters] =>
    return ⟨← name.nameWith? TimedName.ofText?,
      ← Json.orDefault parametersOfJson? .empty parameters⟩
  | _ => none

end TimedGate

namespace TimedEntry

def toJson (e : TimedEntry Float) : Json :=
  .object [("time", .ofNat e.time.toNat), ("qubits", .ofQubits e.qubits), ("gate", e.gate.toJson)]

def ofJson? (j : Json) : Option (TimedEntry Float) := do
  match ← j.struct ["time", "qubits", "gate"] with
  | [some time, some qubits, some gate] =>
    return ⟨← time.uint64?, ← qubits.qubits?, ← TimedGate.ofJson? gate⟩
  | _ => none

end TimedEntry

namespace TimedCircuit

def toJson (c : TimedCircuit Float) : Json := .array (c.entries.map TimedEntry.toJson)

/-- The entries of a list, not yet checked. -/
def entriesOfJson? (j : Json) : Option (List (TimedEntry Float)) := j.list? TimedEntry.ofJson?

end TimedCircuit

end CircuitExchange
