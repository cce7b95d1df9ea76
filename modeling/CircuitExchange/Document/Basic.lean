import CircuitExchange.Document.Format
import CircuitExchange.Moment.Conversion
import CircuitExchange.Moment.File
import CircuitExchange.Register.Conversion
import CircuitExchange.Register.File
import CircuitExchange.Timed.Conversion
import CircuitExchange.Timed.File
import CircuitExchange.Gate.File
import CircuitExchange.State.Simulation

/-!
Circuits in any format: reading and writing files, converting from one format to another,
simulating. Every conversion passes through the canonical form.

* `Document.read`, `Document.render`: the text of a file.
* `Document.toCircuit`, `Document.ofCircuit`, `Document.convert`: conversions.
* `Document.distribution`: the outcomes that are more probable than a threshold.
-/

namespace CircuitExchange

/-! ### Canonical circuits in files -/

namespace Circuit

def toJson (c : Circuit) : Json := .array (c.tokens.map .string)

def ofJson? (j : Json) : Option Circuit := (j.list? Json.string?).map Circuit.mk

/-- A canonical circuit is converted to itself, if all its tokens parse. -/
def checked (c : Circuit) : Except ConversionError Circuit := do
  c.validate.mapError .circuit
  return c

end Circuit

/-! ### Documents -/

/-- A circuit in one of the formats. -/
inductive Document where
  | canonical (c : Circuit)
  | moment (c : MomentCircuit Float)
  | register (c : RegisterCircuit Float)
  | timed (c : TimedCircuit Float)

/-- Why a text is no circuit of a format. -/
inductive ReadError where
  | token (e : CircuitError)
  | json (format : Format)
  /-- Entries that cannot be put into one circuit. -/
  | entries (e : TimedError)

/-- The messages of an error in a token, from the outside in. -/
def CircuitError.chain (e : CircuitError) : List String := [e.message, e.error.message]

/-- The messages of an error, from the outside in. -/
def ConversionError.chain : ConversionError → List String
  | circuit e => e.chain
  | e => [e.message]

/-- The messages of an error, from the outside in. -/
def SimulationError.chain : SimulationError Float → List String
  | circuit e => e.chain
  | e => [e.message]

/-- What is said about a text that is no JSON of the right form. -/
def ReadError.jsonMessage : Format → String
  | .canonical => "Invalid canonical JSON: expected a list of gate tokens"
  | format => s!"Invalid {format.name} circuit JSON"

/-- The messages of an error, from the outside in. -/
def ReadError.chain : ReadError → List String
  | token e => e.chain
  | json format => [jsonMessage format]
  | entries e => [jsonMessage .timed, e.message]

/-- The messages of a chain on one line. -/
def chainText (messages : List String) : String := ": ".intercalate messages

namespace Document

/-- Whether a canonical file is a list in JSON and not lines of tokens. -/
def isJsonList (source : String) : Bool := (Text.trimStart source.toList).head? = some '['

def readCanonical (source : String) : Except ReadError Circuit :=
  if isJsonList source then
    match Json.parse? source >>= Circuit.ofJson? with
    | none => .error (.json .canonical)
    | some c => (c.validate.map fun _ => c).mapError .token
  else (Circuit.ofLines source).mapError .token

/-- Reads entries and adds them; only then is the rest of the text looked at. -/
def readTimed (source : String) : Except ReadError (TimedCircuit Float) :=
  match Json.take? source.toList with
  | none => .error (.json .timed)
  | some (j, rest) =>
    match TimedCircuit.entriesOfJson? j with
    | none => .error (.json .timed)
    | some entries => do
      let c ← (TimedCircuit.ofEntries entries).mapError .entries
      if Json.isEnd rest then return c else throw (.json .timed)

/-- Reads the text of a file. -/
def read (format : Format) (source : String) : Except ReadError Document :=
  match format with
  | .canonical => (readCanonical source).map .canonical
  | .moment => orJson (Json.parse? source >>= MomentCircuit.ofJson?) .moment
  | .register => orJson (Json.parse? source >>= RegisterCircuit.ofJson?) .register
  | .timed => (readTimed source).map .timed
where
  orJson {α : Type} (c : Option α) (make : α → Document) : Except ReadError Document :=
    match c with
    | some c => .ok (make c)
    | none => .error (.json format)

def format : Document → Format
  | canonical _ => .canonical
  | moment _ => .moment
  | register _ => .register
  | timed _ => .timed

/-- The text of a file. -/
def render (d : Document) (layout : Json.Layout) : String :=
  match d with
  | canonical c => c.text
  | moment c => jsonLine c.toJson
  | register c => jsonLine c.toJson
  | timed c => jsonLine c.toJson
where
  jsonLine (j : Json) : String := j.text layout ++ "\n"

def toCircuit : Document → Except ConversionError Circuit
  | canonical c => c.checked
  | moment c => c.toCircuit
  | register c => c.toCircuit
  | timed c => c.toCircuit

def ofCircuit (format : Format) (c : Circuit) : Except ConversionError Document :=
  match format with
  | .canonical => c.checked.map canonical
  | .moment => (MomentCircuit.ofCircuit c).map moment
  | .register => (RegisterCircuit.ofCircuit c).map register
  | .timed => (TimedCircuit.ofCircuit c).map timed

/-- Converts to a format by way of the canonical form. -/
def convert (d : Document) (format : Format) : Except ConversionError Document := do
  ofCircuit format (← d.toCircuit)

/-- Converts to each format in turn; the results up to the first error, and the error if there is
one. -/
def tour (d : Document) : List Format → List Document × Option ConversionError
  | [] => ([], none)
  | format :: path =>
    match d.convert format with
    | .error e => ([], some e)
    | .ok next =>
      let (rest, error) := next.tour path
      (next :: rest, error)

def statevector : Document → Except (SimulationError Float) (Statevector Float)
  | canonical c => c.statevector
  | moment c => c.statevector
  | register c => c.statevector
  | timed c => c.statevector

/-- The probability of each index of the final state. -/
def probabilities (d : Document) : Except (SimulationError Float) (List Float) :=
  d.statevector.map Statevector.probabilities

end Document

/-! ### Distributions -/

/-- An index of the final state with its probability. -/
structure Outcome where
  bits : String
  probability : Float

/-- The outcomes of a circuit that are reported. -/
structure Distribution where
  format : Format
  qubitCount : Nat
  outcomes : List Outcome

/-- The bits of an outcome, none for a register without qubits. -/
def outcomeBits (index n : Nat) : String := if n = 0 then "" else bitstring index n

/-- The number of zeros that a word of 64 bits ends with, which for zero are all of them. -/
def trailingZeros (n : Nat) : Nat := (BitVec.ofNat 64 n).ctz.toNat

/-- The probabilities above a threshold with their indices. -/
def entriesAbove (probabilities : List Float) (threshold : Float) : List (Float × Nat) :=
  probabilities.zipIdx.filter fun (p, _) => threshold < p

/-- The outcomes that are more probable than the threshold, in the order of their indices. The
number of qubits is told from that of the probabilities, which is a power of two. -/
def Distribution.ofProbabilities (format : Format) (probabilities : List Float)
    (threshold : Float) : Distribution :=
  let n := trailingZeros probabilities.length
  ⟨format, n, (entriesAbove probabilities threshold).map fun (p, i) => ⟨outcomeBits i n, p⟩⟩

/-- The outcomes of a circuit after it has been run. -/
def Document.distribution (d : Document) (threshold : Float) :
    Except (SimulationError Float) Distribution := do
  return .ofProbabilities d.format (← d.probabilities) threshold

namespace Distribution

def toJson (d : Distribution) : Json :=
  .object [("format", .string d.format.name), ("num_qubits", .ofNat d.qubitCount),
    ("outcomes", .array (d.outcomes.map fun o =>
      .object [("bitstring", .string o.bits), ("probability", .ofFloat o.probability)]))]

end Distribution

end CircuitExchange
