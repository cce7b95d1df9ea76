import CircuitExchange.Token.Gate

/-!
Canonical circuits: gate tokens in the order they are applied. Tokens are kept as they are written;
parsing them is a separate step that may fail. The number of qubits is implied by the largest index.

* `Circuit.gates`: the records of all tokens, or the first token that is none.
* `Circuit.ofRecords`: every record in its canonical spelling.
* `Circuit.ofLines`: one token a line, with blank lines and comments left out.
-/

namespace CircuitExchange

/-- A list of gate tokens. -/
structure Circuit where
  tokens : List String
deriving DecidableEq, Repr

namespace Circuit

/-- The records of tokens, the first of which has the given index. -/
def parseFrom (index : Nat) : List String → Except CircuitError (List (Record Float))
  | [] => .ok []
  | token :: rest => do
    let r ← (Record.parse token).mapError (⟨index, token, ·⟩)
    return r :: (← parseFrom (index + 1) rest)

/-- The records of a circuit. -/
def gates (c : Circuit) : Except CircuitError (List (Record Float)) := parseFrom 0 c.tokens

/-- Whether every token parses, and if not the error of the first that does not. -/
def validate (c : Circuit) : Except CircuitError Unit := c.gates.map fun _ => ()

/-- The number of qubits that a list of records implies. -/
def sizeOf {α : Type} (records : List (Record α)) : UInt32 :=
  impliedQubitCount (records.flatMap (·.qubits))

/-- The number of qubits the circuit implies. -/
def qubitCount (c : Circuit) : Except CircuitError UInt32 := c.gates.map sizeOf

def ofRecords (records : List (Record Float)) : Circuit := ⟨records.map Record.text⟩

/-- Each token on a line of its own. -/
def text (c : Circuit) : String := String.join (c.tokens.map (· ++ "\n"))

/-- Whether a line without blanks around it holds a token, and not nothing or a comment. -/
def isTokenLine (line : List Char) : Bool := !line.isEmpty && !(['/', '/'].isPrefixOf line)

/-- The tokens of a text with one token a line, not yet parsed. -/
def tokenLines (text : String) : List String :=
  (((Text.splitLines text.toList).map Text.trim).filter isTokenLine).map String.ofList

/-- Reads a text with one token a line. All of them have to parse. -/
def ofLines (text : String) : Except CircuitError Circuit := do
  let c : Circuit := ⟨tokenLines text⟩
  c.validate
  return c

end Circuit

end CircuitExchange
