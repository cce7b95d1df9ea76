import CircuitExchange.Expression.Parser
import CircuitExchange.Gate.Record

/-!
Gate tokens: a name, for rotations a group of angles, and a group of qubits, as in `CX(0, 1)` or
`RX(PI/2)(3)`. Parsing asks for the form only; how many qubits and angles a gate needs is checked on
the record.

* `Record.parse`: the record a token stands for.
-/

namespace CircuitExchange

/-- Entries separated by commas, at least one, each read by `entry`. The lexeme count bounds
them. -/
def commaSeparated {α : Type} (entry : Parser α) : Nat → Parser (List α)
  | 0, ts => .ok ([], ts)
  | bound + 1, ts => do
    let (a, rest) ← entry ts
    match rest with
    | l :: more =>
      if l.token = .comma then
        let (as, rest) ← commaSeparated entry bound more
        return (a :: as, rest)
      else return ([a], rest)
    | [] => return ([a], rest)

/-- A group in parentheses. -/
def group {α : Type} (entry : Parser α) : Parser (List α) := fun ts => do
  let ts ← expectSymbol .leftParen ts
  let (entries, rest) ← commaSeparated entry (ts.length + 1) ts
  let rest ← expectSymbol .rightParen rest
  return (entries, rest)

/-- An angle: an expression with a value. -/
def parseAngle : Parser Float := fun ts => do
  let (e, rest) ← Expression.parse ts
  match e.eval? with
  | some value => return (value, rest)
  | none => throw (.undefinedValue e)

/-- A qubit: an integer of 32 bits. -/
def parseQubit : Parser Qubit
  | [] => .error (.endOfInput .qubitIndex)
  | l :: rest =>
    match l.token with
    | .integer value =>
      if value.toNat < UInt32.size then .ok (value.toUInt32, rest) else .error (.notQubit l.token)
    | .rightParen => .error (.unexpected .qubitIndex l.token)
    | .comma => .error (.unexpected .qubitIndex l.token)
    | _ => .error (.notQubit l.token)

/-- The argument groups of a gate, with nothing after them. -/
def parseArguments (name : GateName) (ts : List Lexeme) : Except Fault (Record Float) := do
  let (params, rest) ← if name.isRotation then group parseAngle ts else pure ([], ts)
  let (qubits, rest) ← group parseQubit rest
  match rest with
  | [] => return ⟨name, params, qubits⟩
  | l :: _ => throw (.unexpected .endOfToken l.token)

/-- The record of a token given as characters. -/
def parseFault (cs : List Char) : Except Fault (Record Float) :=
  let (before, after) := cs.span (· ≠ '(')
  if after.isEmpty then .error .missingParenthesis
  else
    match GateName.parse (String.ofList before) with
    | .error unknown => .error (.unknownGate unknown)
    | .ok name =>
      match tokenize (byteLength before) after with
      | .error stray => .error (.strayChar stray)
      | .ok ts => parseArguments name ts

/-- The record that a token stands for. -/
def Record.parse (token : String) : Except TokenError (Record Float) :=
  (parseFault token.toList).mapError (⟨token, ·⟩)

end CircuitExchange
