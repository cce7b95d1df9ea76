import CircuitExchange.Token.Lexer
import CircuitExchange.Expression.Basic
import CircuitExchange.Gate.Name

/-!
Why a text is no gate token. A fault is the cause alone; an error adds the token it was found in,
and within a circuit also the place of that token.
-/

namespace CircuitExchange

/-- What the grammar of tokens would have allowed at some place. -/
inductive Expected where
  | symbol (token : Token)
  | expression
  | qubitIndex
  | endOfToken
deriving DecidableEq

namespace Expected

/-- The wording where the text has ended. -/
def text : Expected → String
  | symbol token => token.text
  | expression => "expression"
  | qubitIndex => "qubit index"
  | endOfToken => "end of token"

/-- The wording beside what was found instead, which has symbols in quotation marks. -/
def quoted : Expected → String
  | symbol token => s!"'{token.text}'"
  | other => other.text

end Expected

/-- The cause of an error. -/
inductive Fault where
  | strayChar (e : StrayChar)
  | missingParenthesis
  | unknownGate (e : UnknownGateName)
  | unexpected (expected : Expected) (found : Token)
  | endOfInput (expected : Expected)
  | undefinedValue (expression : Expression)
  | tooDeep (upcoming : List Char)
  | notQubit (found : Token)
deriving DecidableEq

/-- The deepest tree that an angle may build. -/
def maxDepth : Nat := 256

/-- An error in a token. -/
structure TokenError where
  token : String
  fault : Fault
deriving DecidableEq

namespace TokenError

/-- How much of the text that was not parsed is shown. -/
def shownUpcoming : Nat := 32

def message (e : TokenError) : String :=
  match e.fault with
  | .strayChar stray =>
    s!"Lexer error in '{e.token}' at position {stray.position}: {stray.message}"
  | .missingParenthesis => s!"Malformed gate token '{e.token}': missing '('"
  | .unknownGate unknown => unknown.message
  | .unexpected expected found =>
    s!"Malformed gate token '{e.token}': expected {expected.quoted}, found '{found.text}'"
  | .endOfInput expected =>
    s!"Malformed gate token '{e.token}': unexpected end of input, expected {expected.text}"
  | .undefinedValue expression =>
    s!"Invalid parameter expression '{expression.text}' in '{e.token}': " ++
      "division by zero or non-finite value"
  | .tooDeep upcoming =>
    let shown := String.ofList (upcoming.take shownUpcoming)
    s!"Invalid parameter expression '{shown}' in '{e.token}': nested deeper than {maxDepth} levels"
  | .notQubit found =>
    s!"Invalid qubit '{found.text}' in '{e.token}': expected a non-negative integer"

/-- Whether the gate is outside the vocabulary. -/
def isUnknownGate (e : TokenError) : Bool :=
  match e.fault with
  | .unknownGate _ => true
  | _ => false

end TokenError

/-- An error in the token at some place of a circuit. -/
structure CircuitError where
  index : Nat
  gate : String
  error : TokenError
deriving DecidableEq

def CircuitError.message (e : CircuitError) : String :=
  s!"Gate {e.index} ('{e.gate}'): {e.error.message}"

end CircuitExchange
