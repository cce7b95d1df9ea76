import CircuitExchange.Token.Basic

/-!
Splitting text into lexical units by longest match. Each class of lexemes says how long its longest
lexeme at the start of a text is; the longest of all wins, and of equally long ones the class listed
first. A character that starts no lexeme is reported and passed over.

* `lexemes`: every lexeme and stray character of a text, with the bytes it covers.
* `tokenize`: the lexemes alone, or the first stray character.
-/

namespace CircuitExchange

/-- The classes of lexemes. The name of π is also an identifier and therefore comes first. -/
inductive LexemeClass where
  | pi | decimal | integer | identifier | symbol
deriving DecidableEq, Repr

namespace LexemeClass

def all : List LexemeClass := [pi, decimal, integer, identifier, symbol]

/-- The number of decimal digits the text starts with. -/
def digitRun (cs : List Char) : Nat := (cs.takeWhile Char.isDigit).length

def isIdentifierStart (c : Char) : Bool := c.isAlpha || c == '_'

def isIdentifierRest (c : Char) : Bool := c.isAlphanum || c == '_'

/-- The length of the exponent the text starts with: a mark, an optional sign, at least one
digit. -/
def exponentLength : List Char → Nat
  | [] => 0
  | c :: cs =>
    if c = 'e' ∨ c = 'E' then
      let sign := if cs.head? = some '+' ∨ cs.head? = some '-' then 1 else 0
      let digits := digitRun (cs.drop sign)
      if digits = 0 then 0 else 1 + sign + digits
    else 0

/-- The length of the decimal number the text starts with. It has a point, an exponent or both. -/
def decimalLength (cs : List Char) : Nat :=
  let whole := digitRun cs
  match cs.drop whole with
  | '.' :: rest =>
    let fraction := digitRun rest
    if whole = 0 ∧ fraction = 0 then 0
    else whole + 1 + fraction + exponentLength (rest.drop fraction)
  | rest =>
    let exponent := exponentLength rest
    if whole = 0 ∨ exponent = 0 then 0 else whole + exponent

def identifierLength : List Char → Nat
  | c :: cs => if isIdentifierStart c then 1 + (cs.takeWhile isIdentifierRest).length else 0
  | [] => 0

/-- The length of the name of π the text starts with: the letter itself, or `pi` in any case. -/
def piLength : List Char → Nat
  | 'π' :: _ => 1
  | c :: d :: _ => if (c = 'p' ∨ c = 'P') ∧ (d = 'i' ∨ d = 'I') then 2 else 0
  | _ => 0

def symbolLength : List Char → Nat
  | c :: _ => if (Token.ofSymbol? c).isSome then 1 else 0
  | [] => 0

/-- The length of the longest lexeme of the class at the start of the text, or zero. -/
def length : LexemeClass → List Char → Nat
  | pi => piLength
  | decimal => decimalLength
  | integer => digitRun
  | identifier => identifierLength
  | symbol => symbolLength

/-- The number that a numeral stands for. -/
def numberOf (text : List Char) : Float :=
  ((Decimal.Numeral.read? text).map (Decimal.Numeral.toFloat false)).getD Decimal.notANumber

/-- The unit a lexeme of the class stands for. -/
def token : LexemeClass → List Char → Token
  | pi, _ => .pi
  | decimal, text => .number (numberOf text)
  | integer, text =>
    let value := Decimal.ofDigits text
    if value < UInt64.size then .integer (.ofNat value) else .number (numberOf text)
  | identifier, text => .identifier (String.ofList text)
  | symbol, text => (text.head?.bind Token.ofSymbol?).getD .comma

end LexemeClass

/-- The class and the length of the lexeme at the start of the text. -/
def longestLexeme? (cs : List Char) : Option (LexemeClass × Nat) :=
  LexemeClass.all.foldl (fun best kind =>
    let n := kind.length cs
    if (best.map (·.2)).getD 0 < n then some (kind, n) else best) none

/-- Whether a character may stand between lexemes. -/
def isSkipped (c : Char) : Bool := c == ' ' || c == '\t' || c == '\r' || c == '\n'

/-- A lexical unit with the bytes `start` to `stop` it covers and the text from its start on. -/
structure Lexeme where
  token : Token
  start : Nat
  stop : Nat
  upcoming : List Char
deriving DecidableEq

/-- A character that starts no lexeme. -/
structure StrayChar where
  char : Char
  position : Nat
deriving DecidableEq, Repr

def StrayChar.message (e : StrayChar) : String := s!"Invalid token: '{e.char}'"

/-- The number of bytes of a text. -/
def byteLength (cs : List Char) : Nat := cs.foldl (fun n c => n + c.utf8Size) 0

/-- The lexemes and stray characters of the text, which starts at the byte `position`. -/
def lexemes (position : Nat) (cs : List Char) : List (Except StrayChar Lexeme) :=
  match cs with
  | [] => []
  | c :: rest =>
    if isSkipped c then lexemes (position + c.utf8Size) rest
    else
      match longestLexeme? (c :: rest) with
      | some (kind, n) =>
        let text := (c :: rest).take n
        let stop := position + byteLength text
        .ok ⟨kind.token text, position, stop, c :: rest⟩ :: lexemes stop (rest.drop (n - 1))
      | none => .error ⟨c, position⟩ :: lexemes (position + c.utf8Size) rest
termination_by cs.length
decreasing_by all_goals (simp_wf; try omega)

/-- The lexemes of the text, or its first stray character. -/
def tokenize (position : Nat) (cs : List Char) : Except StrayChar (List Lexeme) :=
  (lexemes position cs).mapM id

end CircuitExchange
