import CircuitExchange.Decimal.Text

/-!
Lexical units of the argument groups of a gate token.
-/

namespace CircuitExchange

/-- A lexical unit. Digits that form an integer of 64 bits are an integer, all other numerals a
number. -/
inductive Token where
  | pi
  | number (value : Float)
  | integer (value : UInt64)
  | identifier (name : String)
  | plus | minus | star | slash
  | leftParen | rightParen | comma
deriving DecidableEq

namespace Token

/-- The spelling in messages. -/
def text : Token → String
  | pi => "PI"
  | number value => Decimal.Style.plain.text value
  | integer value => toString value.toNat
  | identifier name => name
  | plus => "+"
  | minus => "-"
  | star => "*"
  | slash => "/"
  | leftParen => "("
  | rightParen => ")"
  | comma => ","

/-- The units that are a single character. -/
def ofSymbol? : Char → Option Token
  | '+' => some plus
  | '-' => some minus
  | '*' => some star
  | '/' => some slash
  | '(' => some leftParen
  | ')' => some rightParen
  | ',' => some comma
  | _ => none

end Token

end CircuitExchange
