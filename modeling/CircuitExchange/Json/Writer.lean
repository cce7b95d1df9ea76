import CircuitExchange.Json.Basic
import CircuitExchange.Decimal.Text

/-!
Writing JSON, on one line or with two blanks for each level of nesting. Strings escape quotation
marks, backslashes and control characters; all other characters are written as they are.
-/

namespace CircuitExchange.Json

/-- How a value is laid out. -/
inductive Layout where
  | compact
  | pretty
deriving DecidableEq, Repr

namespace Layout

/-- What stands before an item at a level of nesting. -/
def lineBreak : Layout → Nat → List Char
  | compact, _ => []
  | pretty, level => '\n' :: List.replicate (2 * level) ' '

/-- What stands between a key and its value. -/
def colon : Layout → List Char
  | compact => [':']
  | pretty => [':', ' ']

end Layout

/-- A hexadecimal digit, in lower case. -/
def hexDigit (n : Nat) : Char := Nat.digitChar (n % 16)

/-- A character within quotation marks. -/
def escape (c : Char) : List Char :=
  if c = '"' then ['\\', '"']
  else if c = '\\' then ['\\', '\\']
  else if c = '\n' then ['\\', 'n']
  else if c = '\t' then ['\\', 't']
  else if c = '\r' then ['\\', 'r']
  else if c = '\x08' then ['\\', 'b']
  else if c = '\x0c' then ['\\', 'f']
  else if c.toNat < 0x20 then
    ['\\', 'u', '0', '0', hexDigit (c.toNat / 16), hexDigit c.toNat]
  else [c]

def quote (s : String) : List Char := '"' :: (s.toList.flatMap escape ++ ['"'])

/-- A number; one that is not finite has no JSON form and is written as null. -/
def numberChars : JsonNumber → List Char
  | .integer value =>
    (if value < 0 then ['-'] else []) ++ Decimal.digits value.natAbs
  | .decimal value =>
    if value.isFinite then Decimal.Style.json.chars value else ['n', 'u', 'l', 'l']

mutual

/-- The text of a value at a level of nesting. -/
def chars (layout : Layout) (level : Nat) : Json → List Char
  | null => ['n', 'u', 'l', 'l']
  | bool true => ['t', 'r', 'u', 'e']
  | bool false => ['f', 'a', 'l', 's', 'e']
  | number value => numberChars value
  | string value => quote value
  | array [] => ['[', ']']
  | array (j :: rest) =>
    '[' :: (layout.lineBreak (level + 1) ++ chars layout (level + 1) j ++
      itemChars layout (level + 1) rest ++ layout.lineBreak level ++ [']'])
  | object [] => ['{', '}']
  | object ((key, j) :: rest) =>
    '{' :: (layout.lineBreak (level + 1) ++ quote key ++ layout.colon ++
      chars layout (level + 1) j ++ memberChars layout (level + 1) rest ++
      layout.lineBreak level ++ ['}'])
  | void => ['n', 'u', 'l', 'l']

/-- The text of the items after the first. -/
def itemChars (layout : Layout) (level : Nat) : List Json → List Char
  | [] => []
  | j :: rest =>
    ',' :: (layout.lineBreak level ++ chars layout level j ++ itemChars layout level rest)

/-- The text of the members after the first. -/
def memberChars (layout : Layout) (level : Nat) : List (String × Json) → List Char
  | [] => []
  | (key, j) :: rest =>
    ',' :: (layout.lineBreak level ++ quote key ++ layout.colon ++ chars layout level j ++
      memberChars layout level rest)

end

def text (layout : Layout) (j : Json) : String := String.ofList (chars layout 0 j)

end CircuitExchange.Json
