import CircuitExchange.Json.Basic

/-!
Reading JSON. The grammar is the strict one: no comments, no trailing commas, no leading zeros.
Strings are read as a sequence of characters and escaped units first, and pairs of surrogates are
joined then.

* `Json.take?`: the value at the start of a text.
* `Json.parse?`: a text that is one value.
-/

namespace CircuitExchange.Json

/-- Whether a character may stand between the parts of a value. -/
def isBlank (c : Char) : Bool := c == ' ' || c == '\t' || c == '\r' || c == '\n'

def skipBlanks (cs : List Char) : List Char := cs.dropWhile isBlank

/-! ### Strings -/

/-- A part of a string: a character, or a unit of sixteen bits given by its number. -/
inductive Piece where
  | char (c : Char)
  | unit (n : Nat)
deriving DecidableEq, Repr

def hexValue? (c : Char) : Option Nat :=
  if c.isDigit then some (c.toNat - '0'.toNat)
  else if 'a' ≤ c ∧ c ≤ 'f' then some (c.toNat - 'a'.toNat + 10)
  else if 'A' ≤ c ∧ c ≤ 'F' then some (c.toNat - 'A'.toNat + 10)
  else none

/-- The number of four hexadecimal digits. -/
def unitValue? (a b c d : Char) : Option Nat := do
  return 4096 * (← hexValue? a) + 256 * (← hexValue? b) + 16 * (← hexValue? c) + (← hexValue? d)

/-- The character an escape other than `u` stands for. -/
def escaped? : Char → Option Char
  | '"' => some '"'
  | '\\' => some '\\'
  | '/' => some '/'
  | 'b' => some '\x08'
  | 'f' => some '\x0c'
  | 'n' => some '\n'
  | 'r' => some '\r'
  | 't' => some '\t'
  | _ => none

/-- The pieces up to the closing quotation mark, and what is left after it. -/
def takePieces? : List Char → Option (List Piece × List Char)
  | [] => none
  | '"' :: rest => some ([], rest)
  | '\\' :: 'u' :: a :: b :: c :: d :: rest => do
    let n ← unitValue? a b c d
    let (pieces, rest) ← takePieces? rest
    return (.unit n :: pieces, rest)
  | '\\' :: e :: rest => do
    let c ← escaped? e
    let (pieces, rest) ← takePieces? rest
    return (.char c :: pieces, rest)
  | c :: rest =>
    if c.toNat < 0x20 ∨ c = '\\' then none
    else do
      let (pieces, rest) ← takePieces? rest
      return (.char c :: pieces, rest)

def isHighSurrogate (n : Nat) : Bool := 0xd800 ≤ n && n < 0xdc00

def isLowSurrogate (n : Nat) : Bool := 0xdc00 ≤ n && n < 0xe000

/-- The characters of the pieces, unless there is a surrogate without its partner. -/
def joinPieces? : List Piece → Option (List Char)
  | [] => some []
  | .char c :: rest => (joinPieces? rest).map (c :: ·)
  | .unit n :: rest =>
    if isLowSurrogate n then none
    else if isHighSurrogate n then
      match rest with
      | .unit low :: rest =>
        if isLowSurrogate low then
          (joinPieces? rest).map
            (Char.ofNat (0x10000 + (n - 0xd800) * 0x400 + (low - 0xdc00)) :: ·)
        else none
      | _ => none
    else (joinPieces? rest).map (Char.ofNat n :: ·)

/-- The string after an opening quotation mark, none inside if it denotes nothing. -/
def takeString? (cs : List Char) : Option (Option String × List Char) := do
  let (pieces, rest) ← takePieces? cs
  return ((joinPieces? pieces).map String.ofList, rest)

/-! ### Numbers -/

/-- The integer with the given sign and magnitude, if it is one of at most 64 bits. -/
def integer? (negative : Bool) (magnitude : Nat) : Option Int :=
  if negative then
    if magnitude ≠ 0 ∧ 2 * magnitude ≤ UInt64.size then some (-magnitude) else none
  else if magnitude < UInt64.size then some magnitude
  else none

/--
Adds digits to a significand as long as it has at most 64 bits. The digits from the first one on
that does not fit are left over.
-/
def holdDigits (significand : Nat) : List Char → Nat × List Char
  | [] => (significand, [])
  | c :: cs =>
    let next := 10 * significand + Decimal.digitValue c
    if next < UInt64.size then holdDigits next cs else (significand, c :: cs)

/-- The numeral of the digits that count. Those left over before the point scale it up. -/
def heldNumeral (whole fraction : List Char) (exponent : Int) : Decimal.Numeral :=
  let (wholePart, wholeLeft) := holdDigits 0 whole
  let (significand, fractionLeft) := holdDigits wholePart fraction
  ⟨significand, exponent + wholeLeft.length - (fraction.length - fractionLeft.length : Nat)⟩

/-- The largest power of ten that is a number. -/
def maxPower : Nat := 308

/-- The number nearest to a power of ten. -/
def powerOfTen (k : Nat) : Float := Decimal.Numeral.toFloat false ⟨1, k⟩

/--
The number for a numeral, if it is in range. It is rounded more than once: the significand to a
number, and then its product or quotient with a power of ten. So where the significand or the power
is no number itself, the result may be next to the nearest one.
-/
def scaled? (a : Decimal.Numeral) : Option Float :=
  let x := Decimal.Numeral.toFloat false ⟨a.significand, 0⟩
  if a.significand = 0 then some x
  else if (maxPower : Int) < a.exponent then none
  else if 0 ≤ a.exponent then some (x * powerOfTen a.exponent.toNat) |>.filter Float.isFinite
  else
    let down := (-a.exponent).toNat
    if down ≤ maxPower then some (x / powerOfTen down)
    else if down ≤ 2 * maxPower then some (x / powerOfTen maxPower / powerOfTen (down - maxPower))
    else some (x * 0)

/-- The decimal with the given sign, if it is in range. -/
def decimal (negative : Bool) (a : Decimal.Numeral) : Json :=
  match scaled? a with
  | some x => number (.decimal (if negative then -x else x))
  | none => void

/-- The digits before a decimal point: one zero, or digits that do not start with one. -/
def takeWhole? (cs : List Char) : Option (List Char × List Char) :=
  match cs with
  | '0' :: rest => some (['0'], rest)
  | _ =>
    let (ds, rest) := Decimal.Numeral.spanDigits cs
    if ds.isEmpty then none else some (ds, rest)

/-- The number after an optional sign. -/
def takeUnsigned? (negative : Bool) (cs : List Char) : Option (Json × List Char) := do
  let (whole, afterWhole) ← takeWhole? cs
  let (fraction, afterFraction) := Decimal.Numeral.takeFraction afterWhole
  if afterWhole.head? = some '.' ∧ fraction.isEmpty then none
  let (exponent, rest) ← Decimal.Numeral.takeExponent? afterFraction
  let isWhole := afterWhole.length == rest.length
  match if isWhole then integer? negative (Decimal.ofDigits whole) else none with
  | some value => return (number (.integer value), rest)
  | none => return (decimal negative (heldNumeral whole fraction exponent), rest)

def takeNumber? : List Char → Option (Json × List Char)
  | '-' :: cs => takeUnsigned? true cs
  | cs => takeUnsigned? false cs

/-! ### Values -/

/-- An object, or nothing if one of its keys is no string. -/
def ofMembers (members : List (Option String × Json)) : Json :=
  match members.mapM fun (key, j) => key.map (·, j) with
  | some members => object members
  | none => void

mutual

/-- The value at the start of the text. The bound limits the steps and is never reached. -/
def takeValue? : Nat → List Char → Option (Json × List Char)
  | 0, _ => none
  | bound + 1, cs =>
    match skipBlanks cs with
    | 'n' :: 'u' :: 'l' :: 'l' :: rest => some (null, rest)
    | 't' :: 'r' :: 'u' :: 'e' :: rest => some (bool true, rest)
    | 'f' :: 'a' :: 'l' :: 's' :: 'e' :: rest => some (bool false, rest)
    | '"' :: rest => do
      let (value, rest) ← takeString? rest
      return ((value.map string).getD void, rest)
    | '[' :: rest =>
      match skipBlanks rest with
      | ']' :: rest => some (array [], rest)
      | rest => do
        let (items, rest) ← takeItems? bound rest
        return (array items, rest)
    | '{' :: rest =>
      match skipBlanks rest with
      | '}' :: rest => some (object [], rest)
      | rest => do
        let (members, rest) ← takeMembers? bound rest
        return (ofMembers members, rest)
    | rest => takeNumber? rest

/-- Items up to the closing bracket, at least one. -/
def takeItems? : Nat → List Char → Option (List Json × List Char)
  | 0, _ => none
  | bound + 1, cs => do
    let (j, rest) ← takeValue? bound cs
    match skipBlanks rest with
    | ',' :: rest =>
      let (items, rest) ← takeItems? bound rest
      return (j :: items, rest)
    | ']' :: rest => return ([j], rest)
    | _ => none

/-- Members up to the closing brace, at least one. -/
def takeMembers? : Nat → List Char → Option (List (Option String × Json) × List Char)
  | 0, _ => none
  | bound + 1, cs => do
    match skipBlanks cs with
    | '"' :: rest =>
      let (key, rest) ← takeString? rest
      match skipBlanks rest with
      | ':' :: rest =>
        let (j, rest) ← takeValue? bound rest
        match skipBlanks rest with
        | ',' :: rest =>
          let (members, rest) ← takeMembers? bound rest
          return ((key, j) :: members, rest)
        | '}' :: rest => return ([(key, j)], rest)
        | _ => none
      | _ => none
    | _ => none

end

/-- The value at the start of a text, and what is left. -/
def take? (cs : List Char) : Option (Json × List Char) := takeValue? (2 * cs.length + 1) cs

/-- Whether nothing but blanks is left. -/
def isEnd (cs : List Char) : Bool := (skipBlanks cs).isEmpty

/-- Reads a text that is one value. -/
def parse? (text : String) : Option Json := do
  let (j, rest) ← take? text.toList
  if isEnd rest then some j else none

end CircuitExchange.Json
