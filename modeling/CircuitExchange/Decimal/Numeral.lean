import CircuitExchange.Decimal.Binary64

/-!
Decimal numerals: digits scaled by a power of ten, read from text and rounded to the nearest double
precision number.

* `Numeral.toFloat`: the nearest number, ties to even, infinity past the largest one.
* `Numeral.read?`: digits with an optional fraction and an optional exponent.
* `readFloat?`: a whole text with an optional sign, or the name of infinity or of no number.
-/

namespace CircuitExchange.Decimal

/-- The value of a decimal digit. -/
def digitValue (c : Char) : Nat := c.toNat - '0'.toNat

/-- The number written by a run of decimal digits. -/
def ofDigits (digits : List Char) : Nat :=
  digits.foldl (fun value c => 10 * value + digitValue c) 0

/-- A power of ten. -/
def tenPow (k : Nat) : Nat := Nat.pow 10 k

/-- The decimal digits of a number; zero has one. -/
def digits (n : Nat) : List Char := Nat.toDigits 10 n

/-- The unsigned decimal `significand · 10^exponent`. -/
structure Numeral where
  significand : Nat
  exponent : Int
deriving DecidableEq, Repr

namespace Numeral

/-- Numerals from `10^highest` on are above every finite number. -/
def highest : Int := 310

/-- Numerals below `10^lowest` are nearer to zero than to the least positive number. -/
def lowest : Int := -400

/-- The numeral as a fraction of units of `2^-1074`: numerator and denominator. -/
def ratio (a : Numeral) : Nat × Nat :=
  if 0 ≤ a.exponent then (a.significand * tenPow a.exponent.toNat * unitsInOne, 1)
  else (a.significand * unitsInOne, tenPow (-a.exponent).toNat)

/--
The word of the nearest magnitude. Numerals far outside the range of the format are settled by their
size alone, so an absurd exponent costs nothing.
-/
def nearest (a : Numeral) : Nat :=
  let size := a.exponent + (digits a.significand).length
  if a.significand = 0 then 0
  else if highest < size then infinityWord
  else if size < lowest then 0
  else min infinityWord (nearestWord a.ratio.1 a.ratio.2)

/-- The nearest number with the given sign. -/
def toFloat (negative : Bool) (a : Numeral) : Float := ofWord negative a.nearest

/-- Splits text at the end of the run of decimal digits it starts with. -/
def spanDigits (cs : List Char) : List Char × List Char := cs.span Char.isDigit

/-- The fraction that follows a decimal point, and what is left. -/
def takeFraction : List Char → List Char × List Char
  | '.' :: cs => spanDigits cs
  | cs => ([], cs)

/--
The exponent at the start of the text and what is left: `e` or `E`, an optional sign and at least
one digit, or nothing at all.
-/
def takeExponent? : List Char → Option (Int × List Char)
  | c :: cs =>
    if c = 'e' ∨ c = 'E' then
      let (negative, cs) :=
        match cs with
        | '-' :: r => (true, r)
        | '+' :: r => (false, r)
        | r => (false, r)
      let (ds, rest) := spanDigits cs
      if ds.isEmpty then none
      else some (if negative then -(ofDigits ds : Int) else ofDigits ds, rest)
    else some (0, c :: cs)
  | [] => some (0, [])

/-- The numeral at the start of the text and what is left: digits on at least one side of the
point. -/
def take? (cs : List Char) : Option (Numeral × List Char) :=
  let (whole, afterWhole) := spanDigits cs
  let (fraction, afterFraction) := takeFraction afterWhole
  if whole.isEmpty && fraction.isEmpty then none
  else (takeExponent? afterFraction).map fun (exponent, rest) =>
    (⟨ofDigits (whole ++ fraction), exponent - fraction.length⟩, rest)

/-- Reads a text that is one numeral. -/
def read? (cs : List Char) : Option Numeral :=
  match take? cs with
  | some (a, []) => some a
  | _ => none

end Numeral

/-- The infinite magnitude. -/
def infinity : Float := ofWord false infinityWord

/-- The value that is not a number. -/
def notANumber : Float := Float.ofBits 0x7ff8000000000000

/-- Reads an unsigned number: a numeral, or a name in any case. -/
def readMagnitude? (negative : Bool) (cs : List Char) : Option Float :=
  let name := String.ofList (cs.map Char.toLower)
  if name = "inf" ∨ name = "infinity" then some (ofWord negative infinityWord)
  else if name = "nan" then some notANumber
  else (Numeral.read? cs).map (Numeral.toFloat negative)

/-- Reads a number with an optional sign. -/
def readFloat? : List Char → Option Float
  | '-' :: cs => readMagnitude? true cs
  | '+' :: cs => readMagnitude? false cs
  | cs => readMagnitude? false cs

end CircuitExchange.Decimal
