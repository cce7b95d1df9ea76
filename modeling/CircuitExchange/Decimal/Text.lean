import CircuitExchange.Decimal.Shortest

/-!
How numbers are written. A `Style` fixes what may differ between the places a number is written in;
the digits are always the shortest that read back. `fixed` writes a given number of decimals
instead.
-/

namespace CircuitExchange.Decimal

/-- The decisions that one way of writing numbers makes. -/
structure Style where
  /-- Which of two equally near shortest numerals is written. -/
  tie : Tie
  /-- The decimal exponents of the leading digit for which no exponent is written. -/
  positional : Int → Bool
  /-- Whether a whole number is written with the decimals `.0`. -/
  wholeDecimal : Bool
  /-- Whether an exponent that is not negative has a plus sign. -/
  exponentPlus : Bool

namespace Style

/-- Never an exponent: `100000000000000000000`, `0.0000001`, `1`. -/
def plain : Style := ⟨.up, fun _ => true, false, false⟩

/-- Always an exponent: `1.5e0`, `1e-7`. -/
def scientific : Style := ⟨.up, fun _ => false, false, false⟩

/-- An exponent below `0.00001` and from `10^16` on, and always a fraction without one: `1.0`,
`1e+16`. -/
def json : Style := ⟨.even, fun e => -5 ≤ e && e ≤ 15, true, true⟩

/-- Digits with the point after the first `point` of them, filled up with zeros. -/
def positionalText (style : Style) (ds : List Char) (point : Int) : List Char :=
  let length : Int := ds.length
  if point ≤ 0 then '0' :: '.' :: (List.replicate (-point).toNat '0' ++ ds)
  else if length ≤ point then
    ds ++ List.replicate (point - length).toNat '0' ++
      (if style.wholeDecimal then ['.', '0'] else [])
  else ds.take point.toNat ++ '.' :: ds.drop point.toNat

/-- One digit before the point, the others after it, and the exponent. -/
def exponentText (style : Style) (ds : List Char) (exponent : Int) : List Char :=
  let mantissa :=
    match ds with
    | [] => []
    | [d] => [d]
    | d :: rest => d :: '.' :: rest
  let sign := if exponent < 0 then ['-'] else if style.exponentPlus then ['+'] else []
  mantissa ++ 'e' :: (sign ++ digits exponent.natAbs)

/-- The magnitude of the word `k`. -/
def magnitude (style : Style) (k : Nat) : List Char :=
  if k = 0 then
    if style.positional 0 then (if style.wholeDecimal then ['0', '.', '0'] else ['0'])
    else ['0', 'e', '0']
  else
    let a := shortest style.tie k
    let ds := digits a.significand
    let point := a.exponent + ds.length
    if style.positional (point - 1) then style.positionalText ds point
    else style.exponentText ds (point - 1)

/-- A number in this style; the infinite ones and the one that is no number have names. -/
def chars (style : Style) (x : Float) : List Char :=
  let k := word x
  if infinityWord < k then ['N', 'a', 'N']
  else
    let sign := if isNegative x then ['-'] else []
    sign ++ (if k = infinityWord then ['i', 'n', 'f'] else style.magnitude k)

/-- A number in this style, as a string. -/
def text (style : Style) (x : Float) : String := String.ofList (style.chars x)

end Style

/-- Digits with `places` of them after the point. -/
def placeText (places n : Nat) : List Char :=
  let ds := digits n
  let padded := List.replicate (places + 1 - ds.length) '0' ++ ds
  let whole := padded.length - places
  if places = 0 then padded else padded.take whole ++ '.' :: padded.drop whole

/-- A number with the given count of decimals: its exact value rounded, a half to the even
neighbour. -/
def fixed (places : Nat) (x : Float) : String :=
  let k := word x
  if infinityWord < k then "NaN"
  else
    let magnitude :=
      if k = infinityWord then ['i', 'n', 'f']
      else placeText places (divNearest .even (units k * tenPow places) unitsInOne)
    String.ofList (if isNegative x then '-' :: magnitude else magnitude)

end CircuitExchange.Decimal
