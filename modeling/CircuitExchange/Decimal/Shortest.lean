import CircuitExchange.Decimal.Numeral

/-!
The shortest decimal numeral that reads back to a given number. Of the numerals with the fewest
digits it is the one nearest to the number; of two equally near ones the tie rule picks one.

* `readsBack`: a numeral stands for a word if rounding it gives that word.
* `shortest`: the chosen numeral, without trailing zeros in its significand.
-/

namespace CircuitExchange.Decimal

/-- Whether the numeral rounds to the magnitude of the word `k`. -/
def readsBack (k : Nat) (a : Numeral) : Bool := a.nearest == k

/--
The decimal exponent of the leading digit of `n / d`, for `0 < n` and `0 < d`: it is `e` when
`10^e ≤ n / d < 10^(e+1)`.
-/
def leadingExponent (n d : Nat) : Int :=
  if d ≤ n then (digits (n / d)).length - 1
  else -((digits ((d - 1) / n)).length : Int)

/--
The numerals with the given exponent that come into question for `n / d`: the nearest one first,
then the neighbours below and above.
-/
def candidates (tie : Tie) (n d : Nat) (exponent : Int) : List Numeral :=
  let scaled :=
    if 0 ≤ exponent then (n, d * tenPow exponent.toNat) else (n * tenPow (-exponent).toNat, d)
  let below := scaled.1 / scaled.2
  [⟨divNearest tie scaled.1 scaled.2, exponent⟩, ⟨below, exponent⟩, ⟨below + 1, exponent⟩]

/-- The numeral with at most `count` digits that stands for the word `k`, if there is one. -/
def withDigits? (tie : Tie) (k count : Nat) : Option Numeral :=
  let exponent := leadingExponent (units k) unitsInOne - (count - 1 : Nat)
  (candidates tie (units k) unitsInOne exponent).find? (readsBack k)

/-- All the digits of the magnitude of the word `k`. -/
def exact (k : Nat) : Numeral := ⟨units k * Nat.pow 5 1074, -1074⟩

/-- The same value with no zero at the end of the significand. -/
def stripZeros (significand : Nat) (exponent : Int) : Numeral :=
  if significand ≠ 0 ∧ significand % 10 = 0 then stripZeros (significand / 10) (exponent + 1)
  else ⟨significand, exponent⟩
termination_by significand

/-- The shortest numeral for the word `k` of a finite magnitude. Seventeen digits are always
enough. -/
def shortest (tie : Tie) (k : Nat) : Numeral :=
  if k = 0 then ⟨0, 0⟩
  else
    let found := ((List.range' 1 17).findSome? (withDigits? tie k)).getD (exact k)
    stripZeros found.significand found.exponent

end CircuitExchange.Decimal
