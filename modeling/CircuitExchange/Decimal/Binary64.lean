import CircuitExchange.Decimal.Rounding

/-!
Double precision numbers as words. Without its sign bit, the word of a number counts its place among
the magnitudes, so magnitudes are compared and stepped through as natural numbers. A magnitude is
`units k / 2^1074` for its word `k`, which turns questions of rounding into questions about natural
numbers.

* `nearestWord`: the word of the magnitude nearest to a quotient, ties to the even word.
* `nearestWord_of_lt`: a number of units of up to 53 bits is its own word.
-/

namespace CircuitExchange.Decimal

/-- The number of words from one power of two to the next. -/
def octave : Nat := 0x10000000000000

/-- The word of positive infinity. All smaller words are finite magnitudes. -/
def infinityWord : Nat := 0x7ff * octave

/-- The number of units in one. -/
def unitsInOne : Nat := 1 <<< 1074

/-- The magnitude of the word `k`, counted in units of `2^-1074`. -/
def units (k : Nat) : Nat :=
  if k < octave then k else (octave + k % octave) <<< (k / octave - 1)

/--
The word of the magnitude nearest to `n / d` units, where words above `infinityWord` continue the
scale as if there were no largest number. A quotient of 53 bits or fewer is a place on the scale by
itself; each further bit skips an octave of places and halves the precision.
-/
def nearestWord (n d : Nat) : Nat :=
  let s := (n / d).log2 - 52
  s * octave + divNearest .even n (d <<< s)

/-- The bit of the sign. -/
def signBit : Nat := 0x8000000000000000

/-- The number with the given sign and the magnitude of the word `k`, or infinity beyond the
scale. -/
def ofWord (negative : Bool) (k : Nat) : Float :=
  let word := min k infinityWord
  Float.ofBits (.ofNat (if negative then signBit + word else word))

/-- The sign bit. Minus zero is negative. -/
def isNegative (x : Float) : Bool := signBit ≤ x.toBits.toNat

/-- The word of the magnitude of a number. -/
def word (x : Float) : Nat := x.toBits.toNat % signBit

theorem units_of_lt {k : Nat} (h : k < octave) : units k = k := if_pos h

theorem nearestWord_of_lt {n : Nat} (h : n < 2 * octave) : nearestWord n 1 = n := by
  have hs : n.log2 - 52 = 0 := by
    rcases Nat.eq_zero_or_pos n with rfl | hn
    · rfl
    · have := (Nat.log2_lt (k := 53) (by omega)).2 h
      omega
  simp [nearestWord, hs, divNearest, Nat.mod_one]

end CircuitExchange.Decimal
