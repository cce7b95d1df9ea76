/-!
Rounding a quotient of natural numbers to the nearest natural number. What happens to a value
halfway between two neighbours is a parameter.

* `divNearest_mul_left`: only the quotient counts, not the fraction that stands for it.
* `divNearest_mul_self`: a whole quotient is not changed.
-/

namespace CircuitExchange.Decimal

/-- What a value halfway between two neighbours is rounded to. -/
inductive Tie where
  | up
  | even
deriving DecidableEq, Repr

/-- Whether a half above `q` is rounded to `q + 1`. -/
def Tie.goesUp : Tie → Nat → Bool
  | .up, _ => true
  | .even, q => q % 2 == 1

/-- The natural number nearest to `n / d`. -/
def divNearest (tie : Tie) (n d : Nat) : Nat :=
  let q := n / d
  let r := n % d
  if 2 * r < d then q
  else if d < 2 * r then q + 1
  else if tie.goesUp q then q + 1 else q

/-- Rounding depends on the quotient alone. -/
theorem divNearest_mul_left (tie : Tie) (n d : Nat) {c : Nat} (hc : 0 < c) :
    divNearest tie (c * n) (c * d) = divNearest tie n d := by
  have h1 : 2 * (c * (n % d)) = c * (2 * (n % d)) := by rw [Nat.mul_left_comm]
  simp only [divNearest, Nat.mul_div_mul_left n d hc, Nat.mul_mod_mul_left, h1,
    Nat.mul_lt_mul_left hc]

/-- A whole quotient is its own rounding. -/
theorem divNearest_mul_self (tie : Tie) (n : Nat) {d : Nat} (hd : 0 < d) :
    divNearest tie (n * d) d = n := by
  simp [divNearest, Nat.mul_div_cancel n hd, hd]

end CircuitExchange.Decimal
