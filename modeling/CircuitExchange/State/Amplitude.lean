import CircuitExchange.Scalar

/-!
Amplitudes: complex numbers over any type of numbers. Products and sums are written out in the order
in which they are evaluated, because rounded arithmetic is not associative.
-/

namespace CircuitExchange

/-- A complex number `re + i·im`. -/
@[ext]
structure Amplitude (α : Type) where
  re : α
  im : α
deriving DecidableEq, Repr

namespace Amplitude

variable {α : Type} [Scalar α]

instance : Zero (Amplitude α) := ⟨⟨0, 0⟩⟩

instance : One (Amplitude α) := ⟨⟨1, 0⟩⟩

instance : Add (Amplitude α) := ⟨fun a b => ⟨a.re + b.re, a.im + b.im⟩⟩

instance : Sub (Amplitude α) := ⟨fun a b => ⟨a.re - b.re, a.im - b.im⟩⟩

instance : Neg (Amplitude α) := ⟨fun a => ⟨-a.re, -a.im⟩⟩

instance : Mul (Amplitude α) :=
  ⟨fun a b => ⟨a.re * b.re - a.im * b.im, a.re * b.im + a.im * b.re⟩⟩

/-- The product with a real number. -/
def scale (r : α) (a : Amplitude α) : Amplitude α := ⟨r * a.re, r * a.im⟩

def conj (a : Amplitude α) : Amplitude α := ⟨a.re, -a.im⟩

/-- The square of the absolute value. -/
def normSq (a : Amplitude α) : α := a.re * a.re + a.im * a.im

/-- The imaginary unit. -/
def unit : Amplitude α := ⟨0, 1⟩

/-- The number of absolute value one at the given angle. -/
def phase (theta : α) : Amplitude α := ⟨1 * Scalar.cos theta, 1 * Scalar.sin theta⟩

end Amplitude

end CircuitExchange
