import CircuitExchange.Scalar
import CircuitExchange.Decimal.Text

/-!
Arithmetic expressions for angles: numbers, π, negation, parentheses and the four operations.
Brackets are kept in the tree, so printing writes none of its own.
-/

namespace CircuitExchange

inductive BinaryOp where
  | add | sub | mul | div
deriving DecidableEq, Repr

namespace BinaryOp

def symbol : BinaryOp → Char
  | add => '+'
  | sub => '-'
  | mul => '*'
  | div => '/'

/-- Products bind tighter than sums. -/
def precedence : BinaryOp → Nat
  | add | sub => 1
  | mul | div => 2

end BinaryOp

inductive Expression where
  | number (value : Float)
  | pi
  | neg (e : Expression)
  | paren (e : Expression)
  | binary (op : BinaryOp) (left right : Expression)
deriving DecidableEq

namespace Expression

/-- The operation, undefined for a divisor that is zero. -/
def applyOp? (op : BinaryOp) (l r : Float) : Option Float :=
  match op with
  | .add => some (l + r)
  | .sub => some (l - r)
  | .mul => some (l * r)
  | .div => if r == 0 then none else some (l / r)

/-- A value that is not infinite and is a number. -/
def finite? (x : Float) : Option Float := if x.isFinite then some x else none

/-- The value, if every part of the expression has a finite one and no divisor is zero. -/
def eval? : Expression → Option Float
  | number value => finite? value
  | pi => some Scalar.pi
  | neg e => e.eval?.map (- ·)
  | paren e => e.eval?
  | binary op left right => do
    let l ← left.eval?
    let r ← right.eval?
    finite? (← applyOp? op l r)

/-- The number of nodes on the longest path from the root to a leaf. -/
def height : Expression → Nat
  | number _ => 1
  | pi => 1
  | neg e => e.height + 1
  | paren e => e.height + 1
  | binary _ left right => max left.height right.height + 1

def chars : Expression → List Char
  | number value => Decimal.Style.plain.chars value
  | pi => ['P', 'I']
  | neg e => '-' :: e.chars
  | paren e => '(' :: (e.chars ++ [')'])
  | binary op left right => left.chars ++ ' ' :: op.symbol :: ' ' :: right.chars

def text (e : Expression) : String := String.ofList e.chars

end Expression

end CircuitExchange
