import CircuitExchange.State.Kernel
import CircuitExchange.Gate.Record

/-!
Statevectors: one amplitude for every index of a register. Operations act on bit positions of the
index; the order in which a toolkit counts its qubits is handled by `BitOrder`.

* `Statevector.apply`: an operation on distinct bits within the register, as many as it needs.
* `run`: a list of operations applied to the state whose only index is zero.
-/

namespace CircuitExchange

/-- The largest register that is simulated. -/
def maxQubits : Nat := 24

/-- Why an operation or a program cannot be run. -/
inductive RunError (α : Type) where
  | tooManyQubits (requested : Nat)
  | arity (op : Operation α) (got : Nat)
  | outOfRange (qubit size : Nat)
  | duplicate (op : Operation α) (qubit : Nat)
deriving DecidableEq, Repr

def RunError.message : RunError Float → String
  | .tooManyQubits requested => s!"Too many qubits: {requested} (max {maxQubits})"
  | .arity op got => s!"Operation {op.text} acts on {op.arity} qubit(s), got {got}"
  | .outOfRange qubit size => s!"Qubit {qubit} out of range for {size}-qubit state"
  | .duplicate op qubit => s!"Operation {op.text} uses qubit {qubit} more than once"

/-- A state of a register: an amplitude for each of its `2^qubitCount` indices. -/
@[ext]
structure Statevector (α : Type) where
  qubitCount : Nat
  amplitudes : Array (Amplitude α)
  size_eq : amplitudes.size = 1 <<< qubitCount

namespace Statevector

variable {α : Type} [Scalar α]

/-- The state in which every qubit is zero. -/
def zero (n : Nat) : Statevector α where
  qubitCount := n
  amplitudes := (Array.replicate (1 <<< n) 0).setIfInBounds 0 1
  size_eq := by simp

/-- The state in which every qubit is zero, if the register is not too large. -/
def new (n : Nat) : Except (RunError α) (Statevector α) :=
  if maxQubits < n then .error (.tooManyQubits n) else .ok (zero n)

/-- The probability of each index. -/
def probabilities (s : Statevector α) : List α := s.amplitudes.toList.map Amplitude.normSq

@[simp]
theorem length_probabilities (s : Statevector α) : s.probabilities.length = 1 <<< s.qubitCount := by
  rw [probabilities, List.length_map, Array.length_toList, s.size_eq]

/-- The square of the absolute value of the inner product, or zero for registers of different
sizes. -/
def fidelity (s t : Statevector α) : α :=
  if s.qubitCount = t.qubitCount then
    ((s.amplitudes.toList.zip t.amplitudes.toList).foldl
      (fun sum (a, b) => sum + a.conj * b) (0 : Amplitude α)).normSq
  else 0

/-- Checks bits from left to right: each has to be in the register and not among the earlier
ones. -/
def checkBits (op : Operation α) (n : Nat) (seen : List Nat) :
    List Nat → Except (RunError α) Unit
  | [] => .ok ()
  | bit :: rest =>
    if n ≤ bit then .error (.outOfRange bit n)
    else if seen.contains bit then .error (.duplicate op bit)
    else checkBits op n (seen ++ [bit]) rest

/-- Applies an operation to bits that are known to be right for it. -/
def applyUnchecked (s : Statevector α) (op : Operation α) (bits : List Nat) : Statevector α where
  qubitCount := s.qubitCount
  amplitudes := kernel op bits s.amplitudes
  size_eq := by rw [size_kernel, s.size_eq]

/-- Applies an operation to the given bits. -/
def apply (s : Statevector α) (op : Operation α) (bits : List Nat) :
    Except (RunError α) (Statevector α) := do
  if bits.length ≠ op.arity then throw (.arity op bits.length)
  checkBits op s.qubitCount [] bits
  return s.applyUnchecked op bits

end Statevector

/-- Which end of the index the first qubit of a register is at. -/
inductive BitOrder where
  | bigEndian
  | littleEndian
deriving DecidableEq, Repr

/-- The position in the index of a qubit of a register with `n` qubits. -/
def BitOrder.bit {α : Type} (order : BitOrder) (qubit : Qubit) (n : Nat) :
    Except (RunError α) Nat :=
  if n ≤ qubit.toNat then .error (.outOfRange qubit.toNat n)
  else
    match order with
    | .bigEndian => .ok (n - 1 - qubit.toNat)
    | .littleEndian => .ok qubit.toNat

/-- A list of operations, each with the qubits it acts on. -/
abbrev Program (α : Type) := List (Operation α × List Qubit)

section Run

variable {α : Type} [Scalar α]

/-- Applies an operation to qubits instead of bits. -/
def runStep (order : BitOrder) (s : Statevector α) (step : Operation α × List Qubit) :
    Except (RunError α) (Statevector α) := do
  let bits ← step.2.mapM fun q => order.bit q s.qubitCount
  s.apply step.1 bits

/-- Runs a program on a register of `n` qubits that are all zero. -/
def run (n : Nat) (order : BitOrder) (program : Program α) :
    Except (RunError α) (Statevector α) := do
  program.foldlM (runStep order) (← Statevector.new n)

end Run

/-! ### Outcomes -/

/-- A state index in binary, filled up with zeros to the size of the register. -/
def bitstring (index n : Nat) : String :=
  let ds := Nat.toDigits 2 index
  String.ofList (List.replicate (n - ds.length) '0' ++ ds)

/-- Whether two lists of numbers have the same length and differ nowhere by more than the
tolerance. -/
def sameDistribution (a b : List Float) (tolerance : Float) : Bool :=
  a.length == b.length && (a.zip b).all fun (x, y) => (x - y).abs ≤ tolerance

end CircuitExchange
