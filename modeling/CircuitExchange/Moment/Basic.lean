import CircuitExchange.Gate.Record

/-!
Circuits of moments. A moment holds operations that happen at the same time; an appended operation
is put into the earliest moment after all those that touch one of its qubits. Rotations are stored
as half-turns: exponent one is a rotation by π.

* `MomentCircuit.append`: placement of one operation.
* `MomentCircuit.operations`: all operations, moment by moment.
-/

namespace CircuitExchange

/-- A gate on line qubits. -/
inductive MomentGate (α : Type) where
  | i | h | x | y | z | s | t
  | cnot | cz | swap | toffoli | iswap
  | rx (exponent : α)
  | ry (exponent : α)
  | rz (exponent : α)
  /-- A measurement of any number of qubits under a key. -/
  | measure (key : String)
deriving DecidableEq, Repr

namespace MomentGate

variable {α : Type}

def name : MomentGate α → String
  | i => "I"
  | h => "H"
  | x => "X"
  | y => "Y"
  | z => "Z"
  | s => "S"
  | t => "T"
  | cnot => "CNOT"
  | cz => "CZ"
  | swap => "SWAP"
  | toffoli => "TOFFOLI"
  | iswap => "ISWAP"
  | rx _ => "Rx"
  | ry _ => "Ry"
  | rz _ => "Rz"
  | measure _ => "measure"

/-- The number of qubits the gate acts on, which a measurement leaves open. -/
def qubitCount? : MomentGate α → Option Nat
  | measure _ => none
  | cnot | cz | swap | iswap => some 2
  | toffoli => some 3
  | _ => some 1

def isMeasurement : MomentGate α → Bool
  | measure _ => true
  | _ => false

/-- The number of half-turns in an angle. -/
def halfTurns [Scalar α] (radians : α) : α := radians / Scalar.pi

def text (g : MomentGate Float) : String :=
  match g with
  | rx exponent | ry exponent | rz exponent =>
    s!"{g.name}({Decimal.Style.plain.text exponent}π)"
  | _ => g.name

end MomentGate

/-- A gate applied to line qubits. -/
structure MomentOperation (α : Type) where
  gate : MomentGate α
  qubits : List Qubit
deriving DecidableEq, Repr

/-- What can be wrong with an operation, and what cannot be exported. -/
inductive MomentError where
  | qubitCount (gate : String) (expected got : Nat)
  | duplicateQubit (gate : String) (qubit : Qubit)
  | unsupportedGate (gate : String)
deriving DecidableEq, Repr

def MomentError.message : MomentError → String
  | .qubitCount gate expected got =>
    s!"moment: invalid native circuit: {gate} acts on {expected} qubit(s), got {got}"
  | .duplicateQubit gate qubit =>
    s!"moment: invalid native circuit: {gate} uses q({qubit.toNat}) more than once"
  | .unsupportedGate gate => s!"moment: unsupported gate '{gate}'"

namespace MomentOperation

variable {α : Type}

/-- Checks the number of qubits and that none is repeated. -/
def validate (op : MomentOperation α) : Except MomentError Unit :=
  match op.gate.qubitCount? with
  | some n =>
    if n ≠ op.qubits.length then .error (.qubitCount op.gate.name n op.qubits.length)
    else distinct
  | none => distinct
where
  distinct : Except MomentError Unit :=
    match firstRepeated? [] op.qubits with
    | some q => .error (.duplicateQubit op.gate.name q)
    | none => .ok ()

def text (op : MomentOperation Float) : String :=
  let qubits := ", ".intercalate (op.qubits.map fun q => s!"q({q.toNat})")
  s!"{op.gate.text}({qubits})"

end MomentOperation

/-- Operations that happen at the same time. -/
abbrev Moment (α : Type) := List (MomentOperation α)

/-- Whether an operation of the moment acts on one of the qubits. -/
def Moment.touches {α : Type} (m : Moment α) (qubits : List Qubit) : Bool :=
  m.any fun op => op.qubits.any qubits.contains

/-- A list of moments. -/
structure MomentCircuit (α : Type) where
  moments : List (Moment α)
deriving DecidableEq, Repr

namespace MomentCircuit

variable {α : Type}

def empty : MomentCircuit α := ⟨[]⟩

/-- The index after the last moment that touches one of the qubits, or zero. -/
def place (qubits : List Qubit) : List (Moment α) → Nat
  | [] => 0
  | m :: rest =>
    match place qubits rest with
    | 0 => if m.touches qubits then 1 else 0
    | n + 1 => n + 2

/-- The moments with the operation added to the one at the index, or to a new one at the end. -/
def addAt (op : MomentOperation α) : Nat → List (Moment α) → List (Moment α)
  | _, [] => [[op]]
  | 0, m :: rest => (m ++ [op]) :: rest
  | n + 1, m :: rest => m :: addAt op n rest

/-- Adds an operation to the earliest moment after all those that touch one of its qubits. -/
def append (c : MomentCircuit α) (op : MomentOperation α) :
    Except MomentError (MomentCircuit α) := do
  op.validate
  return ⟨addAt op (place op.qubits c.moments) c.moments⟩

/-- Adds a new moment with one operation, which is not checked. -/
def appendMoment (c : MomentCircuit α) (op : MomentOperation α) : MomentCircuit α :=
  ⟨c.moments ++ [[op]]⟩

/-- All operations in the order they are applied. -/
def operations (c : MomentCircuit α) : List (MomentOperation α) := c.moments.flatten

/-- The qubits that any operation acts on, in increasing order. -/
def qubits (c : MomentCircuit α) : List Qubit :=
  ((c.operations.flatMap (·.qubits)).mergeSort (· ≤ ·)).eraseReps

/-- One more than the largest qubit. -/
def qubitCount (c : MomentCircuit α) : UInt32 :=
  impliedQubitCount (c.operations.flatMap (·.qubits))

/-- The number of moments. -/
def depth (c : MomentCircuit α) : Nat := c.moments.length

end MomentCircuit

end CircuitExchange
