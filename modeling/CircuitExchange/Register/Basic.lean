import CircuitExchange.Gate.Record

/-!
Circuits over a register of declared size: a flat list of instructions, each checked against the
sizes when it is appended. Qubit zero is the least significant bit of an outcome.

* `RegisterCircuit.append`: the check and the new instruction.
-/

namespace CircuitExchange

/-- A gate on register qubits. Angles are in radians. -/
inductive RegisterGate (α : Type) where
  | id | h | x | y | z | s | sdg | t | tdg
  | cx | cz | swap | ccx
  | rx (theta : α)
  | ry (theta : α)
  | rz (theta : α)
  | u1 (lambda : α)
  | u2 (phi lambda : α)
  | u3 (theta phi lambda : α)
  /-- A measurement into a classical bit. -/
  | measure (clbit : UInt32)
deriving DecidableEq, Repr

namespace RegisterGate

variable {α : Type}

def name : RegisterGate α → String
  | id => "id"
  | h => "h"
  | x => "x"
  | y => "y"
  | z => "z"
  | s => "s"
  | sdg => "sdg"
  | t => "t"
  | tdg => "tdg"
  | cx => "cx"
  | cz => "cz"
  | swap => "swap"
  | ccx => "ccx"
  | rx _ => "rx"
  | ry _ => "ry"
  | rz _ => "rz"
  | u1 _ => "u1"
  | u2 .. => "u2"
  | u3 .. => "u3"
  | measure _ => "measure"

/-- The number of qubits the gate acts on. -/
def qubitCount : RegisterGate α → Nat
  | cx | cz | swap => 2
  | ccx => 3
  | _ => 1

def isMeasurement : RegisterGate α → Bool
  | measure _ => true
  | _ => false

/-- The angles in the order in which they are written. -/
def angles : RegisterGate α → List α
  | rx theta | ry theta | rz theta => [theta]
  | u1 lambda => [lambda]
  | u2 phi lambda => [phi, lambda]
  | u3 theta phi lambda => [theta, phi, lambda]
  | _ => []

end RegisterGate

/-- A gate applied to qubits of the register. -/
structure RegisterInstruction (α : Type) where
  gate : RegisterGate α
  qubits : List Qubit
deriving DecidableEq, Repr

def RegisterInstruction.text {α : Type} (inst : RegisterInstruction α) : String :=
  let qubits := ", ".intercalate (inst.qubits.map fun q => s!"q[{q.toNat}]")
  s!"{inst.gate.name} {qubits}"

/-- What can be wrong with an instruction, and what cannot be exported. -/
inductive RegisterError where
  | qubitCount (gate : String) (expected got : Nat)
  | qubitOutOfRange (qubit : Qubit) (size : UInt32)
  | duplicateQubit (gate : String) (qubit : Qubit)
  | clbitOutOfRange (clbit size : UInt32)
  | malformedInstruction (instruction : String)
  | unsupportedGate (gate : String)
deriving DecidableEq, Repr

def RegisterError.message : RegisterError → String
  | .qubitCount gate expected got =>
    s!"register: invalid native circuit: {gate} acts on {expected} qubit(s), got {got}"
  | .qubitOutOfRange qubit size =>
    s!"register: invalid native circuit: qubit {qubit.toNat} out of range for {size.toNat} qubits"
  | .duplicateQubit gate qubit =>
    s!"register: invalid native circuit: {gate} uses qubit {qubit.toNat} more than once"
  | .clbitOutOfRange clbit size =>
    s!"register: invalid native circuit: clbit {clbit.toNat} out of range for {size.toNat} clbits"
  | .malformedInstruction instruction =>
    s!"register: invalid native circuit: malformed instruction '{instruction}'"
  | .unsupportedGate gate => s!"register: unsupported gate '{gate}'"

/-- Instructions over registers of quantum and classical bits. -/
structure RegisterCircuit (α : Type) where
  qubitCount : UInt32
  clbitCount : UInt32
  instructions : List (RegisterInstruction α)
deriving DecidableEq, Repr

namespace RegisterCircuit

variable {α : Type}

/-- A circuit without instructions. -/
def new (qubitCount clbitCount : UInt32) : RegisterCircuit α := ⟨qubitCount, clbitCount, []⟩

/-- Checks qubits from left to right: each has to be in the register and not among the earlier
ones. -/
def checkQubits (gate : String) (size : UInt32) (seen : List Qubit) :
    List Qubit → Except RegisterError Unit
  | [] => .ok ()
  | q :: rest =>
    if size ≤ q then .error (.qubitOutOfRange q size)
    else if seen.contains q then .error (.duplicateQubit gate q)
    else checkQubits gate size (seen ++ [q]) rest

/-- Checks that a measurement goes to a classical bit of the circuit. -/
def checkClbit (c : RegisterCircuit α) : RegisterGate α → Except RegisterError Unit
  | .measure clbit =>
    if c.clbitCount ≤ clbit then .error (.clbitOutOfRange clbit c.clbitCount) else .ok ()
  | _ => .ok ()

/-- Checks a gate and its qubits against the sizes of the registers. -/
def check (c : RegisterCircuit α) (gate : RegisterGate α) (qubits : List Qubit) :
    Except RegisterError Unit := do
  if qubits.length ≠ gate.qubitCount then
    throw (.qubitCount gate.name gate.qubitCount qubits.length)
  checkQubits gate.name c.qubitCount [] qubits
  c.checkClbit gate

/-- Adds an instruction at the end. -/
def append (c : RegisterCircuit α) (gate : RegisterGate α) (qubits : List Qubit) :
    Except RegisterError (RegisterCircuit α) := do
  c.check gate qubits
  return { c with instructions := c.instructions ++ [⟨gate, qubits⟩] }

end RegisterCircuit

end CircuitExchange
