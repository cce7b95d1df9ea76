import CircuitExchange.Gate.Record
import CircuitExchange.Timed.Parameters

/-!
Circuits of timed gates: a gate is kept under its time step and its qubits, and no two gates of one
time step share a qubit. Rotations are stored as half-angles: `theta` stands for a rotation by twice
as much.

* `TimedCircuit.addAt`: a gate at a given time.
* `TimedCircuit.add`: a gate at the first time after all gates that share a qubit with it.
* `TimedCircuit.ofEntries`: entries added in the order they are given.
-/

namespace CircuitExchange

/-- The kinds of timed gates. -/
inductive TimedName where
  | i | h | x | y | z | s
  /-- The inverse of `s`. -/
  | st
  | t
  | cx | cz | swap | ccx
  | rx | ry | rz
deriving DecidableEq, Repr

namespace TimedName

def all : List TimedName := [i, h, x, y, z, s, st, t, cx, cz, swap, ccx, rx, ry, rz]

def text : TimedName → String
  | i => "I"
  | h => "H"
  | x => "X"
  | y => "Y"
  | z => "Z"
  | s => "S"
  | st => "ST"
  | t => "T"
  | cx => "CX"
  | cz => "CZ"
  | swap => "SWAP"
  | ccx => "CCX"
  | rx => "Rx"
  | ry => "Ry"
  | rz => "Rz"

/-- The number of qubits the gate acts on. -/
def qubitCount : TimedName → Nat
  | cx | cz | swap => 2
  | ccx => 3
  | _ => 1

/-- Whether the gate needs the parameter `theta`. -/
def isRotation : TimedName → Bool
  | rx | ry | rz => true
  | _ => false

end TimedName

/-- The parameter of rotations. -/
def thetaKey : String := "theta"

/-- A gate with named parameters. -/
structure TimedGate (α : Type) where
  name : TimedName
  parameters : Parameters α
deriving DecidableEq, Repr

namespace TimedGate

variable {α : Type}

/-- A gate without parameters. -/
def plain (name : TimedName) : TimedGate α := ⟨name, .empty⟩

/-- A gate with the parameter `theta`. -/
def rotation (name : TimedName) (theta : α) : TimedGate α := ⟨name, .single thetaKey theta⟩

/-- The gate with a parameter added or given another value. -/
def setParameter (g : TimedGate α) (key : String) (value : α) : TimedGate α :=
  { g with parameters := g.parameters.insert key value }

/-- The value of `theta`. -/
def theta? (g : TimedGate α) : Option α := g.parameters.lookup? thetaKey

def text (g : TimedGate Float) : String :=
  if g.parameters.entries.isEmpty then g.name.text
  else
    let parameters := ", ".intercalate
      (g.parameters.entries.map fun (key, value) => key ++ "=" ++ Decimal.Style.plain.text value)
    s!"{g.name.text}({parameters})"

end TimedGate

/-- What can be wrong with a timed gate, and what cannot be exported. -/
inductive TimedError where
  | timeOutOfRange (time : UInt64)
  | qubitCount (gate : TimedName) (got : Nat)
  | duplicateQubit (gate : TimedName) (qubit : Qubit)
  | occupied (qubits : List Qubit) (time : UInt64)
  | missingTheta (gate : TimedName)
  | unexpectedParameter (gate : TimedName) (key : String)
  | unsupportedGate (gate : TimedName)
deriving DecidableEq, Repr

namespace TimedError

def message : TimedError → String
  | timeOutOfRange time => invalid s!"time {time.toNat} is out of range"
  | qubitCount gate got =>
    invalid s!"{gate.text} acts on {gate.qubitCount} qubit(s), got {got}"
  | duplicateQubit gate qubit =>
    invalid s!"{gate.text} uses qubit {qubit.toNat} more than once"
  | occupied qubits time =>
    let list := ", ".intercalate (qubits.map fun q => toString q.toNat)
    invalid s!"qubits [{list}] already occupied at time {time.toNat}"
  | missingTheta gate => invalid s!"{gate.text} is missing parameter '{thetaKey}'"
  | unexpectedParameter gate key => invalid s!"{gate.text} has unexpected parameter '{key}'"
  | unsupportedGate gate => s!"timed: unsupported gate '{gate.text}'"
where
  invalid (detail : String) : String := "timed: invalid native circuit: " ++ detail

end TimedError

/-- A gate at a time step, on its qubits. -/
structure TimedEntry (α : Type) where
  time : UInt64
  qubits : List Qubit
  gate : TimedGate α
deriving DecidableEq, Repr

namespace TimedEntry

variable {α : Type}

/-- Entries are ordered by time, then by their qubits, compared from left to right. -/
def before (e e' : TimedEntry α) : Bool :=
  e.time < e'.time || (e.time == e'.time && e.qubits < e'.qubits)

/-- Whether the entry acts on one of the qubits. -/
def touches (e : TimedEntry α) (qubits : List Qubit) : Bool := e.qubits.any qubits.contains

end TimedEntry

/-- The number one above a time, or the largest number for the largest time. -/
def nextTime (time : UInt64) : UInt64 := if time = lastTime then time else time + 1
where
  /-- The largest number, which is no time: every time has a next one. -/
  lastTime : UInt64 := 0xffffffffffffffff

/-- Entries in their order. -/
structure TimedCircuit (α : Type) where
  entries : List (TimedEntry α)
deriving DecidableEq, Repr

namespace TimedCircuit

variable {α : Type}

def empty : TimedCircuit α := ⟨[]⟩

/-- Entries in their order, with one more. -/
def insert (e : TimedEntry α) : List (TimedEntry α) → List (TimedEntry α)
  | [] => [e]
  | a :: rest => if e.before a then e :: a :: rest else a :: insert e rest

/-- Checks an entry by itself. -/
def checkEntry (e : TimedEntry α) : Except TimedError Unit := do
  if e.time = nextTime.lastTime then throw (.timeOutOfRange e.time)
  if e.qubits.length ≠ e.gate.name.qubitCount then
    throw (.qubitCount e.gate.name e.qubits.length)
  match firstRepeated? [] e.qubits with
  | some q => throw (.duplicateQubit e.gate.name q)
  | none => return ()

/-- Whether a gate at the given time acts on one of the qubits. -/
def occupied (c : TimedCircuit α) (qubits : List Qubit) (time : UInt64) : Bool :=
  c.entries.any fun e => e.time == time && e.touches qubits

/-- Adds an entry whose qubits are free at its time. -/
def addEntry (c : TimedCircuit α) (e : TimedEntry α) : Except TimedError (TimedCircuit α) := do
  checkEntry e
  if c.occupied e.qubits e.time then throw (.occupied e.qubits e.time)
  return ⟨insert e c.entries⟩

/-- Adds a gate at a given time. -/
def addAt (c : TimedCircuit α) (gate : TimedGate α) (qubits : List Qubit) (time : UInt64) :
    Except TimedError (TimedCircuit α) := c.addEntry ⟨time, qubits, gate⟩

/-- The first time after all gates that act on one of the qubits. -/
def freeTime (c : TimedCircuit α) (qubits : List Qubit) : UInt64 :=
  (c.entries.filter (·.touches qubits)).foldl (fun time e => max time (nextTime e.time)) 0

/-- Adds a gate at the first time after all gates that share a qubit with it. -/
def add (c : TimedCircuit α) (gate : TimedGate α) (qubits : List Qubit) :
    Except TimedError (UInt64 × TimedCircuit α) := do
  let time := c.freeTime qubits
  return (time, ← c.addAt gate qubits time)

/-- The circuit with the given entries, added one after the other. -/
def ofEntries (entries : List (TimedEntry α)) : Except TimedError (TimedCircuit α) :=
  entries.foldlM addEntry empty

/-- One more than the largest qubit. -/
def qubitCount (c : TimedCircuit α) : UInt32 := impliedQubitCount (c.entries.flatMap (·.qubits))

/-- The number of time steps up to the last gate. -/
def timeCount (c : TimedCircuit α) : UInt64 :=
  c.entries.foldl (fun count e => max count (nextTime e.time)) 0

end TimedCircuit

end CircuitExchange
