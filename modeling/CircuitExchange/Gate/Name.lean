import CircuitExchange.Text.Blank

/-!
The closed vocabulary of canonical gates: fourteen names with their spelling, the number of qubits
each acts on and the number of angles it takes.

* `parse?_text`: every name is read back from its spelling.
-/

namespace CircuitExchange

/-- A canonical gate. -/
inductive GateName where
  | i | h | x | y | z | s | t
  | cx | cz | swap
  | ccx
  | rx | ry | rz
deriving DecidableEq, Repr

namespace GateName

/-- The gates that are addressed by qubits only. -/
def plain : List GateName := [i, h, x, y, z, s, t, cx, cz, swap, ccx]

/-- The gates that take an angle before their qubits. -/
def rotations : List GateName := [rx, ry, rz]

/-- The whole vocabulary. -/
def all : List GateName := plain ++ rotations

/-- The canonical spelling, in upper case. -/
def text : GateName → String
  | i => "I"
  | h => "H"
  | x => "X"
  | y => "Y"
  | z => "Z"
  | s => "S"
  | t => "T"
  | cx => "CX"
  | cz => "CZ"
  | swap => "SWAP"
  | ccx => "CCX"
  | rx => "RX"
  | ry => "RY"
  | rz => "RZ"

/-- Whether tokens of this gate carry a group of angles. -/
def isRotation : GateName → Bool
  | rx | ry | rz => true
  | _ => false

/-- The number of qubits the gate acts on. -/
def qubitCount : GateName → Nat
  | cx | cz | swap => 2
  | ccx => 3
  | _ => 1

/-- The number of angles the gate takes. -/
def paramCount (g : GateName) : Nat := if g.isRotation then 1 else 0

/-- The spelling a name is looked up by: without blanks around it, in upper case. -/
def normalize (name : String) : String := String.ofList (Text.upper (Text.trim name.toList))

/-- Looks a name up in any case, with blanks around it ignored. -/
def parse? (name : String) : Option GateName := all.find? fun g => g.text == normalize name

theorem mem_all (g : GateName) : g ∈ all := by cases g <;> decide

theorem text_injective {g g' : GateName} (h : g.text = g'.text) : g = g' := by
  cases g <;> cases g' <;> first | rfl | exact absurd h (by decide)

theorem parse?_text (g : GateName) : parse? g.text = some g := by
  cases g <;> decide +kernel

end GateName

/-- A name outside the vocabulary, in the spelling it was looked up by. -/
structure UnknownGateName where
  name : String
deriving DecidableEq, Repr

def UnknownGateName.message (e : UnknownGateName) : String := s!"{e.name} is not recognized"

/-- Looks a name up; the error has its normalized spelling. -/
def GateName.parse (name : String) : Except UnknownGateName GateName :=
  match parse? name with
  | some g => .ok g
  | none => .error ⟨normalize name⟩

end CircuitExchange
