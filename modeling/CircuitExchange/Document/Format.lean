/-!
The formats that circuits are kept in.
-/

namespace CircuitExchange

inductive Format where
  | canonical
  | moment
  | register
  | timed
deriving DecidableEq, Repr

namespace Format

def all : List Format := [canonical, moment, register, timed]

def name : Format → String
  | canonical => "canonical"
  | moment => "moment"
  | register => "register"
  | timed => "timed"

def description : Format → String
  | canonical => "gate tokens, one per line (`//` comments allowed)"
  | moment => "moments of operations on line qubits, rotations as half-turns"
  | register => "flat instruction list, qubit 0 least significant"
  | timed => "gates keyed by (time, qubits), rotations as half-angles"

/-- The encoding of files in this format. -/
def encoding : Format → String
  | canonical => "text"
  | _ => "json"

/-- The format with the given name, in any case if case is ignored. -/
def parse? (ignoreCase : Bool) (name : String) : Option Format :=
  all.find? fun format =>
    if ignoreCase then format.name == String.ofList (name.toList.map Char.toLower)
    else format.name == name

end Format

end CircuitExchange
