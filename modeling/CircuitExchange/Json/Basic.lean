import CircuitExchange.Decimal.Numeral

/-!
JSON values and how they are taken apart. Values that are written correctly and yet denote nothing,
such as half a surrogate pair or a number beyond the range, have a place of their own in a tree:
they are refused where a value is looked at, and do no harm where it is passed over.

* `Json.struct`: the fields of a structure, from an object or from a list of their values.
* `Json.isSound`: a value that may be kept whole.
-/

namespace CircuitExchange

/-- A number. Integers keep their sign and have at most 64 bits; minus zero is not one of them. -/
inductive JsonNumber where
  | integer (value : Int)
  | decimal (value : Float)
deriving DecidableEq

inductive Json where
  | null
  | bool (value : Bool)
  | number (value : JsonNumber)
  | string (value : String)
  | array (items : List Json)
  | object (members : List (String × Json))
  /-- A value that is written correctly and yet denotes nothing. -/
  | void

namespace Json

/-! ### Building values -/

def ofNat (n : Nat) : Json := number (.integer n)

def ofFloat (x : Float) : Json := number (.decimal x)

def ofQubits (qubits : List UInt32) : Json := array (qubits.map fun q => ofNat q.toNat)

/-! ### Taking values apart -/

/-- Values whose parts are kept may be nested this deep, counted from the whole text. -/
def maxNesting : Nat := 127

mutual

/-- Whether a value denotes something in all its parts and is not nested deeper than the limit. -/
def isSound (limit : Nat) : Json → Bool
  | void => false
  | array items => limit != 0 && allSound (limit - 1) items
  | object members => limit != 0 && allSoundMembers (limit - 1) members
  | _ => true

def allSound (limit : Nat) : List Json → Bool
  | [] => true
  | j :: rest => j.isSound limit && allSound limit rest

def allSoundMembers (limit : Nat) : List (String × Json) → Bool
  | [] => true
  | (_, j) :: rest => j.isSound limit && allSoundMembers limit rest

end

/-- The values of a key in the order in which they are written. -/
def valuesOf (key : String) (members : List (String × Json)) : List Json :=
  (members.filter (·.1 == key)).map (·.2)

/-- The value of a key, if it has one; a repeated key is refused. -/
def member? (key : String) (members : List (String × Json)) : Option (Option Json) :=
  match valuesOf key members with
  | [] => some none
  | [j] => some (some j)
  | _ => none

/--
The fields of a structure: the values of its keys in an object, other keys passed over, or the items
of a list, where fields at the end may be missing.
-/
def struct (keys : List String) : Json → Option (List (Option Json))
  | object members => keys.mapM (member? · members)
  | array items =>
    if keys.length < items.length then none
    else some (items.map some ++ List.replicate (keys.length - items.length) none)
  | _ => none

def list? {α : Type} (item : Json → Option α) : Json → Option (List α)
  | array items => items.mapM item
  | _ => none

def string? : Json → Option String
  | string value => some value
  | _ => none

/-- An integer of at most `bits` bits without a sign. -/
def nat? (bits : Nat) : Json → Option Nat
  | number (.integer value) =>
    if 0 ≤ value ∧ value.toNat < 1 <<< bits then some value.toNat else none
  | _ => none

def uint32? (j : Json) : Option UInt32 := (j.nat? 32).map UInt32.ofNat

def uint64? (j : Json) : Option UInt64 := (j.nat? 64).map UInt64.ofNat

/-- Any number. -/
def float? : Json → Option Float
  | number (.decimal value) => some value
  | number (.integer value) => some (Decimal.Numeral.toFloat (value < 0) ⟨value.natAbs, 0⟩)
  | _ => none

def qubits? (j : Json) : Option (List UInt32) := j.list? uint32?

/-- A name out of a closed set: its spelling, or an object with the spelling as its key and no
value. -/
def nameWith? {α : Type} (read : String → Option α) : Json → Option α
  | string value => read value
  | object [(key, null)] => read key
  | _ => none

/-- A field that may be missing. -/
def orDefault {α : Type} (read : Json → Option α) (default : α) : Option Json → Option α
  | some j => read j
  | none => some default

end Json

end CircuitExchange
