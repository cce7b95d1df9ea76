import CircuitExchange.Decimal.Numeral

/-!
The nodes of a YAML document and how they are taken apart. A node may carry an anchor, which is a
number, and a node elsewhere may be a reference to it. A scalar is a text; which scalars also stand
for truth values and numbers depends on how they are written and tagged.

* `Yaml.resolve?`: the node a reference stands for.
* `Yaml.fields?`: the values of the fields of a structure.
-/

namespace CircuitExchange

/-- How a scalar is written: bare, in quotation marks, or as a block that keeps or folds its
lines. -/
inductive Yaml.ScalarStyle where
  | plain
  | quoted
  | literal
  | folded
deriving DecidableEq, Repr

/-- A tag in full, as the octets of its name. -/
abbrev Yaml.Tag := List UInt8

inductive Yaml where
  | scalar (anchor : Option Nat) (tag : Option Yaml.Tag) (style : Yaml.ScalarStyle) (text : String)
  | sequence (anchor : Option Nat) (items : List Yaml)
  | mapping (anchor : Option Nat) (entries : List (Yaml × Yaml))
  | reference (anchor : Nat)

namespace Yaml

/-- The node where nothing is written. -/
def empty : Yaml := scalar none none .plain ""

/-! ### References -/

/-- The anchor of a node. -/
def anchor? : Yaml → Option Nat
  | scalar anchor _ _ _ => anchor
  | sequence anchor _ => anchor
  | mapping anchor _ => anchor
  | reference _ => none

mutual

/-- The nodes within a node that have an anchor, in the order in which they start. -/
def anchored : Yaml → List (Nat × Yaml)
  | scalar anchor tag style text => (anchor.map (·, scalar anchor tag style text)).toList
  | sequence anchor items =>
    (anchor.map (·, sequence anchor items)).toList ++ anchoredItems items
  | mapping anchor entries =>
    (anchor.map (·, mapping anchor entries)).toList ++ anchoredEntries entries
  | reference _ => []

def anchoredItems : List Yaml → List (Nat × Yaml)
  | [] => []
  | y :: ys => anchored y ++ anchoredItems ys

def anchoredEntries : List (Yaml × Yaml) → List (Nat × Yaml)
  | [] => []
  | (key, y) :: rest => anchored key ++ anchored y ++ anchoredEntries rest

end

/-- The node itself, or what it refers to: the last node of the document with that anchor. -/
def resolve? (root : Yaml) : Yaml → Option Yaml
  | reference anchor => root.anchored.reverse.lookup anchor
  | y => some y

/-! ### Scalars -/

/-- The full name of a tag of the format itself. -/
def coreTag (name : String) : Tag := ("tag:yaml.org,2002:" ++ name).toUTF8.toList

/-- The text of a scalar. -/
def text? : Yaml → Option String
  | scalar _ _ _ text => some text
  | _ => none

/-- The text of a scalar that may stand for something else: it is bare, or its lines are kept and it
is tagged as such. -/
def bareText? (name : String) : Yaml → Option String
  | scalar _ _ .plain text => some text
  | scalar _ tag .literal text => if tag = some (coreTag name) then some text else none
  | _ => none

def boolOfText? : String → Option Bool
  | "true" => some true
  | "True" => some true
  | "TRUE" => some true
  | "false" => some false
  | "False" => some false
  | "FALSE" => some false
  | _ => none

def bool? (y : Yaml) : Option Bool := do boolOfText? (← y.bareText? "bool")

/-- The value of a digit, up to the base. -/
def digit? (base : Nat) (c : Char) : Option Nat :=
  let value :=
    if c.isDigit then c.toNat - '0'.toNat
    else if c.isLower then c.toNat - 'a'.toNat + 10
    else if c.isUpper then c.toNat - 'A'.toNat + 10
    else base
  if value < base then some value else none

/-- The number of a run of digits, at least one. -/
def digits? (base : Nat) : List Char → Option Nat
  | [] => none
  | cs => cs.foldlM (fun n c => do return base * n + (← digit? base c)) 0

/-- Removes a plus sign. -/
def dropPlus : List Char → List Char
  | '+' :: cs => cs
  | cs => cs

/-- An integer without a sign: decimal without leading zeros, or with the mark of another base. -/
def natOfChars? (cs : List Char) : Option Nat :=
  match dropPlus cs with
  | '0' :: 'x' :: ds => digits? 16 ds
  | '0' :: 'o' :: ds => digits? 8 ds
  | '0' :: 'b' :: ds => digits? 2 ds
  | ['0'] => some 0
  | '0' :: _ => none
  | ds => digits? 10 ds

/-- An integer of 64 bits without a sign. -/
def nat? (y : Yaml) : Option Nat := do
  (natOfChars? (← y.bareText? "int").toList).filter (· < UInt64.size)

/-- A numeral with a finite value, or infinity or no number by their names. -/
def floatOfChars? (cs : List Char) : Option Float :=
  match String.ofList cs with
  | ".inf" | ".Inf" | ".INF" | "+.inf" | "+.Inf" | "+.INF" => some Decimal.infinity
  | "-.inf" | "-.Inf" | "-.INF" => some (-Decimal.infinity)
  | ".nan" | ".NaN" | ".NAN" => some Decimal.notANumber
  | _ => (Decimal.readFloat? cs).filter Float.isFinite

def float? (y : Yaml) : Option Float := do floatOfChars? (← y.bareText? "float").toList

/-! ### Structures -/

/-- The value of a key, if it has one; a repeated key is refused. -/
def member? (key : String) (entries : List (String × Yaml)) : Option (Option Yaml) :=
  match entries.filter (·.1 == key) with
  | [] => some none
  | [(_, y)] => some (some y)
  | _ => none

/--
The fields of a structure: the values of its keys in a mapping, whose keys are all scalars, with
other keys passed over. Where nothing is written no field has a value. References are followed.
-/
def fields? (root : Yaml) (keys : List String) : Yaml → Option (List (Option Yaml))
  | scalar _ _ .plain "" => some (keys.map fun _ => none)
  | mapping _ entries => do
    let entries ← entries.mapM fun (key, y) => do
      return (← (← resolve? root key).text?, ← resolve? root y)
    keys.mapM (member? · entries)
  | _ => none

/-- A field that may be missing. -/
def orDefault {α : Type} (read : Yaml → Option α) (default : α) : Option Yaml → Option α
  | some y => read y
  | none => some default

end Yaml

end CircuitExchange
