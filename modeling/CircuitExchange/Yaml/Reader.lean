import CircuitExchange.Yaml.Layout

/-!
Documents of YAML, read from tokens. A node has at most one anchor and one tag, in any order, and a
value. Collections are read by one function for each way they can be written; where a value is left
out, the node is empty.

* `Yaml.parse?`: the node of a text that holds at most one document.

Every bound is more than twice the number of tokens that are left.
-/

namespace CircuitExchange.Yaml

/-- How far a document has been read. -/
structure Source where
  tokens : List Token
  /-- What handles stand for in tags. -/
  handles : List (String × Tag)
  /-- The numbers of the anchors that have been named. -/
  anchors : List (String × Nat)

/-- Reading a part of a document. -/
abbrev Reading := StateT Source Option

namespace Reading

/-- The next token. -/
def peek : Reading (Option Token) := do return (← get).tokens.head?

/-- Passes over the next token. -/
def skip : Reading Unit := modify fun s => { s with tokens := s.tokens.drop 1 }

/-- Passes over the next token if it is this one. -/
def skipIf (t : Token) : Reading Bool := do
  if (← peek) == some t then
    skip
    return true
  return false

/-- Whether the next token is one of some. -/
def isNext (ts : List Token) : Reading Bool := do return (ts.map some).contains (← peek)

/-! ### Properties -/

/-- Gives a node an anchor: the number of names in use. It counts for the name from here on, and a
number given again counts for the later node. -/
def nameAnchor (name : String) : Reading Nat := do
  let s ← get
  let anchor := s.anchors.length
  set { s with anchors := (name, anchor) :: s.anchors.filter (·.1 != name) }
  return anchor

/-- The anchor of a name that is in use. -/
def anchorOf (name : String) : Reading Nat := do (← get).anchors.lookup name

/-- The full name of a tag. -/
def fullTag (handle : String) (suffix : Tag) : Reading Tag := do
  if handle.isEmpty then return suffix
  let meaning ← (← get).handles.lookup handle
  return meaning ++ suffix

/-- Reads the name of an anchor, if there is one. -/
def anchorName? : Reading (Option String) := do
  match ← peek with
  | some (.anchor name) =>
    skip
    return some name
  | _ => return none

/-- Reads a tag, if there is one. -/
def tag? : Reading (Option Tag) := do
  match ← peek with
  | some (.tag handle suffix) =>
    skip
    return some (← fullTag handle suffix)
  | _ => return none

/-- Reads an anchor and a tag, as far as there are such. -/
def properties : Reading (Option Nat × Option Tag) := do
  let first ← anchorName?
  let tag ← tag?
  let name ← if first.isSome then pure first else if tag.isSome then anchorName? else pure none
  return (← name.mapM nameAnchor, tag)

end Reading

open Reading

/-! ### Nodes -/

mutual

/-- Reads a node. Outside brackets it may be a block collection; the items of one that is the value
of a key may stand at the column of the key. -/
def node (inBlock mayAlign : Bool) : Nat → Reading Yaml
  | 0 => failure
  | bound + 1 => do
    if let some (.reference name) ← peek then
      skip
      return reference (← anchorOf name)
    let (anchor, tag) ← properties
    match ← peek with
    | some (.scalar style text) =>
      skip
      return scalar anchor tag style text
    | some .openBracket =>
      skip
      return sequence anchor (← flowItems true bound)
    | some .openBrace =>
      skip
      return mapping anchor (← flowEntries true bound)
    | t =>
      if mayAlign && t == some .dash then return sequence anchor (← alignedItems bound)
      else if inBlock && t == some .blockSequence then
        skip
        return sequence anchor (← blockItems bound)
      else if inBlock && t == some .blockMapping then
        skip
        return mapping anchor (← blockEntries bound)
      else if anchor.isSome || tag.isSome then return scalar anchor tag .plain ""
      else failure

/-- Reads the items of a block sequence up to its end. -/
def blockItems : Nat → Reading (List Yaml)
  | 0 => failure
  | bound + 1 => do
    if ← skipIf .blockEnd then return []
    if !(← skipIf .dash) then failure
    let y ← if ← isNext [.dash, .blockEnd] then pure empty else node true false bound
    return y :: (← blockItems bound)

/-- Reads the items of a block sequence that has no column of its own. -/
def alignedItems : Nat → Reading (List Yaml)
  | 0 => failure
  | bound + 1 => do
    if !(← skipIf .dash) then return []
    let y ← if ← isNext [.dash, .key, .value, .blockEnd] then pure empty else node true false bound
    return y :: (← alignedItems bound)

/-- Reads a key or a value of a block mapping. -/
def blockPart : Nat → Reading Yaml
  | 0 => failure
  | bound + 1 => do
    if ← isNext [.key, .value, .blockEnd] then return empty
    node true true bound

/-- Reads the entries of a block mapping up to its end. -/
def blockEntries : Nat → Reading (List (Yaml × Yaml))
  | 0 => failure
  | bound + 1 => do
    if ← skipIf .blockEnd then return []
    if !(← skipIf .key) then failure
    let key ← blockPart bound
    let y ← if ← skipIf .value then blockPart bound else pure empty
    return (key, y) :: (← blockEntries bound)

/-- Reads a value within brackets, which ends at a comma or at the closing mark. -/
def flowValue (close : Token) : Nat → Reading Yaml
  | 0 => failure
  | bound + 1 => do
    if !(← skipIf .value) then return empty
    if ← isNext [.comma, close] then return empty
    node false false bound

/-- Reads the only entry of a mapping that is an item between brackets, after the mark of its key.
What takes the place of a key that is left out is passed over. -/
def flowPair : Nat → Reading Yaml
  | 0 => failure
  | bound + 1 => do
    let key ←
      if ← isNext [.value, .comma, .closeBracket] then do
        skip
        pure empty
      else node false false bound
    return mapping none [(key, ← flowValue .closeBracket bound)]

/-- Reads the items of a flow sequence up to its end, the first of them without a comma before
it. -/
def flowItems (isFirst : Bool) : Nat → Reading (List Yaml)
  | 0 => failure
  | bound + 1 => do
    if ← skipIf .closeBracket then return []
    if !isFirst then
      if !(← skipIf .comma) then failure
      if ← skipIf .closeBracket then return []
    let y ← if ← skipIf .key then flowPair bound else node false false bound
    return y :: (← flowItems false bound)

/-- Reads an entry of a flow mapping, which is only a key if it has no colon. -/
def flowEntry : Nat → Reading (Yaml × Yaml)
  | 0 => failure
  | bound + 1 => do
    if ← skipIf .key then
      let key ←
        if ← isNext [.value, .comma, .closeBrace] then pure empty else node false false bound
      return (key, ← flowValue .closeBrace bound)
    return (← node false false bound, empty)

/-- Reads the entries of a flow mapping up to its end, the first of them without a comma before
it. -/
def flowEntries (isFirst : Bool) : Nat → Reading (List (Yaml × Yaml))
  | 0 => failure
  | bound + 1 => do
    if ← skipIf .closeBrace then return []
    if !isFirst then
      if !(← skipIf .comma) then failure
      if ← skipIf .closeBrace then return []
    let entry ← flowEntry bound
    return entry :: (← flowEntries false bound)

end

/-! ### Documents -/

/-- Adds what a handle stands for to those that have been declared, each of them once. -/
def declare (name : String) (meaning : Tag) : Reading Unit := do
  let s ← get
  if (s.handles.lookup name).isSome then failure
  set { s with handles := (name, meaning) :: s.handles }

/-- Reads directives. The version may be given once, and is 1.1 or 1.2. -/
def directives (mayHaveVersion : Bool) : List Token → Reading Unit
  | .version major minor :: rest => do
    if !mayHaveVersion || major != 1 || !(minor == 1 || minor == 2) then failure
    skip
    directives false rest
  | .handle name meaning :: rest => do
    declare name meaning
    skip
    directives mayHaveVersion rest
  | _ => return

/-- What handles stand for, if it has not been declared. -/
def coreHandles : List (String × Tag) := [("!", "!".toUTF8.toList), ("!!", coreTag "")]

/-- Whether a token comes before the content of a document. -/
def isBeforeContent : Token → Bool
  | .version .. | .handle .. | .documentStart => true
  | _ => false

/-- Reads a document. One that has a mark before its content may be empty. -/
def document (bound : Nat) : Reading Yaml := do
  let tokens := (← get).tokens
  let isMarked := (tokens.head?.map isBeforeContent).getD false
  if isMarked then
    directives true tokens
    if !(← skipIf .documentStart) then failure
  modify fun s => { s with handles := s.handles ++ coreHandles }
  let isOver := ((← peek).map fun t => isBeforeContent t || t == .documentEnd).getD true
  if isMarked && isOver then return empty
  node true false bound

/-- Reads a text that holds at most one document. One without any is empty. -/
def parse? (text : String) : Option Yaml := do
  let tokens ← tokens? text.toList
  if tokens.isEmpty then return empty
  let (y, source) ← (document (2 * tokens.length + 2)).run ⟨tokens, [], []⟩
  if source.tokens.all (· == .documentEnd) then return y else none

end CircuitExchange.Yaml
