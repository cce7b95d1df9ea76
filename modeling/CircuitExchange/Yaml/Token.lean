import CircuitExchange.Yaml.Basic
import CircuitExchange.Yaml.Cursor

/-!
The tokens of a YAML text, and how those are read that start with a mark of their own: directives,
references, anchors and tags.

* `takeDirective?`: a directive and the rest of its line.
* `takeTag?`: a tag, in full or short for something that its handle stands for.
-/

namespace CircuitExchange.Yaml

/-- The parts of a text. The start and the end of a block collection, and that of a key, need not be
written. -/
inductive Token where
  | version (major minor : Nat)
  /-- What a handle stands for. -/
  | handle (name : String) (meaning : Tag)
  | documentStart
  | documentEnd
  | blockSequence
  | blockMapping
  | blockEnd
  | openBracket
  | closeBracket
  | openBrace
  | closeBrace
  | comma
  | dash
  | key
  | value
  | reference (name : String)
  | anchor (name : String)
  | tag (handle : String) (suffix : Tag)
  | scalar (style : ScalarStyle) (text : String)
deriving DecidableEq

/-! ### Names -/

/-- What may follow the name of an anchor without a blank. -/
def afterName : List Char := "?:,]\x7d%@`".toList

/-- Reads the name of an anchor. -/
def takeName? (c : Cursor) : Option (String × Cursor) :=
  let (name, c) := c.takeWhile isNameChar
  if name.isEmpty then none
  else if isWordEnd c.rest || (c.rest.head?.map afterName.contains).getD false then
    some (String.ofList name, c)
  else none

/-! ### Tags -/

/-- The characters of a tag that stand for themselves; some marks only where a tag is written in
full. -/
def isTagChar (isFull : Bool) (c : Char) : Bool :=
  isNameChar c || ";/?:@&=+$.!~*'()".toList.contains c || (isFull && [',', '[', ']'].contains c)

/-- The number of octets that follow the first octet of a character. -/
def followers? (octet : Nat) : Option Nat :=
  if octet < 0x80 then some 0
  else if octet < 0xc0 then none
  else if octet < 0xe0 then some 1
  else if octet < 0xf0 then some 2
  else if octet < 0xf8 then some 3
  else none

/-- The octets of the text of a tag, where an octet may be written as a percent sign and two digits.
So many octets must follow as the character needs that was started last. -/
def takeOctets? (isFull : Bool) : Nat → List Char → Option (Tag × List Char)
  | 0, '%' :: high :: low :: rest => do
    let octet ← digits? 16 [high, low]
    let (octets, rest) ← takeOctets? isFull (← followers? octet) rest
    return (UInt8.ofNat octet :: octets, rest)
  | n + 1, '%' :: high :: low :: rest => do
    let octet ← digits? 16 [high, low]
    guard (0x80 ≤ octet && octet < 0xc0)
    let (octets, rest) ← takeOctets? isFull n rest
    return (UInt8.ofNat octet :: octets, rest)
  | 0, c :: rest =>
    if isTagChar isFull c then
      (takeOctets? isFull 0 rest).map fun (octets, rest) => (UInt8.ofNat c.toNat :: octets, rest)
    else if c == '%' then none
    else some ([], c :: rest)
  | 0, [] => some ([], [])
  | _, _ => none

/-- Reads the text of a tag. It ends before the first octet of zero. -/
def takeTagText? (isFull : Bool) (c : Cursor) : Option (Tag × Cursor) := do
  let (octets, rest) ← takeOctets? isFull 0 c.rest
  return (octets.takeWhile (· != 0), c.skip (c.rest.length - rest.length))

/-- A text of at least one character. -/
def takeTagName? (isFull : Bool) (c : Cursor) : Option (Tag × Cursor) := do
  let (name, next) ← takeTagText? isFull c
  if next.index == c.index then none else return (name, next)

/-- The characters of a handle: an exclamation mark, a name, and another mark if there is one. -/
def handleChars : List Char → List Char
  | '!' :: rest =>
    let name := rest.takeWhile isNameChar
    '!' :: name ++ if (rest.drop name.length).head? == some '!' then ['!'] else []
  | _ => []

/-- Whether characters are a handle that needs what it stands for. -/
def isNamedHandle (cs : List Char) : Bool := 1 < cs.length && cs.getLast? == some '!'

/-- Reads a tag. It is written in full within angle brackets, or after a handle. -/
def takeTag? (inFlow : Bool) (c : Cursor) : Option (Token × Cursor) := do
  let (tag, c) ← match c.rest with
    | '!' :: '<' :: _ => do
      let (name, c) ← takeTagName? true (c.skip 2)
      if c.isAt '>' then pure (Token.tag "" name, c.skip 1) else none
    | rest => do
      let handle := handleChars rest
      if isNamedHandle handle then
        let (name, c) ← takeTagName? false (c.skip handle.length)
        pure (Token.tag (String.ofList handle) name, c)
      else
        let (name, c) ← takeTagText? false (c.skip 1)
        pure (if name.isEmpty then Token.tag "" "!".toUTF8.toList else Token.tag "!" name, c)
  if isWordEnd c.rest || (inFlow && c.isAt ',') then return (tag, c) else none

/-! ### Directives -/

/-- Reads a number of a version. -/
def takeVersionNumber? (c : Cursor) : Option (Nat × Cursor) :=
  let (ds, c) := c.takeWhile Char.isDigit
  if 9 < ds.length then none else (digits? 10 ds).map (·, c)

def takeVersion? (c : Cursor) : Option (Token × Cursor) := do
  let (major, c) ← takeVersionNumber? c
  if !c.isAt '.' then none
  let (minor, c) ← takeVersionNumber? (c.skip 1)
  return (.version major minor, c)

def takeHandle? (c : Cursor) : Option (Token × Cursor) := do
  let handle := handleChars c.rest
  if handle != ['!'] && !isNamedHandle handle then none
  let c := c.skip handle.length
  let next := c.skipBlanks
  if next.index == c.index then none
  let (meaning, c) ← takeTagName? true next
  if isWordEnd c.rest then return (.handle (String.ofList handle) meaning, c) else none

/-- Reads a directive after its mark. -/
def takeDirective? (c : Cursor) : Option (Token × Cursor) := do
  let (name, c) := c.takeWhile isNameChar
  if !isWordEnd c.rest then none
  let (directive, c) ← match String.ofList name with
    | "YAML" => takeVersion? c.skipBlanks
    | "TAG" => takeHandle? c.skipBlanks
    | _ => none
  return (directive, ← c.restOfLine?)

end CircuitExchange.Yaml
