import CircuitExchange.Yaml.Scalar
import CircuitExchange.Yaml.Token

/-!
The tokens of a YAML text in order. Indentation opens and closes block collections, and a colon
makes what is before it on its line a key, so that tokens are put in before those already read.

* `tokens?`: all tokens of a text.
-/

namespace CircuitExchange.Yaml

/-- A place where a key may have started. -/
structure KeyStart where
  place : Cursor
  /-- The number of tokens before it. -/
  before : Nat
  /-- Whether nothing but a key can stand there. -/
  isNeeded : Bool

/-- The most octets that a key may have before its colon. -/
def maxKeyLength : Nat := 1024

/-- Whether a colon can still belong to the key: it is on the same line and not too far away. -/
def KeyStart.reaches (k : KeyStart) (c : Cursor) : Bool :=
  k.place.line == c.line && c.index ≤ k.place.index + maxKeyLength

/-- How far a text has been read. -/
structure Scanner where
  cursor : Cursor
  /-- The tokens so far, the newest first, and their number. -/
  tokens : List Token
  count : Nat
  /-- The columns of the block collections that are open, the innermost first. -/
  columns : List Nat
  /-- The key that may have started within the innermost brackets. -/
  keyStart : Option KeyStart
  /-- The same for the brackets around them and for the text outside. -/
  outerStarts : List (Option KeyStart)
  /-- Whether a key may start here. -/
  mayStartKey : Bool

namespace Scanner

def start (text : List Char) : Scanner := ⟨.start text, [], 0, [], none, [], true⟩

/-- Whether the place is within brackets. -/
def inFlow (s : Scanner) : Bool := !s.outerStarts.isEmpty

/-- The least column of lines that belong to the innermost block collection. -/
def least (s : Scanner) : Nat := (s.columns.head?.map (· + 1)).getD 0

def emit (t : Token) (s : Scanner) : Scanner :=
  { s with tokens := t :: s.tokens, count := s.count + 1 }

/-- Puts tokens in after so many others. -/
def insert (before : Nat) (ts : List Token) (s : Scanner) : Scanner :=
  let newer := s.count - before
  { s with
    tokens := s.tokens.take newer ++ ts.reverse ++ s.tokens.drop newer
    count := s.count + ts.length }

/-- Goes on after some characters, which are a token. -/
def emitSkip (t : Token) (n : Nat) (s : Scanner) : Scanner :=
  { s.emit t with cursor := s.cursor.skip n }

/-! ### Block collections -/

/-- Closes the block collections of some columns. Within brackets indentation does not count. -/
def close (isInner : Nat → Bool) (s : Scanner) : Scanner :=
  if s.inFlow then s
  else
    let inner := s.columns.takeWhile isInner
    { s with
      columns := s.columns.drop inner.length
      tokens := List.replicate inner.length .blockEnd ++ s.tokens
      count := s.count + inner.length }

/-- Whether a block collection opens at a column. -/
def opens (column : Nat) (s : Scanner) : Bool := !s.inFlow && s.least ≤ column

/-- Opens a block collection here, if none is open at this column. -/
def openHere (t : Token) (s : Scanner) : Scanner :=
  let column := s.cursor.column
  if s.opens column then { s.emit t with columns := column :: s.columns } else s

/-! ### Keys -/

/-- Gives up the key that may have started, unless it is needed. -/
def dropKey (s : Scanner) : Option Scanner :=
  if (s.keyStart.map (·.isNeeded)).getD false then none else some { s with keyStart := none }

/-- Notes that a key may start here. It is needed at the column of an open block collection. -/
def noteKey (s : Scanner) : Option Scanner := do
  if !s.mayStartKey then return s
  let s ← s.dropKey
  let isNeeded := !s.inFlow && s.columns.head? == some s.cursor.column
  return { s with keyStart := some ⟨s.cursor, s.count, isNeeded⟩ }

/-- Reads a mark that neither is nor follows a key. -/
def mark (t : Token) (n : Nat) (mayStartKey : Bool) (s : Scanner) : Option Scanner := do
  let s ← s.dropKey
  return { s.emitSkip t n with mayStartKey := mayStartKey }

/-- Reads a colon after a key that has not been marked. -/
def colonAfter (k : KeyStart) (s : Scanner) : Scanner :=
  let column := k.place.column
  let s := if s.opens column then
      { s.insert k.before [.blockMapping, .key] with columns := column :: s.columns }
    else s.insert k.before [.key]
  { s.emitSkip .value 1 with keyStart := none, mayStartKey := false }

/-- Reads the mark of a key or of its value where nothing comes before it. -/
def bareMark (t : Token) (s : Scanner) : Option Scanner := do
  if !s.inFlow && !s.mayStartKey then none
  let s := s.openHere .blockMapping
  return { s.emitSkip t 1 with mayStartKey := !s.inFlow }

/-- Reads a colon. -/
def colon (s : Scanner) : Option Scanner :=
  match s.keyStart with
  | some k =>
    if k.reaches s.cursor then some (s.colonAfter k)
    else if k.isNeeded then none
    else s.bareMark .value
  | none => s.bareMark .value

/-! ### Other tokens -/

/-- Reads the dash of an item. -/
def dash (s : Scanner) : Option Scanner := do
  if !s.inFlow && !s.mayStartKey then none
  (s.openHere .blockSequence).mark .dash 1 true

/-- Reads an opening mark, which may start a key. -/
def openFlow (t : Token) (s : Scanner) : Option Scanner := do
  let s ← s.noteKey
  return { s.emitSkip t 1 with
    keyStart := none, outerStarts := s.keyStart :: s.outerStarts, mayStartKey := true }

def closeFlow (t : Token) (s : Scanner) : Option Scanner := do
  let s ← s.dropKey
  let s := match s.outerStarts with
    | [] => s
    | keyStart :: outer => { s with keyStart := keyStart, outerStarts := outer }
  return { s.emitSkip t 1 with mayStartKey := false }

/-- Takes what was read as a part of a node, which may start a key. -/
def nodePart (r : Option (Token × Cursor)) (s : Scanner) : Option Scanner := do
  let s ← s.noteKey
  let (t, c) ← r
  return { s.emit t with cursor := c, mayStartKey := false }

def name (make : String → Token) (s : Scanner) : Option Scanner :=
  s.nodePart ((takeName? (s.cursor.skip 1)).map fun (name, c) => (make name, c))

def quoted (r : Option (List Char × Cursor)) (s : Scanner) : Option Scanner :=
  s.nodePart (r.map fun (text, c) => (.scalar .quoted (String.ofList text), c))

/-- Reads a bare scalar. After one that ends with its line a key may start. -/
def plain (bound : Nat) (s : Scanner) : Option Scanner := do
  let s ← s.noteKey
  let r ← takePlain? s.inFlow s.least bound .nothing s.cursor
  return { s.emit (.scalar .plain (String.ofList r.text)) with
    cursor := r.cursor, mayStartKey := r.isBroken }

def block (style : ScalarStyle) (bound : Nat) (s : Scanner) : Option Scanner := do
  let s ← s.dropKey
  let (text, c) ← takeBlockScalar? style s.least bound (s.cursor.skip 1)
  return { s.emit (.scalar style (String.ofList text)) with cursor := c, mayStartKey := true }

/-- Reads a directive, before which everything is closed. -/
def directive (s : Scanner) : Option Scanner := do
  let s ← (s.close fun _ => true).dropKey
  let (t, c) ← takeDirective? (s.cursor.skip 1)
  return { s.emit t with cursor := c, mayStartKey := false }

/-- Reads the border of a document, before which everything is closed. -/
def border (t : Token) (s : Scanner) : Option Scanner :=
  (s.close fun _ => true).mark t 3 false

/-! ### Texts -/

/-- Reads the token that starts here. -/
def next (bound : Nat) (s : Scanner) : Option Scanner :=
  let c := s.cursor
  if c.column == 0 && c.isAt '%' then s.directive
  else if c.isAtMark Cursor.startMark then s.border .documentStart
  else if c.isAtMark Cursor.endMark then s.border .documentEnd
  else
    match c.rest with
    | [] => none
    | '[' :: _ => s.openFlow .openBracket
    | '{' :: _ => s.openFlow .openBrace
    | ']' :: _ => s.closeFlow .closeBracket
    | '}' :: _ => s.closeFlow .closeBrace
    | ',' :: _ => s.mark .comma 1 true
    | '*' :: _ => s.name .reference
    | '&' :: _ => s.name .anchor
    | '!' :: _ => s.nodePart (takeTag? s.inFlow c)
    | '\'' :: _ => s.quoted (takeSingle? bound (c.skip 1))
    | '"' :: _ => s.quoted (takeDouble? bound (c.skip 1))
    | ch :: rest =>
      if ch == '-' && isWordEnd rest then s.dash
      else if ch == '?' && (s.inFlow || isWordEnd rest) then do (← s.dropKey).bareMark .key
      else if ch == ':' && (s.inFlow || isWordEnd rest) then s.colon
      else if ch == '|' && !s.inFlow then s.block .literal bound
      else if ch == '>' && !s.inFlow then s.block .folded bound
      else if startsPlain s.inFlow c.rest then s.plain bound
      else none

/-- Skips what stands before a token on its line: a mark of the order of bytes at the start of the
line, blanks, and a comment. Where a block collection may open, tabs are no blanks. -/
def skipSpace (s : Scanner) : Scanner :=
  let c := s.cursor
  let c := if c.column == 0 && c.isAt byteOrderMark then c.skip 1 else c
  let isSkipped (ch : Char) : Bool := ch == ' ' || (ch == '\t' && (s.inFlow || !s.mayStartKey))
  { s with cursor := (c.skipWhile isSkipped).skipComment }

/-- Reads all tokens that are left. The bound is more than the number of characters that are
left. -/
def run : Nat → Scanner → Option (List Token)
  | 0, _ => none
  | bound + 1, s =>
    let s := s.skipSpace
    match s.cursor.break? with
    | some (_, c) => run bound { s with cursor := c, mayStartKey := s.mayStartKey || !s.inFlow }
    | none =>
      if s.cursor.rest.isEmpty then do
        let s ← (s.close fun _ => true).dropKey
        return s.tokens.reverse
      else do run bound (← (s.close (s.cursor.column < ·)).next (bound + 1))

end Scanner

/-- All tokens of a text. -/
def tokens? (text : List Char) : Option (List Token) :=
  if text.all isAllowed then (Scanner.start text).run (text.length + 1) else none

end CircuitExchange.Yaml
