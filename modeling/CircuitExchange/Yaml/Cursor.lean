/-!
Places in a YAML text, and the classes of characters that are told apart there.

* `Cursor.break?`: the line break at a place, as it counts within a scalar.
* `Cursor.takeWhile`: the characters of a class that start at a place.
-/

namespace CircuitExchange.Yaml

/-! ### Characters -/

def nextLine : Char := Char.ofNat 0x85

def lineSeparator : Char := Char.ofNat 0x2028

def paragraphSeparator : Char := Char.ofNat 0x2029

def byteOrderMark : Char := Char.ofNat 0xfeff

/-- Blanks within a line. -/
def isBlank (c : Char) : Bool := c == ' ' || c == '\t'

/-- The characters that end a line. -/
def isBreak (c : Char) : Bool :=
  c == '\n' || c == '\r' || c == nextLine || c == lineSeparator || c == paragraphSeparator

/-- Whether a character may stand in a text: of the control characters only tabs and line breaks. -/
def isAllowed (c : Char) : Bool :=
  c == '\t' || isBreak c || (' ' ≤ c && c ≤ '~') ||
    (0xa0 ≤ c.toNat && c.toNat ≤ 0xfffd) || 0x10000 ≤ c.toNat

/-- The characters of names: letters, digits, the low line and the hyphen. -/
def isNameChar (c : Char) : Bool := c.isAlphanum || c == '_' || c == '-'

/-- The marks that separate the parts of flow collections. -/
def isFlowMark (c : Char) : Bool := [',', '[', ']', '{', '}'].contains c

/-- Whether a blank, a line break or the end of the text follows. -/
def isWordEnd : List Char → Bool
  | [] => true
  | c :: _ => isBlank c || isBreak c

/-! ### Places -/

/-- What is left of a text, and how much of it is before: octets, lines, and characters of the
current line. -/
structure Cursor where
  rest : List Char
  index : Nat
  line : Nat
  column : Nat

namespace Cursor

def start (text : List Char) : Cursor := ⟨text, 0, 0, 0⟩

/-- The octets before the place after some characters. -/
def indexAfter (n : Nat) (c : Cursor) : Nat :=
  (c.rest.take n).foldl (fun index ch => index + ch.utf8Size) c.index

/-- The place after some characters of the line. -/
def skip (n : Nat) (c : Cursor) : Cursor := ⟨c.rest.drop n, c.indexAfter n, c.line, c.column + n⟩

/-- The characters of a class here and the place after them. -/
def takeWhile (p : Char → Bool) (c : Cursor) : List Char × Cursor :=
  let cs := c.rest.takeWhile p
  (cs, c.skip cs.length)

def skipWhile (p : Char → Bool) (c : Cursor) : Cursor := (c.takeWhile p).2

def skipBlanks (c : Cursor) : Cursor := c.skipWhile isBlank

/-- The first place of the next line, after a line break of some characters. -/
def nextLine (n : Nat) (c : Cursor) : Cursor := ⟨c.rest.drop n, c.indexAfter n, c.line + 1, 0⟩

/--
The line break here and the place after it. The separators of lines and of paragraphs count as
themselves, any other break as a line feed; a carriage return and a line feed are one break.
-/
def break? (c : Cursor) : Option (Char × Cursor) :=
  match c.rest with
  | '\r' :: '\n' :: _ => some ('\n', c.nextLine 2)
  | b :: _ =>
    if b == lineSeparator || b == paragraphSeparator then some (b, c.nextLine 1)
    else if isBreak b then some ('\n', c.nextLine 1)
    else none
  | [] => none

/-- Whether the character is the next one. -/
def isAt (ch : Char) (c : Cursor) : Bool := c.rest.head? == some ch

/-- Whether a line starts here with the mark of three characters. -/
def isAtMark (mark : List Char) (c : Cursor) : Bool :=
  c.column == 0 && mark.isPrefixOf c.rest && isWordEnd (c.rest.drop 3)

/-- The mark before a document. -/
def startMark : List Char := ['-', '-', '-']

/-- The mark after a document. -/
def endMark : List Char := ['.', '.', '.']

/-- Whether a document starts or ends here. -/
def isAtBorder (c : Cursor) : Bool := c.isAtMark startMark || c.isAtMark endMark

/-- The place after a comment, if there is one. -/
def skipComment (c : Cursor) : Cursor :=
  if c.isAt '#' then c.skipWhile fun ch => !isBreak ch else c

/-- The next line, where nothing but blanks and a comment is left of this one. -/
def restOfLine? (c : Cursor) : Option Cursor :=
  let c := c.skipBlanks.skipComment
  match c.break? with
  | some (_, c) => some c
  | none => if c.rest.isEmpty then some c else none

end Cursor

end CircuitExchange.Yaml
