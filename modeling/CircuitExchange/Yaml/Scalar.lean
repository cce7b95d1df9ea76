import CircuitExchange.Yaml.Basic
import CircuitExchange.Yaml.Cursor

/-!
Scalars as they are written. Within a bare or a quoted scalar, blanks around a line break do not
count: one line break stands for a blank, and of several the first does not count. A block scalar
has lines of its own, which are kept, or folded in the same way where they are not indented further.

* `takePlain?`: a bare scalar.
* `takeSingle?`, `takeDouble?`: a scalar in quotation marks.
* `takeBlockScalar?`: a block scalar.

Every bound is more than the number of characters that are left.
-/

namespace CircuitExchange.Yaml

/-! ### Gaps -/

/-- What lies between two words of a scalar. -/
structure Gap where
  blanks : List Char
  breaks : List Char

namespace Gap

/-- Between words on one line, and next to each other. -/
def nothing : Gap := ⟨[], []⟩

/-- The text of line breaks: a line feed is a blank, or does not count before other breaks. -/
def foldBreaks : List Char → List Char
  | ['\n'] => [' ']
  | '\n' :: more => more
  | breaks => breaks

/-- The text of a gap. -/
def text (g : Gap) : List Char := if g.breaks.isEmpty then g.blanks else foldBreaks g.breaks

def isBroken (g : Gap) : Bool := !g.breaks.isEmpty

/-- Reads a gap. In a line after the first, no tab may stand before the column `least`. -/
def take? (least : Nat) : Nat → Bool → Cursor → Option (Gap × Cursor)
  | 0, _, _ => none
  | bound + 1, isBroken, c =>
    match c.break? with
    | some (b, next) => do
      let (g, c) ← take? least bound true next
      return ({ g with breaks := b :: g.breaks }, c)
    | none =>
      match c.rest with
      | ' ' :: _ => do
        let (g, c) ← take? least bound isBroken (c.skip 1)
        return ({ g with blanks := ' ' :: g.blanks }, c)
      | '\t' :: _ =>
        if isBroken && c.column < least then none
        else do
          let (g, c) ← take? least bound isBroken (c.skip 1)
          return ({ g with blanks := '\t' :: g.blanks }, c)
      | _ => some (nothing, c)

end Gap

/-! ### Bare scalars -/

/-- Whether a text can start with a bare scalar. -/
def startsPlain (inFlow : Bool) : List Char → Bool
  | [] => false
  | c :: cs =>
    if c == '-' then !(cs.head?.map isBlank).getD false
    else if c == '?' || c == ':' then !inFlow && !isWordEnd cs
    else !isWordEnd (c :: cs) && !isFlowMark c && !"#&*!|>'\"%@`".toList.contains c

/-- A word of a bare scalar, which may be empty. Within brackets a colon must not stand before a
mark. -/
def takeWord? (inFlow : Bool) : List Char → Option (List Char)
  | [] => some []
  | c :: cs =>
    if isWordEnd (c :: cs) then some []
    else if inFlow && c == ':' && (cs.head?.map fun d => isFlowMark d || d == '?').getD false then
      none
    else if (c == ':' && isWordEnd cs) || (inFlow && isFlowMark c) then some []
    else (takeWord? inFlow cs).map (c :: ·)

/-- What is read of a bare scalar: its text, whether a line was ended after it, and the place
then. -/
structure PlainRest where
  text : List Char
  isBroken : Bool
  cursor : Cursor

/-- Reads a bare scalar on from a gap. Outside brackets it ends before a line that is indented less
than to the column `least`; it also ends before a comment and at the border of a document. -/
def takePlain? (inFlow : Bool) (least : Nat) : Nat → Gap → Cursor → Option PlainRest
  | 0, _, _ => none
  | bound + 1, gap, c =>
    if c.isAtBorder || c.isAt '#' then some ⟨[], gap.isBroken, c⟩
    else do
      let word ← takeWord? inFlow c.rest
      if word.isEmpty then return ⟨[], gap.isBroken, c⟩
      let (next, c) ← Gap.take? least bound false (c.skip word.length)
      let text := gap.text ++ word
      if !inFlow && c.column < least then return ⟨text, next.isBroken, c⟩
      let more ← takePlain? inFlow least bound next c
      return { more with text := text ++ more.text }

/-! ### Quoted scalars -/

/-- Reads a scalar in single quotation marks, of which a pair stands for one. -/
def takeSingle? : Nat → Cursor → Option (List Char × Cursor)
  | 0, _ => none
  | bound + 1, c =>
    if c.isAtBorder then none
    else
      match c.rest with
      | [] => none
      | '\'' :: '\'' :: _ => do
        let (s, c) ← takeSingle? bound (c.skip 2)
        return ('\'' :: s, c)
      | '\'' :: _ => some ([], c.skip 1)
      | rest => do
        if isWordEnd rest then
          let (gap, c) ← Gap.take? 0 bound false c
          let (s, c) ← takeSingle? bound c
          return (gap.text ++ s, c)
        else
          let (word, c) := c.takeWhile fun ch => ch != '\'' && !isWordEnd [ch]
          let (s, c) ← takeSingle? bound c
          return (word ++ s, c)

/-- What a backslash and one more character stand for. -/
def escaped? : Char → Option Char
  | '0' => some '\x00'
  | 'a' => some '\x07'
  | 'b' => some '\x08'
  | 't' => some '\t'
  | '\t' => some '\t'
  | 'n' => some '\n'
  | 'v' => some '\x0b'
  | 'f' => some '\x0c'
  | 'r' => some '\r'
  | 'e' => some '\x1b'
  | ' ' => some ' '
  | '"' => some '"'
  | '/' => some '/'
  | '\\' => some '\\'
  | 'N' => some nextLine
  | '_' => some (Char.ofNat 0xa0)
  | 'L' => some lineSeparator
  | 'P' => some paragraphSeparator
  | _ => none

/-- The number of hexadecimal digits after an escape that has some. -/
def escapeDigits? : Char → Option Nat
  | 'x' => some 2
  | 'u' => some 4
  | 'U' => some 8
  | _ => none

/-- The character of an escape and the number of characters after the backslash. -/
def takeEscape? : List Char → Option (Char × Nat)
  | [] => none
  | e :: rest =>
    match escapeDigits? e with
    | some n => do
      let code ← digits? 16 (rest.take n)
      guard ((rest.take n).length == n && code.isValidChar)
      return (Char.ofNat code, n + 1)
    | none => (escaped? e).map (·, 1)

/-- Reads a scalar in double quotation marks. A line break after a backslash does not count. -/
def takeDouble? : Nat → Cursor → Option (List Char × Cursor)
  | 0, _ => none
  | bound + 1, c =>
    if c.isAtBorder then none
    else
      match c.rest with
      | [] => none
      | '"' :: _ => some ([], c.skip 1)
      | '\\' :: rest =>
        match (c.skip 1).break? with
        | some (_, c) => do
          let (gap, c) ← Gap.take? 0 bound true c
          let (s, c) ← takeDouble? bound c
          return (gap.breaks ++ s, c)
        | none => do
          let (ch, n) ← takeEscape? rest
          let (s, c) ← takeDouble? bound (c.skip (n + 1))
          return (ch :: s, c)
      | rest => do
        if isWordEnd rest then
          let (gap, c) ← Gap.take? 0 bound false c
          let (s, c) ← takeDouble? bound c
          return (gap.text ++ s, c)
        else
          let (word, c) := c.takeWhile fun ch => ch != '"' && ch != '\\' && !isWordEnd [ch]
          let (s, c) ← takeDouble? bound c
          return (word ++ s, c)

/-! ### Block scalars -/

/-- What becomes of the line breaks at the end of a block scalar. -/
inductive Chomping where
  | strip
  | clip
  | keep
deriving DecidableEq, Repr

/-- What stands on the line on which a block scalar starts. -/
structure BlockHeader where
  chomping : Chomping
  /-- How far the lines are indented, if it is not left to them. -/
  indentation : Option Nat

def Chomping.ofMark? : Char → Option Chomping
  | '-' => some .strip
  | '+' => some .keep
  | _ => none

/-- The value of a digit that is not zero. -/
def indentationOfMark? (c : Char) : Option Nat := (digit? 10 c).filter (0 < ·)

/-- Reads at most one mark of each kind, in any order. -/
def takeBlockHeader? (c : Cursor) : Option (BlockHeader × Cursor) :=
  let isMark (ch : Char) : Bool := (Chomping.ofMark? ch).isSome || ch.isDigit
  match c.takeWhile isMark with
  | ([], c) => some (⟨.clip, none⟩, c)
  | ([a], c) =>
    match Chomping.ofMark? a with
    | some chomping => some (⟨chomping, none⟩, c)
    | none => do return (⟨.clip, ← indentationOfMark? a⟩, c)
  | ([a, b], c) => do
    match Chomping.ofMark? a with
    | some chomping => return (⟨chomping, ← indentationOfMark? b⟩, c)
    | none => return (⟨← Chomping.ofMark? b, ← indentationOfMark? a⟩, c)
  | _ => none

/-- Lines of a block scalar with nothing on them. -/
structure BlankLines where
  breaks : List Char
  /-- The widest of their indentations and that of the line after them. -/
  widest : Nat
  cursor : Cursor

/-- Reads lines with nothing on them, and the indentation of the line after them up to its column.
Tabs must not stand in the indentation. -/
def takeBlankLines? (indentation : Option Nat) : Nat → Cursor → Option BlankLines
  | 0, _ => none
  | bound + 1, c =>
    let blanks := (c.rest.takeWhile (· == ' ')).length
    let c := c.skip ((indentation.map (min blanks <| · - c.column)).getD blanks)
    if c.isAt '\t' && (indentation.map fun n => decide (c.column < n)).getD true then none
    else
      match c.break? with
      | none => some ⟨[], c.column, c⟩
      | some (b, next) => do
        let lines ← takeBlankLines? indentation bound next
        return ⟨b :: lines.breaks, max c.column lines.widest, lines.cursor⟩

/-- What is read of a block scalar: its text without the breaks at its end, the break of its last
line, those of the blank lines after it, and the place then. -/
structure BlockRest where
  text : List Char
  lineBreak : List Char
  breaks : List Char
  cursor : Cursor

/-- Whether the line at the place goes on with a blank. -/
def startsBlank (c : Cursor) : Bool := (c.rest.head?.map isBlank).getD false

/-- The text between two lines of a block scalar. -/
def betweenLines (isFolded : Bool) (lineBreak breaks : List Char) : List Char :=
  if isFolded && lineBreak == ['\n'] then
    if breaks.isEmpty then [' '] else breaks
  else lineBreak ++ breaks

/-- Reads the lines of a block scalar on from a line break. Lines are folded where neither of the
two starts with a blank. -/
def takeBlockLines? (style : ScalarStyle) (indentation : Nat) :
    Nat → Bool → List Char → List Char → Cursor → Option BlockRest
  | 0, _, _, _, _ => none
  | bound + 1, afterBlank, lineBreak, breaks, c =>
    if c.column != indentation || c.rest.isEmpty then some ⟨[], lineBreak, breaks, c⟩
    else do
      let isFolded := style == .folded && !afterBlank && !startsBlank c
      let between := betweenLines isFolded lineBreak breaks
      let (line, next) := c.takeWhile fun ch => !isBreak ch
      let (lineBreak, next) := (next.break?.map fun (b, c) => ([b], c)).getD ([], next)
      let lines ← takeBlankLines? (some indentation) bound next
      let more ← takeBlockLines? style indentation bound (startsBlank c) lineBreak lines.breaks
        lines.cursor
      return { more with text := between ++ line ++ more.text }

/-- The text of a block scalar whose end is treated as its header says. -/
def BlockRest.chomped (r : BlockRest) : Chomping → List Char
  | .strip => r.text
  | .clip => r.text ++ r.lineBreak
  | .keep => r.text ++ r.lineBreak ++ r.breaks

/-- Reads a block scalar after its mark. Its lines are indented to the column `least` or further. -/
def takeBlockScalar? (style : ScalarStyle) (least bound : Nat) (c : Cursor) :
    Option (List Char × Cursor) := do
  let (header, c) ← takeBlockHeader? c
  let c ← c.restOfLine?
  let fixed := header.indentation.map (least - 1 + ·)
  let lines ← takeBlankLines? fixed bound c
  let indentation := fixed.getD (max lines.widest (max least 1))
  let r ← takeBlockLines? style indentation bound false [] lines.breaks lines.cursor
  return (r.chomped header.chomping, r.cursor)

end CircuitExchange.Yaml
