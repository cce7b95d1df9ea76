import CircuitExchange.Token.Error

/-!
Parsing expressions by precedence climbing, within a budget of nesting levels. A unary operand costs
a level while it is parsed. An operator costs a level until the chain it belongs to is complete,
because the chain is folded into the left operand and grows deeper with every operator.

* `operand`: signs and a primary expression.
* `chain`: the operators that follow a left operand, down to a least precedence.
* `Expression.parse`: a whole expression and the lexemes after it.
* `operand_cons`, `chain_cons`: what each of them does with the next lexeme.
-/

namespace CircuitExchange

/-- A parser returns its result and the lexemes that are left. -/
abbrev Parser (α : Type) := List Lexeme → Except Fault (α × List Lexeme)

/-- The text from the next lexeme on. -/
def upcomingText : List Lexeme → List Char
  | [] => []
  | l :: _ => l.upcoming

/-- Takes one given symbol. -/
def expectSymbol (symbol : Token) : List Lexeme → Except Fault (List Lexeme)
  | [] => .error (.endOfInput (.symbol symbol))
  | l :: rest =>
    if l.token = symbol then .ok rest else .error (.unexpected (.symbol symbol) l.token)

/-- The value of an integer, rounded to the nearest number. -/
def integerValue (value : UInt64) : Float := Decimal.Numeral.toFloat false ⟨value.toNat, 0⟩

/-- The binary operation that a token stands for. -/
def binaryOp? : Token → Option BinaryOp
  | .plus => some .add
  | .minus => some .sub
  | .star => some .mul
  | .slash => some .div
  | _ => none

mutual

/-- A unary expression: any number of signs before a number, π or an expression in parentheses. -/
def operand : Nat → Parser Expression
  | 0, ts => .error (.tooDeep (upcomingText ts))
  | _ + 1, [] => .error (.endOfInput .expression)
  | budget + 1, l :: ts =>
    match l.token with
    | .minus => do
      let (e, rest) ← operand budget ts
      return (.neg e, rest)
    | .plus => operand budget ts
    | .leftParen => do
      let (first, rest) ← operand budget ts
      let (e, rest) ← chain budget 0 first rest
      let rest ← expectSymbol .rightParen rest
      return (.paren e, rest)
    | .integer value => .ok (.number (integerValue value), ts)
    | .number value => .ok (.number value, ts)
    | .pi => .ok (.pi, ts)
    | other => .error (.unexpected .expression other)

/-- The operators of at least the given precedence, each with its right operand, after `left`. -/
def chain : Nat → Nat → Expression → Parser Expression
  | _, _, left, [] => .ok (left, [])
  | budget, least, left, l :: ts =>
    match binaryOp? l.token with
    | none => .ok (left, l :: ts)
    | some op =>
      if op.precedence < least then .ok (left, l :: ts)
      else
        match budget with
        | 0 => .error (.tooDeep (upcomingText ts))
        | budget + 1 => do
          let (first, rest) ← operand budget ts
          let (right, rest) ← chain budget (op.precedence + 1) first rest
          chain budget least (.binary op left right) rest

end

/-! The equations of the two functions, which hold by evaluation. -/

theorem operand_zero (ts : List Lexeme) :
    operand 0 ts = .error (.tooDeep (upcomingText ts)) := rfl

theorem operand_nil (budget : Nat) : operand (budget + 1) [] = .error (.endOfInput .expression) :=
  rfl

theorem operand_cons (budget : Nat) (l : Lexeme) (ts : List Lexeme) :
    operand (budget + 1) (l :: ts) =
      match l.token with
      | .minus => do
        let (e, rest) ← operand budget ts
        return (.neg e, rest)
      | .plus => operand budget ts
      | .leftParen => do
        let (first, rest) ← operand budget ts
        let (e, rest) ← chain budget 0 first rest
        let rest ← expectSymbol .rightParen rest
        return (.paren e, rest)
      | .integer value => .ok (.number (integerValue value), ts)
      | .number value => .ok (.number value, ts)
      | .pi => .ok (.pi, ts)
      | other => .error (.unexpected .expression other) := rfl

theorem chain_nil (budget least : Nat) (left : Expression) :
    chain budget least left [] = .ok (left, []) := by
  cases budget <;> rfl

theorem chain_cons (budget least : Nat) (left : Expression) (l : Lexeme) (ts : List Lexeme) :
    chain budget least left (l :: ts) =
      (match binaryOp? l.token with
      | none => .ok (left, l :: ts)
      | some op =>
        if op.precedence < least then .ok (left, l :: ts)
        else
          match budget with
          | 0 => .error (.tooDeep (upcomingText ts))
          | budget + 1 => do
            let (first, rest) ← operand budget ts
            let (right, rest) ← chain budget (op.precedence + 1) first rest
            chain budget least (.binary op left right) rest) := by
  conv => lhs; unfold chain

/-- The expression at the start of the lexemes. -/
def Expression.parse : Parser Expression := fun ts => do
  let (first, rest) ← operand maxDepth ts
  chain maxDepth 0 first rest

end CircuitExchange
