import Mathlib
import CircuitExchange.Proofs.Token.Grammar

/-!
How high the trees of parsed expressions are. The nesting budget is not a bound of the height: an
operand gives its levels back once it is complete, so a chain of operators after it has all the
levels of its place again, and puts the operand one node deeper with each operator. Within `n`
levels that adds up to the `n`-th triangular number, which a ladder of brackets and products
reaches. Where nothing but the last operand of a chain nests, the budget does bound the height.

* `Derives.height_le`: the greatest height within a number of levels.
* `Derives.height_le_levels`: the height where only last operands nest.
* `Expression.ladder`: the expression that is as high as its levels allow.
* `parsed_expression_height`: the height of all that is parsed.
* `exists_tallest_angle`: an accepted token that is as high as that allows.
-/

namespace CircuitExchange

/-! ### Bounds -/

namespace Expression

/-- The greatest height of an expression within a number of levels. -/
def tallest : Nat → Nat
  | 0 => 0
  | n + 1 => tallest n + (n + 1)

theorem tallest_eq (n : Nat) : tallest n = n * (n + 1) / 2 := by
  have htwice : 2 * tallest n = n * (n + 1) := by
    induction n with
    | zero => rfl
    | succ n ih => rw [tallest, Nat.mul_add, ih]; ring
  omega

theorem tallest_mono {n m : Nat} (h : n ≤ m) : tallest n ≤ tallest m := by
  induction h with
  | refl => exact Nat.le_refl _
  | step _ ih => exact ih.trans (Nat.le_add_right ..)

/-- A number or π. -/
def IsLeaf : Expression → Prop
  | number _ | pi => True
  | neg _ | paren _ | binary .. => False

/-- A chain of operators between numbers and π. -/
def IsFlat : Expression → Prop
  | number _ | pi => True
  | neg _ | paren _ => False
  | binary _ left right => left.IsFlat ∧ right.IsLeaf

/-- In every chain of operators only the last operand has signs, brackets or operators of its
own. -/
def NestsLast : Expression → Prop
  | number _ | pi => True
  | neg e | paren e => e.NestsLast
  | binary _ left right => left.IsFlat ∧ right.NestsLast

theorem IsFlat.height_eq {e : Expression} (h : e.IsFlat) : e.height = e.chainLength + 1 := by
  induction e with
  | number _ | pi => rfl
  | neg _ | paren _ => cases h
  | binary op left right ih =>
    have hright : right.height = 1 := by
      cases right
      case number | pi => rfl
      all_goals cases h.2
    rw [height, chainLength, ih h.1, hright, Nat.max_eq_left (Nat.le_add_left ..)]

end Expression

/-- The level that a primary expression is about to take. -/
def Category.pending : Category → Nat
  | .primary => 1
  | _ => 0

section Bounds

variable {c : Category} {u : List Token} {e : Expression} {n : Nat}

/-- **The height of a derived expression.** What the levels below the last one allow is all that its
first operand can be high, and the operators of its chain, fewer than the levels, come on top. -/
theorem Derives.height_le_chain (h : Derives c u e n) :
    ∃ k, n + c.pending = k + 1 ∧ e.chainLength ≤ k ∧
      e.height ≤ Expression.tallest k + 1 + e.chainLength := by
  induction h with
  | number | pi => exact ⟨0, rfl, Nat.le_refl 0, Nat.le_refl 1⟩
  | brackets _ ih | minus _ ih =>
    obtain ⟨k, hk, hchain, hheight⟩ := ih
    refine ⟨k + 1, congrArg Nat.succ hk, Nat.zero_le _, ?_⟩
    change _ + 1 ≤ Expression.tallest k + (k + 1) + 1 + 0
    omega
  | primary _ ih | unary _ ih | product _ ih => exact ih
  | plus _ ih =>
    obtain ⟨k, hk, hchain, hheight⟩ := ih
    refine ⟨k + 1, congrArg Nat.succ hk, hchain.trans (Nat.le_succ k), ?_⟩
    rw [Expression.tallest]
    omega
  | @factor u v t op left right n m _ _ _ ihleft ihright
  | @term u v t op left right n m _ _ _ ihleft ihright =>
    obtain ⟨k, hk, hchain, hheight⟩ := ihleft
    obtain ⟨j, hj, hchain', hheight'⟩ := ihright
    obtain rfl : n = k + 1 := hk
    obtain rfl : m = j + 1 := hj
    refine ⟨max k (left.chainLength + 1 + j), ?_, ?_, ?_⟩
    · change max (k + 1) (left.chainLength + 1 + (j + 1)) = _
      omega
    · rw [Expression.chainLength]
      omega
    · -- the right operand has the levels that its place in the chain leaves
      have hleft : Expression.tallest k ≤ Expression.tallest (max k (left.chainLength + 1 + j)) :=
        Expression.tallest_mono (Nat.le_max_left ..)
      have hright : Expression.tallest (j + 1) ≤
          Expression.tallest (max k (left.chainLength + 1 + j)) :=
        Expression.tallest_mono (by omega)
      rw [Expression.tallest] at hright
      rw [Expression.height, Expression.chainLength]
      omega

/-- **The height is at most a triangular number of the levels.** -/
theorem Derives.height_le (h : Derives .sum u e n) : e.height ≤ Expression.tallest n := by
  obtain ⟨k, hk, hchain, hheight⟩ := h.height_le_chain
  obtain rfl : n = k + 1 := hk
  rw [Expression.tallest]
  omega

/-- **The levels bound the height** where only the last operand of a chain nests. -/
theorem Derives.height_le_levels (h : Derives c u e n) (hlast : e.NestsLast) :
    e.height ≤ n + c.pending := by
  induction h with
  | number | pi => exact Nat.le_refl 1
  | brackets _ ih | minus _ ih => exact Nat.succ_le_succ (ih hlast)
  | primary _ ih | unary _ ih | product _ ih => exact ih hlast
  | plus _ ih => exact (ih hlast).trans (Nat.le_succ _)
  | @factor u v t op left right n m _ _ hright _ ihright
  | @term u v t op left right n m _ _ hright _ ihright =>
    have hleft := hlast.1.height_eq
    have hheight : right.height ≤ m := ihright hlast.2
    obtain ⟨k, hk, -, -⟩ := hright.height_le_chain
    obtain rfl : m = k + 1 := hk
    change max left.height right.height + 1 ≤ max n (left.chainLength + 1 + (k + 1))
    omega

end Bounds

/-! ### Ladders -/

namespace Expression

def one : Expression := .number (integerValue 1)

/-- The expression multiplied by one a number of times. -/
def timesOnes (first : Expression) : Nat → Expression
  | 0 => first
  | k + 1 => .binary .mul (timesOnes first k) one

/-- Brackets around the ladder within one level less, and after them as many factors as there are
levels. -/
def ladder : Nat → Expression
  | 0 => one
  | n + 1 => timesOnes (.paren (ladder n)) (n + 1)

def timesOnesChars (first : List Char) : Nat → List Char
  | 0 => first
  | k + 1 => timesOnesChars first k ++ ['*', '1']

/-- The text of a ladder. -/
def ladderChars : Nat → List Char
  | 0 => ['1']
  | n + 1 => timesOnesChars ('(' :: (ladderChars n ++ [')'])) (n + 1)

theorem chainLength_timesOnes {first : Expression} (hfirst : first.chainLength = 0) (k : Nat) :
    (timesOnes first k).chainLength = k := by
  induction k with
  | zero => exact hfirst
  | succ k ih => rw [timesOnes, chainLength, ih]

theorem height_timesOnes {first : Expression} (hpos : 0 < first.height) (k : Nat) :
    (timesOnes first k).height = first.height + k := by
  induction k with
  | zero => rfl
  | succ k ih =>
    rw [timesOnes, height, ih, one, height]
    omega

/-- **A ladder is as high as its levels allow.** -/
theorem height_ladder (n : Nat) : (ladder n).height = tallest (n + 1) := by
  induction n with
  | zero => rfl
  | succ n ih =>
    have hpos : 0 < (paren (ladder n)).height := Nat.zero_lt_succ _
    rw [ladder, height_timesOnes hpos, height, ih]
    change _ = tallest (n + 1) + (n + 1 + 1)
    omega

/-- Factors of one keep the value at one. -/
theorem eval?_timesOnes {first : Expression} (h : first.eval? = some (integerValue 1)) (k : Nat) :
    (timesOnes first k).eval? = some (integerValue 1) := by
  have hone : one.eval? = some (integerValue 1) := by decide +kernel
  have hproduct : applyOp? .mul (integerValue 1) (integerValue 1) = some (integerValue 1) := by
    decide +kernel
  induction k with
  | zero => exact h
  | succ k ih =>
    rw [timesOnes, eval?, ih, hone, Option.bind_eq_bind, Option.bind_some, Option.bind_some,
      hproduct, Option.bind_some]
    decide +kernel

theorem eval?_ladder (n : Nat) : (ladder n).eval? = some (integerValue 1) := by
  induction n with
  | zero => decide +kernel
  | succ n ih =>
    have hbrackets : (paren (ladder n)).eval? = some (integerValue 1) := ih
    exact eval?_timesOnes hbrackets (n + 1)

end Expression

/-- The text is written with the units of an expression that takes so many levels. -/
def SpellsExpression (c : Category) (w : List Char) (e : Expression) (n : Nat) : Prop :=
  ∃ us, Spells w us ∧ Derives c us e n

theorem spellsExpression_one : SpellsExpression .unary ['1'] .one 1 :=
  ⟨_, Spells.natural (n := 1) (by decide), .primary (.number (.inr ⟨1, rfl, rfl⟩))⟩

/-- Factors may be added as long as there are levels. -/
theorem spellsExpression_timesOnes {w : List Char} {first : Expression} {n k : Nat}
    (h : SpellsExpression .unary w first n) (hk : k < n) :
    SpellsExpression .product (Expression.timesOnesChars w k) (first.timesOnes k) n := by
  induction k with
  | zero =>
    obtain ⟨us, hspells, hderives⟩ := h
    exact ⟨us, hspells, .unary hderives⟩
  | succ k ih =>
    obtain ⟨us, hspells, hderives⟩ := ih (Nat.lt_of_succ_lt hk)
    obtain ⟨vs, hone, hfactor⟩ := spellsExpression_one
    obtain ⟨_, -, hunary⟩ := h
    have hlevels : max n ((first.timesOnes k).chainLength + 1 + 1) = n := by
      rw [Expression.chainLength_timesOnes hunary.chainLength_eq_zero]
      omega
    refine ⟨us ++ .star :: vs, ?_, ?_⟩
    · exact hspells.append nofun (delimited_cons _) (.symbol rfl hone)
    · rw [← hlevels]
      exact .factor (List.mem_cons_self ..) hderives hfactor

/-- **A ladder takes the levels it was made for.** -/
theorem spellsExpression_ladder (n : Nat) :
    SpellsExpression .product (Expression.ladderChars n) (.ladder n) (n + 1) := by
  induction n with
  | zero =>
    obtain ⟨us, hspells, hderives⟩ := spellsExpression_one
    exact ⟨us, hspells, .unary hderives⟩
  | succ n ih =>
    obtain ⟨us, hspells, hderives⟩ := ih
    have hclose : Spells [')'] [.rightParen] := .symbol rfl fun _ _ _ h => h
    refine spellsExpression_timesOnes ⟨.leftParen :: (us ++ [.rightParen]), ?_, ?_⟩
      (Nat.lt_succ_self _)
    · exact .symbol rfl (hspells.append nofun (delimited_cons _) hclose)
    · exact .primary (.brackets (.product hderives))

/-- The expression with signs in front. -/
def Expression.negated (e : Expression) : Nat → Expression
  | 0 => e
  | k + 1 => .neg (e.negated k)

theorem spellsExpression_negated {w : List Char} {e : Expression} {n : Nat}
    (h : SpellsExpression .unary w e n) (k : Nat) :
    SpellsExpression .unary (List.replicate k '-' ++ w) (e.negated k) (n + k) := by
  induction k with
  | zero => exact h
  | succ k ih =>
    obtain ⟨us, hspells, hderives⟩ := ih
    exact ⟨.minus :: us, .symbol rfl hspells, .minus hderives⟩

/-! ### Angles of tokens -/

/-- The expression is what the text after the first bracket of a token is parsed as. -/
def Expression.IsFirstAngle (e : Expression) (t : String) : Prop :=
  ∃ before after l ls rest, IsCut t.toList before after ∧
    tokenize (byteLength before) ('(' :: after) = .ok (l :: ls) ∧
      Expression.parse ls = .ok (e, rest)

/-- The token of a rotation of the first qubit by an angle with the given text. -/
def rotationToken (angle : List Char) : String :=
  String.ofList ('R' :: 'X' :: '(' :: (angle ++ [')', '(', '0', ')']))

/-- **A written angle is the first angle of a token that is accepted**, if it is defined and takes
no more levels than there are. -/
theorem isFirstAngle_rotationToken {w : List Char} {e : Expression} {n : Nat}
    (h : SpellsExpression .sum w e n) (hn : n ≤ maxDepth) (hdefined : e.IsDefined) :
    Record.parse (rotationToken w) = .ok ⟨.rx, [e.value], [0]⟩ ∧
      e.IsFirstAngle (rotationToken w) := by
  obtain ⟨us, hspells, hderives⟩ := h
  have hzero : Spells ['0'] [.integer 0] := Spells.natural (n := 0) (by decide)
  have hqubits : Spells ['(', '0', ')'] [.leftParen, .integer 0, .rightParen] :=
    .symbol rfl (hzero.append nofun (delimited_cons _) (.symbol rfl fun _ _ _ h => h))
  have hgroups : Spells (w ++ [')', '(', '0', ')'])
      (us ++ [.rightParen, .leftParen, .integer 0, .rightParen]) :=
    hspells.append nofun (delimited_cons _) (.symbol rfl hqubits)
  have hlexes : Lexes ('(' :: (w ++ [')', '(', '0', ')']))
      (.leftParen :: (us ++ [.rightParen, .leftParen, .integer 0, .rightParen])) :=
    .symbol rfl hgroups.lexes
  have hcut : IsCut (rotationToken w).toList ['R', 'X'] (w ++ [')', '(', '0', ')']) := by
    rw [rotationToken, String.toList_ofList]
    exact ⟨rfl, by decide⟩
  have hname : WritesName ['R', 'X'] GateName.rx.text := writesName_iff.2 (by decide +kernel)
  constructor
  · refine Record.parse_eq_ok_iff.2 (parseFault_eq_ok_iff.2 ⟨_, _, _, hcut, hname, hlexes, ?_⟩)
    refine ⟨.leftParen :: (us ++ [.rightParen]), [.leftParen, .integer 0, .rightParen], by simp,
      ⟨us, rfl, .single ⟨e, n, hderives, hn, hdefined, rfl⟩⟩, [.integer 0], rfl, .single ?_⟩
    exact ⟨0, rfl, by decide, rfl⟩
  · obtain ⟨ls, hls, htokens⟩ := tokenize_of_lexes hlexes (byteLength ['R', 'X'])
    obtain ⟨l, ls, rfl, -, hrest⟩ := List.map_eq_cons_iff.1 htokens
    obtain ⟨ls, rest, rfl, hus, hclose⟩ := List.map_eq_append_iff.1 hrest
    refine ⟨_, _, l, ls ++ rest, rest, hcut, hls, ?_⟩
    refine Expression.parse_eq_ok_iff.2 ⟨⟨ls, n, rfl, hn, hus ▸ hderives⟩, fun r hr op hop => ?_⟩
    obtain ⟨r, rest, rfl, hr', -⟩ := List.map_eq_cons_iff.1 hclose
    obtain rfl := Option.some.inj hr
    rw [hr'] at hop
    cases hop

/-- **How high parsed expressions are.** The budget of `maxDepth` levels bounds the height where
only the last operand of every chain nests. Other expressions are at most as high as the triangular
number of the budget. -/
theorem parsed_expression_height {ts rest : List Lexeme} {e : Expression}
    (h : Expression.parse ts = .ok (e, rest)) :
    e.height ≤ maxDepth * (maxDepth + 1) / 2 ∧ (e.NestsLast → e.height ≤ maxDepth) := by
  obtain ⟨⟨ls, n, -, hn, hderives⟩, -⟩ := Expression.parse_eq_ok_iff.1 h
  refine ⟨?_, fun hlast => (hderives.height_le_levels hlast).trans hn⟩
  rw [← Expression.tallest_eq]
  exact hderives.height_le.trans (Expression.tallest_mono hn)

/-- A chain whose last operand nests. -/
theorem parsed_expression_height_last_operand :
    ∃ e, Expression.parse [⟨.pi, 0, 2, []⟩, ⟨.slash, 2, 3, []⟩, ⟨.minus, 3, 4, []⟩,
        ⟨.leftParen, 4, 5, []⟩, ⟨.integer 2, 5, 6, []⟩, ⟨.rightParen, 6, 7, []⟩] = .ok (e, []) ∧
      e.height = 4 ∧ e.NestsLast ∧ e.height ≤ maxDepth := by
  have hparse : Expression.parse [⟨.pi, 0, 2, []⟩, ⟨.slash, 2, 3, []⟩, ⟨.minus, 3, 4, []⟩,
      ⟨.leftParen, 4, 5, []⟩, ⟨.integer 2, 5, 6, []⟩, ⟨.rightParen, 6, 7, []⟩] =
    .ok (.binary .div .pi (.neg (.paren (.number (integerValue 2)))), []) := rfl
  have hlast : (Expression.binary .div .pi (.neg (.paren (.number (integerValue 2))))).NestsLast :=
    ⟨trivial, trivial⟩
  exact ⟨_, hparse, rfl, hlast, (parsed_expression_height hparse).2 hlast⟩

/-- **The triangular number is the height of an accepted angle.** -/
theorem exists_tallest_angle : ∃ (t : String) (r : Record Float) (e : Expression),
    Record.parse t = .ok r ∧ e.IsFirstAngle t ∧ e.height = maxDepth * (maxDepth + 1) / 2 := by
  obtain ⟨us, hspells, hderives⟩ := spellsExpression_ladder 255
  obtain ⟨hparse, hangle⟩ := isFirstAngle_rotationToken ⟨us, hspells, .product hderives⟩
    (Nat.le_refl maxDepth) (Expression.eval?_eq_some_iff.1 (Expression.eval?_ladder 255)).1
  refine ⟨_, _, _, hparse, hangle, ?_⟩
  rw [Expression.height_ladder, Expression.tallest_eq]
  rfl

/-- An operand with as many signs as there are levels for takes them all, and an operator after it
comes on top. -/
theorem parsed_expression_exceeds_budget : ∃ e : Expression,
    Record.parse (rotationToken (List.replicate 255 '-' ++ ['1', '*', '1'])) =
      .ok ⟨.rx, [-1], [0]⟩ ∧
    e.IsFirstAngle (rotationToken (List.replicate 255 '-' ++ ['1', '*', '1'])) ∧
    maxDepth < e.height := by
  have hsigns := spellsExpression_negated spellsExpression_one 255
  obtain ⟨us, hspells, hderives⟩ := spellsExpression_timesOnes (k := 1) hsigns (by decide)
  rw [Expression.timesOnesChars, Expression.timesOnesChars, List.append_assoc] at hspells
  have hvalue : ((Expression.one.negated 255).timesOnes 1).eval? = some (-1) := by decide +kernel
  obtain ⟨hdefined, hvalue⟩ := Expression.eval?_eq_some_iff.1 hvalue
  obtain ⟨hparse, hangle⟩ :=
    isFirstAngle_rotationToken ⟨us, hspells, .product hderives⟩ (by decide) hdefined
  rw [hvalue] at hparse
  exact ⟨_, hparse, hangle, by decide +kernel⟩

end CircuitExchange
