import Mathlib
import CircuitExchange.Proofs.Expression.Height
import CircuitExchange.Proofs.Token.Partition

/-!
Printed expressions are read back. Printing writes no brackets of its own, and needs none: an
expression that is derived is derived again from what is printed for it, operator by operator, and
takes no more levels. Only plus signs are lost, which leave no trace in the tree.

* `isUnsigned_of_tokenize`: no number that is read has a sign, so that none is printed with one.
* `Derives.spells_chars`: what is printed for an expression is written as one.
* `printed_expression_reads_back`: what is printed is parsed to the same expression.
-/

namespace CircuitExchange

open Decimal

/-! ### Numbers that are read -/

/-- The operand that the unit may be has no sign. -/
def Token.IsUnsigned (t : Token) : Prop := ∀ x, t.IsOperand x → isNegative x = false

theorem isNegative_toFloat (a : Numeral) : isNegative (a.toFloat false) = false := by
  have hclip : a.toFloat false = ofWord false (min a.nearest infinityWord) := by
    simp [Numeral.toFloat, ofWord]
  have hle : min a.nearest infinityWord ≤ infinityWord := Nat.min_le_right ..
  have hlt : min a.nearest infinityWord < signBit := lt_of_le_of_lt hle (by decide)
  rw [hclip, isNegative, toNat_toBits_ofWord false hle]
  exact decide_eq_false (Nat.not_le.2 hlt)

theorem isNegative_numberOf (w : List Char) : isNegative (LexemeClass.numberOf w) = false := by
  rw [LexemeClass.numberOf]
  cases Numeral.read? w with
  | none => decide +kernel
  | some a => exact isNegative_toFloat a

theorem Token.IsSpelled.isUnsigned {t : Token} {w : List Char} (h : t.IsSpelled w) :
    t.IsUnsigned := by
  rintro x (rfl | ⟨v, rfl, rfl⟩)
  · rw [h.2]
    exact isNegative_numberOf w
  · exact isNegative_toFloat ⟨v.toNat, 0⟩

/-- **No number that is read has a sign.** Minus signs are units of their own. -/
theorem isUnsigned_of_tokenize {position : Nat} {cs : List Char} {ls : List Lexeme}
    (h : tokenize position cs = .ok ls) {l : Lexeme} (hl : l ∈ ls) : l.token.IsUnsigned := by
  have hmem : .ok l ∈ lexemes position cs := by
    rw [lexemes_of_tokenize h]
    exact List.mem_map_of_mem hl
  obtain ⟨before, w, after, hmunch⟩ := (isPartition_lexemes position cs).part _ hmem
  exact hmunch.spelled.isUnsigned

/-! ### What is printed -/

/-- A finite number without a sign is printed as a magnitude and is one operand again. -/
theorem exists_spells_plain {x : Float} (hsign : isNegative x = false) (hx : x.isFinite) :
    ∃ t : Token, t.IsOperand x ∧ Spells (Style.plain.chars x) [t] := by
  have hword := (isFinite_iff x).1 hx
  obtain ⟨t, ht, hspells⟩ : ∃ t : Token, t.IsOperand (ofWord false (word x)) ∧
      Spells (Style.plain.magnitude (word x)) [t] := Spells.magnitude rfl rfl hword
  have hnumber := ofWord_isNegative_word hword.le
  rw [hsign] at hnumber
  refine ⟨t, hnumber ▸ ht, ?_⟩
  rw [Style.chars]
  simp only [hsign, if_neg (Nat.not_lt.2 hword.le), if_neg hword.ne]
  exact hspells

theorem ofSymbol?_symbol (op : BinaryOp) :
    ∃ t, Token.ofSymbol? op.symbol = some t ∧ binaryOp? t = some op := by
  cases op <;> exact ⟨_, rfl, rfl⟩

section Printed

variable {w w' : List Char} {e left right : Expression} {n m p : Nat}

theorem SpellsExpression.neg (h : SpellsExpression .unary w e n) :
    SpellsExpression .unary ('-' :: w) (.neg e) (n + 1) := by
  obtain ⟨us, hspells, hderives⟩ := h
  exact ⟨.minus :: us, hspells.symbol rfl, .minus hderives⟩

theorem SpellsExpression.brackets (h : SpellsExpression .sum w e n) :
    SpellsExpression .primary ('(' :: (w ++ [')'])) (.paren e) n := by
  obtain ⟨us, hspells, hderives⟩ := h
  have hclose : Spells [')'] [.rightParen] := .symbol rfl fun _ _ _ h => h
  exact ⟨.leftParen :: (us ++ [.rightParen]),
    .symbol rfl (hspells.append nofun (delimited_cons _) hclose), .brackets hderives⟩

/-- An operator with blanks around it stands between the operands that its precedence asks for. -/
theorem SpellsExpression.binary {op : BinaryOp} (hop : op.precedence = p)
    (hleft : SpellsExpression (.ofPrecedence p) w left n)
    (hright : SpellsExpression (.ofPrecedence (p + 1)) w' right m) :
    SpellsExpression (.ofPrecedence p) (w ++ ' ' :: op.symbol :: ' ' :: w')
      (.binary op left right) (max n (left.chainLength + 1 + m)) := by
  subst hop
  obtain ⟨us, hspells, hderives⟩ := hleft
  obtain ⟨vs, hspells', hderives'⟩ := hright
  obtain ⟨t, hsymbol, ht⟩ := ofSymbol?_symbol op
  refine ⟨us ++ t :: vs, ?_, hderives.binary ht hderives'⟩
  exact hspells.append nofun (delimited_cons _)
    (.skip (by decide) (.symbol hsymbol (.skip (by decide) hspells')))

end Printed

/-- **What is printed for an expression is written as one**, of the same category, and takes no more
levels than what it was read from. -/
theorem Derives.spells_chars {c : Category} {u : List Token} {e : Expression} {n : Nat}
    (h : Derives c u e n) (hu : ∀ t ∈ u, t.IsUnsigned) (hdefined : e.IsDefined) :
    ∃ m ≤ n, SpellsExpression c e.chars e m := by
  induction h with
  | @number t x h =>
    have hsign : isNegative x = false := hu t (List.mem_singleton_self t) x h
    have hfinite : x.isFinite := (hdefined _ (List.mem_singleton_self _)).1
    obtain ⟨t', ht', hspells⟩ := exists_spells_plain hsign hfinite
    exact ⟨0, le_rfl, [t'], hspells, .number ht'⟩
  | pi => exact ⟨0, le_rfl, [.pi], .pi, .pi⟩
  | brackets _ ih =>
    have hinner := (List.forall_mem_append.1 (List.forall_mem_cons.1 hu).2).1
    obtain ⟨m, hm, hprinted⟩ := ih hinner (List.forall_mem_cons.1 hdefined).2
    exact ⟨m, hm, hprinted.brackets⟩
  | primary _ ih =>
    obtain ⟨m, hm, us, hspells, hderives⟩ := ih hu hdefined
    exact ⟨m + 1, Nat.succ_le_succ hm, us, hspells, .primary hderives⟩
  | minus _ ih =>
    obtain ⟨m, hm, hprinted⟩ :=
      ih (List.forall_mem_cons.1 hu).2 (List.forall_mem_cons.1 hdefined).2
    exact ⟨m + 1, Nat.succ_le_succ hm, hprinted.neg⟩
  | plus _ ih =>
    -- the sign is not printed, and its level is free
    obtain ⟨m, hm, hprinted⟩ := ih (List.forall_mem_cons.1 hu).2 hdefined
    exact ⟨m, hm.trans (Nat.le_succ _), hprinted⟩
  | unary _ ih =>
    obtain ⟨m, hm, us, hspells, hderives⟩ := ih hu hdefined
    exact ⟨m, hm, us, hspells, .unary hderives⟩
  | product _ ih =>
    obtain ⟨m, hm, us, hspells, hderives⟩ := ih hu hdefined
    exact ⟨m, hm, us, hspells, .product hderives⟩
  | factor hop _ _ ihleft ihright =>
    obtain ⟨huleft, huright⟩ := List.forall_mem_append.1 hu
    obtain ⟨hdleft, hdright, -⟩ := Expression.isDefined_binary.1 hdefined
    obtain ⟨m, hm, hleft⟩ := ihleft huleft hdleft
    obtain ⟨k, hk, hright⟩ := ihright (List.forall_mem_cons.1 huright).2 hdright
    exact ⟨_, max_le_max hm (Nat.add_le_add_left hk _), .binary
      ((Category.mem_operators_iff Nat.two_pos).1 hop).2 hleft hright⟩
  | term hop _ _ ihleft ihright =>
    obtain ⟨huleft, huright⟩ := List.forall_mem_append.1 hu
    obtain ⟨hdleft, hdright, -⟩ := Expression.isDefined_binary.1 hdefined
    obtain ⟨m, hm, hleft⟩ := ihleft huleft hdleft
    obtain ⟨k, hk, hright⟩ := ihright (List.forall_mem_cons.1 huright).2 hdright
    exact ⟨_, max_le_max hm (Nat.add_le_add_left hk _), .binary
      ((Category.mem_operators_iff Nat.one_pos).1 hop).2 hleft hright⟩

/-! ### What is printed is read back -/

/-- A text that is written as an expression within the budget is parsed to it, wherever it
starts. -/
theorem SpellsExpression.parse {w : List Char} {e : Expression} {n : Nat}
    (h : SpellsExpression .sum w e n) (hn : n ≤ maxDepth) (start : Nat) :
    ∃ ls, tokenize start w = .ok ls ∧ Expression.parse ls = .ok (e, []) := by
  obtain ⟨us, hspells, hderives⟩ := h
  obtain ⟨ls, hls, rfl⟩ := tokenize_of_lexes hspells.lexes start
  refine ⟨ls, hls, Expression.parse_eq_ok_iff.2 ⟨⟨ls, n, ?_, hn, hderives⟩, nofun⟩⟩
  exact (List.append_nil ls).symm

/-- **Printing an expression loses nothing.** What is printed for an expression that was parsed, in
whatever text, and has a value is parsed to the same expression again, by itself and as the angle
of a token, which is accepted with the same value. -/
theorem printed_expression_reads_back {position : Nat} {cs : List Char}
    {before ts rest : List Lexeme} {e : Expression} {x : Float}
    (htokenize : tokenize position cs = .ok (before ++ ts))
    (hparse : Expression.parse ts = .ok (e, rest)) (hvalue : e.eval? = some x) :
    (∀ start, ∃ ls, tokenize start e.text.toList = .ok ls ∧ Expression.parse ls = .ok (e, [])) ∧
      e.IsFirstAngle (rotationToken e.chars) ∧
      Record.parse (rotationToken e.chars) = .ok ⟨.rx, [x], [0]⟩ := by
  obtain ⟨⟨ls, n, rfl, hn, hderives⟩, -⟩ := Expression.parse_eq_ok_iff.1 hparse
  obtain ⟨hdefined, rfl⟩ := Expression.eval?_eq_some_iff.1 hvalue
  have hunsigned : ∀ t ∈ ls.map (·.token), t.IsUnsigned := by
    intro t ht
    obtain ⟨l, hl, rfl⟩ := List.mem_map.1 ht
    exact isUnsigned_of_tokenize htokenize (by simp [hl])
  obtain ⟨m, hm, hprinted⟩ := hderives.spells_chars hunsigned hdefined
  obtain ⟨haccepted, hangle⟩ := isFirstAngle_rotationToken hprinted (hm.trans hn) hdefined
  refine ⟨fun start => ?_, hangle, haccepted⟩
  rw [Expression.text, String.toList_ofList]
  exact hprinted.parse (hm.trans hn) start

/-- A plus sign that is lost, signs next to an operator, and digits too long for an integer. -/
theorem printed_expression_reads_back_signs : ∃ (ls : List Lexeme) (e : Expression) (x : Float),
    tokenize 0 "- +1e20--PI".toList = .ok ls ∧ Expression.parse ls = .ok (e, []) ∧
      e.eval? = some x ∧ e.text = "-100000000000000000000 - -PI" ∧
      ∃ ls', tokenize 0 e.text.toList = .ok ls' ∧ Expression.parse ls' = .ok (e, []) := by
  let x := LexemeClass.numberOf "1e20".toList
  let e := Expression.binary .sub (.neg (.number x)) (.neg .pi)
  let ls : List Lexeme := [⟨.minus, 0, 1, "- +1e20--PI".toList⟩, ⟨.plus, 2, 3, "+1e20--PI".toList⟩,
    ⟨.number x, 3, 7, "1e20--PI".toList⟩, ⟨.minus, 7, 8, "--PI".toList⟩,
    ⟨.minus, 8, 9, "-PI".toList⟩, ⟨.pi, 9, 11, "PI".toList⟩]
  have htokenize : tokenize 0 "- +1e20--PI".toList = .ok ([] ++ ls) := by decide +kernel
  have hparse : Expression.parse ls = .ok (e, []) := rfl
  have hvalue : e.eval? = some (-x - -Scalar.pi) := by decide +kernel
  have htext : e.text = "-100000000000000000000 - -PI" := by decide +kernel
  exact ⟨ls, e, _, htokenize, hparse, hvalue, htext,
    (printed_expression_reads_back htokenize hparse hvalue).1 0⟩

end CircuitExchange
