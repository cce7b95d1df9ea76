import Mathlib
import CircuitExchange.Proofs.Result
import CircuitExchange.Proofs.Token.Lexing
import CircuitExchange.Token.Gate
import CircuitExchange.Gate.Call

/-!
Angles in tokens are read back. `Reads entry w a?` says that a text is read by a parser as a value,
or is refused; angles are read as the formula they write down, unless a part of it is not finite.

* `reads_angle`: the text of an angle is read as its value.
* `reads_qubit`: the text of a qubit is read as the qubit.
-/

namespace CircuitExchange

open Decimal

/-! ### Parsers and texts -/

/-- What follows an entry of a group: a comma or the end of the group. -/
def Closed (ls : List Lexeme) : Prop :=
  ∀ l ∈ ls.head?, l.token = .comma ∨ l.token = .rightParen

theorem Closed.binaryOp?_eq_none {l : Lexeme} {ls : List Lexeme} (h : Closed (l :: ls)) :
    binaryOp? l.token = none := by
  rcases h l rfl with h | h <;> rw [h] <;> rfl

/-- The parser reads the text, wherever an entry may end, as the value; without one it refuses the
text. -/
def Reads {α : Type} (entry : Parser α) (w : List Char) (a? : Option α) : Prop :=
  ∃ us, Spells w us ∧ ∀ ls rest : List Lexeme, ls.map (·.token) = us → Closed rest →
    (entry (ls ++ rest)).toOption = a?.map fun a => (a, rest)

/-! ### Single steps of the parser -/

section Steps

variable {l : Lexeme} {ls : List Lexeme} {left : Expression}

theorem operand_number {x : Float} (h : l.token.IsOperand x) (budget : Nat) :
    operand (budget + 1) (l :: ls) = .ok (.number x, ls) := by
  rcases h with h | ⟨v, h, rfl⟩ <;> rw [operand_cons, h]

theorem operand_pi (h : l.token = .pi) (budget : Nat) :
    operand (budget + 1) (l :: ls) = .ok (.pi, ls) := by
  rw [operand_cons, h]

theorem operand_minus (h : l.token = .minus) (budget : Nat) :
    operand (budget + 1) (l :: ls) =
      (operand budget ls).map fun (e, rest) => (.neg e, rest) := by
  rw [operand_cons, h]
  rfl

theorem operand_identifier {name : String} (h : l.token = .identifier name) (budget : Nat) :
    operand (budget + 1) (l :: ls) = .error (.unexpected .expression (.identifier name)) := by
  rw [operand_cons, h]

theorem chain_of_closed (h : Closed ls) (budget least : Nat) :
    chain budget least left ls = .ok (left, ls) := by
  cases ls with
  | nil => rw [chain_nil]
  | cons l ls => rw [chain_cons, h.binaryOp?_eq_none]

/-- An operator takes the operand after it and the tighter operators after that. -/
theorem chain_of_le_precedence {op : BinaryOp} {least budget : Nat} {first right : Expression}
    {more rest : List Lexeme} (h : binaryOp? l.token = some op) (hle : least ≤ op.precedence)
    (hfirst : operand budget ls = .ok (first, more))
    (hright : chain budget (op.precedence + 1) first more = .ok (right, rest)) :
    chain (budget + 1) least left (l :: ls) = chain budget least (.binary op left right) rest := by
  rw [chain_cons, h]
  refine (if_neg (Nat.not_lt.2 hle)).trans ?_
  simp only [hfirst, hright, ok_bind]

end Steps

/-! ### Values -/

theorem finite?_of_isFinite {x : Float} (h : x.isFinite) : Expression.finite? x = some x :=
  if_pos h

theorem isFinite_of_finite? {x y : Float} (h : Expression.finite? x = some y) :
    x = y ∧ y.isFinite := by
  unfold Expression.finite? at h
  split at h
  · obtain rfl := Option.some.inj h
    exact ⟨rfl, ‹_›⟩
  · cases h

/-- An angle is finite if all parts of its formula are. -/
def Angle.IsFinite : Angle Float → Prop
  | .value x => x.isFinite
  | .pi | .twoPi | .halfPi => True
  | .minusHalfPi x => x.isFinite ∧ (x - Scalar.pi / Scalar.two).isFinite
  | .plusHalfPi x => x.isFinite ∧ (x + Scalar.pi / Scalar.two).isFinite

instance : DecidablePred Angle.IsFinite
  | .value x => inferInstanceAs (Decidable (x.isFinite = true))
  | .pi | .twoPi | .halfPi => instDecidableTrue
  | .minusHalfPi _ | .plusHalfPi _ => instDecidableAnd

/-- The value of a finite angle. -/
def Angle.value? (a : Angle Float) : Option Float := if a.IsFinite then some a.eval else none

theorem Angle.value?_of_isFinite {a : Angle Float} (h : a.IsFinite) : a.value? = some a.eval :=
  if_pos h

theorem Angle.value?_of_not_isFinite {a : Angle Float} (h : ¬ a.IsFinite) : a.value? = none :=
  if_neg h

theorem integerValue_two : integerValue (.ofNat 2) = (Scalar.two : Float) := by decide +kernel

theorem two_beq_zero : ((Scalar.two : Float) == 0) = false := by decide +kernel

theorem isFinite_pi : (Scalar.pi : Float).isFinite := by decide +kernel

theorem isFinite_two : (Scalar.two : Float).isFinite := by decide +kernel

theorem isFinite_halfPi : (Scalar.pi / Scalar.two : Float).isFinite := by decide +kernel

theorem isFinite_twoPi : (Scalar.two * Scalar.pi : Float).isFinite := by decide +kernel

/-- A quarter turn as it stands in a token. -/
def quarterTurn : Expression := .binary .div .pi (.number Scalar.two)

theorem eval?_quarterTurn : quarterTurn.eval? = some (Scalar.pi / Scalar.two : Float) := by
  have hdiv : Expression.applyOp? .div (Scalar.pi : Float) Scalar.two =
      some (Scalar.pi / Scalar.two) := by
    rw [Expression.applyOp?, two_beq_zero]
    rfl
  simp only [quarterTurn, Expression.eval?, finite?_of_isFinite isFinite_two, Option.bind_eq_bind,
    Option.bind_some, hdiv, finite?_of_isFinite isFinite_halfPi]

/-! ### Numbers -/

/-- A written number is digits after an optional sign, or a name. -/
theorem angleText_eq (x : Float) :
    ∃ style : Style, style.wholeDecimal = false ∧ style.exponentPlus = false ∧
      (angleText x).toList = style.chars x := by
  unfold angleText
  split
  · exact ⟨.scientific, rfl, rfl, String.toList_ofList ..⟩
  · exact ⟨.plain, rfl, rfl, String.toList_ofList ..⟩

/-- The operand that a number is written as. -/
def operandOf (x : Float) : Expression :=
  if isNegative x then .neg (.number (ofWord false (word x))) else .number (ofWord false (word x))

theorem eval?_operandOf {x : Float} (h : x.isFinite) : (operandOf x).eval? = some x := by
  have hword := (isFinite_iff x).1 h
  have hmagnitude := finite?_of_isFinite ((isFinite_ofWord false hword.le).2 hword)
  have hx := ofWord_isNegative_word hword.le
  unfold operandOf
  split
  · rename_i hneg
    rw [hneg] at hx
    rw [Expression.eval?, Expression.eval?, hmagnitude, Option.map_some, neg_ofWord _ hword.le]
    exact congrArg some hx
  · rename_i hneg
    rw [Bool.not_eq_true] at hneg
    rw [hneg] at hx
    rw [Expression.eval?, hmagnitude, hx]

/-- The units of a written number are an operand, if the number is finite, and otherwise none. -/
theorem exists_spells_angleText (x : Float) :
    ∃ us, Spells (angleText x).toList us ∧
      ∀ budget (ls rest : List Lexeme), ls.map (·.token) = us →
        (operand (budget + 2) (ls ++ rest)).toOption =
          if x.isFinite then some (operandOf x, rest) else none := by
  obtain ⟨style, hwhole, hplus, htext⟩ := angleText_eq x
  rw [htext, Style.chars]
  by_cases hnan : infinityWord < word x
  · have hfinite : ¬ x.isFinite := by
      rw [isFinite_iff]
      omega
    rw [if_pos hnan]
    refine ⟨_, Spells.name (.inr rfl), fun budget ls rest hls => ?_⟩
    obtain ⟨l, rfl, hl⟩ := List.map_eq_singleton_iff.1 hls
    rw [if_neg hfinite, List.singleton_append, operand_identifier hl]
    rfl
  · rw [if_neg hnan]
    obtain ⟨u, hspells, hoperand⟩ : ∃ u,
        Spells (if word x = infinityWord then ['i', 'n', 'f'] else style.magnitude (word x)) [u] ∧
        ∀ budget (l : Lexeme) (rest : List Lexeme), l.token = u →
          (operand (budget + 1) (l :: rest)).toOption =
            if x.isFinite then some (.number (ofWord false (word x)), rest) else none := by
      by_cases hinf : word x = infinityWord
      · have hfinite : ¬ x.isFinite := by
          rw [isFinite_iff]
          omega
        rw [if_pos hinf]
        refine ⟨_, Spells.name (.inl rfl), fun budget l rest hl => ?_⟩
        rw [if_neg hfinite, operand_identifier hl]
        rfl
      · have hword : word x < infinityWord := by omega
        rw [if_neg hinf]
        obtain ⟨t, ht, hspells⟩ := Spells.magnitude hwhole hplus hword
        refine ⟨t, hspells, fun budget l rest hl => ?_⟩
        rw [if_pos ((isFinite_iff x).2 hword), operand_number (hl ▸ ht)]
        rfl
    cases hneg : isNegative x with
    | false =>
      refine ⟨[u], hspells, fun budget ls rest hls => ?_⟩
      obtain ⟨l, rfl, hl⟩ := List.map_eq_singleton_iff.1 hls
      rw [List.singleton_append, hoperand _ l rest hl, operandOf, hneg]
      rfl
    | true =>
      refine ⟨[.minus, u], hspells.symbol rfl, fun budget ls rest hls => ?_⟩
      obtain ⟨m, ls, rfl, hm, hls⟩ := List.map_eq_cons_iff.1 hls
      obtain ⟨l, rfl, hl⟩ := List.map_eq_singleton_iff.1 hls
      rw [List.cons_append, List.singleton_append, operand_minus hm, toOption_map,
        hoperand budget l rest hl, operandOf, hneg]
      split <;> rfl

/-! ### Formulas -/

theorem spells_two : Spells ['2'] [.integer 2] := Spells.natural (n := 2) (by decide)

theorem spells_quarterTurn : Spells ['P', 'I', '/', '2'] [.pi, .slash, .integer 2] :=
  Spells.pi.append (by simp) (delimited_cons _) (spells_two.symbol rfl)

section Formulas

variable {ls rest : List Lexeme}

theorem operand_two {l : Lexeme} (h : l.token = .integer 2) (budget : Nat) :
    operand (budget + 1) (l :: ls) = .ok (.number Scalar.two, ls) :=
  operand_number (.inr ⟨2, h, integerValue_two⟩) budget

/-- A quarter turn is a product, and so an operand of a sum. -/
theorem chain_quarterTurn (h : ls.map (·.token) = [.pi, .slash, .integer 2]) (hrest : Closed rest)
    {least : Nat} (hleast : least ≤ 2) (budget : Nat) :
    ∃ more, operand (budget + 2) (ls ++ rest) = .ok (.pi, more) ∧
      chain (budget + 2) least .pi more = .ok (quarterTurn, rest) := by
  obtain ⟨l, ls, rfl, hpi, h⟩ := List.map_eq_cons_iff.1 h
  obtain ⟨l', ls, rfl, hslash, h⟩ := List.map_eq_cons_iff.1 h
  obtain ⟨l'', rfl, htwo⟩ := List.map_eq_singleton_iff.1 h
  have hop : binaryOp? l'.token = some .div := by
    rw [hslash]
    rfl
  refine ⟨l' :: l'' :: rest, operand_pi hpi _, ?_⟩
  rw [chain_of_le_precedence hop hleast (operand_two htwo budget) (chain_of_closed hrest ..)]
  exact chain_of_closed hrest ..

/-- A sum or a difference with a quarter turn. -/
theorem chain_sum {l : Lexeme} {op : BinaryOp} (left : Expression)
    (hop : binaryOp? l.token = some op) (hprecedence : op.precedence = 1)
    (h : ls.map (·.token) = [.pi, .slash, .integer 2]) (hrest : Closed rest) (budget : Nat) :
    chain (budget + 3) 0 left (l :: (ls ++ rest)) = .ok (.binary op left quarterTurn, rest) := by
  obtain ⟨more, hfirst, hright⟩ :=
    chain_quarterTurn h hrest (show op.precedence + 1 ≤ 2 by omega) budget
  rw [chain_of_le_precedence hop (Nat.zero_le _) hfirst hright]
  exact chain_of_closed hrest ..

/-- Twice π. -/
theorem chain_twoPi {l l' : Lexeme} (hstar : l.token = .star) (hpi : l'.token = .pi)
    (hrest : Closed rest) (left : Expression) (budget : Nat) :
    chain (budget + 2) 0 left (l :: l' :: rest) = .ok (.binary .mul left .pi, rest) := by
  have hop : binaryOp? l.token = some .mul := by
    rw [hstar]
    rfl
  rw [chain_of_le_precedence hop (Nat.zero_le _) (operand_pi hpi budget) (chain_of_closed hrest ..)]
  exact chain_of_closed hrest ..

/-- An expression is read if its first operand and the operators after it are. -/
theorem parse_eq_ok {more : List Lexeme} {first e : Expression}
    (hfirst : operand maxDepth ls = .ok (first, more))
    (hchain : chain maxDepth 0 first more = .ok (e, rest)) :
    Expression.parse ls = .ok (e, rest) := by
  rw [Expression.parse, hfirst]
  exact hchain

theorem toOption_parseAngle {e : Expression} (h : Expression.parse ls = .ok (e, rest)) :
    (parseAngle ls).toOption = e.eval?.map fun a => (a, rest) := by
  rw [parseAngle, h, ok_bind]
  cases he : e.eval? <;> simp only [he] <;> rfl

theorem toOption_parseAngle_eq_none (h : (operand maxDepth ls).toOption = none) :
    (parseAngle ls).toOption = none := by
  simp only [parseAngle, Expression.parse, toOption_bind, h, Option.bind_none]

end Formulas

/-- A text that ends in a formula after a number is read as the formula's value, if the number and
the value are finite. -/
theorem reads_sum {op : BinaryOp} {c : Char} {t : Token} (combine : Float → Float → Float)
    (hc : Token.ofSymbol? c = some t) (hop : binaryOp? t = some op)
    (hprecedence : op.precedence = 1)
    (happly : ∀ l r, Expression.applyOp? op l r = some (combine l r)) (x : Float) :
    Reads parseAngle ((angleText x).toList ++ [' ', c, ' ', 'P', 'I', '/', '2'])
      (if x.isFinite ∧ (combine x (Scalar.pi / Scalar.two)).isFinite then
        some (combine x (Scalar.pi / Scalar.two)) else none) := by
  obtain ⟨us, hspells, hoperand⟩ := exists_spells_angleText x
  have hturn : Spells [' ', c, ' ', 'P', 'I', '/', '2'] (t :: [.pi, .slash, .integer 2]) :=
    ((spells_quarterTurn.skip (by decide)).symbol hc).skip (by decide)
  refine ⟨us ++ (t :: [.pi, .slash, .integer 2]),
    hspells.append (by simp) (delimited_cons _) hturn, fun ls rest hls hrest => ?_⟩
  obtain ⟨ls₁, ls₂, rfl, hls₁, hls₂⟩ := List.map_eq_append_iff.1 hls
  obtain ⟨l, ls₂, rfl, hl, hls₂⟩ := List.map_eq_cons_iff.1 hls₂
  obtain ⟨b, hb⟩ : ∃ b, maxDepth = b + 3 := ⟨_, rfl⟩
  have hfirst := hoperand (b + 1) ls₁ (l :: (ls₂ ++ rest)) hls₁
  have hsum := chain_sum (operandOf x) (hl ▸ hop) hprecedence hls₂ hrest b
  rw [← hb] at hfirst hsum
  rw [List.append_assoc, List.cons_append]
  by_cases hx : x.isFinite
  · rw [if_pos hx] at hfirst
    rw [toOption_parseAngle (parse_eq_ok (toOption_eq_some hfirst) hsum)]
    simp only [Expression.eval?, eval?_operandOf hx, eval?_quarterTurn, Option.bind_eq_bind,
      Option.bind_some, happly, Expression.finite?, hx, true_and]
  · rw [if_neg hx] at hfirst
    rw [toOption_parseAngle_eq_none hfirst, if_neg fun h => hx h.1]
    rfl

/-- **The text of an angle is read as its value, and refused if the angle is not finite.** -/
theorem reads_angle (a : Angle Float) : Reads parseAngle a.text.toList a.value? := by
  obtain ⟨b, hb⟩ : ∃ b, maxDepth = b + 2 := ⟨_, rfl⟩
  cases a with
  | value x =>
    obtain ⟨us, hspells, hoperand⟩ := exists_spells_angleText x
    refine ⟨us, hspells, fun ls rest hls hrest => ?_⟩
    have hfirst := hoperand b ls rest hls
    rw [← hb] at hfirst
    by_cases hx : x.isFinite
    · rw [if_pos hx] at hfirst
      rw [toOption_parseAngle (parse_eq_ok (toOption_eq_some hfirst) (chain_of_closed hrest ..)),
        eval?_operandOf hx, Angle.value?_of_isFinite (a := .value x) hx]
      rfl
    · rw [if_neg hx] at hfirst
      rw [toOption_parseAngle_eq_none hfirst, Angle.value?_of_not_isFinite (a := .value x) hx]
      rfl
  | pi =>
    refine ⟨[.pi], Spells.pi, fun ls rest hls hrest => ?_⟩
    obtain ⟨l, rfl, hl⟩ := List.map_eq_singleton_iff.1 hls
    have hfirst : operand (b + 2) (l :: rest) = .ok (.pi, rest) := operand_pi hl (b + 1)
    rw [← hb] at hfirst
    rw [List.singleton_append,
      toOption_parseAngle (parse_eq_ok hfirst (chain_of_closed hrest ..))]
    rfl
  | twoPi =>
    refine ⟨[.integer 2, .star, .pi],
      spells_two.append (by simp) (delimited_cons _) (Spells.pi.symbol rfl),
      fun ls rest hls hrest => ?_⟩
    obtain ⟨l, ls, rfl, htwo, hls⟩ := List.map_eq_cons_iff.1 hls
    obtain ⟨l', ls, rfl, hstar, hls⟩ := List.map_eq_cons_iff.1 hls
    obtain ⟨l'', rfl, hpi⟩ := List.map_eq_singleton_iff.1 hls
    have hfirst : operand (b + 2) (l :: l' :: l'' :: rest) =
        .ok (.number Scalar.two, l' :: l'' :: rest) := operand_two htwo (b + 1)
    have hchain := chain_twoPi hstar hpi hrest (.number Scalar.two) b
    rw [← hb] at hfirst hchain
    refine (toOption_parseAngle (parse_eq_ok hfirst hchain)).trans (congrArg (Option.map _) ?_)
    simp only [Expression.eval?, finite?_of_isFinite isFinite_two, Option.bind_eq_bind,
      Option.bind_some, Expression.applyOp?, finite?_of_isFinite isFinite_twoPi]
    rfl
  | halfPi =>
    refine ⟨_, spells_quarterTurn, fun ls rest hls hrest => ?_⟩
    obtain ⟨more, hfirst, hchain⟩ := chain_quarterTurn hls hrest (Nat.zero_le 2) b
    rw [← hb] at hfirst hchain
    rw [toOption_parseAngle (parse_eq_ok hfirst hchain), eval?_quarterTurn]
    rfl
  | minusHalfPi x =>
    have h := reads_sum (c := '-') (· - ·) rfl rfl rfl (fun _ _ => rfl) x
    rw [Angle.text, String.toList_append]
    exact h
  | plusHalfPi x =>
    have h := reads_sum (c := '+') (· + ·) rfl rfl rfl (fun _ _ => rfl) x
    rw [Angle.text, String.toList_append]
    exact h

/-- **The text of a qubit is read as the qubit.** -/
theorem reads_qubit (q : Qubit) : Reads parseQubit (toString q.toNat).toList (some q) := by
  have htext : (toString q.toNat).toList = digits q.toNat := String.toList_ofList ..
  have hq : q.toNat < UInt32.size := q.toNat_lt
  have hsize : UInt32.size < UInt64.size := by decide
  rw [htext]
  refine ⟨_, Spells.natural (hq.trans hsize), fun ls rest hls _ => ?_⟩
  obtain ⟨l, rfl, hl⟩ := List.map_eq_singleton_iff.1 hls
  have hvalue : (UInt64.ofNat q.toNat).toNat = q.toNat :=
    UInt64.toNat_ofNat_of_lt' (hq.trans hsize)
  have hqubit : (UInt64.ofNat q.toNat).toUInt32 = q := by
    apply UInt32.toNat_inj.1
    rw [UInt64.toNat_toUInt32, hvalue]
    exact Nat.mod_eq_of_lt hq
  rw [List.singleton_append, parseQubit, hl]
  simp only [hvalue, hqubit, if_pos hq]
  rfl

end CircuitExchange
