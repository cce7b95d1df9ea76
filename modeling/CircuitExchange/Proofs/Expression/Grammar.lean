import Mathlib
import CircuitExchange.Proofs.Token.Codec

/-!
The grammar of expressions, apart from the parser. `Derives category u e levels` says that the units
`u` derive the expression `e` as a sum, a product, a unary or a primary expression, and how many
levels of nesting that takes. The parser climbs precedences over one budget; it accepts what the
grammar derives within this budget, and nothing else.

* `Category.mem_operators_iff`: the operators of a category are those of its precedence.
* `Derives.parsed`: what is derived within the budget is parsed.
* `operandSound_and_chainSound`: what is parsed is derived within the budget.
* `Expression.parse_eq_ok_iff`: the parser of expressions is the grammar.
* `Expression.eval?_eq_some_iff`: an expression has a value if it is finite in all its parts.
-/

namespace CircuitExchange

/-! ### The grammar -/

/-- The categories of expressions, from the loosest to the tightest. -/
inductive Category where
  | sum | product | unary | primary
deriving DecidableEq

/-- The operators that expressions of a category are joined with, each with the sign it is written
as. -/
def Category.operators : Category → List (Token × BinaryOp)
  | .sum => [(.plus, .add), (.minus, .sub)]
  | .product => [(.star, .mul), (.slash, .div)]
  | .unary | .primary => []

/-- The number of operators in the chain that the expression is: those folded into its left
operand, and its own. -/
def Expression.chainLength : Expression → Nat
  | .binary _ left _ => left.chainLength + 1
  | _ => 0

/-- Sums of products, products of unary expressions, signs before primary expressions. Chains of
operators associate to the left, a plus sign leaves no trace, and brackets do. Every sign and every
primary expression takes a level; an operand on the right also takes one for each operator of its
chain up to it. -/
inductive Derives : Category → List Token → Expression → Nat → Prop
  | number {t : Token} {x : Float} (h : t.IsOperand x) : Derives .primary [t] (.number x) 0
  | pi : Derives .primary [.pi] .pi 0
  | brackets {u : List Token} {e : Expression} {n : Nat} (h : Derives .sum u e n) :
      Derives .primary (.leftParen :: (u ++ [.rightParen])) (.paren e) n
  | primary {u : List Token} {e : Expression} {n : Nat} (h : Derives .primary u e n) :
      Derives .unary u e (n + 1)
  | minus {u : List Token} {e : Expression} {n : Nat} (h : Derives .unary u e n) :
      Derives .unary (.minus :: u) (.neg e) (n + 1)
  | plus {u : List Token} {e : Expression} {n : Nat} (h : Derives .unary u e n) :
      Derives .unary (.plus :: u) e (n + 1)
  | unary {u : List Token} {e : Expression} {n : Nat} (h : Derives .unary u e n) :
      Derives .product u e n
  | factor {u v : List Token} {t : Token} {op : BinaryOp} {left right : Expression} {n m : Nat}
      (hop : (t, op) ∈ Category.product.operators) (hleft : Derives .product u left n)
      (hright : Derives .unary v right m) :
      Derives .product (u ++ t :: v) (.binary op left right) (max n (left.chainLength + 1 + m))
  | product {u : List Token} {e : Expression} {n : Nat} (h : Derives .product u e n) :
      Derives .sum u e n
  | term {u v : List Token} {t : Token} {op : BinaryOp} {left right : Expression} {n m : Nat}
      (hop : (t, op) ∈ Category.sum.operators) (hleft : Derives .sum u left n)
      (hright : Derives .product v right m) :
      Derives .sum (u ++ t :: v) (.binary op left right) (max n (left.chainLength + 1 + m))

/-! ### Categories and precedences -/

theorem BinaryOp.precedence_pos (op : BinaryOp) : 0 < op.precedence := by cases op <;> decide

namespace Category

/-- The expressions whose operators outside brackets all have at least the given precedence. -/
def ofPrecedence : Nat → Category
  | 0 | 1 => .sum
  | 2 => .product
  | _ => .unary

section Operators

variable {t : Token} {op : BinaryOp}

/-- The operators of a category are those of its precedence. -/
theorem mem_operators_iff {n : Nat} (hn : 0 < n) :
    (t, op) ∈ (ofPrecedence n).operators ↔ binaryOp? t = some op ∧ op.precedence = n := by
  match n with
  | 1 | 2 | _ + 3 =>
    cases t <;> cases op <;> simp [ofPrecedence, operators, binaryOp?, BinaryOp.precedence]

/-- A token stands for no operation if it is the sign of no operator. -/
theorem binaryOp?_eq_none_iff :
    binaryOp? t = none ↔ ∀ (c : Category) (op : BinaryOp), (t, op) ∉ c.operators := by
  constructor
  · intro h c op hmem
    have hop : binaryOp? t = some op := by
      cases c with
      | sum => exact ((mem_operators_iff Nat.one_pos).1 hmem).1
      | product => exact ((mem_operators_iff Nat.two_pos).1 hmem).1
      | unary | primary => cases hmem
    rw [h] at hop
    cases hop
  · intro h
    cases hop : binaryOp? t with
    | none => rfl
    | some op => exact absurd ((mem_operators_iff op.precedence_pos).2 ⟨hop, rfl⟩) (h _ op)

end Operators

end Category

section Precedence

variable {u v : List Token} {e left right : Expression} {n m : Nat}

theorem Derives.pred {least : Nat} (h : Derives (.ofPrecedence (least + 1)) u e n) :
    Derives (.ofPrecedence least) u e n := by
  match least with
  | 0 => exact h
  | 1 => exact .product h
  | 2 => exact .unary h
  | _ + 3 => exact h

/-- A tighter expression is a looser one as well. -/
theorem Derives.mono {least least' : Nat} (hle : least ≤ least')
    (h : Derives (.ofPrecedence least') u e n) : Derives (.ofPrecedence least) u e n := by
  induction hle with
  | refl => exact h
  | step _ ih => exact ih h.pred

/-- An operator takes a chain of its own precedence on the left and a tighter one on the right. -/
theorem Derives.binary {t : Token} {op : BinaryOp} (ht : binaryOp? t = some op)
    (hleft : Derives (.ofPrecedence op.precedence) u left n)
    (hright : Derives (.ofPrecedence (op.precedence + 1)) v right m) :
    Derives (.ofPrecedence op.precedence) (u ++ t :: v) (.binary op left right)
      (max n (left.chainLength + 1 + m)) := by
  have hop := (Category.mem_operators_iff op.precedence_pos).2 ⟨ht, rfl⟩
  cases op with
  | add | sub => exact .term hop hleft hright
  | mul | div => exact .factor hop hleft hright

/-- A unary expression is no chain. -/
theorem Derives.chainLength_eq_zero (h : Derives .unary u e n) : e.chainLength = 0 := by
  generalize hc : Category.unary = c at h
  induction h with
  | primary h => cases h <;> rfl
  | minus _ _ => rfl
  | plus _ ih => exact ih hc
  | _ => cases hc

end Precedence

/-! ### What is derived is parsed -/

/-- No operator of at least the given precedence comes next. -/
def Stops (least : Nat) (ls : List Lexeme) : Prop :=
  ∀ l ∈ ls.head?, ∀ op, binaryOp? l.token = some op → op.precedence < least

theorem Stops.mono {least least' : Nat} (hle : least ≤ least') {ls : List Lexeme}
    (h : Stops least ls) : Stops least' ls := fun l hl op hop =>
  (h l hl op hop).trans_le hle

theorem stops_three (ls : List Lexeme) : Stops 3 ls := by
  intro l _ op _
  cases op <;> decide

theorem Closed.stops {ls : List Lexeme} (h : Closed ls) (least : Nat) : Stops least ls := by
  intro l hl op hop
  cases ls with
  | nil => cases hl
  | cons l' ls =>
    obtain rfl := Option.some.inj hl
    rw [h.binaryOp?_eq_none] at hop
    cases hop

theorem chain_of_stops {least : Nat} {ls : List Lexeme} (h : Stops least ls) (budget : Nat)
    (left : Expression) : chain budget least left ls = .ok (left, ls) := by
  cases ls with
  | nil => exact chain_nil ..
  | cons l ls =>
    rw [chain_cons]
    cases hop : binaryOp? l.token with
    | none => rfl
    | some op => exact if_pos (h l rfl op hop)

section Operand

variable {l r : Lexeme} {ls more rest : List Lexeme} {first e : Expression} {budget : Nat}

theorem operand_plus (h : l.token = .plus) (budget : Nat) :
    operand (budget + 1) (l :: ls) = operand budget ls := by
  rw [operand_cons, h]

theorem operand_brackets (h : l.token = .leftParen) (hr : r.token = .rightParen)
    (hfirst : operand budget ls = .ok (first, more))
    (hchain : chain budget 0 first more = .ok (e, r :: rest)) :
    operand (budget + 1) (l :: ls) = .ok (.paren e, rest) := by
  rw [operand_cons, h]
  simp only [hfirst, ok_bind, hchain, expectSymbol, hr, if_true]
  rfl

end Operand

/-- What the parser makes of lexemes that are an expression of the category, with at least the given
number of levels left. A chain is read operator by operator, so that what follows it is parsed with
the chain as its left operand. -/
def Category.Parsed (ls : List Lexeme) (e : Expression) (n : Nat) : Category → Prop
  | .primary => ∀ budget ≥ n, ∀ rest, operand (budget + 1) (ls ++ rest) = .ok (e, rest)
  | .unary => ∀ budget ≥ n, ∀ rest, operand budget (ls ++ rest) = .ok (e, rest)
  | .product => ∀ budget ≥ n, ∀ least ≤ 2, ∀ rest, ∃ first more,
      operand budget (ls ++ rest) = .ok (first, more) ∧
        chain budget least first more = chain (budget - e.chainLength) least e rest
  | .sum => ∀ budget ≥ n, ∀ least ≤ 1, ∀ rest, Stops 2 rest → ∃ first more,
      operand budget (ls ++ rest) = .ok (first, more) ∧
        chain budget least first more = chain (budget - e.chainLength) least e rest

section Chain

variable {l : Lexeme} {ls more rest : List Lexeme} {op : BinaryOp} {left right first : Expression}
  {least budget : Nat}

/-- A chain goes on with an operator, whose operand on the right is read by itself. -/
theorem chain_extend (hop : binaryOp? l.token = some op) (hle : least ≤ op.precedence)
    (hbudget : left.chainLength < budget)
    (hfirst : operand (budget - left.chainLength - 1) ls = .ok (first, more))
    (hright : chain (budget - left.chainLength - 1) (op.precedence + 1) first more =
      .ok (right, rest)) :
    chain (budget - left.chainLength) least left (l :: ls) =
      chain (budget - (Expression.binary op left right).chainLength) least
        (.binary op left right) rest := by
  obtain ⟨k, hk⟩ := Nat.exists_eq_add_of_lt (Nat.sub_pos_of_lt hbudget)
  rw [Nat.zero_add] at hk
  have hk' : budget - left.chainLength - 1 = k := by omega
  have hk'' : budget - (Expression.binary op left right).chainLength = k := by
    rw [Expression.chainLength]
    omega
  rw [hk'] at hfirst hright
  rw [hk, hk'', chain_of_le_precedence hop hle hfirst hright]

end Chain

/-- **What is derived within the budget is parsed.** -/
theorem Derives.parsed {c : Category} {u : List Token} {e : Expression} {n : Nat}
    (h : Derives c u e n) {ls : List Lexeme} (hls : ls.map (·.token) = u) : c.Parsed ls e n := by
  induction h generalizing ls with
  | number h =>
    intro budget _ rest
    obtain ⟨l, rfl, rfl⟩ := List.map_eq_singleton_iff.1 hls
    exact operand_number h budget
  | pi =>
    intro budget _ rest
    obtain ⟨l, rfl, hl⟩ := List.map_eq_singleton_iff.1 hls
    exact operand_pi hl budget
  | @brackets u e n h ih =>
    intro budget hbudget rest
    obtain ⟨l, ls, rfl, hl, hrest⟩ := List.map_eq_cons_iff.1 hls
    obtain ⟨us, rs, rfl, hus, hrs⟩ := List.map_eq_append_iff.1 hrest
    obtain ⟨r, rfl, hr⟩ := List.map_eq_singleton_iff.1 hrs
    have hclosed : Closed (r :: rest) := by
      rintro _ ⟨⟩
      exact .inr hr
    obtain ⟨first, more, hfirst, hchain⟩ :=
      ih hus budget hbudget 0 (Nat.zero_le _) (r :: rest) (hclosed.stops 2)
    rw [chain_of_stops (hclosed.stops 0)] at hchain
    rw [List.cons_append, List.append_assoc]
    exact operand_brackets hl hr hfirst hchain
  | primary _ ih =>
    intro budget hbudget rest
    obtain ⟨budget, rfl⟩ := Nat.exists_eq_add_of_le' (Nat.le_of_add_left_le hbudget)
    exact ih hls budget (Nat.le_of_succ_le_succ hbudget) rest
  | minus _ ih =>
    intro budget hbudget rest
    obtain ⟨budget, rfl⟩ := Nat.exists_eq_add_of_le' (Nat.le_of_add_left_le hbudget)
    obtain ⟨l, ls, rfl, hl, hls⟩ := List.map_eq_cons_iff.1 hls
    rw [List.cons_append, operand_minus hl, ih hls budget (Nat.le_of_succ_le_succ hbudget) rest]
    rfl
  | plus _ ih =>
    intro budget hbudget rest
    obtain ⟨budget, rfl⟩ := Nat.exists_eq_add_of_le' (Nat.le_of_add_left_le hbudget)
    obtain ⟨l, ls, rfl, hl, hls⟩ := List.map_eq_cons_iff.1 hls
    rw [List.cons_append, operand_plus hl]
    exact ih hls budget (Nat.le_of_succ_le_succ hbudget) rest
  | unary h ih =>
    intro budget hbudget least _ rest
    refine ⟨_, rest, ih hls budget hbudget rest, ?_⟩
    rw [h.chainLength_eq_zero, Nat.sub_zero]
  | @factor u v t op left right n m hmem hleft _ ihleft ihright =>
    intro budget hbudget least hle rest
    obtain ⟨ht, hop⟩ := (Category.mem_operators_iff Nat.two_pos).1 hmem
    obtain ⟨us, ts, rfl, hus, hts⟩ := List.map_eq_append_iff.1 hls
    obtain ⟨l, vs, rfl, rfl, hvs⟩ := List.map_eq_cons_iff.1 hts
    obtain ⟨first, more, hfirst, hchain⟩ :=
      ihleft hus budget (by omega) least hle (l :: (vs ++ rest))
    refine ⟨first, more, by rwa [List.append_assoc, List.cons_append], hchain.trans ?_⟩
    refine chain_extend ht (hop ▸ hle) (by omega) (ihright hvs _ (by omega) rest) ?_
    exact chain_of_stops ((stops_three rest).mono (by omega)) ..
  | product _ ih =>
    intro budget hbudget least hle rest _
    exact ih hls budget hbudget least (by omega) rest
  | @term u v t op left right n m hmem hleft _ ihleft ihright =>
    intro budget hbudget least hle rest hrest
    obtain ⟨ht, hop⟩ := (Category.mem_operators_iff Nat.one_pos).1 hmem
    obtain ⟨us, ts, rfl, hus, hts⟩ := List.map_eq_append_iff.1 hls
    obtain ⟨l, vs, rfl, rfl, hvs⟩ := List.map_eq_cons_iff.1 hts
    have hnext : Stops 2 (l :: (vs ++ rest)) := by
      rintro _ ⟨⟩ op' hop'
      obtain rfl := Option.some.inj (ht.symm.trans hop')
      omega
    obtain ⟨first, more, hfirst, hchain⟩ :=
      ihleft hus budget (by omega) least hle (l :: (vs ++ rest)) hnext
    refine ⟨first, more, by rwa [List.append_assoc, List.cons_append], hchain.trans ?_⟩
    obtain ⟨first', more', hfirst', hchain'⟩ :=
      ihright hvs (budget - left.chainLength - 1) (by omega) 2 (Nat.le_refl _) rest
    rw [chain_of_stops hrest] at hchain'
    refine chain_extend ht (hop ▸ hle) (by omega) hfirst' ?_
    rw [hop]
    exact hchain'

/-! ### What is parsed is derived -/

/-- The lexemes in front of the rest derive the expression within the budget. -/
def Takes (c : Category) (budget : Nat) (ts : List Lexeme) (e : Expression) (rest : List Lexeme) :
    Prop :=
  ∃ ls n, ts = ls ++ rest ∧ n ≤ budget ∧ Derives c (ls.map (·.token)) e n

/-- Operands that are parsed with this many levels left are derived within them. -/
def OperandSound (budget : Nat) : Prop :=
  ∀ ts e rest, operand budget ts = .ok (e, rest) → Takes .unary budget ts e rest

/-- Chains that are parsed with this many levels left are derived together with the lexemes `us` of
their left operand, within these levels and those that its operators took before. No operator comes
next that binds tighter than the left operand. -/
def ChainSound (budget : Nat) : Prop :=
  ∀ least p us left n ts e rest, least ≤ p → Stops (p + 1) ts →
    Derives (.ofPrecedence p) (us.map (·.token)) left n → n ≤ budget + left.chainLength →
    chain budget least left ts = .ok (e, rest) →
    ∃ ls m, ts = ls ++ rest ∧ m ≤ budget + left.chainLength ∧
      Derives (.ofPrecedence least) ((us ++ ls).map (·.token)) e m ∧ Stops least rest

section Sound

variable {budget least : Nat} {ts more rest : List Lexeme} {first e : Expression}

/-- An operand and the chain it begins are one expression. -/
theorem takes_chain (ho : OperandSound budget) (hc : ChainSound budget)
    (hfirst : operand budget ts = .ok (first, more))
    (hchain : chain budget least first more = .ok (e, rest)) :
    Takes (.ofPrecedence least) budget ts e rest ∧ Stops least rest := by
  obtain ⟨us, n, rfl, hn, hunary⟩ := ho ts first more hfirst
  have hlength := hunary.chainLength_eq_zero
  have htight : Derives (.ofPrecedence (least + 3)) (us.map (·.token)) first n := hunary
  obtain ⟨ls, m, rfl, hm, hderives, hstops⟩ :=
    hc least (least + 3) us first n more e rest (Nat.le_add_right ..)
      ((stops_three more).mono (by omega)) htight (by omega) hchain
  rw [hlength, Nat.add_zero] at hm
  exact ⟨⟨us ++ ls, m, (List.append_assoc ..).symm, hm, hderives⟩, hstops⟩

/-- A chain that ends at once is its left operand. -/
theorem chainSound_stop {p : Nat} {us : List Lexeme} {left : Expression} {n : Nat}
    (hle : least ≤ p) (hleft : Derives (.ofPrecedence p) (us.map (·.token)) left n)
    (hn : n ≤ budget + left.chainLength) (hstops : Stops least ts)
    (heq : Except.ok (ε := Fault) (left, ts) = .ok (e, rest)) :
    ∃ ls m, ts = ls ++ rest ∧ m ≤ budget + left.chainLength ∧
      Derives (.ofPrecedence least) ((us ++ ls).map (·.token)) e m ∧ Stops least rest := by
  obtain ⟨rfl, rfl⟩ := Prod.mk.inj (Except.ok.inj heq)
  refine ⟨[], n, rfl, hn, ?_, hstops⟩
  rw [List.append_nil]
  exact hleft.mono hle

theorem expectSymbol_eq_ok {symbol : Token} (h : expectSymbol symbol ts = .ok rest) :
    ∃ l, ts = l :: rest ∧ l.token = symbol := by
  cases ts with
  | nil => cases h
  | cons l ts =>
    rw [expectSymbol] at h
    split at h
    · obtain rfl := Except.ok.inj h
      exact ⟨l, rfl, ‹_›⟩
    · cases h

theorem operandSound_succ (ho : OperandSound budget) (hc : ChainSound budget) :
    OperandSound (budget + 1) := by
  intro ts e rest h
  cases ts with
  | nil =>
    rw [operand_nil] at h
    cases h
  | cons l ts =>
    rw [operand_cons] at h
    cases hl : l.token
    all_goals rw [hl] at h
    case minus =>
      obtain ⟨⟨e', rest'⟩, hoperand, h⟩ := bind_eq_ok h
      obtain ⟨rfl, rfl⟩ := Prod.mk.inj (Except.ok.inj h)
      obtain ⟨ls, n, rfl, hn, hderives⟩ := ho _ _ _ hoperand
      refine ⟨l :: ls, n + 1, rfl, Nat.succ_le_succ hn, ?_⟩
      rw [List.map_cons, hl]
      exact .minus hderives
    case plus =>
      obtain ⟨ls, n, rfl, hn, hderives⟩ := ho _ _ _ h
      refine ⟨l :: ls, n + 1, rfl, Nat.succ_le_succ hn, ?_⟩
      rw [List.map_cons, hl]
      exact .plus hderives
    case leftParen =>
      obtain ⟨⟨first, more⟩, hfirst, h⟩ := bind_eq_ok h
      obtain ⟨⟨e', more'⟩, hchain, h⟩ := bind_eq_ok h
      obtain ⟨rest', hright, h⟩ := bind_eq_ok h
      obtain ⟨rfl, rfl⟩ := Prod.mk.inj (Except.ok.inj h)
      obtain ⟨r, rfl, hr⟩ := expectSymbol_eq_ok hright
      obtain ⟨⟨ls, n, rfl, hn, hderives⟩, -⟩ := takes_chain ho hc hfirst hchain
      refine ⟨l :: (ls ++ [r]), n + 1, by simp, Nat.succ_le_succ hn, ?_⟩
      rw [List.map_cons, hl, List.map_append, List.map_singleton, hr]
      exact .primary (.brackets hderives)
    case integer value =>
      obtain ⟨rfl, rfl⟩ := Prod.mk.inj (Except.ok.inj h)
      refine ⟨[l], 1, rfl, Nat.succ_le_succ (Nat.zero_le _), ?_⟩
      exact .primary (.number (.inr ⟨value, hl, rfl⟩))
    case number value =>
      obtain ⟨rfl, rfl⟩ := Prod.mk.inj (Except.ok.inj h)
      exact ⟨[l], 1, rfl, Nat.succ_le_succ (Nat.zero_le _), .primary (.number (.inl hl))⟩
    case pi =>
      obtain ⟨rfl, rfl⟩ := Prod.mk.inj (Except.ok.inj h)
      refine ⟨[l], 1, rfl, Nat.succ_le_succ (Nat.zero_le _), ?_⟩
      rw [List.map_singleton, hl]
      exact .primary .pi
    all_goals cases h

/-- A chain ends or goes on with an operator, which takes a level. -/
theorem chainSound_of_pred (h : ∀ k, budget = k + 1 → OperandSound k ∧ ChainSound k) :
    ChainSound budget := by
  intro least p us left n ts e rest hle hnext hleft hn hchain
  cases ts with
  | nil => exact chainSound_stop hle hleft hn nofun ((chain_nil ..).symm.trans hchain)
  | cons l ts =>
    rw [chain_cons] at hchain
    cases hop : binaryOp? l.token with
    | none =>
      have hstops : Stops least (l :: ts) := by
        rintro _ ⟨⟩ op hop'
        rw [hop] at hop'
        cases hop'
      rw [hop] at hchain
      exact chainSound_stop hle hleft hn hstops hchain
    | some op =>
      simp only [hop] at hchain
      split at hchain
      · rename_i hlt
        have hstops : Stops least (l :: ts) := by
          rintro _ ⟨⟩ op' hop'
          rw [hop] at hop'
          rwa [← Option.some.inj hop']
        exact chainSound_stop hle hleft hn hstops hchain
      · rename_i hge
        cases budget with
        | zero => cases hchain
        | succ k =>
          obtain ⟨ho, hc⟩ := h k rfl
          obtain ⟨⟨first, more⟩, hfirst, hmore⟩ := bind_eq_ok hchain
          obtain ⟨⟨right, more'⟩, hright, hlast⟩ := bind_eq_ok hmore
          obtain ⟨⟨vs, m, rfl, hm, hderives⟩, hstops⟩ := takes_chain ho hc hfirst hright
          have hp : op.precedence ≤ p := Nat.le_of_lt_succ (hnext l rfl op hop)
          have hbinary := (hleft.mono hp).binary hop hderives
          have hrest : chain k least (.binary op left right) more' = .ok (e, rest) := hlast
          have hlength : (Expression.binary op left right).chainLength = left.chainLength + 1 := rfl
          obtain ⟨ls, m', rfl, hm', hderives', hstops'⟩ :=
            hc least op.precedence (us ++ l :: vs) _ _ more' e rest (Nat.le_of_not_lt hge) hstops
              (by simpa using hbinary) (by omega) hrest
          refine ⟨l :: (vs ++ ls), m', by simp, by omega, ?_, hstops'⟩
          simpa using hderives'

/-- **What is parsed is derived within the budget.** -/
theorem operandSound_and_chainSound (budget : Nat) : OperandSound budget ∧ ChainSound budget := by
  induction budget with
  | zero => exact ⟨nofun, chainSound_of_pred nofun⟩
  | succ budget ih =>
    refine ⟨operandSound_succ ih.1 ih.2, chainSound_of_pred fun k hk => ?_⟩
    obtain rfl := Nat.succ.inj hk
    exact ih

end Sound

/-- **The parser of expressions is the grammar.** It takes a sum that is derived within the budget,
up to where no operator comes next. -/
theorem Expression.parse_eq_ok_iff {ts rest : List Lexeme} {e : Expression} :
    Expression.parse ts = .ok (e, rest) ↔ Takes .sum maxDepth ts e rest ∧ Stops 0 rest := by
  constructor
  · intro h
    obtain ⟨⟨first, more⟩, hfirst, hchain⟩ := bind_eq_ok h
    obtain ⟨ho, hc⟩ := operandSound_and_chainSound maxDepth
    exact takes_chain ho hc hfirst hchain
  · rintro ⟨⟨ls, n, rfl, hn, hderives⟩, hstops⟩
    obtain ⟨first, more, hfirst, hchain⟩ :=
      hderives.parsed rfl maxDepth hn 0 (Nat.zero_le _) rest (hstops.mono (Nat.zero_le _))
    rw [chain_of_stops hstops] at hchain
    exact parse_eq_ok hfirst hchain

/-! ### Values -/

/-- The operation on double precision numbers, whatever it comes to. -/
def BinaryOp.apply : BinaryOp → Float → Float → Float
  | .add, l, r => l + r
  | .sub, l, r => l - r
  | .mul, l, r => l * r
  | .div, l, r => l / r

namespace Expression

/-- The value by double precision arithmetic, whatever it comes to. -/
def value : Expression → Float
  | number x => x
  | pi => Scalar.pi
  | neg e => -e.value
  | paren e => e.value
  | binary op left right => op.apply left.value right.value

/-- The expression and all parts of it. -/
def parts : Expression → List Expression
  | number x => [number x]
  | pi => [pi]
  | neg e => neg e :: e.parts
  | paren e => paren e :: e.parts
  | binary op left right => binary op left right :: (left.parts ++ right.parts)

/-- What a quotient is divided by. -/
def divisor? : Expression → Option Expression
  | binary .div _ right => some right
  | _ => none

/-- Every part has a finite value, and none is divided by zero. -/
def IsDefined (e : Expression) : Prop :=
  ∀ p ∈ e.parts, p.value.isFinite ∧ ∀ d ∈ p.divisor?, (d.value == 0) = false

theorem applyOp?_eq_some_iff {op : BinaryOp} {l r x : Float} :
    applyOp? op l r = some x ↔ (op = .div → (r == 0) = false) ∧ op.apply l r = x := by
  cases op
  case div =>
    rw [applyOp?]
    cases hr : r == 0 <;> simp [BinaryOp.apply]
  all_goals simp [applyOp?, BinaryOp.apply]

theorem finite?_eq_some_iff {x y : Float} : finite? x = some y ↔ x.isFinite ∧ x = y := by
  constructor
  · intro h
    obtain ⟨rfl, hx⟩ := isFinite_of_finite? h
    exact ⟨hx, rfl⟩
  · rintro ⟨hx, rfl⟩
    exact finite?_of_isFinite hx

theorem isDefined_binary {op : BinaryOp} {left right : Expression} :
    (binary op left right).IsDefined ↔ left.IsDefined ∧ right.IsDefined ∧
      (op = .div → (right.value == 0) = false) ∧ (binary op left right).value.isFinite := by
  have hdivisor : (∀ d ∈ (binary op left right).divisor?, (d.value == 0) = false) ↔
      (op = .div → (right.value == 0) = false) := by
    cases op <;> simp [divisor?]
  rw [IsDefined, parts, List.forall_mem_cons, List.forall_mem_append, hdivisor]
  exact ⟨fun ⟨⟨hx, hd⟩, hl, hr⟩ => ⟨hl, hr, hd, hx⟩, fun ⟨hl, hr, hd, hx⟩ => ⟨⟨hx, hd⟩, hl, hr⟩⟩

/-- **An expression has a value if it is defined**, namely this value. -/
theorem eval?_eq_some_iff {e : Expression} {x : Float} :
    e.eval? = some x ↔ e.IsDefined ∧ e.value = x := by
  induction e generalizing x with
  | number y => simp [eval?, finite?_eq_some_iff, IsDefined, parts, value, divisor?]
  | pi => simp [eval?, IsDefined, parts, value, divisor?, isFinite_pi]
  | neg e ih =>
    constructor
    · intro h
      have hfinite := isFinite_of_eval? h
      obtain ⟨y, hy, rfl⟩ := Option.map_eq_some_iff.1 h
      obtain ⟨hdefined, rfl⟩ := ih.1 hy
      exact ⟨List.forall_mem_cons.2 ⟨⟨hfinite, by simp [divisor?]⟩, hdefined⟩, rfl⟩
    · rintro ⟨hdefined, rfl⟩
      exact Option.map_eq_some_iff.2 ⟨_, ih.2 ⟨(List.forall_mem_cons.1 hdefined).2, rfl⟩, rfl⟩
  | paren e ih =>
    constructor
    · intro h
      obtain ⟨hdefined, rfl⟩ := ih.1 h
      exact ⟨List.forall_mem_cons.2 ⟨⟨isFinite_of_eval? h, by simp [divisor?]⟩, hdefined⟩, rfl⟩
    · rintro ⟨hdefined, rfl⟩
      exact ih.2 ⟨(List.forall_mem_cons.1 hdefined).2, rfl⟩
  | binary op left right ihleft ihright =>
    rw [isDefined_binary]
    constructor
    · intro h
      obtain ⟨l, hl, h⟩ := Option.bind_eq_some_iff.1 h
      obtain ⟨r, hr, h⟩ := Option.bind_eq_some_iff.1 h
      obtain ⟨y, hy, h⟩ := Option.bind_eq_some_iff.1 h
      obtain ⟨hleft, rfl⟩ := ihleft.1 hl
      obtain ⟨hright, rfl⟩ := ihright.1 hr
      obtain ⟨hdivisor, rfl⟩ := applyOp?_eq_some_iff.1 hy
      obtain ⟨hfinite, rfl⟩ := finite?_eq_some_iff.1 h
      exact ⟨⟨hleft, hright, hdivisor, hfinite⟩, rfl⟩
    · rintro ⟨⟨hleft, hright, hdivisor, hfinite⟩, rfl⟩
      simp only [eval?, ihleft.2 ⟨hleft, rfl⟩, ihright.2 ⟨hright, rfl⟩, Option.bind_eq_bind,
        Option.bind_some, applyOp?_eq_some_iff.2 ⟨hdivisor, rfl⟩]
      exact finite?_of_isFinite hfinite

end Expression

end CircuitExchange
