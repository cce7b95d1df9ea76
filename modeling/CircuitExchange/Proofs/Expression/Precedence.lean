import Mathlib
import CircuitExchange.Proofs.Expression.Grammar

/-!
Precedence climbing reads the stratified grammar. The grammar has at most one reading of the units
it derives; an expression with more levels than there are left is refused for its depth. So whatever
is derived is read as derived, as far as it goes, or is too deep.

* `climb`: an operand and the operators after it, in one step.
* `Derives.refused`: what takes more levels than are left is refused as too deep.
* `Derives.unique`: units derive one expression, and take one number of levels.
* `climbing_reads_the_grammar`: what is parsed is derived; what is derived is parsed or too deep.
-/

namespace CircuitExchange

/-! ### Faults of depth -/

/-- The result finds fault with the depth of an expression. -/
def TooDeep {α : Type} (r : Except Fault α) : Prop := ∃ upcoming, r = .error (.tooDeep upcoming)

section TooDeep

variable {α β : Type} {r : Except Fault α}

theorem TooDeep.bind (h : TooDeep r) (f : α → Except Fault β) : TooDeep (r >>= f) := by
  obtain ⟨upcoming, rfl⟩ := h
  exact ⟨upcoming, rfl⟩

theorem TooDeep.map (h : TooDeep r) (f : α → β) : TooDeep (r.map f) := by
  obtain ⟨upcoming, rfl⟩ := h
  exact ⟨upcoming, rfl⟩

theorem TooDeep.ne_ok (h : TooDeep r) (a : α) : r ≠ .ok a := by
  obtain ⟨upcoming, rfl⟩ := h
  exact nofun

end TooDeep

/-! ### Climbing -/

/-- An operand and the operators after it down to a least precedence, with the given number of
levels left. -/
def climb (budget least : Nat) : Parser Expression := fun ts => do
  let (first, rest) ← operand budget ts
  chain budget least first rest

theorem parse_eq_climb : Expression.parse = climb maxDepth 0 := rfl

section Climb

variable {l : Lexeme} {ls ts more : List Lexeme} {op : BinaryOp} {left first : Expression}
  {least budget : Nat}

theorem climb_of_operand (h : operand budget ls = .ok (first, more)) (least : Nat) :
    climb budget least ls = chain budget least first more := by
  rw [climb, h, ok_bind]

theorem climb_of_tooDeep (h : TooDeep (operand budget ls)) (least : Nat) :
    TooDeep (climb budget least ls) := h.bind _

/-- Brackets hold what is climbed within one level less. -/
theorem operand_leftParen (h : l.token = .leftParen) (budget : Nat) (ls : List Lexeme) :
    operand (budget + 1) (l :: ls) = climb budget 0 ls >>= fun (e, rest) =>
      (expectSymbol .rightParen rest).map fun rest => (.paren e, rest) := by
  rw [operand_cons, h, climb, bind_assoc]
  rfl

/-- An operator puts what is climbed after it to the right of the chain, within one level less. -/
theorem chain_operator (hop : binaryOp? l.token = some op) (hle : least ≤ op.precedence)
    (budget : Nat) (left : Expression) (ls : List Lexeme) :
    chain (budget + 1) least left (l :: ls) = climb budget (op.precedence + 1) ls >>=
      fun (right, rest) => chain budget least (.binary op left right) rest := by
  rw [chain_cons, hop, climb, bind_assoc]
  exact if_neg (Nat.not_lt.2 hle)

/-- A chain is too deep if there is no level for its next operator, or too few for what stands on
the right of it. -/
theorem tooDeep_chain (hop : binaryOp? l.token = some op) (hle : least ≤ op.precedence)
    (hright : ∀ k, budget = k + 1 → TooDeep (climb k (op.precedence + 1) ls)) :
    TooDeep (chain budget least left (l :: ls)) := by
  cases budget with
  | zero =>
    rw [chain_cons, hop]
    exact ⟨_, if_neg (Nat.not_lt.2 hle)⟩
  | succ k =>
    rw [chain_operator hop hle]
    exact (hright k rfl).bind _

end Climb

/-! ### What is derived with more levels is refused -/

/-- What the parser makes of lexemes that are an expression of the category, with fewer levels left
than the given number: it finds them too deep. -/
def Category.Refused (ls : List Lexeme) (n : Nat) : Category → Prop
  | .primary => ∀ budget < n, ∀ rest, TooDeep (operand (budget + 1) (ls ++ rest))
  | .unary => ∀ budget < n, ∀ rest, TooDeep (operand budget (ls ++ rest))
  | .product => ∀ budget < n, ∀ least ≤ 2, ∀ rest, TooDeep (climb budget least (ls ++ rest))
  | .sum => ∀ budget < n, ∀ least ≤ 1, ∀ rest, Stops 2 rest →
      TooDeep (climb budget least (ls ++ rest))

/-- A sign takes a level. -/
theorem refused_sign {l : Lexeme} {ls : List Lexeme} {n : Nat} (h : Category.unary.Refused ls n)
    (hsign : ∀ budget rest, TooDeep (operand budget rest) →
      TooDeep (operand (budget + 1) (l :: rest))) :
    Category.unary.Refused (l :: ls) (n + 1) := by
  intro budget hbudget rest
  cases budget with
  | zero => exact ⟨_, operand_zero _⟩
  | succ budget => exact hsign _ _ (h budget (Nat.lt_of_succ_lt_succ hbudget) rest)

/-- An operator, with its chain on the left and a tighter expression on the right, is refused for
either of them. -/
theorem refused_binary {l : Lexeme} {us vs : List Lexeme} {op : BinaryOp} {left : Expression}
    {n m least budget : Nat} (hop : binaryOp? l.token = some op) (hle : least ≤ op.precedence)
    (hbudget : budget < max n (left.chainLength + 1 + m))
    (hrefused : budget < n → TooDeep (climb budget least (us ++ l :: vs)))
    (hparsed : n ≤ budget → ∃ first more, operand budget (us ++ l :: vs) = .ok (first, more) ∧
      chain budget least first more = chain (budget - left.chainLength) least left (l :: vs))
    (hright : ∀ k < m, TooDeep (climb k (op.precedence + 1) vs)) :
    TooDeep (climb budget least (us ++ l :: vs)) := by
  by_cases hn : budget < n
  · exact hrefused hn
  · obtain ⟨first, more, hfirst, hchain⟩ := hparsed (Nat.le_of_not_lt hn)
    rw [climb_of_operand hfirst, hchain]
    refine tooDeep_chain hop hle fun k hk => hright k ?_
    omega

/-- **What takes more levels than are left is refused as too deep**, and for no other reason. -/
theorem Derives.refused {c : Category} {u : List Token} {e : Expression} {n : Nat}
    (h : Derives c u e n) {ls : List Lexeme} (hls : ls.map (·.token) = u) : c.Refused ls n := by
  induction h generalizing ls with
  | number _ | pi => exact nofun
  | brackets _ ih =>
    intro budget hbudget rest
    obtain ⟨l, ls, rfl, hl, hrest⟩ := List.map_eq_cons_iff.1 hls
    obtain ⟨us, rs, rfl, hus, hrs⟩ := List.map_eq_append_iff.1 hrest
    obtain ⟨r, rfl, hr⟩ := List.map_eq_singleton_iff.1 hrs
    have hclosed : Closed (r :: rest) := by
      rintro _ ⟨⟩
      exact .inr hr
    rw [List.cons_append, List.append_assoc, operand_leftParen hl]
    exact (ih hus budget hbudget 0 (Nat.zero_le _) (r :: rest) (hclosed.stops 2)).bind _
  | primary _ ih =>
    intro budget hbudget rest
    cases budget with
    | zero => exact ⟨_, operand_zero _⟩
    | succ budget => exact ih hls budget (Nat.lt_of_succ_lt_succ hbudget) rest
  | minus _ ih =>
    obtain ⟨l, ls, rfl, hl, hls⟩ := List.map_eq_cons_iff.1 hls
    refine refused_sign (ih hls) fun budget rest h => ?_
    rw [operand_minus hl]
    exact h.map _
  | plus _ ih =>
    obtain ⟨l, ls, rfl, hl, hls⟩ := List.map_eq_cons_iff.1 hls
    refine refused_sign (ih hls) fun budget rest h => ?_
    rwa [operand_plus hl]
  | unary _ ih =>
    intro budget hbudget least _ rest
    exact climb_of_tooDeep (ih hls budget hbudget rest) least
  | factor hmem hleft _ ihleft ihright =>
    intro budget hbudget least hle rest
    obtain ⟨ht, hop⟩ := (Category.mem_operators_iff Nat.two_pos).1 hmem
    obtain ⟨us, ts, rfl, hus, hts⟩ := List.map_eq_append_iff.1 hls
    obtain ⟨l, vs, rfl, rfl, hvs⟩ := List.map_eq_cons_iff.1 hts
    rw [List.append_assoc, List.cons_append]
    refine refused_binary ht (hop ▸ hle) hbudget (fun hn => ?_) (fun hn => ?_) fun k hk => ?_
    · exact ihleft hus budget hn least hle _
    · exact hleft.parsed hus budget hn least hle _
    · exact climb_of_tooDeep (ihright hvs k hk rest) _
  | product _ ih =>
    intro budget hbudget least hle rest _
    exact ih hls budget hbudget least (by omega) rest
  | term hmem hleft _ ihleft ihright =>
    intro budget hbudget least hle rest _
    obtain ⟨ht, hop⟩ := (Category.mem_operators_iff Nat.one_pos).1 hmem
    obtain ⟨us, ts, rfl, hus, hts⟩ := List.map_eq_append_iff.1 hls
    obtain ⟨l, vs, rfl, rfl, hvs⟩ := List.map_eq_cons_iff.1 hts
    have hnext : Stops 2 (l :: (vs ++ rest)) := by
      rintro _ ⟨⟩ op' hop'
      obtain rfl := Option.some.inj (ht.symm.trans hop')
      omega
    rw [List.append_assoc, List.cons_append]
    refine refused_binary ht (hop ▸ hle) hbudget (fun hn => ?_) (fun hn => ?_) fun k hk => ?_
    · exact ihleft hus budget hn least hle _ hnext
    · exact hleft.parsed hus budget hn least hle _ hnext
    · rw [hop]
      exact ihright hvs k hk 2 (Nat.le_refl _) rest

/-! ### One reading -/

section Sum

variable {u : List Token} {e e' : Expression} {n n' : Nat} {ls rest : List Lexeme} {budget : Nat}

/-- An operator has a precedence, so a chain that stops before all of them stops before none. -/
theorem stops_zero_iff :
    Stops 0 rest ↔ ∀ l ∈ rest.head?, ∀ (c : Category) (op : BinaryOp),
      (l.token, op) ∉ c.operators := by
  constructor
  · intro h l hl
    refine Category.binaryOp?_eq_none_iff.1 ?_
    cases hop : binaryOp? l.token with
    | none => rfl
    | some op => exact absurd (h l hl op hop) (Nat.not_lt_zero _)
  · intro h l hl op hop
    rw [Category.binaryOp?_eq_none_iff.2 (h l hl)] at hop
    cases hop

/-- A sum is climbed if there are enough levels for it. -/
theorem Derives.climb_eq_ok (h : Derives .sum (ls.map (·.token)) e n) (hn : n ≤ budget)
    (hrest : Stops 0 rest) : climb budget 0 (ls ++ rest) = .ok (e, rest) := by
  obtain ⟨first, more, hfirst, hchain⟩ :=
    h.parsed rfl budget hn 0 (Nat.zero_le _) rest (hrest.mono (Nat.zero_le _))
  rw [climb_of_operand hfirst, hchain, chain_of_stops hrest]

/-- A sum is too deep if there are not. -/
theorem Derives.tooDeep_climb (h : Derives .sum (ls.map (·.token)) e n) (hn : budget < n)
    (hrest : Stops 0 rest) : TooDeep (climb budget 0 (ls ++ rest)) :=
  h.refused rfl budget hn 0 (Nat.zero_le _) rest (hrest.mono (Nat.zero_le _))

/-- **The grammar has one reading of a sum.** -/
theorem Derives.unique (h : Derives .sum u e n) (h' : Derives .sum u e' n') : e = e' ∧ n = n' := by
  -- both readings are compared with what is climbed from lexemes that have the units
  obtain ⟨ls, rfl⟩ := exists_lexemes u
  have hend : Stops 0 [] := nofun
  have hsame : ∀ {e e' : Expression} {n n' : Nat}, Derives .sum (ls.map (·.token)) e n →
      Derives .sum (ls.map (·.token)) e' n' → n ≤ n' → e = e' ∧ n = n' := by
    intro e e' n n' h h' hle
    rcases Nat.eq_or_lt_of_le hle with rfl | hlt
    · have heq := (h.climb_eq_ok hle hend).symm.trans (h'.climb_eq_ok hle hend)
      exact ⟨(Prod.mk.inj (Except.ok.inj heq)).1, rfl⟩
    · exact absurd (h.climb_eq_ok (Nat.le_refl n) hend) ((h'.tooDeep_climb hlt hend).ne_ok _)
  rcases Nat.le_total n n' with hle | hle
  · exact hsame h h' hle
  · obtain ⟨he, hn⟩ := hsame h' h hle
    exact ⟨he.symm, hn.symm⟩

end Sum

/-- **Precedence climbing reads the stratified grammar.** What it returns is derived by the lexemes
it has taken, which derive nothing else, and no operator comes next. Lexemes that derive an
expression, where no operator comes next, are read as this expression if it takes no more levels
than there are, and refused as too deep if it does. -/
theorem climbing_reads_the_grammar (ts : List Lexeme) :
    (∀ e rest, Expression.parse ts = .ok (e, rest) → ∃ ls n, ts = ls ++ rest ∧ n ≤ maxDepth ∧
      Derives .sum (ls.map (·.token)) e n ∧
      (∀ e' n', Derives .sum (ls.map (·.token)) e' n' → e' = e) ∧
      ∀ l ∈ rest.head?, ∀ (c : Category) (op : BinaryOp), (l.token, op) ∉ c.operators) ∧
    ∀ ls rest e n, ts = ls ++ rest → Derives .sum (ls.map (·.token)) e n →
      (∀ l ∈ rest.head?, ∀ (c : Category) (op : BinaryOp), (l.token, op) ∉ c.operators) →
      n ≤ maxDepth ∧ Expression.parse ts = .ok (e, rest) ∨
        maxDepth < n ∧ ∃ upcoming, Expression.parse ts = .error (.tooDeep upcoming) := by
  constructor
  · intro e rest h
    obtain ⟨⟨ls, n, hts, hn, hderives⟩, hstops⟩ := Expression.parse_eq_ok_iff.1 h
    exact ⟨ls, n, hts, hn, hderives, fun _ _ h' => (h'.unique hderives).1, stops_zero_iff.1 hstops⟩
  · rintro ls rest e n rfl hderives hrest
    have hstops := stops_zero_iff.2 hrest
    rw [parse_eq_climb]
    rcases Nat.lt_or_ge maxDepth n with hlt | hle
    · exact .inr ⟨hlt, hderives.tooDeep_climb hlt hstops⟩
    · exact .inl ⟨hle, hderives.climb_eq_ok hle hstops⟩

/-- A difference whose right operand is a product with a sign in it. -/
theorem climbing_reads_the_grammar_mixed :
    (∀ e' n', Derives .sum [.integer 1, .minus, .integer 2, .star, .minus, .pi] e' n' →
      e' = .binary .sub (.number (integerValue 1))
        (.binary .mul (.number (integerValue 2)) (.neg .pi))) ∧
    Expression.parse [⟨.integer 1, 0, 1, []⟩, ⟨.minus, 1, 2, []⟩, ⟨.integer 2, 2, 3, []⟩,
        ⟨.star, 3, 4, []⟩, ⟨.minus, 4, 5, []⟩, ⟨.pi, 5, 7, []⟩, ⟨.comma, 7, 8, []⟩] =
      .ok (.binary .sub (.number (integerValue 1))
        (.binary .mul (.number (integerValue 2)) (.neg .pi)), [⟨.comma, 7, 8, []⟩]) := by
  obtain ⟨hsound, hcomplete⟩ := climbing_reads_the_grammar
    [⟨.integer 1, 0, 1, []⟩, ⟨.minus, 1, 2, []⟩, ⟨.integer 2, 2, 3, []⟩, ⟨.star, 3, 4, []⟩,
      ⟨.minus, 4, 5, []⟩, ⟨.pi, 5, 7, []⟩, ⟨.comma, 7, 8, []⟩]
  have hone : ∀ v, Derives .unary [.integer v] (.number (integerValue v)) 1 := fun v =>
    .primary (.number (.inr ⟨v, rfl, rfl⟩))
  have hstar : (.star, .mul) ∈ Category.product.operators := List.mem_cons_self ..
  have hminus : (.minus, .sub) ∈ Category.sum.operators := List.mem_cons_of_mem _ (.head _)
  have hproduct := Derives.factor hstar (.unary (hone 2)) (.minus (.primary .pi))
  have hderives := Derives.term hminus (.product (.unary (hone 1))) hproduct
  constructor
  · obtain ⟨ls, n, hts, -, -, hunique, -⟩ := hsound _ [⟨.comma, 7, 8, []⟩] rfl
    obtain rfl := @List.append_cancel_right _ [_, _, _, _, _, _] _ _ hts
    exact hunique
  · have hcomma : ∀ (c : Category) (op : BinaryOp), (.comma, op) ∉ c.operators :=
      Category.binaryOp?_eq_none_iff.1 rfl
    rcases hcomplete [_, _, _, _, _, _] _ _ _ rfl hderives (by rintro _ ⟨⟩; exact hcomma)
      with h | h
    · exact h.2
    · exact absurd h.1 (by decide)

end CircuitExchange
