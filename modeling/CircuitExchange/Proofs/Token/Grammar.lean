import Mathlib
import CircuitExchange.Proofs.Expression.Grammar
import CircuitExchange.Proofs.Text.Blank

/-!
The grammar of gate tokens, apart from the parser. Groups are entries with commas between them in
brackets; a rotation has a group of angles before its group of qubits. A parser that `Recognizes` an
entry takes an entry and nothing else, wherever one may end; so does the parser of a group of them.

* `Recognizes.group_eq_ok_iff`: the parser of groups is the grammar of groups.
* `parseArguments_eq_ok_iff`: the parser of arguments is the grammar of arguments.
* `writesName_iff`: the name that a text writes, in any case and with blanks around it.
* `BlamesArguments.parseArguments`: it finds no fault with what comes before the arguments.
* `token_grammar`: which tokens are accepted, and which for an unknown gate refused.
-/

namespace CircuitExchange

/-! ### The grammar -/

/-- Entries with commas between them, at least one. -/
inductive Separated {α : Type} (Entry : List Token → α → Prop) : List Token → List α → Prop
  | single {u : List Token} {a : α} (h : Entry u a) : Separated Entry u [a]
  | cons {u v : List Token} {a : α} {as : List α} (h : Entry u a) (hmore : Separated Entry v as) :
      Separated Entry (u ++ .comma :: v) (a :: as)

/-- Separated entries in brackets. -/
def Grouped {α : Type} (Entry : List Token → α → Prop) (u : List Token) (as : List α) : Prop :=
  ∃ v, u = .leftParen :: (v ++ [.rightParen]) ∧ Separated Entry v as

/-- An angle is a sum within the nesting budget that is defined, and stands for its value. -/
def IsAngle (u : List Token) (x : Float) : Prop :=
  ∃ e n, Derives .sum u e n ∧ n ≤ maxDepth ∧ e.IsDefined ∧ e.value = x

/-- A qubit is an integer of 32 bits. -/
def IsQubit (u : List Token) (q : Qubit) : Prop :=
  ∃ v : UInt64, u = [.integer v] ∧ v.toNat ≤ 4294967295 ∧ q.toNat = v.toNat

/-- The groups of a record: angles and qubits for a rotation, for other gates only qubits. -/
def Record.HasArguments (r : Record Float) (u : List Token) : Prop :=
  if r.name ∈ [.rx, .ry, .rz] then
    ∃ v w, u = v ++ w ∧ Grouped IsAngle v r.params ∧ Grouped IsQubit w r.qubits
  else r.params = [] ∧ Grouped IsQubit u r.qubits

/-- The first bracket of a token comes after the name. -/
def IsCut (cs before after : List Char) : Prop := cs = before ++ '(' :: after ∧ '(' ∉ before

/-- The second character is the capital letter of the first one, if that is a small letter of ASCII,
and otherwise the same. -/
def IsCapitalOf (c d : Char) : Prop :=
  if 'a' ≤ c ∧ c ≤ 'z' then d.toNat + 32 = c.toNat else d = c

/-- The text is the name, in any case and with blanks around it. -/
def WritesName (cs : List Char) (name : String) : Prop :=
  ∃ word, Text.IsTrimmed cs word ∧ List.Forall₂ IsCapitalOf word name.toList

/-- The text is a token of the record: its name in any case, with blanks around it, and its
groups. -/
def Record.IsWritten (r : Record Float) (cs : List Char) : Prop :=
  ∃ before after u, IsCut cs before after ∧ WritesName before r.name.text ∧
    Lexes ('(' :: after) u ∧ r.HasArguments u

/-! ### Parsers of entries -/

/-- The parser takes entries only, and an entry wherever a comma or a bracket follows. -/
structure Recognizes {α : Type} (entry : Parser α) (Entry : List Token → α → Prop) : Prop where
  sound : ∀ {ts a rest}, entry ts = .ok (a, rest) →
    ∃ ls, ts = ls ++ rest ∧ Entry (ls.map (·.token)) a
  complete : ∀ {ls a rest}, Entry (ls.map (·.token)) a → Closed rest →
    entry (ls ++ rest) = .ok (a, rest)

theorem recognizes_parseAngle : Recognizes parseAngle IsAngle where
  sound := by
    intro ts x rest h
    obtain ⟨e, he, hvalue⟩ := parseAngle_eq_ok_iff.1 h
    obtain ⟨⟨ls, n, rfl, hn, hderives⟩, -⟩ := Expression.parse_eq_ok_iff.1 he
    obtain ⟨hdefined, hx⟩ := Expression.eval?_eq_some_iff.1 hvalue
    exact ⟨ls, rfl, e, n, hderives, hn, hdefined, hx⟩
  complete := by
    rintro ls x rest ⟨e, n, hderives, hn, hdefined, hx⟩ hrest
    refine parseAngle_eq_ok_iff.2 ⟨e, ?_, Expression.eval?_eq_some_iff.2 ⟨hdefined, hx⟩⟩
    exact Expression.parse_eq_ok_iff.2 ⟨⟨ls, n, rfl, hn, hderives⟩, hrest.stops 0⟩

theorem recognizes_parseQubit : Recognizes parseQubit IsQubit where
  sound := by
    intro ts q rest h
    cases ts with
    | nil => cases h
    | cons l ts =>
      rw [parseQubit] at h
      cases hl : l.token
      all_goals simp only [hl] at h
      case integer v =>
        split at h
        · rename_i hsize
          obtain ⟨rfl, rfl⟩ := Prod.mk.inj (Except.ok.inj h)
          refine ⟨[l], rfl, v, by rw [List.map_singleton, hl], Nat.le_of_lt_succ hsize, ?_⟩
          rw [UInt64.toNat_toUInt32, Nat.mod_eq_of_lt hsize]
        · cases h
      all_goals cases h
  complete := by
    rintro ls q rest ⟨v, hv, hle, hq⟩ -
    obtain ⟨l, rfl, hl⟩ := List.map_eq_singleton_iff.1 hv
    have hsize : v.toNat < UInt32.size := Nat.lt_succ_of_le hle
    have hqubit : v.toUInt32 = q := by
      rw [← UInt32.toNat_inj, UInt64.toNat_toUInt32, Nat.mod_eq_of_lt hsize, hq]
    rw [List.singleton_append, parseQubit, hl]
    simp only [if_pos hsize, hqubit]

namespace Recognizes

variable {α : Type} {entry : Parser α} {Entry : List Token → α → Prop} {as : List α}
  {ts rest : List Lexeme} {bound : Nat}

theorem separated_of_commaSeparated (h : Recognizes entry Entry) (hbound : ts.length < bound)
    (heq : commaSeparated entry bound ts = .ok (as, rest)) :
    ∃ ls, ts = ls ++ rest ∧ Separated Entry (ls.map (·.token)) as := by
  induction bound generalizing ts as rest with
  | zero => cases hbound
  | succ bound ih =>
    rw [commaSeparated_succ] at heq
    obtain ⟨⟨a, more⟩, hread, hmore⟩ := bind_eq_ok heq
    obtain ⟨ls, rfl, ha⟩ := h.sound hread
    cases more with
    | nil =>
      obtain ⟨rfl, rfl⟩ := Prod.mk.inj (Except.ok.inj hmore)
      exact ⟨ls, rfl, .single ha⟩
    | cons l more =>
      dsimp only at hmore
      split at hmore
      · rename_i hcomma
        obtain ⟨⟨bs, more'⟩, hbs, hmore⟩ := map_eq_ok hmore
        obtain ⟨rfl, rfl⟩ := Prod.mk.inj hmore
        rw [List.length_append, List.length_cons] at hbound
        obtain ⟨ls', rfl, hentries⟩ := ih (by omega) hbs
        refine ⟨ls ++ l :: ls', by simp, ?_⟩
        rw [List.map_append, List.map_cons, hcomma]
        exact .cons ha hentries
      · obtain ⟨rfl, rfl⟩ := Prod.mk.inj (Except.ok.inj hmore)
        exact ⟨ls, rfl, .single ha⟩

theorem commaSeparated_of_separated (h : Recognizes entry Entry) {u : List Token}
    (hentries : Separated Entry u as) {ls : List Lexeme} (hls : ls.map (·.token) = u)
    (hbound : ls.length < bound) {l : Lexeme} (hl : l.token = .rightParen) (more : List Lexeme) :
    commaSeparated entry bound (ls ++ l :: more) = .ok (as, l :: more) := by
  induction hentries generalizing ls bound with
  | single ha =>
    obtain ⟨bound, rfl⟩ := Nat.exists_eq_add_of_lt hbound
    have hclosed : Closed (l :: more) := by
      rintro _ ⟨⟩
      exact .inr hl
    rw [commaSeparated_succ, h.complete (hls ▸ ha) hclosed, ok_bind]
    exact if_neg (by rw [hl]; decide)
  | cons ha _ ih =>
    obtain ⟨ls₁, ls₂, rfl, hls₁, hls₂⟩ := List.map_eq_append_iff.1 hls
    obtain ⟨c, ls₂, rfl, hc, hls₂⟩ := List.map_eq_cons_iff.1 hls₂
    obtain ⟨bound, rfl⟩ := Nat.exists_eq_add_of_lt hbound
    have hclosed : Closed (c :: (ls₂ ++ l :: more)) := by
      rintro _ ⟨⟩
      exact .inl hc
    have hlength : ls₂.length < (ls₁ ++ c :: ls₂).length + bound := by
      rw [List.length_append, List.length_cons]
      omega
    have hmore := ih hls₂ hlength
    rw [List.append_assoc, List.cons_append, commaSeparated_succ, h.complete (hls₁ ▸ ha) hclosed,
      ok_bind]
    simp only [if_pos hc, hmore]
    rfl

/-- **The parser of groups is the grammar of groups**, if that of the entries is. -/
theorem group_eq_ok_iff (h : Recognizes entry Entry) :
    group entry ts = .ok (as, rest) ↔
      ∃ ls, ts = ls ++ rest ∧ Grouped Entry (ls.map (·.token)) as := by
  constructor
  · intro heq
    obtain ⟨ts', hleft, heq⟩ := bind_eq_ok heq
    obtain ⟨⟨bs, more⟩, hbs, heq⟩ := bind_eq_ok heq
    obtain ⟨rest', hright, heq⟩ := bind_eq_ok heq
    obtain ⟨rfl, rfl⟩ := Prod.mk.inj (Except.ok.inj heq)
    obtain ⟨l, rfl, hl⟩ := expectSymbol_eq_ok hleft
    obtain ⟨r, rfl, hr⟩ := expectSymbol_eq_ok hright
    obtain ⟨ls, rfl, hentries⟩ := h.separated_of_commaSeparated (Nat.lt_succ_self _) hbs
    refine ⟨l :: (ls ++ [r]), by simp, ls.map (·.token), ?_, hentries⟩
    rw [List.map_cons, hl, List.map_append, List.map_singleton, hr]
  · rintro ⟨ls, rfl, v, hv, hentries⟩
    obtain ⟨l, ls, rfl, hl, hls⟩ := List.map_eq_cons_iff.1 hv
    obtain ⟨ls₁, ls₂, rfl, hls₁, hls₂⟩ := List.map_eq_append_iff.1 hls
    obtain ⟨r, rfl, hr⟩ := List.map_eq_singleton_iff.1 hls₂
    have hlength : ls₁.length < (ls₁ ++ r :: rest).length + 1 := by
      rw [List.length_append]
      omega
    have hread := h.commaSeparated_of_separated hentries hls₁ hlength hr rest
    rw [List.cons_append, List.append_assoc, List.singleton_append, group, expectSymbol_cons hl,
      ok_bind, hread, ok_bind]
    simp only [expectSymbol_cons hr, ok_bind]
    rfl

/-- What comes after a group makes no difference to it. -/
theorem group_append (h : Recognizes entry Entry) (heq : group entry ts = .ok (as, rest))
    (more : List Lexeme) : group entry (ts ++ more) = .ok (as, rest ++ more) := by
  obtain ⟨ls, rfl, hgroup⟩ := h.group_eq_ok_iff.1 heq
  exact h.group_eq_ok_iff.2 ⟨ls, List.append_assoc .., hgroup⟩

end Recognizes

/-! ### Arguments -/

theorem GateName.mem_rotations_iff {g : GateName} : g ∈ [.rx, .ry, .rz] ↔ g.isRotation := by
  cases g <;> decide

theorem Record.hasArguments_iff {r : Record Float} {u : List Token} :
    r.HasArguments u ↔
      if r.name.isRotation then
        ∃ v w, u = v ++ w ∧ Grouped IsAngle v r.params ∧ Grouped IsQubit w r.qubits
      else r.params = [] ∧ Grouped IsQubit u r.qubits := by
  simp only [HasArguments, GateName.mem_rotations_iff]

/-- **The parser of arguments is the grammar of arguments.** -/
theorem parseArguments_eq_ok_iff {name : GateName} {ts : List Lexeme} {r : Record Float} :
    parseArguments name ts = .ok r ↔ r.name = name ∧ r.HasArguments (ts.map (·.token)) := by
  rw [parseArguments_eq_ok_iff_groups]
  constructor
  · rintro ⟨params, more, qubits, hparams, hqubits, rfl⟩
    obtain ⟨ws, rfl, hw⟩ := recognizes_parseQubit.group_eq_ok_iff.1 hqubits
    refine ⟨rfl, Record.hasArguments_iff.2 ?_⟩
    split at hparams
    · obtain ⟨vs, rfl, hv⟩ := recognizes_parseAngle.group_eq_ok_iff.1 hparams
      rw [if_pos ‹_›, List.append_nil, List.map_append]
      exact ⟨_, _, rfl, hv, hw⟩
    · obtain ⟨rfl, rfl⟩ := Prod.mk.inj (Except.ok.inj hparams)
      rw [if_neg ‹_›, List.append_nil]
      exact ⟨rfl, hw⟩
  · rintro ⟨rfl, h⟩
    rw [Record.hasArguments_iff] at h
    split at h
    · obtain ⟨v, w, hts, hv, hw⟩ := h
      obtain ⟨vs, ws, rfl, rfl, rfl⟩ := List.map_eq_append_iff.1 hts
      refine ⟨r.params, ws, r.qubits, ?_, ?_, rfl⟩
      · rw [if_pos ‹_›]
        exact recognizes_parseAngle.group_eq_ok_iff.2 ⟨vs, rfl, hv⟩
      · exact recognizes_parseQubit.group_eq_ok_iff.2 ⟨ws, (List.append_nil ws).symm, hw⟩
    · obtain ⟨hparams, hw⟩ := h
      refine ⟨[], ts, r.qubits, if_neg ‹_›, ?_, hparams ▸ rfl⟩
      exact recognizes_parseQubit.group_eq_ok_iff.2 ⟨ts, (List.append_nil ts).symm, hw⟩

/-! ### Names -/

theorem toNat_toUpper {c : Char} (h : 'a' ≤ c ∧ c ≤ 'z') : c.toUpper.toNat + 32 = c.toNat := by
  have hval : 'a'.val ≤ c.val ∧ c.val ≤ 'z'.val := h
  have hbounds : 97 ≤ c.val.toNat ∧ c.val.toNat ≤ 122 := h
  have hshift : ('A'.val - 'a'.val).toNat = 2 ^ 32 - 32 := by decide
  rw [Char.toUpper, dif_pos hval, Char.toNat, Char.toNat, UInt32.toNat_add, hshift]
  omega

theorem isCapitalOf_iff {c d : Char} : IsCapitalOf c d ↔ c.toUpper = d := by
  by_cases h : 'a' ≤ c ∧ c ≤ 'z'
  · have hshift := toNat_toUpper h
    rw [IsCapitalOf, if_pos h, ← Char.toNat_inj]
    omega
  · have hval : ¬ ('a'.val ≤ c.val ∧ c.val ≤ 'z'.val) := h
    rw [IsCapitalOf, if_neg h, Char.toUpper, dif_neg hval, eq_comm]

/-- **The name that a text writes is the one it is looked up by.** -/
theorem writesName_iff {cs : List Char} {name : String} :
    WritesName cs name ↔ GateName.normalize (String.ofList cs) = name := by
  have hcapital : IsCapitalOf = fun c d => c.toUpper = d :=
    funext₂ fun _ _ => propext isCapitalOf_iff
  have hupper : ∀ word : List Char,
      List.Forall₂ IsCapitalOf word name.toList ↔ Text.upper word = name.toList := by
    intro word
    rw [Text.upper, ← List.forall₂_eq_eq_eq, List.forall₂_map_left_iff, hcapital]
  simp only [WritesName, Text.isTrimmed_iff, exists_eq_left', hupper]
  rw [GateName.normalize, String.toList_ofList, ← String.toList_inj, String.toList_ofList]

namespace GateName

theorem parse?_eq_some_iff {cs : List Char} {g : GateName} :
    parse? (String.ofList cs) = some g ↔ WritesName cs g.text := by
  rw [writesName_iff]
  have hsome : ∀ {g'}, parse? (String.ofList cs) = some g' →
      g'.text = normalize (String.ofList cs) := fun {g'} h => by
    simpa using List.find?_some h
  constructor
  · exact fun h => (hsome h).symm
  · intro h
    cases hfind : parse? (String.ofList cs) with
    | none =>
      have := List.find?_eq_none.1 hfind g (mem_all g)
      simp [h] at this
    | some g' => rw [text_injective ((hsome hfind).trans h)]

theorem parse_eq_ok_iff {cs : List Char} {g : GateName} :
    GateName.parse (String.ofList cs) = .ok g ↔ WritesName cs g.text := by
  rw [← parse?_eq_some_iff, GateName.parse]
  cases parse? (String.ofList cs) <;> simp

theorem parse_eq_error_iff {cs : List Char} {e : UnknownGateName} :
    GateName.parse (String.ofList cs) = .error e ↔
      WritesName cs e.name ∧ ∀ g : GateName, g.text ≠ e.name := by
  rw [GateName.parse]
  cases hparse : parse? (String.ofList cs) with
  | some g =>
    refine iff_of_false (by simp) fun h => ?_
    have hname := writesName_iff.1 (parse?_eq_some_iff.1 hparse)
    exact h.2 g (hname.symm.trans (writesName_iff.1 h.1))
  | none =>
    constructor
    · intro h
      obtain rfl := Except.error.inj h
      refine ⟨writesName_iff.2 rfl, fun g hg => ?_⟩
      rw [parse?_eq_some_iff.2 (writesName_iff.2 hg.symm)] at hparse
      cases hparse
    · rintro ⟨h, -⟩
      simp only [writesName_iff.1 h]

end GateName

/-! ### Faults of the arguments -/

/-- The fault is found in the lexemes of the argument groups, not in what comes before them or in a
character that starts no lexeme. -/
def Fault.InArguments : Fault → Prop
  | .strayChar _ | .missingParenthesis | .unknownGate _ => False
  | .unexpected .. | .endOfInput _ | .undefinedValue _ | .tooDeep _ | .notQubit _ => True

/-- The result finds fault with the arguments only. -/
def BlamesArguments {α : Type} (r : Except Fault α) : Prop :=
  ∀ fault, r = .error fault → fault.InArguments

namespace BlamesArguments

variable {α β : Type}

theorem ok (a : α) : BlamesArguments (.ok a) := nofun

theorem error {fault : Fault} (h : fault.InArguments) :
    BlamesArguments (.error fault : Except Fault α) := fun _ heq => Except.error.inj heq ▸ h

theorem bind {r : Except Fault α} {f : α → Except Fault β} (hr : BlamesArguments r)
    (hf : ∀ a, BlamesArguments (f a)) : BlamesArguments (r >>= f) := by
  cases r with
  | error fault =>
    rintro _ ⟨⟩
    exact hr fault rfl
  | ok a => exact hf a

theorem map {r : Except Fault α} {f : α → β} (hr : BlamesArguments r) :
    BlamesArguments (r.map f) := by
  cases r with
  | error fault =>
    rintro _ ⟨⟩
    exact hr fault rfl
  | ok a => exact ok _

theorem expectSymbol (symbol : Token) (ts : List Lexeme) :
    BlamesArguments (expectSymbol symbol ts) := by
  cases ts with
  | nil => exact error trivial
  | cons l ts =>
    rw [CircuitExchange.expectSymbol]
    split
    · exact ok _
    · exact error trivial

theorem operand_succ {budget : Nat} (hoperand : ∀ ts, BlamesArguments (operand budget ts))
    (hchain : ∀ least left ts, BlamesArguments (chain budget least left ts)) (ts : List Lexeme) :
    BlamesArguments (operand (budget + 1) ts) := by
  cases ts with
  | nil => exact error trivial
  | cons l ts =>
    rw [operand_cons]
    cases l.token with
    | minus => exact (hoperand ts).bind fun _ => ok _
    | plus => exact hoperand ts
    | leftParen =>
      exact (hoperand ts).bind fun _ => (hchain _ _ _).bind fun _ =>
        (expectSymbol _ _).bind fun _ => ok _
    | integer | number | pi => exact ok _
    | identifier | star | slash | rightParen | comma => exact error trivial

theorem chain_of_pred {budget : Nat} (h : ∀ k, budget = k + 1 →
      (∀ ts, BlamesArguments (operand k ts)) ∧
        ∀ least left ts, BlamesArguments (chain k least left ts))
    (least : Nat) (left : Expression) (ts : List Lexeme) :
    BlamesArguments (chain budget least left ts) := by
  cases ts with
  | nil =>
    rw [chain_nil]
    exact ok _
  | cons l ts =>
    rw [chain_cons]
    cases binaryOp? l.token with
    | none => exact ok _
    | some op =>
      dsimp only
      split
      · exact ok _
      · cases budget with
        | zero => exact error trivial
        | succ k =>
          obtain ⟨hoperand, hchain⟩ := h k rfl
          exact (hoperand ts).bind fun _ => (hchain _ _ _).bind fun _ => hchain _ _ _

theorem operand_and_chain (budget : Nat) : (∀ ts, BlamesArguments (operand budget ts)) ∧
    ∀ least left ts, BlamesArguments (chain budget least left ts) := by
  induction budget with
  | zero =>
    refine ⟨fun ts => ?_, chain_of_pred (by simp)⟩
    rw [operand_zero]
    exact error trivial
  | succ budget ih =>
    refine ⟨operand_succ ih.1 ih.2, chain_of_pred fun k hk => ?_⟩
    obtain rfl := Nat.succ.inj hk
    exact ih

theorem parseAngle (ts : List Lexeme) : BlamesArguments (parseAngle ts) := by
  obtain ⟨hoperand, hchain⟩ := operand_and_chain maxDepth
  refine BlamesArguments.bind ((hoperand ts).bind fun _ => hchain _ _ _) fun read => ?_
  obtain ⟨e, rest⟩ := read
  dsimp only
  split
  · exact ok _
  · exact error trivial

theorem parseQubit (ts : List Lexeme) : BlamesArguments (parseQubit ts) := by
  cases ts with
  | nil => exact error trivial
  | cons l ts =>
    rw [CircuitExchange.parseQubit]
    cases l.token with
    | integer v =>
      dsimp only
      split
      · exact ok _
      · exact error trivial
    | _ => exact error trivial

section Group

variable {entry : Parser α}

theorem commaSeparated (h : ∀ ts, BlamesArguments (entry ts)) (bound : Nat) (ts : List Lexeme) :
    BlamesArguments (commaSeparated entry bound ts) := by
  induction bound generalizing ts with
  | zero => exact ok _
  | succ bound ih =>
    rw [commaSeparated_succ]
    refine (h ts).bind fun read => ?_
    obtain ⟨a, rest⟩ := read
    cases rest with
    | nil => exact ok _
    | cons l more =>
      dsimp only
      split
      · exact (ih more).map
      · exact ok _

theorem group (h : ∀ ts, BlamesArguments (entry ts)) (ts : List Lexeme) :
    BlamesArguments (group entry ts) :=
  (expectSymbol _ _).bind fun _ => (commaSeparated h _ _).bind fun _ =>
    (expectSymbol _ _).bind fun _ => ok _

end Group

theorem parseArguments (name : GateName) (ts : List Lexeme) :
    BlamesArguments (parseArguments name ts) := by
  rw [CircuitExchange.parseArguments]
  cases name.isRotation
  case' false => refine (group parseQubit ts).bind ?_
  case' true => refine (group parseAngle ts).bind fun params => (group parseQubit params.2).bind ?_
  all_goals
    rintro ⟨qubits, _ | ⟨l, rest⟩⟩
    · exact ok _
    · exact error trivial

end BlamesArguments

/-- The result does not find fault with the name of a gate. -/
def KnowsGate {α : Type} (r : Except Fault α) : Prop := ∀ e, r ≠ .error (.unknownGate e)

theorem KnowsGate.parseArguments (name : GateName) (ts : List Lexeme) :
    KnowsGate (parseArguments name ts) := fun _ h => BlamesArguments.parseArguments name ts _ h

/-! ### Tokens -/

section Cut

variable {cs before after : List Char}

theorem isCut_iff : IsCut cs before after ↔ cs.span (· ≠ '(') = (before, '(' :: after) := by
  rw [List.span_eq_takeWhile_dropWhile, Prod.mk.injEq]
  constructor
  · rintro ⟨rfl, hnot⟩
    have hbefore : ∀ c ∈ before, (c ≠ '(' : Bool) = true := fun c hc =>
      decide_eq_true fun h => hnot (h ▸ hc)
    rw [List.takeWhile_append_of_pos hbefore, List.dropWhile_append_of_pos hbefore]
    simp
  · rintro ⟨hbefore, hafter⟩
    refine ⟨by rw [← hafter, ← hbefore, List.takeWhile_append_dropWhile], fun hmem => ?_⟩
    rw [← hbefore] at hmem
    simpa using List.mem_takeWhile_imp hmem

/-- A token is cut at one place. -/
theorem IsCut.unique {before' after' : List Char} (h : IsCut cs before after)
    (h' : IsCut cs before' after') : before = before' ∧ after = after' := by
  have heq := (isCut_iff.1 h).symm.trans (isCut_iff.1 h')
  obtain ⟨rfl, hafter⟩ := Prod.mk.inj heq
  exact ⟨rfl, (List.cons.inj hafter).2⟩

theorem exists_isCut (h : '(' ∈ cs) : ∃ before after, IsCut cs before after := by
  obtain ⟨before, after, hcs, hnot⟩ := List.eq_append_cons_of_mem h
  exact ⟨before, after, hcs, hnot⟩

theorem parseFault_of_isCut (h : IsCut cs before after) :
    parseFault cs =
      match GateName.parse (String.ofList before) with
      | .error unknown => .error (.unknownGate unknown)
      | .ok name =>
        match tokenize (byteLength before) ('(' :: after) with
        | .error stray => .error (.strayChar stray)
        | .ok ts => parseArguments name ts := by
  rw [parseFault, isCut_iff.1 h]
  dsimp only
  cases GateName.parse (String.ofList before) with
  | error unknown => rfl
  | ok name => cases tokenize (byteLength before) ('(' :: after) <;> rfl

theorem parseFault_of_notMem (h : '(' ∉ cs) : parseFault cs = .error .missingParenthesis := by
  have hdrop : cs.dropWhile (· ≠ '(') = [] :=
    List.dropWhile_eq_nil_iff.2 fun c hc => decide_eq_true fun heq => h (heq ▸ hc)
  rw [parseFault, List.span_eq_takeWhile_dropWhile]
  simp only [hdrop, List.isEmpty_nil, if_true]

end Cut

theorem parseFault_eq_ok_iff {cs : List Char} {r : Record Float} :
    parseFault cs = .ok r ↔ r.IsWritten cs := by
  constructor
  · intro h
    by_cases hmem : '(' ∈ cs
    · obtain ⟨before, after, hcut⟩ := exists_isCut hmem
      rw [parseFault_of_isCut hcut] at h
      split at h
      · cases h
      · rename_i name hname
        split at h
        · cases h
        · rename_i ts hts
          obtain ⟨rfl, harguments⟩ := parseArguments_eq_ok_iff.1 h
          exact ⟨before, after, _, hcut, GateName.parse_eq_ok_iff.1 hname, lexes_of_tokenize hts,
            harguments⟩
    · rw [parseFault_of_notMem hmem] at h
      cases h
  · rintro ⟨before, after, u, hcut, hname, hlexes, harguments⟩
    obtain ⟨ts, hts, rfl⟩ := tokenize_of_lexes hlexes (byteLength before)
    rw [parseFault_of_isCut hcut, GateName.parse_eq_ok_iff.2 hname]
    simp only [hts]
    exact parseArguments_eq_ok_iff.2 ⟨rfl, harguments⟩

theorem parseFault_eq_unknownGate_iff {cs : List Char} {e : UnknownGateName} :
    parseFault cs = .error (.unknownGate e) ↔ ∃ before after, IsCut cs before after ∧
      WritesName before e.name ∧ ∀ g : GateName, g.text ≠ e.name := by
  constructor
  · intro h
    by_cases hmem : '(' ∈ cs
    · obtain ⟨before, after, hcut⟩ := exists_isCut hmem
      refine ⟨before, after, hcut, ?_⟩
      rw [parseFault_of_isCut hcut] at h
      split at h
      · rename_i unknown hname
        obtain rfl := Fault.unknownGate.inj (Except.error.inj h)
        exact GateName.parse_eq_error_iff.1 hname
      · split at h
        · cases h
        · exact absurd h (KnowsGate.parseArguments _ _ e)
    · rw [parseFault_of_notMem hmem] at h
      cases h
  · rintro ⟨before, after, hcut, hname⟩
    rw [parseFault_of_isCut hcut, GateName.parse_eq_error_iff.2 hname]

theorem Record.parse_eq_ok_iff {t : String} {r : Record Float} :
    Record.parse t = .ok r ↔ parseFault t.toList = .ok r :=
  ⟨mapError_eq_ok, fun h => by rw [Record.parse, h]; rfl⟩

/-- **The grammar of tokens.** A token is accepted as a record exactly if the grammar writes the
record so. It is refused for an unknown gate exactly if it has a bracket and the name in front of it
is outside the vocabulary, whatever else is wrong with it. -/
theorem token_grammar (t : String) :
    (∀ r : Record Float, Record.parse t = .ok r ↔ r.IsWritten t.toList) ∧
      ∀ token name : String, Record.parse t = .error ⟨token, .unknownGate ⟨name⟩⟩ ↔
        token = t ∧ ∃ before after, IsCut t.toList before after ∧
          WritesName before name ∧ ∀ g : GateName, g.text ≠ name := by
  refine ⟨fun r => Record.parse_eq_ok_iff.trans parseFault_eq_ok_iff, fun token name => ?_⟩
  rw [← parseFault_eq_unknownGate_iff (e := ⟨name⟩), Record.parse]
  cases parseFault t.toList with
  | ok r => exact iff_of_false (fun h => by cases h) (by simp)
  | error fault =>
    constructor
    · intro h
      obtain ⟨rfl, rfl⟩ := TokenError.mk.inj (Except.error.inj h)
      exact ⟨rfl, rfl⟩
    · rintro ⟨rfl, h⟩
      rw [Except.error.inj h]
      rfl

example : Record.parse " rx( -(1+PI)/2 )(3)" =
    .ok ⟨.rx, [-(1 + Scalar.pi) / Scalar.two], [3]⟩ := by
  decide +kernel

end CircuitExchange
