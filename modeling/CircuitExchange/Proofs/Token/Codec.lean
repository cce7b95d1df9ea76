import Mathlib
import CircuitExchange.Proofs.Token.Angle
import CircuitExchange.Circuit

/-!
Gate tokens are read back. A group of entries is read if each entry is, and a token is read if its
groups are. What the parser accepts, and what it makes of the text of a record, is one condition.

* `toOption_parse_token`: the token of a gate call is read as its record.
* `GateCall.Shaped`: the calls whose tokens are read as soon as their angles are finite.
* `Record.Codable`: the records that tokens stand for.
* `token_codec`: these are the records that are read back from their text.
-/

namespace CircuitExchange

open Decimal

/-! ### Groups -/

section Groups

variable {α β : Type} {entry : Parser α} {text : β → List Char} {value? : β → Option α}

theorem commaSeparated_succ (bound : Nat) (ts : List Lexeme) :
    commaSeparated entry (bound + 1) ts = entry ts >>= fun
      | (a, l :: more) =>
        if l.token = .comma then
          (commaSeparated entry bound more).map fun (as, rest) => (a :: as, rest)
        else .ok ([a], l :: more)
      | (a, []) => .ok ([a], []) := by
  rw [commaSeparated]
  refine congrArg _ (funext fun (a, rest) => ?_)
  cases rest <;> rfl

/-- Entries with commas between them are read one by one, up to the end of their group. -/
theorem exists_spells_entries (h : ∀ b, Reads entry (text b) (value? b)) (b : β) (bs : List β) :
    ∃ us : List Token, bs.length ≤ us.length ∧
      (∀ w' us', w' ≠ [] → Delimited w' → Spells w' us' →
        Spells ([',', ' '].intercalate ((b :: bs).map text) ++ w') (us ++ us')) ∧
      ∀ (ls more : List Lexeme) (l : Lexeme) (bound : Nat), ls.map (·.token) = us →
        l.token = .rightParen → bs.length < bound →
        (commaSeparated entry bound (ls ++ l :: more)).toOption =
          ((b :: bs).mapM value?).map fun as => (as, l :: more) := by
  induction bs generalizing b with
  | nil =>
    obtain ⟨us, hspells, hread⟩ := h b
    refine ⟨us, Nat.zero_le _, ?_, ?_⟩
    · intro w' us' hne hd hw'
      rw [List.map_singleton, List.intercalate_singleton]
      exact hspells.append hne hd hw'
    · intro ls more l bound hls hl hbound
      obtain ⟨bound, rfl⟩ := Nat.exists_eq_add_of_lt hbound
      have hclosed : Closed (l :: more) := by
        rintro _ ⟨⟩
        exact .inr hl
      rw [List.length_nil, Nat.zero_add, commaSeparated_succ, toOption_bind, hread ls _ hls hclosed,
        List.mapM_cons, List.mapM_nil]
      cases value? b with
      | none => rfl
      | some a =>
        simp only [Option.map_some, Option.bind_some, hl]
        rfl
  | cons b' bs ih =>
    obtain ⟨us, hspells, hread⟩ := h b
    obtain ⟨us', hlength, hspells', hread'⟩ := ih b'
    refine ⟨us ++ .comma :: us', ?_, ?_, ?_⟩
    · rw [List.length_append, List.length_cons, List.length_cons]
      omega
    · intro w' us'' hne hd hw'
      have hskip := (hspells' w' us'' hne hd hw').skip (c := ' ') (by decide)
      have hrest := hskip.symbol (c := ',') rfl
      have hall := hspells.append (by simp) (delimited_cons _) hrest
      simpa only [List.map_cons, List.intercalate_cons_cons, List.append_assoc, List.cons_append,
        List.nil_append] using hall
    · intro ls more l bound hls hl hbound
      obtain ⟨ls₁, ls₂, rfl, hls₁, hls₂⟩ := List.map_eq_append_iff.1 hls
      obtain ⟨m, ls₂, rfl, hm, hls₂⟩ := List.map_eq_cons_iff.1 hls₂
      obtain ⟨bound, rfl⟩ := Nat.exists_eq_add_of_lt hbound
      have hclosed : Closed (m :: (ls₂ ++ l :: more)) := by
        rintro _ ⟨⟩
        exact .inl hm
      have hmore := hread' ls₂ more l ((b' :: bs).length + bound) hls₂ hl
        (by rw [List.length_cons]; omega)
      rw [List.append_assoc, List.cons_append, commaSeparated_succ, toOption_bind,
        hread ls₁ _ hls₁ hclosed, List.mapM_cons]
      cases value? b with
      | none => rfl
      | some a =>
        simp only [Option.map_some, Option.bind_some, if_pos hm, toOption_map, hmore]
        cases (b' :: bs).mapM value? <;> rfl

theorem expectSymbol_cons {symbol : Token} {l : Lexeme} (h : l.token = symbol)
    (rest : List Lexeme) : expectSymbol symbol (l :: rest) = .ok rest := if_pos h

/-- The text of a group in parentheses. -/
def groupChars {β : Type} (text : β → List Char) (bs : List β) : List Char :=
  '(' :: ([',', ' '].intercalate (bs.map text) ++ [')'])

/-- A group that is not empty is read as the list of its entries. -/
theorem exists_spells_group (h : ∀ b, Reads entry (text b) (value? b)) {bs : List β}
    (hne : bs ≠ []) :
    ∃ us : List Token, Spells (groupChars text bs) us ∧
      ∀ ls rest : List Lexeme, ls.map (·.token) = us →
        (group entry (ls ++ rest)).toOption = (bs.mapM value?).map fun as => (as, rest) := by
  obtain ⟨b, bs, rfl⟩ := List.exists_cons_of_ne_nil hne
  obtain ⟨us, hlength, hspells, hread⟩ := exists_spells_entries h b bs
  have hright : Spells [')'] [.rightParen] := Spells.symbol (w := []) rfl fun _ _ _ hlex => hlex
  refine ⟨.leftParen :: (us ++ [.rightParen]),
    (hspells _ _ (by simp) (delimited_cons _) hright).symbol rfl, fun ls rest hls => ?_⟩
  obtain ⟨l, ls, rfl, hl, hls⟩ := List.map_eq_cons_iff.1 hls
  obtain ⟨ls₁, ls₂, rfl, hls₁, hls₂⟩ := List.map_eq_append_iff.1 hls
  obtain ⟨r, rfl, hr⟩ := List.map_eq_singleton_iff.1 hls₂
  have hbound : bs.length < (ls₁ ++ r :: rest).length + 1 := by
    have hls : ls₁.length = us.length := by rw [← hls₁, List.length_map]
    rw [List.length_append]
    omega
  have hentries := hread ls₁ rest r _ hls₁ hr hbound
  rw [List.cons_append, List.append_assoc, List.singleton_append, group, expectSymbol_cons hl,
    ok_bind, toOption_bind, hentries]
  cases (b :: bs).mapM value? with
  | none => rfl
  | some as =>
    simp only [Option.map_some, Option.bind_some, expectSymbol_cons hr, ok_bind]
    rfl

/-- Entries are at least one, and each of them was read. -/
theorem of_commaSeparated_eq_ok {P : α → Prop}
    (h : ∀ {ts a rest}, entry ts = .ok (a, rest) → P a) {bound : Nat} {ts rest : List Lexeme}
    {as : List α} (heq : commaSeparated entry bound ts = .ok (as, rest)) :
    (bound ≠ 0 → as ≠ []) ∧ ∀ a ∈ as, P a := by
  induction bound generalizing ts as rest with
  | zero =>
    obtain ⟨rfl, -⟩ := Prod.mk.inj (Except.ok.inj heq)
    exact ⟨fun hne => absurd rfl hne, fun a ha => absurd ha List.not_mem_nil⟩
  | succ bound ih =>
    rw [commaSeparated_succ] at heq
    obtain ⟨⟨a, more⟩, hread, heq⟩ := bind_eq_ok heq
    have hone : ∀ b ∈ [a], P b := fun b hb => List.mem_singleton.1 hb ▸ h hread
    cases more with
    | nil =>
      obtain ⟨rfl, -⟩ := Prod.mk.inj (Except.ok.inj heq)
      exact ⟨fun _ => List.cons_ne_nil _ _, hone⟩
    | cons l more =>
      dsimp only at heq
      split at heq
      · obtain ⟨⟨bs, more'⟩, hbs, heq⟩ := map_eq_ok heq
        obtain ⟨rfl, -⟩ := Prod.mk.inj heq
        refine ⟨fun _ => List.cons_ne_nil _ _, fun b hb => ?_⟩
        rcases List.mem_cons.1 hb with rfl | hb
        · exact h hread
        · exact (ih hbs).2 b hb
      · obtain ⟨rfl, -⟩ := Prod.mk.inj (Except.ok.inj heq)
        exact ⟨fun _ => List.cons_ne_nil _ _, hone⟩

theorem of_group_eq_ok {P : α → Prop} (h : ∀ {ts a rest}, entry ts = .ok (a, rest) → P a)
    {ts rest : List Lexeme} {as : List α} (heq : group entry ts = .ok (as, rest)) :
    as ≠ [] ∧ ∀ a ∈ as, P a := by
  rw [group] at heq
  obtain ⟨ts', -, heq⟩ := bind_eq_ok heq
  obtain ⟨⟨bs, more⟩, hbs, heq⟩ := bind_eq_ok heq
  obtain ⟨rest', -, heq⟩ := bind_eq_ok heq
  obtain ⟨rfl, -⟩ := Prod.mk.inj (Except.ok.inj heq)
  have hentries := of_commaSeparated_eq_ok h hbs
  exact ⟨hentries.1 (Nat.succ_ne_zero _), hentries.2⟩

end Groups

theorem mapM_some {α : Type} (as : List α) : as.mapM some = some as := by
  induction as with
  | nil => rfl
  | cons a as ih =>
    rw [List.mapM_cons, ih]
    rfl

/-! ### Tokens -/

theorem leftParen_notMem_text (g : GateName) : '(' ∉ g.text.toList := by
  cases g <;> decide

theorem toList_tokenText (name : GateName) (angles : List String) (qubits : List Qubit) :
    (tokenText name angles qubits).toList =
      name.text.toList ++ ((if name.isRotation then groupChars String.toList angles else []) ++
        groupChars (fun q : Qubit => (toString q.toNat).toList) qubits) := by
  have hqubits : (", ".intercalate (qubits.map fun q => toString q.toNat)).toList =
      [',', ' '].intercalate (qubits.map fun q => (toString q.toNat).toList) := by
    rw [String.toList_intercalate, List.map_map]
    rfl
  rw [tokenText]
  generalize ", ".intercalate (qubits.map fun q => toString q.toNat) = qubitGroup at hqubits ⊢
  split
  · change (name.text ++ "(" ++ ", ".intercalate angles ++ ")(" ++ qubitGroup ++ ")").toList = _
    simp [String.toList_append, hqubits, String.toList_intercalate, groupChars]
  · change (name.text ++ "(" ++ qubitGroup ++ ")").toList = _
    simp [String.toList_append, hqubits, groupChars]

/-- Reading a token splits it at the first parenthesis. -/
theorem parseFault_append (name : GateName) {cs : List Char} {us : List Token}
    (hhead : cs.head? = some '(') (hspells : Spells cs us) :
    ∃ ls : List Lexeme, ls.map (·.token) = us ∧
      parseFault (name.text.toList ++ cs) = parseArguments name ls := by
  obtain ⟨cs, rfl⟩ := List.head?_eq_some_iff.1 hhead
  have hspan : (name.text.toList ++ '(' :: cs).span (· ≠ '(') = (name.text.toList, '(' :: cs) := by
    have hname : ∀ c ∈ name.text.toList, decide (c ≠ '(') = true := fun c hc =>
      decide_eq_true fun heq => leftParen_notMem_text name (heq ▸ hc)
    rw [List.span_eq_takeWhile_dropWhile, List.takeWhile_append_of_pos hname,
      List.dropWhile_append_of_pos hname]
    simp
  obtain ⟨ls, hls, hus⟩ := tokenize_of_lexes hspells.lexes (byteLength name.text.toList)
  refine ⟨ls, hus, ?_⟩
  rw [parseFault, hspan]
  simp only [List.isEmpty_cons, String.ofList_toList, GateName.parse, GateName.parse?_text, hls]
  rfl

theorem groupChars_map {β γ : Type} (text : γ → List Char) (f : β → γ) (bs : List β) :
    groupChars text (bs.map f) = groupChars (fun b => text (f b)) bs := by
  rw [groupChars, groupChars, List.map_map]
  rfl

/-- **The token of a gate call is read as its record**, or refused if an angle is not finite. -/
theorem toOption_parse_token (c : GateCall Float) (hq : c.qubits ≠ [])
    (ha : c.name.isRotation → c.angles ≠ []) :
    (Record.parse c.token).toOption =
      (if c.name.isRotation then c.angles.mapM Angle.value? else some []).map fun params =>
        ⟨c.name, params, c.qubits⟩ := by
  obtain ⟨us₂, hspells₂, hread₂⟩ := exists_spells_group reads_qubit hq
  have hqubits : ∀ ls : List Lexeme, ls.map (·.token) = us₂ →
      group parseQubit ls = .ok (c.qubits, []) := by
    intro ls hls
    have hread := hread₂ ls [] hls
    rw [mapM_some, List.append_nil] at hread
    exact toOption_eq_some hread
  rw [Record.parse, toOption_mapError, GateCall.token, toList_tokenText, groupChars_map]
  cases hrotation : c.name.isRotation with
  | false =>
    obtain ⟨ls, hls, heq⟩ := parseFault_append c.name rfl hspells₂
    rw [if_neg Bool.false_ne_true, if_neg Bool.false_ne_true, List.nil_append, heq, parseArguments,
      hrotation]
    simp only [Bool.false_eq_true, if_false, pure_bind, hqubits ls hls, ok_bind]
    rfl
  | true =>
    obtain ⟨us₁, hspells₁, hread₁⟩ := exists_spells_group reads_angle (ha hrotation)
    have hspells := hspells₁.append (List.cons_ne_nil _ _) (delimited_cons _) hspells₂
    obtain ⟨ls, hls, heq⟩ := parseFault_append c.name rfl hspells
    obtain ⟨ls₁, ls₂, rfl, hls₁, hls₂⟩ := List.map_eq_append_iff.1 hls
    rw [if_pos rfl, if_pos rfl]
    refine (congrArg Except.toOption heq).trans ?_
    rw [parseArguments, hrotation]
    simp only [if_true, toOption_bind, hread₁ ls₁ ls₂ hls₁]
    cases c.angles.mapM Angle.value? with
    | none => rfl
    | some params =>
      simp only [Option.map_some, Option.bind_some, hqubits ls₂ hls₂]
      rfl

/-- Angles have values if all of them are finite, namely those of their formulas. -/
theorem mapM_value?_eq_some_iff {as : List (Angle Float)} {xs : List Float} :
    as.mapM Angle.value? = some xs ↔ (∀ a ∈ as, a.IsFinite) ∧ as.map Angle.eval = xs := by
  induction as generalizing xs with
  | nil => simp [eq_comm]
  | cons a as ih =>
    rw [List.mapM_cons, List.forall_mem_cons, List.map_cons]
    constructor
    · intro h
      obtain ⟨x, hx, h⟩ := Option.bind_eq_some_iff.1 h
      obtain ⟨more, hmore, h⟩ := Option.bind_eq_some_iff.1 h
      obtain rfl := Option.some.inj h
      obtain ⟨hall, rfl⟩ := ih.1 hmore
      rw [Angle.value?] at hx
      split at hx
      · obtain rfl := Option.some.inj hx
        exact ⟨⟨‹_›, hall⟩, rfl⟩
      · cases hx
    · rintro ⟨⟨ha, hall⟩, rfl⟩
      rw [Angle.value?_of_isFinite ha, ih.2 ⟨hall, rfl⟩]
      rfl

/-- **The token of a call is read exactly if its angles are finite**, as the record of the call, if
only rotations have angles. -/
theorem GateCall.parse_token_eq_ok_iff {c : GateCall Float} {r : Record Float} (hq : c.qubits ≠ [])
    (ha : c.name.isRotation → c.angles ≠ []) (hplain : ¬ c.name.isRotation → c.angles = []) :
    Record.parse c.token = .ok r ↔ (∀ a ∈ c.angles, a.IsFinite) ∧ c.record = r := by
  have hparams : ∀ params, (if c.name.isRotation then c.angles.mapM Angle.value? else some []) =
      some params ↔ (∀ a ∈ c.angles, a.IsFinite) ∧ c.angles.map Angle.eval = params := by
    intro params
    split
    · exact mapM_value?_eq_some_iff
    · rw [hplain ‹_›]
      simp [eq_comm]
  have htoken := toOption_parse_token c hq ha
  constructor
  · intro h
    rw [h] at htoken
    obtain ⟨params, hsome, rfl⟩ := Option.map_eq_some_iff.1 htoken.symm
    obtain ⟨hfinite, rfl⟩ := (hparams params).1 hsome
    exact ⟨hfinite, rfl⟩
  · rintro ⟨hfinite, rfl⟩
    rw [(hparams _).2 ⟨hfinite, rfl⟩] at htoken
    exact toOption_eq_some htoken

/-- The call has the numbers of qubits and angles that its gate needs. -/
structure GateCall.Shaped {α : Type} (c : GateCall α) : Prop where
  qubitCount : c.qubits.length = c.name.qubitCount
  angleCount : c.angles.length = c.name.paramCount

namespace GateCall.Shaped

theorem parse_token_eq_ok_iff {c : GateCall Float} {r : Record Float} (h : c.Shaped) :
    Record.parse c.token = .ok r ↔ (∀ a ∈ c.angles, a.IsFinite) ∧ c.record = r := by
  have hangles := h.angleCount
  rw [GateName.paramCount] at hangles
  refine GateCall.parse_token_eq_ok_iff ?_ (fun hrotation hnil => ?_) fun hplain => ?_
  · intro hnil
    have hqubits := h.qubitCount
    rw [hnil] at hqubits
    cases hname : c.name <;> rw [hname] at hqubits <;> cases hqubits
  · rw [if_pos hrotation, hnil] at hangles
    cases hangles
  · rw [if_neg hplain] at hangles
    exact List.eq_nil_of_length_eq_zero hangles

variable {α : Type} [Scalar α] {c : GateCall α}

/-- Such a call stands for a well formed record unless it repeats a qubit. -/
theorem wellFormed_record_iff (h : c.Shaped) : c.record.WellFormed ↔ c.qubits.Nodup :=
  ⟨fun hrecord => hrecord.nodup, fun hnodup =>
    ⟨h.qubitCount, (List.length_map _).trans h.angleCount, hnodup⟩⟩

theorem of_wellFormed_record (h : c.record.WellFormed) : c.Shaped := by
  refine ⟨h.qubitCount, ?_⟩
  have hangles := h.paramCount
  rwa [record, List.length_map] at hangles

end GateCall.Shaped

/-! ### Records -/

/-- The records that tokens stand for: with at least one qubit, finite angles, at least one angle
for a rotation and none for other gates. -/
structure Record.Codable (r : Record Float) : Prop where
  qubits_ne : r.qubits ≠ []
  finite : ∀ x ∈ r.params, x.isFinite
  plain : ¬ r.name.isRotation → r.params = []
  rotation : r.name.isRotation → r.params ≠ []

/-- A record as a call whose angles are numbers. -/
def Record.call {α : Type} (r : Record α) : GateCall α := ⟨r.name, r.params.map .value, r.qubits⟩

theorem Record.token_call (r : Record Float) : r.call.token = r.text := by
  have htext : Angle.text ∘ Angle.value = angleText :=
    funext fun x => by rw [Function.comp_apply, Angle.text]
  rw [GateCall.token, Record.text, Record.call, List.map_map, htext]

theorem Record.record_call (r : Record Float) : r.call.record = r := by
  have hangles : Angle.eval ∘ Angle.value = (id : Float → Float) := funext fun _ => rfl
  rw [GateCall.record, call, List.map_map, hangles, List.map_id]

/-- A circuit of records is one of calls whose angles are numbers. -/
theorem Circuit.ofRecords_eq (rs : List (Record Float)) :
    Circuit.ofRecords rs = ⟨(rs.map Record.call).map GateCall.token⟩ := by
  rw [Circuit.ofRecords, List.map_map]
  exact congrArg Circuit.mk (List.map_congr_left fun r _ => r.token_call.symm)

/-- Such a record is read back from its text. -/
theorem Record.Codable.parse_text {r : Record Float} (h : r.Codable) :
    Record.parse r.text = .ok r := by
  rw [← Record.token_call, GateCall.parse_token_eq_ok_iff (c := r.call) h.qubits_ne
    (fun hrotation hnil => h.rotation hrotation (List.map_eq_nil_iff.1 hnil))
    (fun hplain => List.map_eq_nil_iff.2 (h.plain hplain))]
  refine ⟨fun a ha => ?_, r.record_call⟩
  obtain ⟨x, hx, rfl⟩ := List.mem_map.1 ha
  exact h.finite x hx

/-! ### Accepted tokens -/

/-- An expression has a finite value or none. -/
theorem isFinite_of_eval? {e : Expression} {x : Float} (h : e.eval? = some x) : x.isFinite := by
  induction e generalizing x with
  | number y => exact (isFinite_of_finite? h).2
  | pi =>
    obtain rfl := Option.some.inj h
    exact isFinite_pi
  | neg e ih =>
    obtain ⟨y, hy, rfl⟩ := Option.map_eq_some_iff.1 h
    have hword := (isFinite_iff y).1 (ih hy)
    rw [← ofWord_isNegative_word hword.le, neg_ofWord _ hword.le]
    exact (isFinite_ofWord _ hword.le).2 hword
  | paren e ih => exact ih h
  | binary op left right _ _ =>
    obtain ⟨l, -, h⟩ := Option.bind_eq_some_iff.1 h
    obtain ⟨r, -, h⟩ := Option.bind_eq_some_iff.1 h
    obtain ⟨y, -, h⟩ := Option.bind_eq_some_iff.1 h
    exact (isFinite_of_finite? h).2

theorem parseAngle_eq_ok_iff {ts rest : List Lexeme} {x : Float} :
    parseAngle ts = .ok (x, rest) ↔
      ∃ e, Expression.parse ts = .ok (e, rest) ∧ e.eval? = some x := by
  rw [parseAngle]
  constructor
  · intro h
    obtain ⟨⟨e, more⟩, he, h⟩ := bind_eq_ok h
    dsimp only at h
    cases hvalue : e.eval? with
    | none =>
      rw [hvalue] at h
      cases h
    | some y =>
      rw [hvalue] at h
      obtain ⟨rfl, rfl⟩ := Prod.mk.inj (Except.ok.inj h)
      exact ⟨e, he, hvalue⟩
  · rintro ⟨e, he, hvalue⟩
    rw [he, ok_bind]
    simp only [hvalue]
    rfl

theorem isFinite_of_parseAngle {ts rest : List Lexeme} {x : Float}
    (h : parseAngle ts = .ok (x, rest)) : x.isFinite := by
  obtain ⟨e, -, hvalue⟩ := parseAngle_eq_ok_iff.1 h
  exact isFinite_of_eval? hvalue

/-- The groups that accepted arguments consist of, with nothing after them. -/
theorem parseArguments_eq_ok_iff_groups {name : GateName} {ts : List Lexeme} {r : Record Float} :
    parseArguments name ts = .ok r ↔ ∃ params more qubits,
      (if name.isRotation then group parseAngle ts else .ok ([], ts)) = .ok (params, more) ∧
        group parseQubit more = .ok (qubits, []) ∧ r = ⟨name, params, qubits⟩ := by
  rw [parseArguments]
  constructor
  · intro h
    cases hrotation : name.isRotation
    all_goals
      simp only [hrotation, Bool.false_eq_true, if_false, if_true] at h ⊢
      obtain ⟨⟨params, more⟩, hparams, h⟩ := bind_eq_ok h
      obtain ⟨⟨qubits, rest⟩, hqubits, h⟩ := bind_eq_ok h
      cases rest with
      | nil => exact ⟨params, more, qubits, hparams, hqubits, (Except.ok.inj h).symm⟩
      | cons l rest => cases h
  · rintro ⟨params, more, qubits, hparams, hqubits, rfl⟩
    cases hrotation : name.isRotation with
    | false =>
      simp only [hrotation, Bool.false_eq_true, if_false] at hparams ⊢
      obtain ⟨rfl, rfl⟩ := Prod.mk.inj (Except.ok.inj hparams)
      simp only [pure_bind, hqubits, ok_bind]
      rfl
    | true =>
      simp only [hrotation, if_true] at hparams ⊢
      simp only [hparams, ok_bind, hqubits]
      rfl

/-- Every accepted token is the token of a record that can be read back. -/
theorem codable_of_parse {t : String} {r : Record Float} (h : Record.parse t = .ok r) :
    r.Codable := by
  have hfault : parseFault t.toList = .ok r := mapError_eq_ok h
  obtain ⟨name, ts, harguments⟩ : ∃ name ts, parseArguments name ts = .ok r := by
    rw [parseFault] at hfault
    dsimp only at hfault
    split at hfault
    · cases hfault
    · split at hfault
      · cases hfault
      · split at hfault
        · cases hfault
        · exact ⟨_, _, hfault⟩
  obtain ⟨params, more, qubits, hparams, hqubits, rfl⟩ :=
    parseArguments_eq_ok_iff_groups.1 harguments
  have hne := (of_group_eq_ok (P := fun _ => True) (fun _ => trivial) hqubits).1
  split at hparams
  · have hangles := of_group_eq_ok isFinite_of_parseAngle hparams
    exact ⟨hne, hangles.2, fun h => absurd ‹_› h, fun _ => hangles.1⟩
  · obtain ⟨rfl, -⟩ := Prod.mk.inj (Except.ok.inj hparams)
    exact ⟨hne, fun x hx => absurd hx List.not_mem_nil, fun _ => rfl, fun h => absurd h ‹_›⟩

/-! ### Circuits -/

namespace Circuit

/-- The records of a circuit whose tokens parse are the records of its tokens. -/
theorem parseFrom_eq_ok_iff {index : Nat} {tokens : List String} {rs : List (Record Float)} :
    parseFrom index tokens = .ok rs ↔
      List.Forall₂ (fun t r => Record.parse t = .ok r) tokens rs := by
  induction tokens generalizing index rs with
  | nil =>
    constructor
    · intro h
      obtain rfl := Except.ok.inj h
      exact .nil
    · intro h
      cases h
      rfl
  | cons t tokens ih =>
    constructor
    · intro h
      rw [parseFrom] at h
      obtain ⟨r, hr, h⟩ := bind_eq_ok h
      obtain ⟨more, hmore, h⟩ := bind_eq_ok h
      obtain rfl := Except.ok.inj h
      exact .cons (mapError_eq_ok hr) (ih.1 hmore)
    · intro h
      cases h with
      | cons hr hmore => rw [parseFrom, hr, ih.2 hmore]; rfl

theorem gates_eq_ok_iff {c : Circuit} {rs : List (Record Float)} :
    c.gates = .ok rs ↔ List.Forall₂ (fun t r => Record.parse t = .ok r) c.tokens rs :=
  parseFrom_eq_ok_iff

/-- A circuit is valid if each of its tokens stands for a record. -/
theorem validate_eq_ok_iff {c : Circuit} :
    c.validate = .ok () ↔ ∀ t ∈ c.tokens, ∃ r, Record.parse t = .ok r := by
  constructor
  · intro h t ht
    obtain ⟨rs, hrs, -⟩ := map_eq_ok h
    obtain ⟨r, -, hr⟩ := exists_mem_of_forall₂ (gates_eq_ok_iff.1 hrs).flip ht
    exact ⟨r, hr⟩
  · intro h
    have : Nonempty (Record Float) := ⟨⟨.i, [], []⟩⟩
    choose! record hrecord using h
    have hgates : c.gates = .ok (c.tokens.map record) :=
      gates_eq_ok_iff.2 (List.forall₂_map_right_iff.2 (List.forall₂_same.2 hrecord))
    rw [validate, hgates]
    rfl

theorem gates_ofRecords {rs : List (Record Float)} (h : ∀ r ∈ rs, r.Codable) :
    (ofRecords rs).gates = .ok rs := by
  refine gates_eq_ok_iff.2 (List.forall₂_map_left_iff.2 ?_)
  exact List.forall₂_same.2 fun r hr => (h r hr).parse_text

theorem codable_of_gates {c : Circuit} {rs : List (Record Float)} (h : c.gates = .ok rs) :
    ∀ r ∈ rs, r.Codable := by
  intro r hr
  obtain ⟨t, -, ht⟩ := exists_mem_of_forall₂ (gates_eq_ok_iff.1 h) hr
  exact codable_of_parse ht

end Circuit

/-- **The token codec.** A record is read back from its text exactly if it has a qubit, its angles
are finite, and it has angles exactly if its gate is a rotation; every accepted token gives such a
record. So the canonical spelling of a circuit has the same records, and spelling it again changes
nothing. -/
theorem token_codec :
    (∀ r : Record Float, Record.parse r.text = .ok r ↔ r.Codable) ∧
      (∀ (t : String) (r : Record Float), Record.parse t = .ok r → r.Codable) ∧
      ∀ (c : Circuit) (rs : List (Record Float)), c.gates = .ok rs →
        (Circuit.ofRecords rs).gates = .ok rs ∧
          (Circuit.ofRecords rs).gates.map Circuit.ofRecords = .ok (Circuit.ofRecords rs) := by
  refine ⟨fun r => ⟨codable_of_parse, Record.Codable.parse_text⟩, fun t r => codable_of_parse, ?_⟩
  intro c rs h
  have hagain := Circuit.gates_ofRecords (Circuit.codable_of_gates h)
  refine ⟨hagain, ?_⟩
  rw [hagain]
  rfl

theorem token_codec_rotation :
    (Circuit.ofRecords [⟨.rx, [Scalar.pi / Scalar.two], [3]⟩]).gates =
      .ok [⟨.rx, [Scalar.pi / Scalar.two], [3]⟩] :=
  (token_codec.2.2 ⟨["RX(PI/2)(3)"]⟩ _ (by decide +kernel)).1

example : Record.parse "RX(PI/2)(3)" = .ok ⟨.rx, [Scalar.pi / Scalar.two], [3]⟩ := by
  decide +kernel

end CircuitExchange
