import Mathlib
import CircuitExchange.Proofs.Token.Grammar

/-!
What a token shows of its call. The name stands in front of the first bracket and the qubits after
the last one, so both can be told from the token, even if an angle in between has no value and the
token does not parse.

* `Angle.leftParen_notMem_text`: there is no opening bracket in an angle.
* `groupChars_qubits_injective`: a group of qubits is the text of no other group.
* `GateCall.heading_eq_of_token_eq`: a token determines the name and the qubits of its call.
-/

namespace CircuitExchange

open Decimal

/-- The name and the qubits of a record. -/
def Record.heading {α : Type} (r : Record α) : GateName × List Qubit := (r.name, r.qubits)

/-- The name and the qubits of a call. -/
def GateCall.heading {α : Type} (c : GateCall α) : GateName × List Qubit := (c.name, c.qubits)

/-! ### Angles -/

theorem Decimal.AllDigits.leftParen_notMem {ds : List Char} (h : AllDigits ds) : '(' ∉ ds :=
  fun hmem => absurd (h '(' hmem) (by decide)

theorem Decimal.Spelling.WellFormed.leftParen_notMem {sp : Spelling} (h : sp.WellFormed) :
    '(' ∉ sp.chars := by
  have hwhole := h.whole_digits.leftParen_notMem
  have hfraction : '(' ∉ sp.fractionChars := by
    have hdigits := h.fraction_digits.leftParen_notMem
    rw [Spelling.fractionChars]
    split
    · exact List.not_mem_nil
    · rename_i hds
      rw [hds] at hdigits
      exact List.not_mem_cons_of_ne_of_not_mem (by decide) hdigits
  have hexponent : '(' ∉ sp.exponentChars := by
    rw [Spelling.exponentChars]
    split
    · exact List.not_mem_nil
    · rename_i negative ds hds
      have hdigits := (h.exponent_digits _ hds).leftParen_notMem
      cases negative <;> simp [hdigits]
  simp [Spelling.chars, hwhole, hfraction, hexponent]

theorem Decimal.Style.leftParen_notMem_chars {style : Style} (hw : style.wholeDecimal = false)
    (hp : style.exponentPlus = false) (x : Float) : '(' ∉ style.chars x := by
  have hmagnitude : ¬ infinityWord < word x → word x ≠ infinityWord →
      '(' ∉ style.magnitude (word x) := by
    intro hle hne
    obtain ⟨sp, hsp, hchars, -⟩ := exists_spelling hw hp (lt_of_le_of_ne (not_lt.1 hle) hne)
    exact hchars ▸ hsp.leftParen_notMem
  rw [Style.chars]
  split
  · decide
  · rename_i hle
    refine List.not_mem_append ?_ ?_
    · cases isNegative x <;> decide
    · split
      · decide
      · exact hmagnitude hle ‹_›

theorem Angle.leftParen_notMem_text (a : Angle Float) : '(' ∉ a.text.toList := by
  have hvalue : ∀ x, '(' ∉ (angleText x).toList := by
    intro x
    rw [angleText]
    split
    all_goals
      rw [Style.text, String.toList_ofList]
      exact Style.leftParen_notMem_chars rfl rfl x
  cases a with
  | value x => exact hvalue x
  | minusHalfPi x | plusHalfPi x =>
    rw [Angle.text, String.toList_append]
    exact List.not_mem_append (hvalue x) (by decide)
  | pi | twoPi | halfPi => decide

/-! ### Groups -/

theorem leftParen_notMem_intercalate {words : List (List Char)} (h : ∀ w ∈ words, '(' ∉ w) :
    '(' ∉ [',', ' '].intercalate words := by
  induction words with
  | nil => exact List.not_mem_nil
  | cons w words ih =>
    obtain ⟨hw, hwords⟩ := List.forall_mem_cons.1 h
    cases words with
    | nil => rwa [List.intercalate_singleton]
    | cons w' words =>
      rw [List.intercalate_cons_cons, List.append_assoc]
      exact List.not_mem_append hw (List.not_mem_append (by decide) (ih hwords))

/-- The characters of a qubit. -/
def qubitChars (q : Qubit) : List Char := (toString q.toNat).toList

/-- A group of qubits is read back, unless it is empty. -/
theorem exists_lexes_qubits (qs : List Qubit) : ∃ us, Lexes (groupChars qubitChars qs) us ∧
    ∀ ls : List Lexeme, ls.map (·.token) = us →
      (group parseQubit ls).toOption = if qs = [] then none else some (qs, []) := by
  by_cases hqs : qs = []
  · subst hqs
    refine ⟨[.leftParen, .rightParen], .symbol rfl (.symbol rfl .nil), fun ls hls => ?_⟩
    obtain ⟨l, rest, rfl, hl, hrest⟩ := List.map_eq_cons_iff.1 hls
    obtain ⟨r, rfl, hr⟩ := List.map_eq_singleton_iff.1 hrest
    rw [group, expectSymbol_cons hl, ok_bind, commaSeparated_succ, parseQubit, hr]
    rfl
  · obtain ⟨us, hspells, hread⟩ := exists_spells_group reads_qubit hqs
    refine ⟨us, hspells.lexes, fun ls hls => ?_⟩
    have hgroup := hread ls [] hls
    rw [List.append_nil, mapM_some] at hgroup
    rwa [if_neg hqs]

/-- A group of qubits is the text of no other one. -/
theorem groupChars_qubits_injective {qs qs' : List Qubit}
    (h : groupChars qubitChars qs = groupChars qubitChars qs') : qs = qs' := by
  obtain ⟨us, hlexes, hread⟩ := exists_lexes_qubits qs
  obtain ⟨us', hlexes', hread'⟩ := exists_lexes_qubits qs'
  rw [h] at hlexes
  obtain rfl := hlexes.unique hlexes'
  obtain ⟨ls, hls⟩ := exists_lexemes us
  have heq := (hread ls hls).symm.trans (hread' ls hls)
  split at heq <;> split at heq
  · rename_i hqs hqs'
    rw [hqs, hqs']
  · cases heq
  · cases heq
  · exact (Prod.mk.inj (Option.some.inj heq)).1

/-! ### Tokens -/

/-- The groups of a call with this name in a token. -/
def argumentChars (name : GateName) (angles : List (Angle Float)) (qubits : List Qubit) :
    List Char :=
  (if name.isRotation then groupChars (fun a : Angle Float => a.text.toList) angles else []) ++
    groupChars qubitChars qubits

/-- A token is cut between its name and its groups. -/
theorem GateCall.isCut_token (c : GateCall Float) :
    ∃ cs, argumentChars c.name c.angles c.qubits = '(' :: cs ∧
      IsCut c.token.toList c.name.text.toList cs := by
  have htoken : c.token.toList =
      c.name.text.toList ++ argumentChars c.name c.angles c.qubits := by
    rw [token, toList_tokenText, groupChars_map]
    rfl
  obtain ⟨cs, hcs⟩ : ∃ cs, argumentChars c.name c.angles c.qubits = '(' :: cs := by
    rw [argumentChars]
    split <;> exact ⟨_, rfl⟩
  exact ⟨cs, hcs, htoken.trans (congrArg _ hcs), leftParen_notMem_text c.name⟩

/-- The last group of a call has its qubits. -/
theorem qubits_eq_of_argumentChars_eq {name : GateName} {angles angles' : List (Angle Float)}
    {qubits qubits' : List Qubit}
    (h : argumentChars name angles qubits = argumentChars name angles' qubits') :
    qubits = qubits' := by
  have hangles : ∀ angles : List (Angle Float),
      '(' ∉ [',', ' '].intercalate (angles.map fun a => a.text.toList) ++ [')'] := fun angles =>
    List.not_mem_append (leftParen_notMem_intercalate
      (List.forall_mem_map.2 fun a _ => a.leftParen_notMem_text)) (by decide)
  refine groupChars_qubits_injective ?_
  rw [argumentChars, argumentChars] at h
  split at h
  · -- behind the first bracket the angles end at the next one
    have hcut : IsCut _ _ _ := ⟨(List.cons.inj h).2, hangles angles'⟩
    obtain ⟨-, hqubits⟩ := hcut.unique ⟨rfl, hangles angles⟩
    exact congrArg ('(' :: ·) hqubits.symm
  · exact h

/-- **A token determines the name and the qubits of its call.** -/
theorem GateCall.heading_eq_of_token_eq {c c' : GateCall Float} (h : c.token = c'.token) :
    c.heading = c'.heading := by
  obtain ⟨name, angles, qubits⟩ := c
  obtain ⟨name', angles', qubits'⟩ := c'
  obtain ⟨cs, hcs, hcut⟩ := isCut_token ⟨name, angles, qubits⟩
  obtain ⟨cs', hcs', hcut'⟩ := isCut_token ⟨name', angles', qubits'⟩
  rw [h] at hcut
  obtain ⟨hname, rfl⟩ := hcut.unique hcut'
  obtain rfl := GateName.text_injective (String.toList_inj.1 hname)
  obtain rfl := qubits_eq_of_argumentChars_eq (hcs.trans hcs'.symm)
  rfl

/-- Lists of tokens determine the names and the qubits of their calls. -/
theorem map_heading_eq_of_map_token_eq {calls calls' : List (GateCall Float)}
    (h : calls.map GateCall.token = calls'.map GateCall.token) :
    calls.map GateCall.heading = calls'.map GateCall.heading := by
  rw [← List.forall₂_eq_eq_eq, List.forall₂_map_left_iff, List.forall₂_map_right_iff] at h ⊢
  exact h.imp fun _ _ => GateCall.heading_eq_of_token_eq

end CircuitExchange
