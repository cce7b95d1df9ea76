import Mathlib
import CircuitExchange.Proofs.Result
import CircuitExchange.Proofs.Decimal.Spelling
import CircuitExchange.Token.Lexer
import CircuitExchange.Expression.Parser

/-!
Splitting written text into lexical units. `Lexes cs ts` says which units a text consists of,
wherever it starts; one lemma a class of lexemes says how a unit is added in front.

* `tokenize_of_lexes`: the lexemes of such a text are these units.
* `Lexes.magnitude`: a written magnitude is one unit, and an operand of this value.
-/

namespace CircuitExchange

open Decimal

/-- The text consists of the given lexical units, wherever it starts. -/
def Lexes (cs : List Char) (ts : List Token) : Prop :=
  ∀ position, ∃ ls : List Lexeme, lexemes position cs = ls.map .ok ∧ ls.map (·.token) = ts

/-- Any units are those of some lexemes. -/
theorem exists_lexemes (us : List Token) : ∃ ls : List Lexeme, ls.map (·.token) = us :=
  ⟨us.map (⟨·, 0, 0, []⟩), (List.map_map ..).trans (List.map_id us)⟩

/-- The lexemes of a text are its units. -/
theorem tokenize_of_lexes {cs : List Char} {ts : List Token} (h : Lexes cs ts) (position : Nat) :
    ∃ ls : List Lexeme, tokenize position cs = .ok ls ∧ ls.map (·.token) = ts := by
  obtain ⟨ls, hls, hts⟩ := h position
  refine ⟨ls, ?_, hts⟩
  rw [tokenize, hls, mapM_eq_ok_iff, List.forall₂_map_left_iff]
  exact List.forall₂_same.2 fun _ _ => rfl

/-- Where a text starts makes no difference to its units. -/
theorem lexes_of_lexemes {position : Nat} {cs : List Char} {ls : List Lexeme}
    (h : lexemes position cs = ls.map .ok) : Lexes cs (ls.map (·.token)) := by
  induction position, cs using lexemes.induct generalizing ls with
  | case1 =>
    rw [lexemes] at h
    obtain rfl := List.map_eq_nil_iff.1 h.symm
    exact fun _ => ⟨[], by simp [lexemes], rfl⟩
  | case2 position c rest hskip ih =>
    rw [lexemes, if_pos hskip] at h
    intro start
    obtain ⟨ls', hls', htokens⟩ := ih h (start + c.utf8Size)
    exact ⟨ls', by rw [lexemes, if_pos hskip, hls'], htokens⟩
  | case3 position c rest hskip kind n hlongest text stop =>
    rename_i ih
    rw [lexemes, if_neg hskip] at h
    simp only [hlongest] at h
    obtain ⟨l, ls, rfl, hl, hls⟩ := List.map_eq_cons_iff.1 h.symm
    obtain rfl := Except.ok.inj hl
    intro start
    obtain ⟨ls', hls', htokens⟩ := ih hls.symm (start + byteLength text)
    refine ⟨⟨kind.token text, start, start + byteLength text, c :: rest⟩ :: ls', ?_, ?_⟩
    · rw [lexemes, if_neg hskip]
      simp only [hlongest, List.map_cons]
      rw [← hls']
    · rw [List.map_cons, List.map_cons, htokens]
  | case4 position c rest hskip hlongest ih =>
    rw [lexemes, if_neg hskip] at h
    simp only [hlongest] at h
    obtain ⟨l, ls, rfl, hl, -⟩ := List.map_eq_cons_iff.1 h.symm
    cases hl

theorem lexemes_of_tokenize {position : Nat} {cs : List Char} {ls : List Lexeme}
    (h : tokenize position cs = .ok ls) : lexemes position cs = ls.map .ok := by
  rw [tokenize, mapM_eq_ok_iff] at h
  exact List.forall₂_eq_eq_eq ▸ List.forall₂_map_right_iff.2 h

/-- A text that is split into lexemes consists of their units. -/
theorem lexes_of_tokenize {position : Nat} {cs : List Char} {ls : List Lexeme}
    (h : tokenize position cs = .ok ls) : Lexes cs (ls.map (·.token)) :=
  lexes_of_lexemes (lexemes_of_tokenize h)

namespace Lexes

variable {c : Char} {cs : List Char} {ts : List Token} {kind : LexemeClass} {n : Nat}

theorem nil : Lexes [] [] := fun position => ⟨[], by simp [lexemes], rfl⟩

theorem nil_iff : Lexes [] ts ↔ ts = [] := by
  constructor
  · intro h
    obtain ⟨ls, hls, rfl⟩ := h 0
    rw [lexemes] at hls
    rw [List.map_eq_nil_iff.1 hls.symm, List.map_nil]
  · rintro rfl
    exact nil

/-- A text has one list of units. -/
theorem unique {us : List Token} (h : Lexes cs ts) (h' : Lexes cs us) : ts = us := by
  obtain ⟨ls, hls, rfl⟩ := h 0
  obtain ⟨ls', hls', rfl⟩ := h' 0
  have hinjective : Function.Injective (Except.ok : Lexeme → Except StrayChar Lexeme) :=
    fun _ _ => Except.ok.inj
  rw [List.map_injective_iff.2 hinjective (hls.symm.trans hls')]

theorem skip_iff (hc : isSkipped c) : Lexes (c :: cs) ts ↔ Lexes cs ts := by
  constructor
  · intro h
    obtain ⟨ls, hls, rfl⟩ := h 0
    rw [lexemes, if_pos hc] at hls
    exact lexes_of_lexemes hls
  · intro h position
    obtain ⟨ls, hls, hts⟩ := h (position + c.utf8Size)
    exact ⟨ls, by rw [lexemes, if_pos hc, hls], hts⟩

theorem skip (hc : isSkipped c) (h : Lexes cs ts) : Lexes (c :: cs) ts := (skip_iff hc).2 h

/-- The longest lexeme at the start of a text is its first unit. -/
theorem cons_iff (hc : isSkipped c = false) (hlongest : longestLexeme? (c :: cs) = some (kind, n)) :
    Lexes (c :: cs) ts ↔
      ∃ us, ts = kind.token ((c :: cs).take n) :: us ∧ Lexes (cs.drop (n - 1)) us := by
  have hlexemes : ∀ position, lexemes position (c :: cs) =
      .ok ⟨kind.token ((c :: cs).take n), position,
          position + byteLength ((c :: cs).take n), c :: cs⟩ ::
        lexemes (position + byteLength ((c :: cs).take n)) (cs.drop (n - 1)) := by
    intro position
    rw [lexemes, if_neg (by simp [hc])]
    simp only [hlongest]
  constructor
  · intro h
    obtain ⟨ls, hls, rfl⟩ := h 0
    rw [hlexemes] at hls
    obtain ⟨l, ls, rfl, hl, hrest⟩ := List.map_eq_cons_iff.1 hls.symm
    obtain rfl := Except.ok.inj hl
    exact ⟨_, List.map_cons, lexes_of_lexemes hrest.symm⟩
  · rintro ⟨us, rfl, h⟩ position
    obtain ⟨ls, hls, rfl⟩ := h (position + byteLength ((c :: cs).take n))
    exact ⟨_ :: ls, by rw [hlexemes, hls, List.map_cons], List.map_cons⟩

/-- No text of units has a character that starts no lexeme. -/
theorem ne_none (hc : isSkipped c = false) (h : Lexes (c :: cs) ts) :
    longestLexeme? (c :: cs) ≠ none := by
  intro hnone
  obtain ⟨ls, hls, -⟩ := h 0
  rw [lexemes, if_neg (by simp [hc])] at hls
  simp only [hnone] at hls
  obtain ⟨l, ls, rfl, hl, -⟩ := List.map_eq_cons_iff.1 hls.symm
  cases hl

theorem lexeme {w : List Char} (hc : isSkipped c = false)
    (hlongest : longestLexeme? (c :: w ++ cs) = some (kind, (c :: w).length))
    (h : Lexes cs ts) : Lexes (c :: w ++ cs) (kind.token (c :: w) :: ts) := by
  have htake : (c :: (w ++ cs)).take (c :: w).length = c :: w :=
    @List.take_left _ (c :: w) cs
  have hdrop : (w ++ cs).drop ((c :: w).length - 1) = cs := List.drop_left
  rw [List.cons_append] at hlongest ⊢
  exact (cons_iff hc hlongest).2 ⟨ts, by rw [htake], by rwa [hdrop]⟩

end Lexes

/-! ### Lengths of lexemes -/

/-- What ends a written number: a separator, a bracket, an operator or nothing. -/
def Delimited (cs : List Char) : Prop := ∀ c ∈ cs.head?, c ∈ [',', '(', ')', ' ', '*', '/']

theorem delimited_cons {c : Char} (cs : List Char)
    (h : c ∈ [',', '(', ')', ' ', '*', '/'] := by decide) : Delimited (c :: cs) := by
  rintro _ ⟨⟩
  exact h

theorem Delimited.noDigitHead {cs : List Char} (h : Delimited cs) : NoDigitHead cs := fun c hc => by
  have := h c hc
  simp only [List.mem_cons, List.not_mem_nil, or_false] at this
  rcases this with rfl | rfl | rfl | rfl | rfl | rfl <;> rfl

theorem isDigit_eq_ofNat {c : Char} (h : c.isDigit) : ∃ n < 10, c = Char.ofNat (48 + n) := by
  have h0 : 48 ≤ c.toNat := by
    simp only [Char.isDigit, Bool.and_eq_true, decide_eq_true_eq] at h
    exact h.1
  have h9 : c.toNat ≤ 57 := by
    simp only [Char.isDigit, Bool.and_eq_true, decide_eq_true_eq] at h
    exact h.2
  refine ⟨c.toNat - 48, by omega, ?_⟩
  rw [show 48 + (c.toNat - 48) = c.toNat by omega, Char.ofNat_toNat]

/-- A decimal digit belongs to no other class of characters. -/
theorem class_of_isDigit {c : Char} (h : c.isDigit) :
    isSkipped c = false ∧ LexemeClass.isIdentifierStart c = false ∧ Token.ofSymbol? c = none ∧
      c ≠ 'π' ∧ c ≠ 'p' ∧ c ≠ 'P' ∧ c ≠ '.' := by
  obtain ⟨n, hn, rfl⟩ := isDigit_eq_ofNat h
  interval_cases n <;> decide

namespace LexemeClass

theorem digitRun_append {ds rest : List Char} (hd : AllDigits ds) (hr : NoDigitHead rest) :
    digitRun (ds ++ rest) = ds.length := by
  have hspan := spanDigits_append hd hr
  rw [Numeral.spanDigits, List.span_eq_takeWhile_dropWhile, Prod.mk.injEq] at hspan
  rw [digitRun, hspan.1]

theorem exponentLength_of_delimited {cs : List Char} (h : Delimited cs) :
    exponentLength cs = 0 := by
  cases cs with
  | nil => rfl
  | cons c cs =>
    have := h c rfl
    simp only [List.mem_cons, List.not_mem_nil, or_false] at this
    rcases this with rfl | rfl | rfl | rfl | rfl | rfl <;> rfl

theorem exponentLength_chars {sp : Spelling} (h : sp.WellFormed) {rest : List Char}
    (hr : Delimited rest) :
    exponentLength (sp.exponentChars ++ rest) = sp.exponentChars.length := by
  unfold Spelling.exponentChars
  cases he : sp.exponent with
  | none => exact exponentLength_of_delimited hr
  | some e =>
    obtain ⟨negative, ds⟩ := e
    have hne : ds.length ≠ 0 := by simpa using h.exponent_ne _ he
    have hrun := digitRun_append (h.exponent_digits _ he) hr.noDigitHead
    cases negative with
    | true =>
      simp [exponentLength, hrun, hne]
      omega
    | false =>
      -- no digit is taken for a sign
      obtain ⟨d, ds', rfl⟩ := List.exists_cons_of_ne_nil (h.exponent_ne _ he)
      have hdigit : d.isDigit := h.exponent_digits _ he d (List.mem_cons_self ..)
      have hminus : d ≠ '-' := by rintro rfl; simp at hdigit
      have hplus : d ≠ '+' := by rintro rfl; simp at hdigit
      rw [List.cons_append] at hrun
      simp [exponentLength, hrun, hminus, hplus]
      omega

theorem decimalLength_point {ds : List Char} (hd : AllDigits ds) (rest : List Char) :
    decimalLength (ds ++ '.' :: rest) =
      if ds.length = 0 ∧ digitRun rest = 0 then 0
      else ds.length + 1 + digitRun rest + exponentLength (rest.drop (digitRun rest)) := by
  have hhead : NoDigitHead ('.' :: rest) := by
    rintro _ ⟨⟩
    rfl
  simp only [decimalLength, digitRun_append hd hhead, List.drop_left]

theorem decimalLength_no_point {ds rest : List Char} (hd : AllDigits ds) (hr : NoDigitHead rest)
    (hpoint : rest.head? ≠ some '.') :
    decimalLength (ds ++ rest) =
      if ds.length = 0 ∨ exponentLength rest = 0 then 0 else ds.length + exponentLength rest := by
  simp only [decimalLength, digitRun_append hd hr, List.drop_left]
  split
  · simp at hpoint
  · rfl

/-- A spelling with a point or an exponent is a decimal number. -/
theorem decimalLength_chars {sp : Spelling} (h : sp.WellFormed) {rest : List Char}
    (hr : Delimited rest) (hlong : sp.fraction ≠ [] ∨ sp.exponent ≠ none) :
    decimalLength (sp.chars ++ rest) = sp.chars.length := by
  have hexp := exponentLength_chars h hr
  have hwhole : sp.whole.length ≠ 0 := by simpa using h.whole_ne
  have hnodigit := sp.noDigitHead_exponentChars_append hr.noDigitHead
  rw [Spelling.chars, List.append_assoc, List.append_assoc]
  cases hf : sp.fraction with
  | nil =>
    obtain ⟨e, he⟩ := Option.ne_none_iff_exists'.1 (hlong.resolve_left (fun hne => hne hf))
    have hchars : sp.fractionChars = [] := by rw [Spelling.fractionChars, hf]
    have hlength : sp.exponentChars.length ≠ 0 := by simp [Spelling.exponentChars, he]
    have hpoint : (sp.exponentChars ++ rest).head? ≠ some '.' := by
      simp [Spelling.exponentChars, he]
    rw [hchars, List.nil_append, List.append_nil,
      decimalLength_no_point h.whole_digits hnodigit hpoint, hexp, if_neg (by omega),
      List.length_append]
  | cons d ds =>
    have hfraction := h.fraction_digits
    rw [hf] at hfraction
    have hchars : sp.fractionChars = '.' :: (d :: ds) := by rw [Spelling.fractionChars, hf]
    rw [hchars, List.cons_append, decimalLength_point h.whole_digits,
      digitRun_append hfraction hnodigit, List.drop_left, hexp, if_neg (by omega)]
    simp only [List.length_append, List.length_cons]
    omega

/-- Digits alone are no decimal number. -/
theorem decimalLength_digits {ds rest : List Char} (hd : AllDigits ds) (hr : Delimited rest) :
    decimalLength (ds ++ rest) = 0 := by
  have hpoint : rest.head? ≠ some '.' := fun h => by
    have := hr '.' h
    simp at this
  rw [decimalLength_no_point hd hr.noDigitHead hpoint, exponentLength_of_delimited hr,
    if_pos (.inr rfl)]

/-- A text that starts with a digit starts with a decimal number or an integer. -/
theorem longestLexeme?_of_isDigit {c : Char} (hc : c.isDigit) (cs : List Char) :
    longestLexeme? (c :: cs) =
      if decimalLength (c :: cs) < digitRun (c :: cs) then
        some (.integer, digitRun (c :: cs))
      else some (.decimal, decimalLength (c :: cs)) := by
  obtain ⟨-, hident, hsymbol, hpi, hp, hP, -⟩ := class_of_isDigit hc
  have hpiLength : piLength (c :: cs) = 0 := by
    cases cs with
    | nil => simp [piLength, hpi]
    | cons d cs => simp [piLength, hp, hP]
  have hidentLength : identifierLength (c :: cs) = 0 := by simp [identifierLength, hident]
  have hsymbolLength : symbolLength (c :: cs) = 0 := by simp [symbolLength, hsymbol]
  have hrun : 0 < digitRun (c :: cs) := by simp [digitRun, hc]
  simp only [longestLexeme?, all, LexemeClass.length, List.foldl_cons, List.foldl_nil, hpiLength,
    hidentLength, hsymbolLength]
  by_cases hdecimal : 0 < decimalLength (c :: cs)
  · by_cases hlt : decimalLength (c :: cs) < digitRun (c :: cs)
    · simp [hdecimal, hlt]
    · simp [hdecimal, hlt]
  · obtain hzero : decimalLength (c :: cs) = 0 := by omega
    simp [hzero, hrun]

end LexemeClass

/-! ### Units -/

theorem Lexes.symbol {c : Char} {t : Token} {cs : List Char} {ts : List Token}
    (hc : Token.ofSymbol? c = some t) (h : Lexes cs ts) : Lexes (c :: cs) (t :: ts) := by
  have hmem : c ∈ ['+', '-', '*', '/', '(', ')', ','] := by
    unfold Token.ofSymbol? at hc
    split at hc <;> simp at hc ⊢
  have hclass : isSkipped c = false ∧ c.isDigit = false ∧ c ≠ '.' ∧ c ≠ 'π' ∧ c ≠ 'p' ∧ c ≠ 'P' ∧
      LexemeClass.isIdentifierStart c = false := by
    simp only [List.mem_cons, List.not_mem_nil, or_false] at hmem
    rcases hmem with rfl | rfl | rfl | rfl | rfl | rfl | rfl <;> decide
  obtain ⟨hskip, hdigit, hpoint, hpi, hp, hP, hident⟩ := hclass
  have hpiLength : LexemeClass.piLength (c :: cs) = 0 := by
    cases cs <;> simp [LexemeClass.piLength, hpi, hp, hP]
  have hrun : LexemeClass.digitRun (c :: cs) = 0 := by simp [LexemeClass.digitRun, hdigit]
  have hdecimal : LexemeClass.decimalLength (c :: cs) = 0 := by
    unfold LexemeClass.decimalLength
    simp [hrun, hpoint]
  have hlongest : longestLexeme? ([c] ++ cs) = some (.symbol, [c].length) := by
    simp [longestLexeme?, LexemeClass.all, LexemeClass.length, hpiLength, hdecimal, hrun,
      LexemeClass.identifierLength, hident, LexemeClass.symbolLength, hc]
  have := Lexes.lexeme (w := []) hskip hlongest h
  simpa [LexemeClass.token, hc] using this

/-- The text spells the given units wherever a delimiter follows. -/
def Spells (w : List Char) (us : List Token) : Prop :=
  ∀ cs ts, Delimited cs → Lexes cs ts → Lexes (w ++ cs) (us ++ ts)

/-- The unit is an operand by itself: a number of this value or a rounded integer. -/
def Token.IsOperand (t : Token) (x : Float) : Prop :=
  t = .number x ∨ ∃ v, t = .integer v ∧ integerValue v = x

namespace Spells

/-- The units of a text with nothing after it. -/
theorem lexes {w : List Char} {us : List Token} (h : Spells w us) : Lexes w us := by
  have hend := h [] [] nofun .nil
  rwa [List.append_nil, List.append_nil] at hend

/-- A symbol in front of a text is one more unit. -/
theorem symbol {c : Char} {t : Token} {w : List Char} {us : List Token}
    (hc : Token.ofSymbol? c = some t) (h : Spells w us) : Spells (c :: w) (t :: us) :=
  fun cs ts hcs hlex => Lexes.symbol hc (h cs ts hcs hlex)

/-- A blank in front of a text changes nothing. -/
theorem skip {c : Char} {w : List Char} {us : List Token} (hc : isSkipped c)
    (h : Spells w us) : Spells (c :: w) us := fun cs ts hcs hlex =>
  Lexes.skip hc (h cs ts hcs hlex)

theorem append {w w' : List Char} {us us' : List Token} (h : Spells w us)
    (hw' : w' ≠ []) (hd : Delimited w') (h' : Spells w' us') : Spells (w ++ w') (us ++ us') := by
  intro cs ts hcs hlex
  obtain ⟨c, cs', rfl⟩ := List.exists_cons_of_ne_nil hw'
  rw [List.append_assoc, List.append_assoc]
  exact h _ _ (fun d hdc => hd d (by simpa using hdc)) (h' cs ts hcs hlex)

theorem digits_eq {ds cs : List Char} (hd : AllDigits ds) (hne : ds ≠ []) (hcs : Delimited cs) :
    longestLexeme? (ds ++ cs) = some (.integer, ds.length) := by
  obtain ⟨d, ds, rfl⟩ := List.exists_cons_of_ne_nil hne
  have hdigit : d.isDigit := hd d (List.mem_cons_self ..)
  have hrun := LexemeClass.digitRun_append hd hcs.noDigitHead
  have hdecimal := LexemeClass.decimalLength_digits hd hcs
  rw [List.cons_append] at hrun hdecimal ⊢
  rw [LexemeClass.longestLexeme?_of_isDigit hdigit, hrun, hdecimal, if_pos (by simp)]

/-- Digits are one unit. -/
theorem digits {ds : List Char} (hd : AllDigits ds) (hne : ds ≠ []) :
    Spells ds [LexemeClass.integer.token ds] := by
  intro cs ts hcs hlex
  have hlongest := digits_eq hd hne hcs
  obtain ⟨d, ds, rfl⟩ := List.exists_cons_of_ne_nil hne
  exact Lexes.lexeme (class_of_isDigit (hd d (List.mem_cons_self ..))).1 hlongest hlex

/-- The digits of a number of 64 bits are one integer. -/
theorem natural {n : Nat} (hn : n < UInt64.size) :
    Spells (Decimal.digits n) [.integer (.ofNat n)] := by
  have h := digits (allDigits_digits n) Nat.toDigits_ne_nil
  rwa [LexemeClass.token, ofDigits_digits, if_pos hn] at h

/-- A spelled number is one unit, and an operand of the number it stands for. -/
theorem spelling {sp : Spelling} (hsp : sp.WellFormed) :
    ∃ t : Token, t.IsOperand (Numeral.toFloat false sp.numeral) ∧ Spells sp.chars [t] := by
  have hread : LexemeClass.numberOf sp.chars = Numeral.toFloat false sp.numeral := by
    rw [LexemeClass.numberOf, Spelling.read?_chars hsp]
    rfl
  by_cases hlong : sp.fraction ≠ [] ∨ sp.exponent ≠ none
  · refine ⟨.number (Numeral.toFloat false sp.numeral), .inl rfl, ?_⟩
    intro cs ts hcs hlex
    obtain ⟨d, ds, hwhole⟩ := List.exists_cons_of_ne_nil hsp.whole_ne
    have hdigit : d.isDigit := hsp.whole_digits d (hwhole ▸ List.mem_cons_self ..)
    obtain ⟨w, hw⟩ : ∃ w, sp.chars = d :: w := ⟨_, by rw [Spelling.chars, hwhole]; rfl⟩
    have hdecimal := LexemeClass.decimalLength_chars hsp hcs hlong
    have hrun : LexemeClass.digitRun (sp.chars ++ cs) ≤ sp.chars.length := by
      rw [Spelling.chars, List.append_assoc, List.append_assoc,
        LexemeClass.digitRun_append hsp.whole_digits
          (sp.noDigitHead_fractionChars_append hcs.noDigitHead)]
      simp
    have hlongest : longestLexeme? (sp.chars ++ cs) = some (.decimal, sp.chars.length) := by
      rw [hw, List.cons_append] at *
      rw [LexemeClass.longestLexeme?_of_isDigit hdigit, hdecimal, if_neg (by omega)]
    rw [← hread]
    rw [hw] at hlongest ⊢
    exact Lexes.lexeme (class_of_isDigit hdigit).1 hlongest hlex
  · obtain ⟨hfraction, hexponent⟩ : sp.fraction = [] ∧ sp.exponent = none := by
      simpa [not_or] using hlong
    have hchars : sp.chars = sp.whole := by
      simp [Spelling.chars, Spelling.fractionChars, Spelling.exponentChars, hfraction, hexponent]
    have hnumeral : sp.numeral = ⟨ofDigits sp.chars, 0⟩ := by
      simp [Spelling.numeral, Spelling.exponentValue, hchars, hfraction, hexponent]
    refine ⟨LexemeClass.integer.token sp.chars, ?_,
      digits (hchars ▸ hsp.whole_digits) (hchars ▸ hsp.whole_ne)⟩
    simp only [LexemeClass.token]
    split
    · refine .inr ⟨_, rfl, ?_⟩
      rw [integerValue, UInt64.toNat_ofNat_of_lt' ‹_›, hnumeral]
    · rw [hread]
      exact .inl rfl

/-- A written magnitude is one unit, and an operand of this magnitude. -/
theorem magnitude {style : Style} (hw : style.wholeDecimal = false)
    (hp : style.exponentPlus = false) {k : Nat} (hk : k < infinityWord) :
    ∃ t : Token, t.IsOperand (ofWord false k) ∧ Spells (style.magnitude k) [t] := by
  obtain ⟨sp, hsp, hchars, hnearest⟩ := exists_spelling hw hp hk
  obtain ⟨t, ht, hspells⟩ := spelling hsp
  rw [Numeral.toFloat, hnearest] at ht
  exact ⟨t, ht, hchars ▸ hspells⟩

/-- What ends a number ends a name as well. -/
theorem takeWhile_isIdentifierRest {cs : List Char} (hcs : Delimited cs) :
    cs.takeWhile LexemeClass.isIdentifierRest = [] := by
  cases cs with
  | nil => rfl
  | cons c cs =>
    have := hcs c rfl
    simp only [List.mem_cons, List.not_mem_nil, or_false] at this
    rcases this with rfl | rfl | rfl | rfl | rfl | rfl <;> rfl

/-- The name of π is one unit, although it is an identifier as well. -/
theorem pi : Spells ['P', 'I'] [.pi] := by
  intro cs ts hcs hlex
  have hident : LexemeClass.identifierLength ('P' :: 'I' :: cs) = 2 := by
    simp [LexemeClass.identifierLength, LexemeClass.isIdentifierStart, LexemeClass.isIdentifierRest,
      takeWhile_isIdentifierRest hcs]
  have hlongest : longestLexeme? ('P' :: ['I'] ++ cs) = some (.pi, ['P', 'I'].length) := by
    simp [longestLexeme?, LexemeClass.all, LexemeClass.length, hident, LexemeClass.piLength,
      LexemeClass.decimalLength, LexemeClass.digitRun, LexemeClass.exponentLength,
      LexemeClass.symbolLength, Token.ofSymbol?]
  exact Lexes.lexeme (by decide) hlongest hlex

/-- The names of values that are not finite are identifiers. -/
theorem name {w : List Char} (hw : w = ['i', 'n', 'f'] ∨ w = ['N', 'a', 'N']) :
    Spells w [.identifier (String.ofList w)] := by
  intro cs ts hcs hlex
  have hlength : ∀ c d e : Char, LexemeClass.isIdentifierStart c →
      LexemeClass.isIdentifierRest d → LexemeClass.isIdentifierRest e →
      LexemeClass.identifierLength (c :: d :: e :: cs) = 3 := fun c d e hc hd he => by
    simp [LexemeClass.identifierLength, hc, hd, he, takeWhile_isIdentifierRest hcs]
  rcases hw with rfl | rfl
  · have hident := hlength 'i' 'n' 'f' (by decide) (by decide) (by decide)
    have hlongest : longestLexeme? ('i' :: ['n', 'f'] ++ cs) =
        some (.identifier, ['i', 'n', 'f'].length) := by
      simp [longestLexeme?, LexemeClass.all, LexemeClass.length, hident, LexemeClass.piLength,
        LexemeClass.decimalLength, LexemeClass.digitRun, LexemeClass.exponentLength,
        LexemeClass.symbolLength, Token.ofSymbol?]
    exact Lexes.lexeme (by decide) hlongest hlex
  · have hident := hlength 'N' 'a' 'N' (by decide) (by decide) (by decide)
    have hlongest : longestLexeme? ('N' :: ['a', 'N'] ++ cs) =
        some (.identifier, ['N', 'a', 'N'].length) := by
      simp [longestLexeme?, LexemeClass.all, LexemeClass.length, hident, LexemeClass.piLength,
        LexemeClass.decimalLength, LexemeClass.digitRun, LexemeClass.exponentLength,
        LexemeClass.symbolLength, Token.ofSymbol?]
    exact Lexes.lexeme (by decide) hlongest hlex

end Spells

end CircuitExchange
