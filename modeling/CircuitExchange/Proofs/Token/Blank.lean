import Mathlib
import CircuitExchange.Proofs.Token.Grammar

/-!
Blank characters in tokens. No lexeme contains a blank character, so a blank splits a text into two
that are read by themselves; those the splitting skips may stand anywhere between lexemes, others
only around the name. A token is read as before without the blanks around it, and no token goes on
after a blank where it could have ended.

* `longestLexeme?_append_blank`: lexemes end in front of a blank.
* `Lexes.split`: a blank splits the units of a text.
* `Record.IsWritten.trim`: tokens without the blanks around them.
* `Record.IsWritten.blank_of_append`: what follows a token after a blank is blank.
-/

namespace CircuitExchange

open Text Decimal

/-! ### Blank characters -/

/-- The characters with a meaning of their own in lexemes. -/
def lexemeChars : List Char :=
  ['π', 'p', 'P', 'i', 'I', 'e', 'E', '.', '+', '-', '*', '/', '(', ')', ',', '_']

theorem notMem_lexemeChars {c : Char} (h : isBlank c) : c ∉ lexemeChars := by
  have hapart : ∀ d ∈ whiteSpace, d ∉ lexemeChars := by simp [whiteSpace, lexemeChars]
  exact hapart c (isBlank_iff.1 h)

/-- A blank character is neither a letter nor a digit. -/
theorem isAlphanum_of_isBlank {c : Char} (h : isBlank c) : c.isAlphanum = false := by
  have hapart : ∀ d ∈ whiteSpace, d.isAlphanum = false := by simp [whiteSpace]
  exact hapart c (isBlank_iff.1 h)

theorem isDigit_of_isBlank {c : Char} (h : isBlank c) : c.isDigit = false := by
  have halphanum := isAlphanum_of_isBlank h
  rw [Char.isAlphanum, Bool.or_eq_false_iff] at halphanum
  exact halphanum.2

theorem isBlank_of_isSkipped {c : Char} (h : isSkipped c) : isBlank c := by
  simp only [isSkipped, Bool.or_eq_true, beq_iff_eq] at h
  rcases h with ((rfl | rfl) | rfl) | rfl <;> decide

/-! ### Lexemes in front of a blank -/

namespace LexemeClass

variable {c : Char} (hc : isBlank c) (cs more : List Char)

theorem digitRun_le : digitRun cs ≤ cs.length := (List.takeWhile_sublist _).length_le

theorem exponentLength_le : exponentLength cs ≤ cs.length := by
  cases cs with
  | nil => exact Nat.le_refl _
  | cons d cs =>
    simp only [exponentLength, List.length_cons]
    generalize (if cs.head? = some '+' ∨ cs.head? = some '-' then 1 else 0) = sign
    have hrun := digitRun_le (cs.drop sign)
    rw [List.length_drop] at hrun
    split
    · split <;> omega
    · omega

theorem decimalLength_le : decimalLength cs ≤ cs.length := by
  have hrun := digitRun_le cs
  have hlength : (cs.drop (digitRun cs)).length = cs.length - digitRun cs := List.length_drop
  rw [decimalLength]
  split
  · rename_i rest hrest
    rw [hrest, List.length_cons] at hlength
    have hfraction := digitRun_le rest
    have hexponent := exponentLength_le (rest.drop (digitRun rest))
    rw [List.length_drop] at hexponent
    dsimp only
    split <;> omega
  · have hexponent := exponentLength_le (cs.drop (digitRun cs))
    dsimp only
    split <;> omega

theorem length_le (kind : LexemeClass) : kind.length cs ≤ cs.length := by
  cases kind with
  | pi =>
    rw [length]
    unfold piLength
    split
    · simp
    · split <;> simp
    · exact Nat.zero_le _
  | decimal => exact decimalLength_le cs
  | integer => exact digitRun_le cs
  | identifier =>
    cases cs with
    | nil => exact Nat.le_refl _
    | cons d cs =>
      have hrun : (cs.takeWhile isIdentifierRest).length ≤ cs.length :=
        (List.takeWhile_sublist _).length_le
      rw [length, identifierLength, List.length_cons]
      split <;> omega
  | symbol =>
    cases cs with
    | nil => exact Nat.le_refl _
    | cons d cs =>
      rw [length, symbolLength, List.length_cons]
      split <;> omega

include hc

theorem digitRun_append_blank : digitRun (cs ++ c :: more) = digitRun cs := by
  rw [digitRun, digitRun, takeWhile_append_cons (isDigit_of_isBlank hc)]

theorem exponentLength_append_blank :
    exponentLength (cs ++ c :: more) = exponentLength cs := by
  have hchars := notMem_lexemeChars hc
  simp only [lexemeChars, List.mem_cons, not_or] at hchars
  cases cs with
  | nil => simp [exponentLength, hchars]
  | cons d cs =>
    have hhead : ((cs ++ c :: more).head? = some '+' ∨ (cs ++ c :: more).head? = some '-') ↔
        (cs.head? = some '+' ∨ cs.head? = some '-') := by
      cases cs <;> simp [hchars]
    have hdrop : (cs ++ c :: more).drop
        (if cs.head? = some '+' ∨ cs.head? = some '-' then 1 else 0) =
          cs.drop (if cs.head? = some '+' ∨ cs.head? = some '-' then 1 else 0) ++ c :: more := by
      cases cs with
      | nil => simp
      | cons s cs => split <;> rfl
    rw [List.cons_append, exponentLength, exponentLength]
    simp only [hhead, hdrop, digitRun_append_blank hc]

theorem decimalLength_append_blank : decimalLength (cs ++ c :: more) = decimalLength cs := by
  have hchars := notMem_lexemeChars hc
  simp only [lexemeChars, List.mem_cons, not_or] at hchars
  obtain ⟨ds, rest, rfl, hds, hrest⟩ := exists_digits cs
  have hrest' : NoDigitHead (rest ++ c :: more) := by
    cases rest with
    | nil =>
      rintro _ ⟨⟩
      exact isDigit_of_isBlank hc
    | cons d rest => exact hrest
  by_cases hpoint : rest.head? = some '.'
  · obtain ⟨rest, rfl⟩ := List.head?_eq_some_iff.1 hpoint
    have hdrop : (rest ++ c :: more).drop (digitRun rest) =
        rest.drop (digitRun rest) ++ c :: more := List.drop_append_of_le_length (digitRun_le rest)
    rw [List.append_assoc, List.cons_append, decimalLength_point hds, decimalLength_point hds,
      digitRun_append_blank hc, hdrop, exponentLength_append_blank hc]
  · have hpoint' : (rest ++ c :: more).head? ≠ some '.' := by
      cases rest with
      | nil => simp [hchars]
      | cons d rest => exact hpoint
    rw [List.append_assoc, decimalLength_no_point hds hrest' hpoint',
      decimalLength_no_point hds hrest hpoint, exponentLength_append_blank hc]

theorem length_append_blank (kind : LexemeClass) :
    kind.length (cs ++ c :: more) = kind.length cs := by
  have hchars := notMem_lexemeChars hc
  have halphanum := isAlphanum_of_isBlank hc
  simp only [lexemeChars, List.mem_cons, not_or] at hchars
  have hrest : isIdentifierRest c = false := by simp [isIdentifierRest, halphanum, hchars]
  have hstart : isIdentifierStart c = false := by
    simp_all [isIdentifierStart, Char.isAlphanum]
  have hsymbol : Token.ofSymbol? c = none := by
    unfold Token.ofSymbol?
    split <;> simp_all
  cases kind with
  | pi =>
    rw [length]
    obtain _ | ⟨d, _ | ⟨e, cs⟩⟩ := cs
    · cases more <;> simp [piLength, hchars]
    · by_cases hd : d = 'π'
      · rw [hd]
        rfl
      · simp [piLength, hd, hchars]
    · by_cases hd : d = 'π'
      · rw [hd]
        rfl
      · simp [piLength]
  | decimal => exact decimalLength_append_blank hc cs more
  | integer => exact digitRun_append_blank hc cs more
  | identifier =>
    cases cs with
    | nil => simp [length, identifierLength, hstart]
    | cons d cs =>
      rw [List.cons_append, length, identifierLength, identifierLength, takeWhile_append_cons hrest]
  | symbol =>
    cases cs with
    | nil => simp [length, symbolLength, hsymbol]
    | cons d cs => rfl

end LexemeClass

/-- The longest lexeme has the length that its class gives. -/
theorem longestLexeme?_eq_some {cs : List Char} {kind : LexemeClass} {n : Nat}
    (h : longestLexeme? cs = some (kind, n)) : n = kind.length cs ∧ 0 < n := by
  have hstep : ∀ (kinds : List LexemeClass) (best : Option (LexemeClass × Nat)),
      (∀ k m, best = some (k, m) → m = k.length cs ∧ 0 < m) →
      ∀ k m, kinds.foldl (fun best kind =>
        let n := kind.length cs
        if (best.map (·.2)).getD 0 < n then some (kind, n) else best) best = some (k, m) →
      m = k.length cs ∧ 0 < m := by
    intro kinds
    induction kinds with
    | nil => exact fun _ h => h
    | cons kind kinds ih =>
      intro best hbest
      refine ih _ fun k m hkm => ?_
      dsimp only at hkm
      split at hkm
      · obtain ⟨rfl, rfl⟩ := Prod.mk.inj (Option.some.inj hkm)
        exact ⟨rfl, by omega⟩
      · exact hbest k m hkm
  exact hstep _ none nofun kind n h

theorem longestLexeme?_append_blank {c : Char} (hc : isBlank c) (cs more : List Char) :
    longestLexeme? (cs ++ c :: more) = longestLexeme? cs := by
  simp only [longestLexeme?, LexemeClass.length_append_blank hc]

/-! ### Texts with blanks -/

namespace Lexes

variable {c : Char} {cs more : List Char} {ts : List Token}

/-- **A blank splits the units of a text** into those before and those after it. -/
theorem split (hc : isBlank c) (h : Lexes (cs ++ c :: more) ts) :
    ∃ us vs, ts = us ++ vs ∧ Lexes cs us ∧ isSkipped c ∧ Lexes more vs := by
  induction hlength : cs.length using Nat.strong_induction_on generalizing cs ts with
  | _ length ih =>
    have hlocal := longestLexeme?_append_blank hc cs more
    cases cs with
    | nil =>
      by_cases hskip : isSkipped c
      · exact ⟨[], ts, rfl, nil, hskip, (skip_iff hskip).1 h⟩
      · exact absurd hlocal (ne_none (Bool.eq_false_iff.2 hskip) h)
    | cons d cs =>
      rw [List.cons_append] at h hlocal
      by_cases hskip : isSkipped d
      · obtain ⟨us, vs, rfl, hus, hc, hvs⟩ := ih cs.length (by simp [← hlength])
          ((skip_iff hskip).1 h) rfl
        exact ⟨us, vs, rfl, skip hskip hus, hc, hvs⟩
      · rw [Bool.not_eq_true] at hskip
        obtain ⟨⟨kind, n⟩, hlongest⟩ := Option.ne_none_iff_exists'.1 (ne_none hskip h)
        obtain ⟨ts, rfl, hts⟩ := (cons_iff hskip hlongest).1 h
        have hlongest' := hlocal.symm.trans hlongest
        obtain ⟨hn, -⟩ := longestLexeme?_eq_some hlongest'
        have hle : n ≤ (d :: cs).length := hn ▸ LexemeClass.length_le _ kind
        have hdrop : (cs ++ c :: more).drop (n - 1) = cs.drop (n - 1) ++ c :: more :=
          List.drop_append_of_le_length (by rw [List.length_cons] at hle; omega)
        have htake : (d :: (cs ++ c :: more)).take n = (d :: cs).take n :=
          List.take_append_of_le_length hle
        rw [hdrop] at hts
        obtain ⟨us, vs, rfl, hus, hc, hvs⟩ := ih (cs.drop (n - 1)).length
          (by rw [List.length_drop, ← hlength, List.length_cons]; omega) hts rfl
        exact ⟨kind.token ((d :: cs).take n) :: us, vs, by rw [htake, List.cons_append],
          (cons_iff hskip hlongest').2 ⟨us, rfl, hus⟩, hc, hvs⟩

/-- Blanks alone are no units. -/
theorem eq_nil_of_blank (hcs : ∀ c ∈ cs, isBlank c) (h : Lexes cs ts) : ts = [] := by
  induction cs generalizing ts with
  | nil => exact nil_iff.1 h
  | cons c cs ih =>
    obtain ⟨hc, hcs⟩ := List.forall_mem_cons.1 hcs
    rw [← List.nil_append (c :: cs)] at h
    obtain ⟨us, vs, rfl, hus, -, hvs⟩ := split hc h
    rw [nil_iff.1 hus, ih hcs hvs, List.append_nil]

/-- A text without units is blank. -/
theorem blank_of_nil (h : Lexes cs []) : ∀ c ∈ cs, isBlank c := by
  induction cs with
  | nil => exact nofun
  | cons c cs ih =>
    by_cases hskip : isSkipped c
    · exact List.forall_mem_cons.2 ⟨isBlank_of_isSkipped hskip, ih ((skip_iff hskip).1 h)⟩
    · rw [Bool.not_eq_true] at hskip
      obtain ⟨⟨kind, n⟩, hlongest⟩ := Option.ne_none_iff_exists'.1 (ne_none hskip h)
      obtain ⟨us, hus, -⟩ := (cons_iff hskip hlongest).1 h
      cases hus

/-- Blanks at the end of a text make no difference. -/
theorem of_append_blank (hmore : ∀ c ∈ more, isBlank c) (h : Lexes (cs ++ more) ts) :
    Lexes cs ts := by
  cases more with
  | nil => rwa [List.append_nil] at h
  | cons c more =>
    obtain ⟨hc, hmore⟩ := List.forall_mem_cons.1 hmore
    obtain ⟨us, vs, rfl, hus, -, hvs⟩ := split hc h
    rwa [eq_nil_of_blank hmore hvs, List.append_nil]

end Lexes

/-! ### Tokens between blanks -/

theorem isBlank_leftParen : isBlank '(' = false := by decide

namespace Record

variable {r r' : Record Float} {c : Char} {cs more : List Char} {u v : List Token}

/-- **A token is read as before without the blanks around it.** -/
theorem IsWritten.trim (h : r.IsWritten cs) : r.IsWritten (Text.trim cs) := by
  obtain ⟨before, after, u, ⟨rfl, hnot⟩, hname, hlexes, harguments⟩ := h
  have hnormalize : GateName.normalize (String.ofList (trimStart before)) =
      GateName.normalize (String.ofList before) := by
    rw [GateName.normalize, GateName.normalize, String.toList_ofList, String.toList_ofList,
      trim_trimStart]
  have hstart := writesName_iff.2 (hnormalize.trans (writesName_iff.1 hname))
  rw [trim_append_cons isBlank_leftParen]
  refine ⟨trimStart before, trimEnd after, u, ⟨rfl, fun hmem => ?_⟩, hstart, ?_, harguments⟩
  · exact hnot ((List.dropWhile_suffix _).subset hmem)
  · obtain ⟨ws, hws, hblank⟩ := exists_trimEnd_append after
    rw [hws, ← List.cons_append] at hlexes
    exact hlexes.of_append_blank hblank

/-- A token begins with a letter. -/
theorem IsWritten.exists_trim_cons (h : r.IsWritten cs) :
    ∃ c rest, Text.trim cs = c :: rest ∧ isBlank c = false ∧ c ≠ '/' ∧ c ≠ '[' := by
  obtain ⟨before, after, u, ⟨rfl, -⟩, hname, -⟩ := h
  have hupper : upper (Text.trim before) = r.name.text.toList := by
    rw [← writesName_iff.1 hname, GateName.normalize, String.toList_ofList, String.toList_ofList]
  have hletter : ∀ g : GateName, g.text.toList.head? ≠ none ∧ g.text.toList.head? ≠ some '/' ∧
      g.text.toList.head? ≠ some '[' := by
    rintro ⟨⟩ <;> decide
  obtain ⟨hnone, hslash, hbracket⟩ := hletter r.name
  rw [← hupper] at hnone hslash hbracket
  rcases blank_or_exists_cons before with hblank | ⟨us, c, vs, rfl, hus, hc⟩
  · rw [trim_of_blank hblank] at hnone
    exact absurd rfl hnone
  · rw [trim_append_cons hc, trimStart_of_blank hus] at hslash hbracket
    refine ⟨c, vs ++ '(' :: trimEnd after, ?_, hc, ?_, ?_⟩
    · rw [trim_append_cons isBlank_leftParen, trimStart_append_cons hc, trimStart_of_blank hus]
      rfl
    · rintro rfl
      exact hslash rfl
    · rintro rfl
      exact hbracket rfl

/-- The groups of a gate are complete. -/
theorem HasArguments.eq_nil_of_append (hname : r.name = r'.name) (h : r.HasArguments u)
    (h' : r'.HasArguments (u ++ v)) : v = [] := by
  obtain ⟨us, rfl⟩ := exists_lexemes u
  obtain ⟨vs, rfl⟩ := exists_lexemes v
  rw [← List.map_append] at h'
  obtain ⟨params, more, qubits, hparams, hqubits, -⟩ :=
    parseArguments_eq_ok_iff_groups.1 (parseArguments_eq_ok_iff.2 ⟨hname, h⟩)
  obtain ⟨params', more', qubits', hparams', hqubits', -⟩ :=
    parseArguments_eq_ok_iff_groups.1 (parseArguments_eq_ok_iff.2 ⟨rfl, h'⟩)
  have hmore : more' = more ++ vs := by
    split at hparams
    · rw [if_pos ‹_›, recognizes_parseAngle.group_append hparams] at hparams'
      exact (Prod.mk.inj (Except.ok.inj hparams')).2.symm
    · rw [if_neg ‹_›] at hparams'
      obtain ⟨rfl, rfl⟩ := Prod.mk.inj (Except.ok.inj hparams)
      exact (Prod.mk.inj (Except.ok.inj hparams')).2.symm
  rw [hmore, recognizes_parseQubit.group_append hqubits] at hqubits'
  obtain rfl : vs = [] := (Prod.mk.inj (Except.ok.inj hqubits')).2
  rfl

/-- **What follows a token after a blank is blank**, where the token is one by itself. -/
theorem IsWritten.blank_of_append (hc : isBlank c) (h : r.IsWritten cs)
    (h' : r'.IsWritten (cs ++ c :: more)) : ∀ d ∈ more, isBlank d := by
  obtain ⟨before, after, u, ⟨rfl, hnot⟩, hname, hlexes, harguments⟩ := h
  obtain ⟨before', after', u', hcut', hname', hlexes', harguments'⟩ := h'
  have hcut : IsCut (before ++ '(' :: after ++ c :: more) before (after ++ c :: more) :=
    ⟨by rw [List.append_assoc, List.cons_append], hnot⟩
  obtain ⟨rfl, rfl⟩ := hcut.unique hcut'
  rw [← List.cons_append] at hlexes'
  obtain ⟨us, vs, rfl, hus, -, hvs⟩ := hlexes'.split hc
  obtain rfl := hlexes.unique hus
  have hnames := GateName.text_injective
    ((writesName_iff.1 hname).symm.trans (writesName_iff.1 hname'))
  obtain rfl := harguments.eq_nil_of_append hnames harguments'
  exact hvs.blank_of_nil

end Record

end CircuitExchange
