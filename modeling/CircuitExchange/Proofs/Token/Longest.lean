import Mathlib
import CircuitExchange.Proofs.Token.Blank

/-!
The words of each class of lexemes, apart from how their lengths are computed. The length that a
class gives is that of its longest word at the start of the text, and the lexeme that is taken is
the longest of all classes, of equally long ones that of the first class.

* `LexemeClass.Matches`: the words of a class, with their characters written out.
* `IsLongest`: a number is the length of the longest word at the start of a text.
* `LexemeClass.isLongest_length`: each class gives the length of its longest word.
* `Token.IsSpelled`: the words that a unit is read from.
* `length_le_of_longestLexeme?`, `not_matches_of_longestLexeme?`: nothing longer is a word.
* `isSpelled_of_longestLexeme?`: the lexeme that is taken is a word of its unit.
-/

namespace CircuitExchange

open Decimal

/-! ### Words -/

namespace LexemeClass

/-- Decimal digits, at least one. -/
def IsDigits (w : List Char) : Prop := w ≠ [] ∧ AllDigits w

/-- The signs that an exponent may have. -/
def exponentSigns : List (List Char) := [[], ['+'], ['-']]

/-- A mark, a sign or none, and digits. -/
def IsExponent (w : List Char) : Prop :=
  ∃ mark sign ds, w = mark :: (sign ++ ds) ∧ (mark = 'e' ∨ mark = 'E') ∧ sign ∈ exponentSigns ∧
    IsDigits ds

/-- Letters of ASCII and the underscore. -/
def IsLetter (c : Char) : Prop := 'a' ≤ c ∧ c ≤ 'z' ∨ 'A' ≤ c ∧ c ≤ 'Z' ∨ c = '_'

/-- The characters that are lexemes by themselves, each with its unit. -/
def symbols : List (Char × Token) :=
  [('+', .plus), ('-', .minus), ('*', .star), ('/', .slash), ('(', .leftParen),
    (')', .rightParen), (',', .comma)]

/-- The words of a class. A decimal number has a point with digits on at least one side of it, or an
exponent, or both. -/
def Matches : LexemeClass → List Char → Prop
  | pi, w => w = ['π'] ∨ ∃ c d, w = [c, d] ∧ (c = 'p' ∨ c = 'P') ∧ (d = 'i' ∨ d = 'I')
  | decimal, w =>
    (∃ whole fraction exponent, w = whole ++ '.' :: (fraction ++ exponent) ∧ AllDigits whole ∧
      AllDigits fraction ∧ (whole ≠ [] ∨ fraction ≠ []) ∧ (exponent = [] ∨ IsExponent exponent)) ∨
    ∃ whole exponent, w = whole ++ exponent ∧ IsDigits whole ∧ IsExponent exponent
  | integer, w => IsDigits w
  | identifier, w => ∃ c cs, w = c :: cs ∧ IsLetter c ∧ ∀ d ∈ cs, IsLetter d ∨ '0' ≤ d ∧ d ≤ '9'
  | symbol, w => ∃ c t, w = [c] ∧ (c, t) ∈ symbols

section Characters

variable {c : Char}

theorem isIdentifierStart_iff : isIdentifierStart c ↔ IsLetter c := by
  simp only [isIdentifierStart, IsLetter, Char.isAlpha, Char.isUpper, Char.isLower, Char.le_def,
    Bool.or_eq_true, Bool.and_eq_true, decide_eq_true_eq, beq_iff_eq, ge_iff_le]
  tauto

theorem isIdentifierRest_iff : isIdentifierRest c ↔ IsLetter c ∨ '0' ≤ c ∧ c ≤ '9' := by
  have hdigit : c.isDigit ↔ '0' ≤ c ∧ c ≤ '9' := by simp [Char.isDigit, Char.le_def]
  rw [← isIdentifierStart_iff, ← hdigit, isIdentifierRest, isIdentifierStart, Char.isAlphanum]
  simp only [Bool.or_eq_true]
  tauto

theorem mem_symbols_iff {t : Token} : (c, t) ∈ symbols ↔ Token.ofSymbol? c = some t := by
  constructor
  · have hsymbols : ∀ p ∈ symbols, Token.ofSymbol? p.1 = some p.2 := by
      simp [symbols, Token.ofSymbol?]
    exact hsymbols (c, t)
  · intro h
    unfold Token.ofSymbol? at h
    split at h
    all_goals first
      | cases h; decide
      | cases h

end Characters

theorem Matches.ne_nil {kind : LexemeClass} {w : List Char} (h : kind.Matches w) : w ≠ [] := by
  rintro rfl
  cases kind with
  | pi => simp [Matches] at h
  | decimal =>
    rcases h with ⟨whole, fraction, exponent, h, -⟩ | ⟨whole, exponent, h, hwhole, -⟩
    · simp at h
    · exact hwhole.1 (List.append_eq_nil_iff.1 h.symm).1
  | integer => exact h.1 rfl
  | identifier | symbol => simp [Matches] at h

theorem IsDigits.exists_head {w : List Char} (h : IsDigits w) :
    ∃ c cs, w = c :: cs ∧ c.isDigit := by
  obtain ⟨c, cs, rfl⟩ := List.exists_cons_of_ne_nil h.1
  exact ⟨c, cs, rfl, h.2 c (List.mem_cons_self ..)⟩

/-- An exponent starts with a character that is no digit and no point. -/
theorem IsExponent.exists_head {w : List Char} (h : IsExponent w) :
    ∃ c cs, w = c :: cs ∧ c.isDigit = false ∧ c ≠ '.' := by
  obtain ⟨mark, sign, ds, rfl, hmark, -, -⟩ := h
  refine ⟨mark, _, rfl, ?_⟩
  rcases hmark with rfl | rfl <;> decide

theorem IsExponent.noDigitHead {w : List Char} (h : IsExponent w) (rest : List Char) :
    NoDigitHead (w ++ rest) := by
  obtain ⟨c, cs, rfl, hc, -⟩ := h.exists_head
  rintro _ ⟨⟩
  exact hc

/-- A word with digits only is a word of no class but that of integers. -/
theorem Matches.eq_integer {kind : LexemeClass} {w : List Char} (h : kind.Matches w)
    (hdigits : IsDigits w) : kind = integer := by
  obtain ⟨c, cs, rfl, hc⟩ := hdigits.exists_head
  obtain ⟨-, hstart, hsymbol, hpi, hp, hP, -⟩ := class_of_isDigit hc
  cases kind with
  | pi =>
    rcases h with h | ⟨d, e, h, hd, -⟩
    · exact absurd (List.cons.inj h).1 hpi
    · obtain rfl := (List.cons.inj h).1
      exact absurd hd (by simp [hp, hP])
  | decimal =>
    have hall := hdigits.2
    rcases h with ⟨whole, fraction, exponent, h, -⟩ | ⟨whole, exponent, h, -, hexponent⟩
    · have hpoint := hall '.' (h ▸ by simp)
      exact absurd hpoint (by decide)
    · obtain ⟨d, ds, rfl, hd, -⟩ := hexponent.exists_head
      have hdigit := hall d (h ▸ by simp)
      rw [hd] at hdigit
      cases hdigit
  | integer => rfl
  | identifier =>
    obtain ⟨d, ds, h, hd, -⟩ := h
    obtain rfl := (List.cons.inj h).1
    rw [← isIdentifierStart_iff, hstart] at hd
    cases hd
  | symbol =>
    obtain ⟨d, t, h, hd⟩ := h
    obtain rfl := (List.cons.inj h).1
    rw [mem_symbols_iff, hsymbol] at hd
    cases hd

end LexemeClass

/-! ### Longest words -/

/-- The number is the length of the longest of these words at the start of the text, or zero if
there is none. -/
structure IsLongest (P : List Char → Prop) (cs : List Char) (n : Nat) : Prop where
  matched : n ≠ 0 → P (cs.take n)
  longest : ∀ w, w <+: cs → P w → w.length ≤ n

namespace LexemeClass

theorem le_digitRun {ds : List Char} (h : AllDigits ds) (rest : List Char) :
    ds.length ≤ digitRun (ds ++ rest) := by
  simp [digitRun, List.takeWhile_append_of_pos h]

theorem allDigits_take (cs : List Char) : AllDigits (cs.take (digitRun cs)) := by
  obtain ⟨ds, rest, rfl, hds, hrest⟩ := exists_digits cs
  rwa [digitRun_append hds hrest, List.take_left]

theorem isLongest_digitRun (cs : List Char) : IsLongest IsDigits cs (digitRun cs) := by
  constructor
  · intro hpos
    refine ⟨fun hnil => hpos ?_, allDigits_take cs⟩
    have hlength := congrArg List.length hnil
    rwa [List.length_take_of_le (digitRun_le cs)] at hlength
  · rintro w ⟨rest, rfl⟩ hw
    exact le_digitRun hw.2 rest

/-- Without a sign in front the text must not start with one. -/
theorem exponentLength_cons {mark : Char} (hmark : mark = 'e' ∨ mark = 'E') {sign cs : List Char}
    (hsign : sign ∈ exponentSigns)
    (hnone : sign = [] → cs.head? ≠ some '+' ∧ cs.head? ≠ some '-') :
    exponentLength (mark :: (sign ++ cs)) =
      if digitRun cs = 0 then 0 else 1 + sign.length + digitRun cs := by
  simp only [exponentSigns, List.mem_cons, List.not_mem_nil, or_false] at hsign
  rcases hsign with rfl | rfl | rfl
  · simp [exponentLength, hmark, hnone rfl]
  · simp [exponentLength, hmark]
  · simp [exponentLength, hmark]

theorem exists_sign (cs : List Char) : ∃ sign rest, cs = sign ++ rest ∧ sign ∈ exponentSigns ∧
    (sign = [] → rest.head? ≠ some '+' ∧ rest.head? ≠ some '-') := by
  by_cases hplus : cs.head? = some '+'
  · obtain ⟨rest, rfl⟩ := List.head?_eq_some_iff.1 hplus
    exact ⟨['+'], rest, rfl, by simp [exponentSigns], nofun⟩
  · by_cases hminus : cs.head? = some '-'
    · obtain ⟨rest, rfl⟩ := List.head?_eq_some_iff.1 hminus
      exact ⟨['-'], rest, rfl, by simp [exponentSigns], nofun⟩
    · exact ⟨[], cs, rfl, by simp [exponentSigns], fun _ => ⟨hplus, hminus⟩⟩

theorem isLongest_exponentLength (cs : List Char) :
    IsLongest IsExponent cs (exponentLength cs) := by
  constructor
  · intro hpos
    cases cs with
    | nil => exact absurd rfl hpos
    | cons mark cs =>
      have hmark : mark = 'e' ∨ mark = 'E' := by
        by_contra hmark
        exact hpos (by rw [exponentLength, if_neg hmark])
      obtain ⟨sign, rest, rfl, hsign, hnone⟩ := exists_sign cs
      rw [exponentLength_cons hmark hsign hnone] at hpos ⊢
      split at hpos
      · exact absurd rfl hpos
      · rename_i hrun
        rw [if_neg hrun]
        refine ⟨mark, sign, rest.take (digitRun rest), ?_, hmark, hsign,
          (isLongest_digitRun rest).matched hrun⟩
        rw [Nat.add_assoc, Nat.add_comm 1, List.take_succ_cons, List.take_length_add_append]
  · rintro w ⟨rest, rfl⟩ ⟨mark, sign, ds, rfl, hmark, hsign, hds⟩
    have hrun := le_digitRun hds.2 rest
    obtain ⟨d, ds, rfl, hd⟩ := hds.exists_head
    have hnone : sign = [] → (d :: ds ++ rest).head? ≠ some '+' ∧
        (d :: ds ++ rest).head? ≠ some '-' := by
      intro _
      constructor <;> rintro ⟨⟩ <;> exact absurd hd (by decide)
    rw [List.cons_append, List.append_assoc, exponentLength_cons hmark hsign hnone,
      if_neg (by simp only [List.length_cons] at hrun; omega)]
    simp only [List.length_cons, List.length_append] at hrun ⊢
    omega

theorem matches_take_decimalLength {cs : List Char} (hpos : decimalLength cs ≠ 0) :
    decimal.Matches (cs.take (decimalLength cs)) := by
  obtain ⟨ds, rest, rfl, hds, hrest⟩ := exists_digits cs
  by_cases hpoint : rest.head? = some '.'
  · obtain ⟨rest, rfl⟩ := List.head?_eq_some_iff.1 hpoint
    rw [decimalLength_point hds] at hpos ⊢
    split at hpos
    · exact absurd rfl hpos
    · rename_i hsome
      rw [if_neg hsome]
      refine .inl ⟨ds, rest.take (digitRun rest), (rest.drop (digitRun rest)).take
        (exponentLength (rest.drop (digitRun rest))), ?_, hds, allDigits_take rest, ?_, ?_⟩
      · rw [Nat.add_assoc, Nat.add_assoc, List.take_length_add_append, Nat.add_comm 1,
          List.take_succ_cons, List.take_add]
      · by_contra hnil
        rw [not_or, not_not, not_not, ← List.length_eq_zero_iff, ← List.length_eq_zero_iff,
          List.length_take_of_le (digitRun_le rest)] at hnil
        exact hsome hnil
      · by_cases hexponent : exponentLength (rest.drop (digitRun rest)) = 0
        · rw [hexponent]
          exact .inl List.take_zero
        · exact .inr ((isLongest_exponentLength _).matched hexponent)
  · rw [decimalLength_no_point hds hrest hpoint] at hpos ⊢
    split at hpos
    · exact absurd rfl hpos
    · rename_i hsome
      rw [if_neg hsome, List.take_length_add_append]
      rw [not_or] at hsome
      exact .inr ⟨ds, _, rfl, ⟨fun hnil => hsome.1 (List.length_eq_zero_iff.2 hnil), hds⟩,
        (isLongest_exponentLength rest).matched hsome.2⟩

section Decimal

variable {whole fraction exponent : List Char}

/-- A word with a point is no longer than the decimal number. -/
theorem le_decimalLength_point (hwhole : AllDigits whole) (hfraction : AllDigits fraction)
    (hne : whole ≠ [] ∨ fraction ≠ []) (hexponent : exponent = [] ∨ IsExponent exponent)
    (rest : List Char) : (whole ++ '.' :: (fraction ++ exponent)).length ≤
      decimalLength (whole ++ '.' :: (fraction ++ exponent) ++ rest) := by
  have hrun := le_digitRun hfraction (exponent ++ rest)
  have hsome : ¬ (whole.length = 0 ∧ digitRun (fraction ++ (exponent ++ rest)) = 0) := by
    rintro ⟨hwholeNil, hrunNil⟩
    rcases hne with hne | hne
    · exact hne (List.length_eq_zero_iff.1 hwholeNil)
    · exact hne (List.length_eq_zero_iff.1 (by omega))
  rw [List.append_assoc, List.cons_append, List.append_assoc, decimalLength_point hwhole,
    if_neg hsome]
  simp only [List.length_append, List.length_cons]
  rcases hexponent with rfl | hexponent
  · simp only [List.length_nil]
    omega
  · have hlongest := (isLongest_exponentLength (exponent ++ rest)).longest exponent
      (List.prefix_append ..) hexponent
    rw [digitRun_append hfraction (hexponent.noDigitHead rest), List.drop_left]
    omega

/-- A word with an exponent and no point is no longer than the decimal number. -/
theorem le_decimalLength_exponent (hwhole : IsDigits whole) (hexponent : IsExponent exponent)
    (rest : List Char) :
    (whole ++ exponent).length ≤ decimalLength (whole ++ exponent ++ rest) := by
  have hlongest := (isLongest_exponentLength (exponent ++ rest)).longest exponent
    (List.prefix_append ..) hexponent
  obtain ⟨c, cs, rfl, -, hc⟩ := hexponent.exists_head
  have hpoint : (c :: cs ++ rest).head? ≠ some '.' := by
    rintro ⟨⟩
    exact hc rfl
  have hsome : ¬ (whole.length = 0 ∨ exponentLength (c :: cs ++ rest) = 0) := by
    rintro (hnil | hnil)
    · exact hwhole.1 (List.length_eq_zero_iff.1 hnil)
    · rw [hnil] at hlongest
      exact absurd hlongest (by simp)
  rw [List.append_assoc, decimalLength_no_point hwhole.2 (hexponent.noDigitHead rest) hpoint,
    if_neg hsome, List.length_append]
  omega

end Decimal

theorem isLongest_decimalLength (cs : List Char) :
    IsLongest decimal.Matches cs (decimalLength cs) := by
  refine ⟨matches_take_decimalLength, ?_⟩
  rintro w ⟨rest, rfl⟩ (⟨whole, fraction, exponent, rfl, hwhole, hfraction, hne, hexponent⟩ |
    ⟨whole, exponent, rfl, hwhole, hexponent⟩)
  · exact le_decimalLength_point hwhole hfraction hne hexponent rest
  · exact le_decimalLength_exponent hwhole hexponent rest

theorem isLongest_identifierLength (cs : List Char) :
    IsLongest identifier.Matches cs (identifierLength cs) := by
  constructor
  · intro hpos
    cases cs with
    | nil => exact absurd rfl hpos
    | cons c cs =>
      rw [identifierLength] at hpos ⊢
      split at hpos
      · rename_i hc
        rw [if_pos hc]
        refine ⟨c, cs.takeWhile isIdentifierRest, ?_, isIdentifierStart_iff.1 hc, fun d hd =>
          isIdentifierRest_iff.1 (List.mem_takeWhile_imp hd)⟩
        rw [Nat.add_comm, List.take_succ_cons,
          List.prefix_iff_eq_take.1 (List.takeWhile_prefix isIdentifierRest), List.length_take,
          Nat.min_eq_left (List.takeWhile_sublist _).length_le]
      · exact absurd rfl hpos
  · rintro w ⟨rest, rfl⟩ ⟨c, cs, rfl, hc, hcs⟩
    have hrest : ∀ d ∈ cs, isIdentifierRest d := fun d hd => isIdentifierRest_iff.2 (hcs d hd)
    rw [List.cons_append, identifierLength, if_pos (isIdentifierStart_iff.2 hc),
      List.takeWhile_append_of_pos hrest]
    simp only [List.length_cons, List.length_append]
    omega

theorem isLongest_piLength (cs : List Char) : IsLongest pi.Matches cs (piLength cs) := by
  constructor
  · intro hpos
    unfold piLength at hpos ⊢
    split at hpos
    · exact .inl rfl
    · split at hpos
      · rename_i c d rest _ hname
        rw [if_pos hname]
        exact .inr ⟨c, d, rfl, hname⟩
      · exact absurd rfl hpos
    · exact absurd rfl hpos
  · rintro w ⟨rest, rfl⟩ (rfl | ⟨c, d, rfl, hname⟩)
    · exact Nat.le_refl 1
    · rcases hname with ⟨rfl | rfl, hd⟩ <;> simp [piLength, hd]

theorem isLongest_symbolLength (cs : List Char) :
    IsLongest symbol.Matches cs (symbolLength cs) := by
  constructor
  · intro hpos
    cases cs with
    | nil => exact absurd rfl hpos
    | cons c cs =>
      rw [symbolLength] at hpos ⊢
      split at hpos
      · rename_i hc
        rw [if_pos hc]
        obtain ⟨t, ht⟩ := Option.isSome_iff_exists.1 hc
        exact ⟨c, t, rfl, mem_symbols_iff.2 ht⟩
      · exact absurd rfl hpos
  · rintro w ⟨rest, rfl⟩ ⟨c, t, rfl, ht⟩
    rw [List.singleton_append, symbolLength, mem_symbols_iff.1 ht, List.length_singleton]
    rfl

/-- **Each class gives the length of its longest word.** -/
theorem isLongest_length (kind : LexemeClass) (cs : List Char) :
    IsLongest kind.Matches cs (kind.length cs) := by
  cases kind with
  | pi => exact isLongest_piLength cs
  | decimal => exact isLongest_decimalLength cs
  | integer => exact isLongest_digitRun cs
  | identifier => exact isLongest_identifierLength cs
  | symbol => exact isLongest_symbolLength cs

end LexemeClass

/-! ### The lexeme that is taken -/

/-- The candidate is the first of the longest words among those of the listed classes, or none of
them has a word. -/
def IsFirstLongest (cs : List Char) (kinds : List LexemeClass) : Option (LexemeClass × Nat) → Prop
  | none => ∀ kind ∈ kinds, kind.length cs = 0
  | some (kind, n) => n = kind.length cs ∧ 0 < n ∧
      ∃ earlier later, kinds = earlier ++ kind :: later ∧
        (∀ k ∈ earlier, k.length cs < n) ∧ ∀ k ∈ later, k.length cs ≤ n

theorem isFirstLongest_foldl (cs : List Char) (kinds : List LexemeClass) :
    IsFirstLongest cs kinds (kinds.foldl (fun best kind =>
      let n := kind.length cs
      if (best.map (·.2)).getD 0 < n then some (kind, n) else best) none) := by
  induction kinds using List.reverseRecOn with
  | nil => exact nofun
  | append_singleton kinds kind ih =>
    rw [List.foldl_concat]
    generalize kinds.foldl _ none = best at ih ⊢
    rcases best with _ | ⟨k, m⟩
    · dsimp only [Option.map_none, Option.getD_none]
      split
      · rename_i hpos
        refine ⟨rfl, hpos, kinds, [], rfl, fun k hk => ?_, nofun⟩
        rw [ih k hk]
        exact hpos
      · rename_i hzero
        intro k hk
        rcases List.mem_append.1 hk with hk | hk
        · exact ih k hk
        · rw [List.mem_singleton.1 hk]
          omega
    · obtain ⟨hm, hpos, earlier, later, rfl, hearlier, hlater⟩ := ih
      dsimp only [Option.map_some, Option.getD_some]
      split
      · rename_i hlt
        refine ⟨rfl, by omega, _, [], rfl, fun k' hk' => ?_, nofun⟩
        rcases List.mem_append.1 hk' with hk' | hk'
        · exact (hearlier k' hk').trans hlt
        · rcases List.mem_cons.1 hk' with rfl | hk'
          · rwa [← hm]
          · exact (hlater k' hk').trans_lt hlt
      · rename_i hle
        refine ⟨hm, hpos, earlier, later ++ [kind], by simp, hearlier, fun k' hk' => ?_⟩
        rcases List.mem_append.1 hk' with hk' | hk'
        · exact hlater k' hk'
        · rw [List.mem_singleton.1 hk']
          omega

theorem isFirstLongest_longestLexeme? (cs : List Char) :
    IsFirstLongest cs LexemeClass.all (longestLexeme? cs) :=
  isFirstLongest_foldl cs LexemeClass.all

theorem LexemeClass.mem_all (kind : LexemeClass) : kind ∈ LexemeClass.all := by
  cases kind <;> decide

section Lexeme

variable {cs w : List Char} {kind k : LexemeClass} {n : Nat}

theorem le_length_of_longestLexeme? (h : longestLexeme? cs = some (kind, n)) : n ≤ cs.length := by
  have hfirst := isFirstLongest_longestLexeme? cs
  rw [h] at hfirst
  exact hfirst.1 ▸ LexemeClass.length_le cs kind

/-- **No word of any class is longer than the lexeme that is taken.** -/
theorem length_le_of_longestLexeme? (h : longestLexeme? cs = some (kind, n)) (hw : w <+: cs)
    (hmatches : k.Matches w) : w.length ≤ n := by
  have hfirst := isFirstLongest_longestLexeme? cs
  rw [h] at hfirst
  obtain ⟨hn, -, earlier, later, hall, hearlier, hlater⟩ := hfirst
  refine ((LexemeClass.isLongest_length k cs).longest w hw hmatches).trans ?_
  have hk := k.mem_all
  rw [hall] at hk
  rcases List.mem_append.1 hk with hk | hk
  · exact (hearlier k hk).le
  · rcases List.mem_cons.1 hk with rfl | hk
    · exact hn.ge
    · exact hlater k hk

/-- Where no lexeme is taken there is no word of any class. -/
theorem not_matches_of_longestLexeme? (h : longestLexeme? cs = none) (hw : w <+: cs) :
    ¬ k.Matches w := by
  intro hmatches
  have hfirst := isFirstLongest_longestLexeme? cs
  rw [h] at hfirst
  have hle := (LexemeClass.isLongest_length k cs).longest w hw hmatches
  rw [hfirst k k.mem_all] at hle
  exact hmatches.ne_nil (List.length_eq_zero_iff.1 (Nat.le_zero.1 hle))

/-- The lexeme that is taken is a word of its class, and an identifier only if it is not the name
of π. -/
theorem matches_of_longestLexeme? (h : longestLexeme? cs = some (kind, n)) :
    kind.Matches (cs.take n) ∧ (kind = .identifier → ¬ LexemeClass.pi.Matches (cs.take n)) := by
  have hfirst := isFirstLongest_longestLexeme? cs
  rw [h] at hfirst
  obtain ⟨hn, hpos, earlier, later, hall, hearlier, -⟩ := hfirst
  refine ⟨hn ▸ (LexemeClass.isLongest_length kind cs).matched (hn ▸ hpos.ne'), ?_⟩
  rintro rfl hpi
  have hle := (LexemeClass.isLongest_length .pi cs).longest _ (List.take_prefix n cs) hpi
  rw [List.length_take_of_le (hn ▸ LexemeClass.length_le cs .identifier)] at hle
  -- the name of π is listed before identifiers
  have hmem : LexemeClass.pi ∈ earlier := by
    cases earlier with
    | nil => cases hall
    | cons k earlier => exact (List.cons.inj hall).1 ▸ List.mem_cons_self ..
  exact absurd (hearlier _ hmem) (Nat.not_lt.2 hle)

end Lexeme

/-! ### Units -/

/-- The words that a unit is read from. Digits are an integer if it has at most 64 bits and
otherwise a number, and the name of π is no identifier. -/
def Token.IsSpelled (t : Token) (w : List Char) : Prop :=
  match t with
  | .pi => LexemeClass.pi.Matches w
  | .number x => (LexemeClass.decimal.Matches w ∨
      LexemeClass.integer.Matches w ∧ UInt64.size ≤ ofDigits w) ∧ x = LexemeClass.numberOf w
  | .integer v => LexemeClass.integer.Matches w ∧ ofDigits w = v.toNat
  | .identifier name => LexemeClass.identifier.Matches w ∧ ¬ LexemeClass.pi.Matches w ∧
      name = String.ofList w
  | symbol => ∃ c, w = [c] ∧ (c, symbol) ∈ LexemeClass.symbols

theorem Token.isSpelled_of_mem_symbols {c : Char} {t : Token}
    (h : (c, t) ∈ LexemeClass.symbols) : t.IsSpelled [c] := by
  cases t
  case plus | minus | star | slash | leftParen | rightParen | comma => exact ⟨c, rfl, h⟩
  all_goals simp [LexemeClass.symbols] at h

/-- **The lexeme that is taken spells its unit.** -/
theorem isSpelled_of_longestLexeme? {cs : List Char} {kind : LexemeClass} {n : Nat}
    (h : longestLexeme? cs = some (kind, n)) : (kind.token (cs.take n)).IsSpelled (cs.take n) := by
  obtain ⟨hmatches, hpi⟩ := matches_of_longestLexeme? h
  cases kind with
  | pi => exact hmatches
  | decimal => exact ⟨.inl hmatches, rfl⟩
  | integer =>
    simp only [LexemeClass.token]
    split
    · rename_i hsize
      exact ⟨hmatches, (UInt64.toNat_ofNat_of_lt' hsize).symm⟩
    · rename_i hsize
      exact ⟨.inr ⟨hmatches, Nat.le_of_not_lt hsize⟩, rfl⟩
  | identifier => exact ⟨hmatches, hpi rfl, rfl⟩
  | symbol =>
    obtain ⟨c, t, hc, ht⟩ := hmatches
    have htoken : LexemeClass.symbol.token [c] = t := by
      simp [LexemeClass.token, LexemeClass.mem_symbols_iff.1 ht]
    rw [hc, htoken]
    exact Token.isSpelled_of_mem_symbols ht

/-- Digits are read as an integer if it has at most 64 bits, and otherwise as a number. -/
theorem Token.IsSpelled.of_isDigits {t : Token} {w : List Char} (h : t.IsSpelled w)
    (hw : LexemeClass.IsDigits w) :
    t = if ofDigits w < UInt64.size then .integer (.ofNat (ofDigits w))
      else .number (LexemeClass.numberOf w) := by
  have hkind : ∀ {kind : LexemeClass}, kind.Matches w → kind = .integer := fun hmatches =>
    hmatches.eq_integer hw
  cases t
  case integer v =>
    rw [h.2, if_pos v.toNat_lt, UInt64.ofNat_toNat]
  case number x =>
    obtain ⟨hdecimal | ⟨-, hsize⟩, rfl⟩ := h
    · cases hkind hdecimal
    · rw [if_neg (Nat.not_lt.2 hsize)]
  case pi =>
    have hpi : LexemeClass.pi.Matches w := h
    cases hkind hpi
  case identifier name => cases hkind h.1
  all_goals
    obtain ⟨c, rfl, hc⟩ := h
    have hsymbol : LexemeClass.symbol.Matches [c] := ⟨c, _, rfl, hc⟩
    cases hkind hsymbol

end CircuitExchange
