import Mathlib
import CircuitExchange.Json.Reader
import CircuitExchange.Json.Writer
import CircuitExchange.Proofs.Decimal.Spelling
import CircuitExchange.Proofs.Decimal.Word

/-!
Strings and numbers that are read back from the text written for them. A string ends where it says
so; a number ends where no character goes on with it, so what comes after it matters.

* `takeString?_quote`: every string is read from its quoted form.
* `takeNumber?_append_suffix`: a number is read alike before anything that ends a number.
* `takeNumber?_natural`: naturals of at most 64 bits are read from their digits.
* `Recovers`: floating-point numbers that the reader finds again, which are not all of them, as it
  rounds more than once.
-/

namespace CircuitExchange.Json

/-! ### Strings -/

section Strings

/-- Pieces with one more before them. -/
def Piece.before (p : Piece) (taken : List Piece × List Char) : List Piece × List Char :=
  (p :: taken.1, taken.2)

variable {c : Char}

theorem takePieces?_escaped {e : Char} (h : escaped? e = some c) (cs : List Char) :
    takePieces? ('\\' :: e :: cs) = (takePieces? cs).map (Piece.char c).before := by
  have hu : e ≠ 'u' := by
    rintro rfl
    cases h
  rw [takePieces?.eq_4 e cs fun _ _ _ _ _ he _ => hu he, h]
  cases takePieces? cs <;> rfl

theorem takePieces?_unit {n : Nat} {a b c d : Char} (h : unitValue? a b c d = some n)
    (cs : List Char) :
    takePieces? ('\\' :: 'u' :: a :: b :: c :: d :: cs) =
      (takePieces? cs).map (Piece.unit n).before := by
  rw [takePieces?, h]
  cases takePieces? cs <;> rfl

theorem takePieces?_plain (hquote : c ≠ '"') (hslash : c ≠ '\\') (hc : ¬ c.toNat < 0x20)
    (cs : List Char) : takePieces? (c :: cs) = (takePieces? cs).map (Piece.char c).before := by
  rw [takePieces?.eq_5 c cs hquote (fun _ _ _ _ _ h => absurd h hslash)
    (fun _ _ h => absurd h hslash), if_neg (not_or.2 ⟨hc, hslash⟩)]
  cases takePieces? cs <;> rfl

theorem unitValue?_hexDigit {n : Nat} (h : n < 0x20) :
    unitValue? '0' '0' (hexDigit (n / 16)) (hexDigit n) = some n := by
  have hall : ∀ n < 0x20, unitValue? '0' '0' (hexDigit (n / 16)) (hexDigit n) = some n := by
    decide
  exact hall n h

/-- A piece that is read from a character and stands for it. -/
structure Piece.Reads (p : Piece) (c : Char) : Prop where
  take (cs : List Char) : takePieces? (escape c ++ cs) = (takePieces? cs).map p.before
  join (pieces : List Piece) : joinPieces? (p :: pieces) = (joinPieces? pieces).map (c :: ·)

/-- The characters that are escaped by a letter or by themselves. -/
def namedEscapes : List Char := ['"', '\\', '\n', '\t', '\r', '\x08', '\x0c']

theorem exists_escaped : ∀ c ∈ namedEscapes,
    ∃ e ∈ ['"', '\\', 'n', 't', 'r', 'b', 'f'], escaped? e = some c ∧ escape c = ['\\', e] := by
  simp [namedEscapes, escaped?, escape]

theorem escape_of_notMem (h : c ∉ namedEscapes) :
    escape c = if c.toNat < 0x20 then
      ['\\', 'u', '0', '0', hexDigit (c.toNat / 16), hexDigit c.toNat] else [c] := by
  simp only [namedEscapes, List.mem_cons, List.not_mem_nil, or_false, not_or] at h
  simp only [escape, h, if_false]

/-- A number below the surrogates stands for a character by itself. -/
theorem joinPieces?_unit {n : Nat} (h : n < 0xd800) (pieces : List Piece) :
    joinPieces? (.unit n :: pieces) = (joinPieces? pieces).map (Char.ofNat n :: ·) := by
  have hlow : isLowSurrogate n = false := by
    rw [isLowSurrogate, Bool.and_eq_false_iff]
    exact .inl (decide_eq_false (by omega))
  have hhigh : isHighSurrogate n = false := by
    rw [isHighSurrogate, Bool.and_eq_false_iff]
    exact .inl (decide_eq_false (by omega))
  rw [joinPieces?.eq_def]
  simp only [hlow, hhigh, Bool.false_eq_true, if_false]

/-- **Every character is read from its escaped form.** -/
theorem exists_reads (c : Char) : ∃ p : Piece, p.Reads c := by
  by_cases hnamed : c ∈ namedEscapes
  · obtain ⟨e, -, he, hescape⟩ := exists_escaped c hnamed
    refine ⟨.char c, fun cs => ?_, fun _ => rfl⟩
    rw [hescape]
    exact takePieces?_escaped he cs
  · have hescape := escape_of_notMem hnamed
    by_cases hcontrol : c.toNat < 0x20
    · rw [if_pos hcontrol] at hescape
      refine ⟨.unit c.toNat, fun cs => ?_, fun pieces => ?_⟩
      · rw [hescape]
        exact takePieces?_unit (unitValue?_hexDigit hcontrol) cs
      · rw [joinPieces?_unit (by omega), Char.ofNat_toNat]
    · rw [if_neg hcontrol] at hescape
      simp only [namedEscapes, List.mem_cons, not_or] at hnamed
      refine ⟨.char c, fun cs => ?_, fun _ => rfl⟩
      rw [hescape]
      exact takePieces?_plain hnamed.1 hnamed.2.1 hcontrol cs

/-- **A string is read from its quoted form.** -/
theorem takeString?_quote (s : String) (cs : List Char) :
    takeString? (s.toList.flatMap escape ++ '"' :: cs) = some (some s, cs) := by
  have hpieces : ∀ chars : List Char, ∃ pieces,
      takePieces? (chars.flatMap escape ++ '"' :: cs) = some (pieces, cs) ∧
        joinPieces? pieces = some chars := by
    intro chars
    induction chars with
    | nil => exact ⟨[], by rw [List.flatMap_nil, List.nil_append, takePieces?], rfl⟩
    | cons c chars ih =>
      obtain ⟨pieces, htake, hjoin⟩ := ih
      obtain ⟨p, hp⟩ := exists_reads c
      refine ⟨p :: pieces, ?_, ?_⟩
      · rw [List.flatMap_cons, List.append_assoc, hp.take, htake]
        rfl
      · rw [hp.join, hjoin]
        rfl
  obtain ⟨pieces, htake, hjoin⟩ := hpieces s.toList
  rw [takeString?, htake]
  change some ((joinPieces? pieces).map String.ofList, cs) = _
  rw [hjoin, Option.map_some, String.ofList_toList]

end Strings

/-! ### Numbers -/

section Numbers

open Decimal Numeral

/-- The number of digits before the point, digits after it and an exponent: an integer, if there is
neither a point nor an exponent and it is in range. -/
def numberOf (negative : Bool) (whole fraction : List Char) (exponent : Int) (isWhole : Bool) :
    Json :=
  match if isWhole then integer? negative (ofDigits whole) else none with
  | some value => number (.integer value)
  | none => decimal negative (heldNumeral whole fraction exponent)

theorem takeUnsigned?_eq (negative : Bool) (cs : List Char) :
    takeUnsigned? negative cs = (takeWhole? cs).bind fun (whole, rest) =>
      if rest.head? = some '.' ∧ (takeFraction rest).1.isEmpty then none
      else (takeExponent? (takeFraction rest).2).map fun (exponent, left) =>
        (numberOf negative whole (takeFraction rest).1 exponent (rest.length == left.length),
          left) := by
  rw [takeUnsigned?]
  refine Option.bind_congr fun (whole, rest) _ => ?_
  dsimp only
  split
  · rfl
  · change Option.bind _ _ = Option.map _ _
    rw [Option.map_eq_bind]
    refine Option.bind_congr fun (exponent, left) _ => ?_
    dsimp only [Function.comp_apply, numberOf]
    generalize (if (rest.length == left.length) = true then integer? negative (ofDigits whole)
      else none) = value
    cases value <;> rfl

/-- The sign of an exponent and what is left. -/
def takeSign : List Char → Bool × List Char
  | '-' :: cs => (true, cs)
  | '+' :: cs => (false, cs)
  | cs => (false, cs)

theorem takeSign_cons_append (c : Char) (cs rest : List Char) :
    takeSign (c :: (cs ++ rest)) = ((takeSign (c :: cs)).1, (takeSign (c :: cs)).2 ++ rest) := by
  by_cases hminus : c = '-'
  · subst hminus
    rfl
  by_cases hplus : c = '+'
  · subst hplus
    rfl
  simp [takeSign, hminus, hplus]

theorem takeExponent?_cons {c : Char} (hc : c = 'e' ∨ c = 'E') (cs : List Char) :
    takeExponent? (c :: cs) =
      if (spanDigits (takeSign cs).2).1.isEmpty then none
      else
        let value : Int := ofDigits (spanDigits (takeSign cs).2).1
        some (if (takeSign cs).1 then -value else value, (spanDigits (takeSign cs).2).2) :=
  if_pos hc

theorem head_of_takeWhole? {cs : List Char} {taken : List Char × List Char}
    (h : takeWhole? cs = some taken) : ∃ c tail, cs = c :: tail ∧ c.isDigit := by
  cases cs with
  | nil => cases h
  | cons c tail =>
    refine ⟨c, tail, rfl, ?_⟩
    by_cases hzero : c = '0'
    · exact hzero ▸ rfl
    · rw [takeWhole?.eq_2 _ fun _ heq => hzero (List.cons.inj heq).1] at h
      by_contra hdigit
      simp [spanDigits, List.span_eq_takeWhile_dropWhile, hdigit] at h

/-- A number starts with its sign or with a digit. -/
theorem head_of_takeNumber? {cs : List Char} {taken : Json × List Char}
    (h : takeNumber? cs = some taken) : ∃ c tail, cs = c :: tail ∧ (c.isDigit ∨ c = '-') := by
  by_cases hminus : ∃ tail, cs = '-' :: tail
  · obtain ⟨tail, rfl⟩ := hminus
    exact ⟨'-', tail, rfl, .inr rfl⟩
  · rw [takeNumber?.eq_2 cs fun tail htail => hminus ⟨tail, htail⟩, takeUnsigned?_eq] at h
    obtain ⟨_, hwhole, -⟩ := Option.bind_eq_some_iff.1 h
    obtain ⟨c, tail, rfl, hdigit⟩ := head_of_takeWhole? hwhole
    exact ⟨c, tail, rfl, .inl hdigit⟩

end Numbers

/-! ### Where numbers end -/

/-- Text that no number goes on with. -/
def EndsNumber (rest : List Char) : Prop :=
  ∀ c ∈ rest.head?, c.isDigit = false ∧ c ≠ '.' ∧ c ≠ 'e' ∧ c ≠ 'E'

section Suffix

open Decimal Numeral

variable {rest : List Char} (h : EndsNumber rest)
include h

theorem EndsNumber.noDigitHead : NoDigitHead rest := fun c hc => (h c hc).1

theorem spanDigits_append_suffix (cs : List Char) :
    spanDigits (cs ++ rest) = ((spanDigits cs).1, (spanDigits cs).2 ++ rest) := by
  induction cs with
  | nil => exact spanDigits_append (fun _ hc => absurd hc List.not_mem_nil) h.noDigitHead
  | cons c cs ih =>
    simp only [spanDigits, List.span_eq_takeWhile_dropWhile, Prod.mk.injEq] at ih ⊢
    by_cases hc : c.isDigit
    · simp [hc, ih]
    · simp [hc]

theorem takeFraction_append_suffix (cs : List Char) :
    takeFraction (cs ++ rest) = ((takeFraction cs).1, (takeFraction cs).2 ++ rest) := by
  cases cs with
  | nil =>
    cases rest with
    | nil => rfl
    | cons c rest =>
      have hpoint := (h c rfl).2.1
      rw [List.nil_append, takeFraction.eq_2 _ fun _ hc => hpoint (List.cons.inj hc).1]
      rfl
  | cons c cs =>
    by_cases hpoint : c = '.'
    · subst hpoint
      exact spanDigits_append_suffix h cs
    · have hne : ∀ cs' ds : List Char, c :: cs' = '.' :: ds → False := fun _ _ hc =>
        hpoint (List.cons.inj hc).1
      rw [List.cons_append, takeFraction.eq_2 _ (hne _), takeFraction.eq_2 _ (hne _)]
      rfl

theorem takeExponent?_append_suffix {cs left : List Char} {exponent : Int}
    (htake : takeExponent? cs = some (exponent, left)) :
    takeExponent? (cs ++ rest) = some (exponent, left ++ rest) := by
  cases cs with
  | nil =>
    obtain ⟨rfl, rfl⟩ := Prod.mk.inj (Option.some.inj htake)
    cases rest with
    | nil => rfl
    | cons c rest =>
      have hc := (h c rfl).2.2
      exact if_neg (not_or.2 hc)
  | cons c cs =>
    by_cases hc : c = 'e' ∨ c = 'E'
    · -- an exponent has digits, so its sign is not looked for in the suffix
      rcases cs with _ | ⟨d, cs⟩
      · rw [takeExponent?_cons hc] at htake
        cases htake
      · rw [List.cons_append, takeExponent?_cons hc] at *
        rw [List.cons_append, takeSign_cons_append, spanDigits_append_suffix h]
        split at htake
        · cases htake
        · rw [if_neg ‹_›]
          obtain ⟨rfl, rfl⟩ := Prod.mk.inj (Option.some.inj htake)
          rfl
    · have hplain : ∀ cs : List Char, takeExponent? (c :: cs) = some (0, c :: cs) := fun _ =>
        if_neg hc
      rw [hplain] at htake
      obtain ⟨rfl, rfl⟩ := Prod.mk.inj (Option.some.inj htake)
      exact hplain _

theorem takeWhole?_append_suffix {cs whole left : List Char}
    (htake : takeWhole? cs = some (whole, left)) :
    takeWhole? (cs ++ rest) = some (whole, left ++ rest) := by
  by_cases hzero : ∃ tail, cs = '0' :: tail
  · obtain ⟨tail, rfl⟩ := hzero
    obtain ⟨rfl, rfl⟩ := Prod.mk.inj (Option.some.inj htake)
    rfl
  · rw [takeWhole?.eq_2 cs fun tail htail => hzero ⟨tail, htail⟩] at htake
    obtain ⟨c, tail, rfl⟩ : ∃ c tail, cs = c :: tail := by
      refine List.exists_cons_of_ne_nil ?_
      rintro rfl
      cases htake
    have hne : ∀ tail', c :: tail ++ rest = '0' :: tail' → False := by
      rintro tail' heq
      exact hzero ⟨tail, by rw [(List.cons.inj heq).1]⟩
    rw [takeWhole?.eq_2 _ hne, spanDigits_append_suffix h]
    dsimp only at htake ⊢
    split at htake
    · cases htake
    · rw [if_neg ‹_›]
      obtain ⟨rfl, rfl⟩ := Prod.mk.inj (Option.some.inj htake)
      rfl

theorem takeUnsigned?_append_suffix {negative : Bool} {cs left : List Char} {j : Json}
    (htake : takeUnsigned? negative cs = some (j, left)) :
    takeUnsigned? negative (cs ++ rest) = some (j, left ++ rest) := by
  rw [takeUnsigned?_eq] at htake ⊢
  obtain ⟨⟨whole, after⟩, hwhole, htake⟩ := Option.bind_eq_some_iff.1 htake
  have hhead : (after ++ rest).head? = some '.' ↔ after.head? = some '.' := by
    cases after with
    | nil =>
      refine ⟨fun hpoint => absurd rfl (h '.' hpoint).2.1, nofun⟩
    | cons c after => rfl
  have hlength : ((after ++ rest).length == (left ++ rest).length) =
      (after.length == left.length) := by
    rw [List.length_append, List.length_append, Bool.eq_iff_iff, beq_iff_eq, beq_iff_eq]
    exact Nat.add_right_cancel_iff
  rw [takeWhole?_append_suffix h hwhole, Option.bind_some]
  dsimp only at htake ⊢
  rw [takeFraction_append_suffix h]
  split at htake
  · cases htake
  · rename_i hpoint
    rw [if_neg fun hpoint' => hpoint ⟨hhead.1 hpoint'.1, hpoint'.2⟩]
    obtain ⟨⟨exponent, left'⟩, hexponent, htake⟩ := Option.map_eq_some_iff.1 htake
    obtain ⟨rfl, rfl⟩ := Prod.mk.inj htake
    rw [takeExponent?_append_suffix h hexponent, Option.map_some, hlength]

/-- **What is read as a number is read so before anything that does not go on with it.** -/
theorem takeNumber?_append_suffix {cs left : List Char} {j : Json}
    (htake : takeNumber? cs = some (j, left)) :
    takeNumber? (cs ++ rest) = some (j, left ++ rest) := by
  by_cases hminus : ∃ tail, cs = '-' :: tail
  · obtain ⟨tail, rfl⟩ := hminus
    exact takeUnsigned?_append_suffix h htake
  · rw [takeNumber?.eq_2 cs fun tail htail => hminus ⟨tail, htail⟩] at htake
    have hunsigned := takeUnsigned?_append_suffix h htake
    obtain ⟨c, tail, rfl⟩ : ∃ c tail, cs = c :: tail := by
      refine List.exists_cons_of_ne_nil ?_
      rintro rfl
      cases htake
    rw [takeNumber?.eq_2]
    · exact hunsigned
    · rintro tail' heq
      exact hminus ⟨tail, by rw [(List.cons.inj heq).1]⟩

end Suffix

/-! ### Numbers that are written -/

section Written

open Decimal Numeral

theorem head?_digits_ne {n : Nat} (h : 0 < n) : (digits n).head? ≠ some '0' := by
  induction n using Nat.strong_induction_on with
  | _ n ih =>
    rcases Nat.lt_or_ge n 10 with hlt | hge
    · rw [digits, Nat.toDigits_of_lt_base hlt, List.head?_cons, ne_eq, Option.some_inj,
        Nat.digitChar_eq_zero]
      omega
    · have hne : Nat.toDigits 10 (n / 10) ≠ [] := Nat.toDigits_ne_nil
      rw [digits, Nat.toDigits_of_base_le (by decide) hge, List.head?_append_of_ne_nil _ hne]
      exact ih (n / 10) (by omega) (by omega)

theorem spanDigits_digits (n : Nat) : spanDigits (digits n) = (digits n, []) := by
  have hspan := spanDigits_append (allDigits_digits n) Spelling.noDigitHead_nil
  rwa [List.append_nil] at hspan

theorem takeWhole?_digits (n : Nat) : takeWhole? (digits n) = some (digits n, []) := by
  rcases Nat.eq_zero_or_pos n with rfl | hpos
  · rfl
  · rw [takeWhole?.eq_2, spanDigits_digits]
    · exact if_neg (by simp [digits, Nat.toDigits_ne_nil])
    · intro tail htail
      exact head?_digits_ne hpos (by rw [htail]; rfl)

/-- **A natural number of at most 64 bits is read from its digits.** -/
theorem takeNumber?_natural {n : Nat} (h : n < UInt64.size) :
    takeNumber? (numberChars (.integer n)) = some (.ofNat n, []) := by
  have hchars : numberChars (.integer n) = digits n := rfl
  rw [hchars, takeNumber?.eq_2, takeUnsigned?_eq, takeWhole?_digits]
  · change some (numberOf false (digits n) [] 0 true, []) = _
    rw [numberOf, if_pos rfl, ofDigits_digits, integer?, if_neg Bool.false_ne_true, if_pos h]
    rfl
  · intro tail htail
    have hminus := allDigits_digits n '-' (by rw [htail]; exact List.mem_cons_self ..)
    cases hminus

/-- The reader of numbers takes the text written for `x` as `x`, and nothing is left of it. -/
def Recovers (x : Float) : Prop :=
  ∃ j, takeNumber? (Style.json.chars x) = some (j, []) ∧ j.float? = some x

theorem recovers_iff {x : Float} :
    Recovers x ↔
      (takeNumber? (Style.json.chars x)).map (fun taken => (taken.1.float?, taken.2)) =
        some (some x, []) := by
  rw [Option.map_eq_some_iff]
  constructor
  · rintro ⟨j, htake, hvalue⟩
    exact ⟨(j, []), htake, by rw [hvalue]⟩
  · rintro ⟨⟨j, left⟩, htake, hvalue⟩
    obtain ⟨hvalue, rfl⟩ := Prod.mk.inj hvalue
    exact ⟨j, htake, hvalue⟩

instance {x : Float} : Decidable (Recovers x) := decidable_of_iff _ recovers_iff.symm

/-- Written magnitudes have a point or an exponent. -/
theorem exists_mem_magnitude (k : Nat) : ∃ c ∈ Style.json.magnitude k, c = '.' ∨ c = 'e' := by
  rw [Style.magnitude]
  split
  · exact ⟨'.', by decide, .inl rfl⟩
  · dsimp only
    split
    · refine ⟨'.', ?_, .inl rfl⟩
      rw [Style.positionalText]
      split
      · simp
      · split
        · simp [Style.json]
        · simp
    · refine ⟨'e', ?_, .inr rfl⟩
      exact List.mem_append_right _ (List.mem_cons_self ..)

theorem decimal_ne_integer (negative : Bool) (a : Numeral) (value : Int) :
    decimal negative a ≠ .number (.integer value) := by
  rw [decimal]
  split <;> nofun

theorem allDigits_of_takeWhole? {cs whole : List Char} (h : takeWhole? cs = some (whole, [])) :
    AllDigits cs := by
  by_cases hzero : ∃ tail, cs = '0' :: tail
  · obtain ⟨tail, rfl⟩ := hzero
    obtain ⟨-, rfl⟩ := Prod.mk.inj (Option.some.inj h)
    exact fun c hc => List.mem_singleton.1 hc ▸ rfl
  · rw [takeWhole?.eq_2 cs fun tail htail => hzero ⟨tail, htail⟩] at h
    dsimp only at h
    split at h
    · cases h
    · obtain ⟨-, hleft⟩ := Prod.mk.inj (Option.some.inj h)
      rw [spanDigits, List.span_eq_takeWhile_dropWhile] at hleft
      exact fun c hc => List.dropWhile_eq_nil_iff.1 hleft c hc

/-- An integer without a sign is read from digits alone. -/
theorem allDigits_of_takeUnsigned? {negative : Bool} {cs : List Char} {value : Int}
    (h : takeUnsigned? negative cs = some (.number (.integer value), [])) : AllDigits cs := by
  rw [takeUnsigned?_eq] at h
  obtain ⟨⟨whole, rest⟩, hwhole, h⟩ := Option.bind_eq_some_iff.1 h
  dsimp only at h
  split at h
  · cases h
  · obtain ⟨⟨exponent, left⟩, -, h⟩ := Option.map_eq_some_iff.1 h
    obtain ⟨hvalue, rfl⟩ := Prod.mk.inj h
    cases rest with
    | nil => exact allDigits_of_takeWhole? hwhole
    | cons c rest => exact (decimal_ne_integer _ _ _ hvalue).elim

theorem isDigit_of_takeNumber? {cs : List Char} {value : Int}
    (h : Json.takeNumber? cs = some (.number (.integer value), [])) :
    ∀ c ∈ cs, c.isDigit ∨ c = '-' := by
  by_cases hminus : ∃ tail, cs = '-' :: tail
  · obtain ⟨tail, rfl⟩ := hminus
    intro c hc
    rcases List.mem_cons.1 hc with rfl | hc
    · exact .inr rfl
    · exact .inl (allDigits_of_takeUnsigned? h c hc)
  · rw [takeNumber?.eq_2 cs fun tail htail => hminus ⟨tail, htail⟩] at h
    exact fun c hc => .inl (allDigits_of_takeUnsigned? h c hc)

theorem chars_of_isFinite {x : Float} (hx : x.isFinite) :
    Style.json.chars x =
      (if isNegative x then ['-'] else []) ++ Style.json.magnitude (word x) := by
  have hlt := (isFinite_iff x).1 hx
  rw [Style.chars]
  dsimp only
  rw [if_neg (Nat.not_lt_of_lt hlt), if_neg hlt.ne]

/-- **A recovered number is read as a decimal.** -/
theorem Recovers.takeNumber? {x : Float} (hx : x.isFinite) (h : Recovers x) :
    Json.takeNumber? (numberChars (.decimal x)) = some (.ofFloat x, []) := by
  obtain ⟨j, hj, hvalue⟩ := h
  rw [numberChars, if_pos hx, hj]
  rcases j with _ | _ | ⟨value | y⟩ | _ | _ | _ | _
  case number.decimal => rw [Option.some.inj hvalue]; rfl
  case number.integer =>
    -- the point or the exponent would be a digit
    obtain ⟨c, hc, hpoint⟩ := exists_mem_magnitude (word x)
    have hmem : c ∈ Style.json.chars x := by
      rw [chars_of_isFinite hx]
      exact List.mem_append_right _ hc
    rcases hpoint with rfl | rfl <;> rcases isDigit_of_takeNumber? hj _ hmem with h | h <;> cases h
  all_goals cases hvalue

end Written

end CircuitExchange.Json
