import Mathlib
import CircuitExchange.Proofs.Decimal.Nearest
import CircuitExchange.Decimal.Text

/-!
Written magnitudes. A magnitude is spelled by digits before the point, digits after it and an
exponent; only the first part is always there.

* `Spelling.read?_chars`: a spelling is read as the numeral it spells.
* `exists_spelling`: every magnitude of a token is written by a spelling whose numeral is rounded to
  this magnitude again.
-/

namespace CircuitExchange.Decimal

/-- Text that consists of decimal digits. -/
def AllDigits (cs : List Char) : Prop := ∀ c ∈ cs, c.isDigit

/-- Text that starts with no decimal digit. -/
def NoDigitHead (cs : List Char) : Prop := ∀ c ∈ cs.head?, c.isDigit = false

theorem AllDigits.append {cs ds : List Char} (hc : AllDigits cs) (hd : AllDigits ds) :
    AllDigits (cs ++ ds) := fun c h => (List.mem_append.1 h).elim (hc c) (hd c)

/-- Every text starts with a run of digits, maybe an empty one, that ends where no digit follows. -/
theorem exists_digits (cs : List Char) :
    ∃ ds rest, cs = ds ++ rest ∧ AllDigits ds ∧ NoDigitHead rest := by
  refine ⟨cs.takeWhile Char.isDigit, cs.dropWhile Char.isDigit,
    List.takeWhile_append_dropWhile.symm, fun d hd => List.mem_takeWhile_imp hd, fun d hd => ?_⟩
  have hhead := List.head?_dropWhile_not Char.isDigit cs
  rwa [hd] at hhead

theorem allDigits_digits (n : Nat) : AllDigits (digits n) := fun _ h =>
  Nat.isDigit_of_mem_toDigits (by decide) (by decide) h

theorem allDigits_zeros (n : Nat) : AllDigits (List.replicate n '0') := fun c h => by
  rw [List.eq_of_mem_replicate h]
  rfl

/-- A run of digits ends where the text goes on with something else. -/
theorem spanDigits_append {ds rest : List Char} (hd : AllDigits ds) (hr : NoDigitHead rest) :
    Numeral.spanDigits (ds ++ rest) = (ds, rest) := by
  have htake : rest.takeWhile Char.isDigit = [] := by
    cases rest with
    | nil => rfl
    | cons c cs => simp [hr c rfl]
  have hdrop : rest.dropWhile Char.isDigit = rest := by
    cases rest with
    | nil => rfl
    | cons c cs => simp [hr c rfl]
  rw [Numeral.spanDigits, List.span_eq_takeWhile_dropWhile,
    List.takeWhile_append_of_pos hd, List.dropWhile_append_of_pos hd, htake, hdrop,
    List.append_nil]

/-! ### The number that digits write -/

theorem ofDigits_eq (ds : List Char) : ofDigits ds = Nat.ofDigitChars 10 ds 0 := rfl

@[simp]
theorem ofDigits_digits (n : Nat) : ofDigits (digits n) = n := Nat.ofDigitChars_ten_toDigits

theorem ofDigits_append_zeros (ds : List Char) (n : Nat) :
    ofDigits (ds ++ List.replicate n '0') = ofDigits ds * tenPow n := by
  rw [ofDigits_eq, Nat.ofDigitChars_append, Nat.ofDigitChars_replicate_zero, Nat.mul_comm]
  rfl

theorem ofDigits_zeros_append (ds : List Char) (n : Nat) :
    ofDigits (List.replicate n '0' ++ ds) = ofDigits ds := by
  rw [ofDigits_eq, Nat.ofDigitChars_append, Nat.ofDigitChars_replicate_zero, Nat.mul_zero]
  rfl

/-! ### Spellings -/

/-- The parts of a written magnitude. -/
structure Spelling where
  whole : List Char
  /-- The digits after the point. Without any there is no point. -/
  fraction : List Char
  /-- Whether the exponent is negative, and its digits. -/
  exponent : Option (Bool × List Char)

namespace Spelling

structure WellFormed (sp : Spelling) : Prop where
  whole_ne : sp.whole ≠ []
  whole_digits : AllDigits sp.whole
  fraction_digits : AllDigits sp.fraction
  exponent_ne : ∀ e ∈ sp.exponent, e.2 ≠ []
  exponent_digits : ∀ e ∈ sp.exponent, AllDigits e.2

def fractionChars (sp : Spelling) : List Char :=
  match sp.fraction with
  | [] => []
  | d :: ds => '.' :: d :: ds

def exponentChars (sp : Spelling) : List Char :=
  match sp.exponent with
  | none => []
  | some (negative, ds) => 'e' :: ((if negative then ['-'] else []) ++ ds)

def chars (sp : Spelling) : List Char := sp.whole ++ sp.fractionChars ++ sp.exponentChars

def exponentValue (sp : Spelling) : Int :=
  match sp.exponent with
  | none => 0
  | some (negative, ds) => if negative then -(ofDigits ds : Int) else ofDigits ds

/-- The numeral that is spelled. -/
def numeral (sp : Spelling) : Numeral :=
  ⟨ofDigits (sp.whole ++ sp.fraction), sp.exponentValue - sp.fraction.length⟩

theorem noDigitHead_exponentChars_append (sp : Spelling) {rest : List Char}
    (hr : NoDigitHead rest) : NoDigitHead (sp.exponentChars ++ rest) := by
  unfold exponentChars
  split
  · exact hr
  · rintro _ ⟨⟩
    rfl

theorem noDigitHead_fractionChars_append (sp : Spelling) {rest : List Char}
    (hr : NoDigitHead rest) : NoDigitHead (sp.fractionChars ++ (sp.exponentChars ++ rest)) := by
  unfold fractionChars
  split
  · exact sp.noDigitHead_exponentChars_append hr
  · rintro _ ⟨⟩
    rfl

theorem noDigitHead_nil : NoDigitHead [] := by simp [NoDigitHead]

theorem noDigitHead_exponentChars (sp : Spelling) : NoDigitHead sp.exponentChars := by
  simpa using sp.noDigitHead_exponentChars_append noDigitHead_nil

theorem noDigitHead_fractionChars (sp : Spelling) :
    NoDigitHead (sp.fractionChars ++ sp.exponentChars) := by
  simpa using sp.noDigitHead_fractionChars_append noDigitHead_nil

theorem takeFraction_chars {sp : Spelling} (h : sp.WellFormed) :
    Numeral.takeFraction (sp.fractionChars ++ sp.exponentChars) =
      (sp.fraction, sp.exponentChars) := by
  have hd := h.fraction_digits
  unfold fractionChars
  cases hf : sp.fraction with
  | nil =>
    cases he : sp.exponent with
    | none => simp [exponentChars, he, Numeral.takeFraction]
    | some e => simp [exponentChars, he, Numeral.takeFraction]
  | cons d ds =>
    rw [hf] at hd
    exact spanDigits_append hd sp.noDigitHead_exponentChars

theorem takeExponent?_chars {sp : Spelling} (h : sp.WellFormed) :
    Numeral.takeExponent? sp.exponentChars = some (sp.exponentValue, []) := by
  unfold exponentChars exponentValue
  cases he : sp.exponent with
  | none => rfl
  | some e =>
    obtain ⟨negative, ds⟩ := e
    have hne := h.exponent_ne _ he
    have hd := h.exponent_digits _ he
    have hspan := spanDigits_append hd noDigitHead_nil
    rw [List.append_nil] at hspan
    cases negative with
    | true => simp [Numeral.takeExponent?, hspan, hne]
    | false =>
      -- no digit is taken for a sign
      cases ds with
      | nil => exact absurd rfl hne
      | cons d ds =>
        have hdigit : d.isDigit := hd d (List.mem_cons_self ..)
        have hminus : d ≠ '-' := by rintro rfl; simp at hdigit
        have hplus : d ≠ '+' := by rintro rfl; simp at hdigit
        simp [Numeral.takeExponent?, hspan, hminus, hplus]

/-- A spelling is read as the numeral it spells. -/
theorem read?_chars {sp : Spelling} (h : sp.WellFormed) :
    Numeral.read? sp.chars = some sp.numeral := by
  have hspan := spanDigits_append h.whole_digits sp.noDigitHead_fractionChars
  rw [Numeral.read?, chars, List.append_assoc, Numeral.take?, hspan]
  simp only [takeFraction_chars h, takeExponent?_chars h]
  simp [h.whole_ne, numeral]

end Spelling

/-! ### Written magnitudes -/

section Written

variable {style : Style} {ds : List Char} {a : Numeral}

/-- Digits with a point in their place spell the numeral they are the digits of. -/
theorem exists_spelling_positional (hw : style.wholeDecimal = false) (hne : ds ≠ [])
    (hd : AllDigits ds) (ha : ofDigits ds = a.significand) :
    ∃ sp : Spelling, sp.WellFormed ∧
      style.positionalText ds (a.exponent + ds.length) = sp.chars ∧
      sp.numeral.nearest = a.nearest := by
  unfold Style.positionalText
  by_cases hzero : a.exponent + ds.length ≤ 0
  · -- all digits stand after the point
    set zeros := List.replicate (-(a.exponent + ds.length)).toNat '0' with hzeros
    have hfrac : zeros ++ ds ≠ [] := by simp [hne]
    have hdigits : AllDigits (zeros ++ ds) := (allDigits_zeros _).append hd
    refine ⟨⟨['0'], zeros ++ ds, none⟩, ⟨by simp, by simp [AllDigits], hdigits, by simp, by simp⟩,
      ?_, ?_⟩
    · rw [if_pos hzero]
      obtain ⟨c, cs, hc⟩ := List.exists_cons_of_ne_nil hfrac
      simp [Spelling.chars, Spelling.fractionChars, Spelling.exponentChars, hc]
    · have hvalue : ofDigits (['0'] ++ (zeros ++ ds)) = a.significand := by
        rw [← ha, ← ofDigits_zeros_append ds (-(a.exponent + ds.length)).toNat,
          ← ofDigits_zeros_append _ 1]
        rfl
      have hexp : (0 : Int) - ((zeros ++ ds).length : Int) = a.exponent := by
        rw [List.length_append, hzeros, List.length_replicate]
        omega
      simp only [Spelling.numeral, Spelling.exponentValue, hvalue, hexp]
  · rw [if_neg hzero]
    by_cases hwhole : (ds.length : Int) ≤ a.exponent + ds.length
    · -- zeros fill the place up to the point
      obtain ⟨j, hj⟩ : ∃ j : Nat, a.exponent = j := ⟨a.exponent.toNat, by omega⟩
      have hfill : (a.exponent + ds.length - ds.length).toNat = j := by omega
      refine ⟨⟨ds ++ List.replicate j '0', [], none⟩,
        ⟨by simp [hne], hd.append (allDigits_zeros _), by simp [AllDigits], by simp, by simp⟩,
        ?_, ?_⟩
      · rw [if_pos hwhole, hw, hfill]
        simp [Spelling.chars, Spelling.fractionChars, Spelling.exponentChars]
      · simp only [Spelling.numeral, Spelling.exponentValue, List.append_nil,
          ofDigits_append_zeros, ha, Numeral.nearest_mul_tenPow]
        congr 2
        simp [hj]
    · -- the point stands among the digits
      rw [if_neg hwhole]
      set p := (a.exponent + ds.length).toNat with hp
      have hpos : 0 < p := by omega
      have hlt : p < ds.length := by omega
      have htake : ds.take p ≠ [] := by
        rw [← List.length_pos_iff, List.length_take]
        omega
      have hdrop : ds.drop p ≠ [] := by
        rw [← List.length_pos_iff, List.length_drop]
        omega
      refine ⟨⟨ds.take p, ds.drop p, none⟩,
        ⟨htake, fun c hc => hd c (List.mem_of_mem_take hc),
          fun c hc => hd c (List.mem_of_mem_drop hc), by simp, by simp⟩, ?_, ?_⟩
      · obtain ⟨c, cs, hc⟩ := List.exists_cons_of_ne_nil hdrop
        simp [Spelling.chars, Spelling.fractionChars, Spelling.exponentChars, hc]
      · have hexp : (0 : Int) - ((ds.drop p).length : Int) = a.exponent := by
          rw [List.length_drop]
          omega
        simp only [Spelling.numeral, Spelling.exponentValue, List.take_append_drop, ha, hexp]

/-- Digits with an exponent spell the numeral they are the digits of. -/
theorem exists_spelling_exponent (hp : style.exponentPlus = false) (hne : ds ≠ [])
    (hd : AllDigits ds) (ha : ofDigits ds = a.significand) :
    ∃ sp : Spelling, sp.WellFormed ∧
      style.exponentText ds (a.exponent + ds.length - 1) = sp.chars ∧
      sp.numeral = a := by
  set e := a.exponent + ds.length - 1 with he
  obtain ⟨d, rest, rfl⟩ := List.exists_cons_of_ne_nil hne
  refine ⟨⟨[d], rest, some (decide (e < 0), digits e.natAbs)⟩,
    ⟨by simp, fun c hc => hd c (by simp_all), fun c hc => hd c (List.mem_cons_of_mem _ hc), ?_, ?_⟩,
    ?_, ?_⟩
  · rintro _ ⟨⟩
    exact Nat.toDigits_ne_nil
  · rintro _ ⟨⟩
    exact allDigits_digits _
  · unfold Style.exponentText
    cases rest <;>
      simp [Spelling.chars, Spelling.fractionChars, Spelling.exponentChars, hp]
  · have hvalue : (if e < 0 then -(e.natAbs : Int) else e.natAbs) = e := by
      split <;> omega
    have hexp : e - rest.length = a.exponent := by
      rw [he, List.length_cons]
      push_cast
      omega
    simp only [Spelling.numeral, Spelling.exponentValue, List.cons_append, List.nil_append, ha,
      ofDigits_digits, decide_eq_true_eq, hvalue, hexp]

/-- Every finite magnitude is written by a spelling that is rounded to it. -/
theorem exists_spelling (hw : style.wholeDecimal = false) (hp : style.exponentPlus = false)
    {k : Nat} (hk : k < infinityWord) :
    ∃ sp : Spelling, sp.WellFormed ∧ style.magnitude k = sp.chars ∧ sp.numeral.nearest = k := by
  unfold Style.magnitude
  rcases Nat.eq_zero_or_pos k with rfl | hpos
  · rw [if_pos rfl, hw]
    split
    · exact ⟨⟨['0'], [], none⟩, ⟨by simp, by simp [AllDigits], by simp [AllDigits], by simp,
        by simp⟩, rfl, Numeral.nearest_zero _⟩
    · exact ⟨⟨['0'], [], some (false, ['0'])⟩, ⟨by simp, by simp [AllDigits], by simp [AllDigits],
        by simp, by simp [AllDigits]⟩, rfl, Numeral.nearest_zero _⟩
  · have hnearest := nearest_shortest style.tie hpos hk
    rw [if_neg hpos.ne']
    dsimp only
    set a := shortest style.tie k with ha
    split
    · obtain ⟨sp, hsp, hchars, hsame⟩ := exists_spelling_positional (a := a) hw
        Nat.toDigits_ne_nil (allDigits_digits a.significand) (ofDigits_digits _)
      exact ⟨sp, hsp, hchars, hsame.trans hnearest⟩
    · obtain ⟨sp, hsp, hchars, hsame⟩ := exists_spelling_exponent (a := a) hp
        Nat.toDigits_ne_nil (allDigits_digits a.significand) (ofDigits_digits _)
      exact ⟨sp, hsp, hchars, hsame ▸ hnearest⟩

end Written

end CircuitExchange.Decimal
