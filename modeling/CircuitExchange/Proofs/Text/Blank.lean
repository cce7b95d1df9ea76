import Mathlib
import CircuitExchange.Text.Blank

/-!
Trimmed texts. The blank characters are listed one by one, and a text is trimmed to what is between
the blanks at its ends, apart from how it is computed.

* `isBlank_iff`: the table of ranges covers the blank characters and no others.
* `trim_append_cons`, `trim_blank_append`, `trim_append_of_blank`: where a text is cut off.
* `isTrimmed_iff`: trimming takes off all blanks at the ends, and nothing else.
-/

namespace CircuitExchange.Text

/-! ### Blank characters -/

/-- The characters with the property `White_Space`. -/
def whiteSpace : List Char :=
  ['\t', '\n', '\x0b', '\x0c', '\r', ' ', '\u0085', '\u00a0', '\u1680', '\u2000', '\u2001',
    '\u2002', '\u2003', '\u2004', '\u2005', '\u2006', '\u2007', '\u2008', '\u2009', '\u200a',
    '\u2028', '\u2029', '\u202f', '\u205f', '\u3000']

theorem isBlank_iff {c : Char} : isBlank c ↔ c ∈ whiteSpace := by
  simp only [isBlank, blankRanges, whiteSpace, List.any_cons, List.any_nil, Bool.or_false,
    Bool.or_eq_true, Bool.and_eq_true, decide_eq_true_eq, List.mem_cons, List.not_mem_nil,
    or_false, ← Char.toNat_inj, Char.reduceToNat]
  omega

theorem isBlank_eq_false_iff {c : Char} : isBlank c = false ↔ c ∉ whiteSpace := by
  rw [← isBlank_iff, Bool.not_eq_true]

section Lists

variable {α : Type} {p : α → Bool} {a : α}

theorem takeWhile_append_cons (h : p a = false) (xs ys : List α) :
    (xs ++ a :: ys).takeWhile p = xs.takeWhile p := by
  induction xs with
  | nil => simp [h]
  | cons x xs ih => simp only [List.cons_append, List.takeWhile_cons, ih]

theorem dropWhile_append_cons (h : p a = false) (xs ys : List α) :
    (xs ++ a :: ys).dropWhile p = xs.dropWhile p ++ a :: ys := by
  induction xs with
  | nil => simp [h]
  | cons x xs ih =>
    simp only [List.cons_append, List.dropWhile_cons, ih]
    split <;> rfl

end Lists

/-! ### Trimmed texts -/

section Trim

variable {c : Char} {cs ws : List Char}

theorem trimStart_append_cons (hc : isBlank c = false) (xs ys : List Char) :
    trimStart (xs ++ c :: ys) = trimStart xs ++ c :: ys := dropWhile_append_cons hc xs ys

theorem trimEnd_append_cons (hc : isBlank c = false) (xs ys : List Char) :
    trimEnd (xs ++ c :: ys) = xs ++ c :: trimEnd ys := by
  simp [trimEnd, dropWhile_append_cons hc]

theorem trimStart_of_blank (h : ∀ c ∈ ws, isBlank c) : trimStart ws = [] :=
  List.dropWhile_eq_nil_iff.2 h

theorem trimEnd_append_of_blank (h : ∀ c ∈ ws, isBlank c) (xs : List Char) :
    trimEnd (xs ++ ws) = trimEnd xs := by
  have hreverse : ∀ c ∈ ws.reverse, isBlank c := fun c hc => h c (List.mem_reverse.1 hc)
  rw [trimEnd, List.reverse_append, List.dropWhile_append_of_pos hreverse, trimEnd]

/-- A text is blank, or it begins with a character that is not after some that are. -/
theorem blank_or_exists_cons (cs : List Char) : (∀ c ∈ cs, isBlank c) ∨
    ∃ us c vs, cs = us ++ c :: vs ∧ (∀ d ∈ us, isBlank d) ∧ isBlank c = false := by
  cases hrest : trimStart cs with
  | nil => exact .inl (List.dropWhile_eq_nil_iff.1 hrest)
  | cons c vs =>
    refine .inr ⟨cs.takeWhile isBlank, c, vs, ?_, fun d hd => List.mem_takeWhile_imp hd, ?_⟩
    · rw [← hrest, trimStart, List.takeWhile_append_dropWhile]
    · have hhead := List.head?_dropWhile_not isBlank cs
      rw [trimStart] at hrest
      rwa [hrest] at hhead

theorem trim_of_blank (h : ∀ c ∈ ws, isBlank c) : trim ws = [] := by
  rw [trim, trimStart_of_blank h]
  rfl

theorem trim_append_cons (hc : isBlank c = false) (xs ys : List Char) :
    trim (xs ++ c :: ys) = trimStart xs ++ c :: trimEnd ys := by
  rw [trim, trimStart_append_cons hc, trimEnd_append_cons hc]

theorem trim_append_of_blank (h : ∀ c ∈ ws, isBlank c) (cs : List Char) :
    trim (cs ++ ws) = trim cs := by
  rcases blank_or_exists_cons cs with hcs | ⟨us, c, vs, rfl, -, hc⟩
  · rw [trim_of_blank hcs, trim_of_blank (List.forall_mem_append.2 ⟨hcs, h⟩)]
  · rw [List.append_assoc, List.cons_append, trim_append_cons hc, trim_append_cons hc,
      trimEnd_append_of_blank h]

theorem trim_blank_append (h : ∀ c ∈ ws, isBlank c) (cs : List Char) :
    trim (ws ++ cs) = trim cs := by
  rw [trim, trimStart, List.dropWhile_append_of_pos h]
  rfl

theorem exists_trimEnd_append (cs : List Char) :
    ∃ ws, cs = trimEnd cs ++ ws ∧ ∀ c ∈ ws, isBlank c := by
  refine ⟨(cs.reverse.takeWhile isBlank).reverse, ?_, fun c hc => ?_⟩
  · rw [trimEnd, ← List.reverse_append, List.takeWhile_append_dropWhile, List.reverse_reverse]
  · exact List.mem_takeWhile_imp (List.mem_reverse.1 hc)

theorem exists_trim (cs : List Char) : ∃ us vs, cs = us ++ (trim cs ++ vs) ∧
    (∀ c ∈ us, isBlank c) ∧ ∀ c ∈ vs, isBlank c := by
  obtain ⟨vs, hvs, hblank⟩ := exists_trimEnd_append (trimStart cs)
  refine ⟨cs.takeWhile isBlank, vs, ?_, fun c hc => List.mem_takeWhile_imp hc, hblank⟩
  rw [trim, ← hvs, trimStart, List.takeWhile_append_dropWhile]

theorem trimEnd_trimEnd (cs : List Char) : trimEnd (trimEnd cs) = trimEnd cs := by
  obtain ⟨ws, hws, hblank⟩ := exists_trimEnd_append cs
  exact (trimEnd_append_of_blank hblank _).symm.trans (congrArg trimEnd hws.symm)

theorem trim_trim (cs : List Char) : trim (trim cs) = trim cs := by
  rcases blank_or_exists_cons cs with hcs | ⟨us, c, vs, rfl, hus, hc⟩
  · rw [trim_of_blank hcs]
    rfl
  · rw [trim_append_cons hc, trimStart_of_blank hus, trim_append_cons hc, trimEnd_trimEnd]
    rfl

theorem trim_trimStart (cs : List Char) : trim (trimStart cs) = trim cs := by
  rw [trim, trimStart, trimStart, List.dropWhile_idempotent, trim, trimStart]

/-- A text that does not start with a blank is not cut off at its start. -/
theorem trimStart_of_head? (h : ∀ c ∈ cs.head?, isBlank c = false) : trimStart cs = cs := by
  cases cs with
  | nil => rfl
  | cons c cs => rw [trimStart, List.dropWhile_cons, h c rfl, if_neg Bool.false_ne_true]

theorem trimEnd_of_getLast? (h : ∀ c ∈ cs.getLast?, isBlank c = false) : trimEnd cs = cs := by
  rw [← List.head?_reverse] at h
  have hreverse := trimStart_of_head? h
  rw [trimStart] at hreverse
  rw [trimEnd, hreverse, List.reverse_reverse]

theorem isBlank_of_mem_head?_trimStart (h : c ∈ (trimStart cs).head?) : isBlank c = false := by
  have hhead := List.head?_dropWhile_not isBlank cs
  rw [trimStart] at h
  rwa [Option.mem_def.1 h] at hhead

end Trim

/-! ### What a text is trimmed to -/

/-- The word is the text without the blanks at its ends. -/
structure IsTrimmed (text word : List Char) : Prop where
  blank : ∃ left right, text = left ++ (word ++ right) ∧ ∀ c ∈ left ++ right, c ∈ whiteSpace
  first : ∀ c ∈ word.head?, c ∉ whiteSpace
  last : ∀ c ∈ word.getLast?, c ∉ whiteSpace

/-- **A text is trimmed to the word between the blanks at its ends.** -/
theorem isTrimmed_iff {text word : List Char} : IsTrimmed text word ↔ trim text = word := by
  constructor
  · rintro ⟨⟨left, right, rfl, hblank⟩, hfirst, hlast⟩
    obtain ⟨hleft, hright⟩ := List.forall_mem_append.1 fun c hc => isBlank_iff.2 (hblank c hc)
    have hstart := trimStart_of_head? fun c hc => isBlank_eq_false_iff.2 (hfirst c hc)
    have hend := trimEnd_of_getLast? fun c hc => isBlank_eq_false_iff.2 (hlast c hc)
    rw [trim_blank_append hleft, trim_append_of_blank hright, trim, hstart, hend]
  · rintro rfl
    obtain ⟨left, right, htext, hleft, hright⟩ := exists_trim text
    refine ⟨⟨left, right, htext, fun c hc => ?_⟩, fun c hc => ?_, fun c hc => ?_⟩
    · exact isBlank_iff.1 (List.forall_mem_append.2 ⟨hleft, hright⟩ c hc)
    · rcases blank_or_exists_cons text with hall | ⟨us, d, vs, rfl, hus, hd⟩
      · rw [trim_of_blank hall] at hc
        cases hc
      · rw [trim_append_cons hd, trimStart_of_blank hus] at hc
        obtain rfl := Option.some.inj hc
        exact isBlank_eq_false_iff.1 hd
    · rw [trim, trimEnd, List.getLast?_reverse] at hc
      exact isBlank_eq_false_iff.1 (isBlank_of_mem_head?_trimStart hc)

end CircuitExchange.Text
