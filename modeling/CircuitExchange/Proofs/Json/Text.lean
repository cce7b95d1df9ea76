import Mathlib
import CircuitExchange.Proofs.Json.Scalar

/-!
Values that are read back from their text, in both layouts. The text of a value is followed by the
rest of the text it is part of, and the bound of the reader stays above the length that is left.

* `Recoverable`: trees whose numbers are each read back.
* `takeItems?_chars`, `takeMembers?_chars`: the parts of a list and of an object.
* `Recoverable.isRead`: a recoverable tree is read at any level of nesting.
* `Recoverable.parse?_text`, `Recoverable.parse?_line`: and from a text or a line of its own.
* `exists_of_take?_array`: what the text of a list begins with, however it is laid out.
-/

namespace CircuitExchange.Json

/-! ### Blanks -/

/-- Text of nothing but blanks. -/
def AllBlank (cs : List Char) : Prop := ∀ c ∈ cs, isBlank c

theorem skipBlanks_append {lead : List Char} (h : AllBlank lead) (cs : List Char) :
    skipBlanks (lead ++ cs) = skipBlanks cs := List.dropWhile_append_of_pos h

theorem skipBlanks_cons {c : Char} (h : isBlank c = false) (cs : List Char) :
    skipBlanks (c :: cs) = c :: cs := List.dropWhile_cons_of_neg (Bool.eq_false_iff.1 h)

theorem allBlank_lineBreak (layout : Layout) (level : Nat) : AllBlank (layout.lineBreak level) := by
  cases layout with
  | compact => exact fun c hc => absurd hc List.not_mem_nil
  | pretty =>
    intro c hc
    rcases List.mem_cons.1 hc with rfl | hc
    · rfl
    · rw [List.eq_of_mem_replicate hc]
      rfl

/-- Blanks before a value are passed over. -/
theorem takeValue?_append {lead : List Char} (h : AllBlank lead) (bound : Nat) (cs : List Char) :
    takeValue? bound (lead ++ cs) = takeValue? bound cs := by
  cases bound with
  | zero => rw [takeValue?, takeValue?]
  | succ bound => rw [takeValue?, takeValue?, skipBlanks_append h]

theorem isBlank_iff {c : Char} : isBlank c ↔ c = ' ' ∨ c = '\t' ∨ c = '\r' ∨ c = '\n' := by
  simp [isBlank, or_assoc]

theorem endsNumber_cons {c : Char} (h : c.isDigit = false ∧ c ≠ '.' ∧ c ≠ 'e' ∧ c ≠ 'E')
    (cs : List Char) : EndsNumber (c :: cs) := by
  rintro _ ⟨⟩
  exact h

/-- Blanks end a number. -/
theorem endsNumber_append {lead rest : List Char} (h : AllBlank lead) (hrest : EndsNumber rest) :
    EndsNumber (lead ++ rest) := by
  cases lead with
  | nil => exact hrest
  | cons c lead =>
    refine endsNumber_cons ?_ _
    rcases isBlank_iff.1 (h c (List.mem_cons_self ..)) with rfl | rfl | rfl | rfl <;> decide

/-! ### Values that are read back -/

/-- A value without a void in it, whose numbers are each read from the text written for it. -/
inductive Recoverable : Json → Prop
  | null : Recoverable null
  | bool (value : Bool) : Recoverable (.bool value)
  | number {value : JsonNumber}
      (h : takeNumber? (numberChars value) = some (.number value, [])) :
      Recoverable (.number value)
  | string (value : String) : Recoverable (.string value)
  | array {items : List Json} (h : ∀ j ∈ items, Recoverable j) : Recoverable (.array items)
  | object {members : List (String × Json)} (h : ∀ m ∈ members, Recoverable m.2) :
      Recoverable (.object members)

section Heads

/-- A character that a number does not start with is no head of one. -/
theorem ne_of_numberHead {c d : Char} (h : c.isDigit ∨ c = '-') (hd : ¬ (d.isDigit ∨ d = '-')) :
    c ≠ d := by
  rintro rfl
  exact hd h

theorem isBlank_of_numberHead {c : Char} (h : c.isDigit ∨ c = '-') : isBlank c = false := by
  rw [Bool.eq_false_iff, ne_eq, isBlank_iff]
  rintro (rfl | rfl | rfl | rfl) <;> revert h <;> decide

/-- The text of a value starts with no blank and does not end a list. -/
theorem Recoverable.exists_head {j : Json} (h : Recoverable j) (layout : Layout) (level : Nat) :
    ∃ c tail, chars layout level j = c :: tail ∧ isBlank c = false ∧ c ≠ ']' := by
  cases h with
  | null => exact ⟨_, _, by rw [chars], by decide, by decide⟩
  | bool value => cases value <;> exact ⟨_, _, by rw [chars], by decide, by decide⟩
  | @number value h =>
    obtain ⟨c, tail, hchars, hc⟩ := head_of_takeNumber? h
    exact ⟨c, tail, by rw [chars, hchars], isBlank_of_numberHead hc,
      ne_of_numberHead hc (by decide)⟩
  | string value => exact ⟨_, _, by rw [chars, quote], by decide, by decide⟩
  | @array items h => cases items <;> exact ⟨_, _, by rw [chars], by decide, by decide⟩
  | @object members h =>
    rcases members with _ | ⟨⟨key, j⟩, rest⟩ <;> exact ⟨_, _, by rw [chars], by decide, by decide⟩

end Heads

/-! ### Items and members -/

section Steps

variable {bound : Nat} {cs left more tail : List Char} {j : Json}

theorem takeItems?_close (hj : takeValue? bound cs = some (j, left))
    (hclose : skipBlanks left = ']' :: tail) : takeItems? (bound + 1) cs = some ([j], tail) := by
  rw [takeItems?, hj]
  simp [hclose]

theorem takeItems?_comma {items : List Json} (hj : takeValue? bound cs = some (j, left))
    (hcomma : skipBlanks left = ',' :: more) (hmore : takeItems? bound more = some (items, tail)) :
    takeItems? (bound + 1) cs = some (j :: items, tail) := by
  rw [takeItems?, hj]
  simp [hcomma, hmore]

variable {key : String} {value : List Char}

/-- Text that starts with a key and a colon. -/
structure StartsMember (key : String) (cs value : List Char) : Prop where
  quoted : ∃ rest colon, skipBlanks cs = '"' :: rest ∧ takeString? rest = some (some key, colon) ∧
    skipBlanks colon = ':' :: value

theorem takeMembers?_close (h : StartsMember key cs value)
    (hj : takeValue? bound value = some (j, left)) (hclose : skipBlanks left = '}' :: tail) :
    takeMembers? (bound + 1) cs = some ([(some key, j)], tail) := by
  obtain ⟨rest, colon, hquote, hkey, hcolon⟩ := h.quoted
  rw [takeMembers?, hquote]
  simp [hkey, hcolon, hj, hclose]

theorem takeMembers?_comma {members : List (Option String × Json)} (h : StartsMember key cs value)
    (hj : takeValue? bound value = some (j, left)) (hcomma : skipBlanks left = ',' :: more)
    (hmore : takeMembers? bound more = some (members, tail)) :
    takeMembers? (bound + 1) cs = some ((some key, j) :: members, tail) := by
  obtain ⟨rest, colon, hquote, hkey, hcolon⟩ := h.quoted
  rw [takeMembers?, hquote]
  simp [hkey, hcolon, hj, hcomma, hmore]

theorem takeValue?_string {value : String} (h : takeString? cs = some (some value, left)) :
    takeValue? (bound + 1) ('"' :: cs) = some (.string value, left) := by
  rw [takeValue?, skipBlanks_cons (by decide)]
  simp [h]

theorem takeValue?_array {c : Char} {items : List Json} (hhead : skipBlanks cs = c :: more)
    (hc : c ≠ ']') (h : takeItems? bound (c :: more) = some (items, left)) :
    takeValue? (bound + 1) ('[' :: cs) = some (.array items, left) := by
  rw [takeValue?, skipBlanks_cons (by decide)]
  simp [hhead, hc, h]

theorem ofMembers_map_some (members : List (String × Json)) :
    ofMembers (members.map fun m => (some m.1, m.2)) = .object members := by
  have hkeys : (members.map fun m => (some m.1, m.2)).mapM
      (fun m : Option String × Json => m.1.map (·, m.2)) = some members := by
    induction members with
    | nil => rfl
    | cons m members ih => simp [ih]
  rw [ofMembers, hkeys]

theorem takeValue?_object {c : Char} {members : List (String × Json)}
    (hhead : skipBlanks cs = c :: more) (hc : c ≠ '}')
    (h : takeMembers? bound (c :: more) = some (members.map fun m => (some m.1, m.2), left)) :
    takeValue? (bound + 1) ('{' :: cs) = some (.object members, left) := by
  rw [takeValue?, skipBlanks_cons (by decide)]
  simp [hhead, hc, h, ofMembers_map_some]

theorem takeValue?_number {taken : Json × List Char} (h : takeNumber? cs = some taken) :
    takeValue? (bound + 1) cs = some taken := by
  obtain ⟨c, cs, rfl, hc⟩ := head_of_takeNumber? h
  have hne : ∀ {d : Char}, ¬ (d.isDigit ∨ d = '-') → c ≠ d := fun hd => ne_of_numberHead hc hd
  rw [takeValue?, skipBlanks_cons (isBlank_of_numberHead hc)]
  simp [hne (d := 'n') (by decide), hne (d := 't') (by decide), hne (d := 'f') (by decide),
    hne (d := '"') (by decide), hne (d := '[') (by decide), hne (d := '{') (by decide), h]

end Steps

section Values

variable {layout : Layout}

/-- The value is read from its text at any level, before anything that ends a number. -/
def IsRead (layout : Layout) (j : Json) : Prop :=
  ∀ level bound tail, EndsNumber tail → 2 * (chars layout level j).length ≤ bound →
    takeValue? (bound + 1) (chars layout level j ++ tail) = some (j, tail)

theorem IsRead.takeValue? {j : Json} (h : IsRead layout j) {level bound : Nat}
    {lead tail : List Char} (hlead : AllBlank lead) (htail : EndsNumber tail)
    (hbound : 2 * (chars layout level j).length < bound) :
    Json.takeValue? bound (lead ++ (chars layout level j ++ tail)) = some (j, tail) := by
  obtain ⟨bound, rfl⟩ := Nat.exists_eq_succ_of_ne_zero (Nat.ne_zero_of_lt hbound)
  rw [takeValue?_append hlead]
  exact h level bound tail htail (Nat.le_of_lt_succ hbound)

/-- **Items are read from their text**, with blanks before the first and after the last. -/
theorem takeItems?_chars {level bound : Nat} {j : Json} {rest : List Json}
    {lead close : List Char} (hlead : AllBlank lead) (hclose : AllBlank close) (tail : List Char)
    (h : ∀ i ∈ j :: rest, IsRead layout i)
    (hbound :
      2 * ((chars layout level j).length + (itemChars layout level rest).length) < bound) :
    takeItems? (bound + 1)
        (lead ++ (chars layout level j ++
          (itemChars layout level rest ++ (close ++ ']' :: tail)))) =
      some (j :: rest, tail) := by
  have hj := h j (List.mem_cons_self ..)
  induction rest generalizing j lead bound with
  | nil =>
    have hends : EndsNumber (close ++ ']' :: tail) :=
      endsNumber_append hclose (endsNumber_cons (by decide) _)
    rw [itemChars, List.nil_append]
    refine takeItems?_close (hj.takeValue? hlead hends (by omega)) ?_
    rw [skipBlanks_append hclose, skipBlanks_cons (by decide)]
  | cons i rest ih =>
    rw [itemChars, List.length_cons, List.length_append, List.length_append] at hbound
    rw [itemChars, List.cons_append, List.append_assoc, List.append_assoc]
    obtain ⟨bound, rfl⟩ := Nat.exists_eq_succ_of_ne_zero (Nat.ne_zero_of_lt hbound)
    exact takeItems?_comma (hj.takeValue? hlead (endsNumber_cons (by decide) _) (by omega))
      (skipBlanks_cons (by decide) _)
      (ih (allBlank_lineBreak layout level) (fun i hi => h i (List.mem_cons_of_mem j hi))
        (by omega) (h i (by simp)))

theorem exists_startsMember (layout : Layout) {lead : List Char} (hlead : AllBlank lead)
    (key : String) (value : List Char) : ∃ blanks, AllBlank blanks ∧
      StartsMember key (lead ++ (quote key ++ (layout.colon ++ value))) (blanks ++ value) := by
  have hcolon : ∃ blanks, AllBlank blanks ∧ layout.colon = ':' :: blanks := by
    cases layout
    · exact ⟨[], fun c hc => absurd hc List.not_mem_nil, rfl⟩
    · exact ⟨[' '], fun c hc => List.mem_singleton.1 hc ▸ rfl, rfl⟩
  obtain ⟨blanks, hblanks, hcolon⟩ := hcolon
  refine ⟨blanks, hblanks, _, _, ?_, takeString?_quote key (layout.colon ++ value), ?_⟩
  · rw [skipBlanks_append hlead, quote, List.cons_append, skipBlanks_cons (by decide),
      List.append_assoc]
    rfl
  · rw [hcolon, List.cons_append, skipBlanks_cons (by decide)]

/-- **Members are read from their text**, with blanks before the first and after the last. -/
theorem takeMembers?_chars {level bound : Nat} {key : String} {j : Json}
    {rest : List (String × Json)} {lead close : List Char} (hlead : AllBlank lead)
    (hclose : AllBlank close) (tail : List Char) (h : ∀ m ∈ (key, j) :: rest, IsRead layout m.2)
    (hbound :
      2 * ((chars layout level j).length + (memberChars layout level rest).length) < bound) :
    takeMembers? (bound + 1) (lead ++ (quote key ++ (layout.colon ++ (chars layout level j ++
        (memberChars layout level rest ++ (close ++ '}' :: tail)))))) =
      some (((key, j) :: rest).map fun m => (some m.1, m.2), tail) := by
  have hj : IsRead layout j := h (key, j) (List.mem_cons_self ..)
  obtain ⟨blanks, hblanks, hmember⟩ := exists_startsMember layout hlead key
    (chars layout level j ++ (memberChars layout level rest ++ (close ++ '}' :: tail)))
  induction rest generalizing key j lead bound blanks with
  | nil =>
    have hends : EndsNumber (close ++ '}' :: tail) :=
      endsNumber_append hclose (endsNumber_cons (by decide) _)
    rw [memberChars, List.nil_append] at hmember ⊢
    refine takeMembers?_close hmember (hj.takeValue? hblanks hends (by omega)) ?_
    rw [skipBlanks_append hclose, skipBlanks_cons (by decide)]
  | cons m rest ih =>
    obtain ⟨key', i⟩ := m
    simp only [memberChars, List.length_cons, List.length_append] at hbound
    simp only [memberChars, List.cons_append, List.append_assoc] at hmember ⊢
    obtain ⟨bound, rfl⟩ := Nat.exists_eq_succ_of_ne_zero (Nat.ne_zero_of_lt hbound)
    obtain ⟨blanks', hblanks', hmember'⟩ :=
      exists_startsMember layout (allBlank_lineBreak layout level) key' _
    exact takeMembers?_comma hmember
      (hj.takeValue? hblanks (endsNumber_cons (by decide) _) (by omega))
      (skipBlanks_cons (by decide) _)
      (ih (allBlank_lineBreak layout level) (fun m hm => h m (List.mem_cons_of_mem _ hm))
        (by omega) (h (key', i) (by simp)) blanks' hblanks' hmember')

/-- **Values are read back from their text.** -/
theorem Recoverable.isRead {j : Json} (h : Recoverable j) (layout : Layout) : IsRead layout j := by
  induction h with
  | null =>
    intro level bound tail _ _
    rw [chars]
    rfl
  | bool value =>
    intro level bound tail _ _
    cases value <;> rw [chars] <;> rfl
  | number h =>
    intro level bound tail htail _
    rw [chars]
    exact takeValue?_number (takeNumber?_append_suffix htail h)
  | string value =>
    intro level bound tail _ _
    rw [chars, quote, List.cons_append, List.append_assoc]
    exact takeValue?_string (takeString?_quote value tail)
  | @array items h ih =>
    intro level bound tail _ hbound
    cases items with
    | nil =>
      rw [chars]
      rfl
    | cons j rest =>
      obtain ⟨c, cs, hchars, hblank, hc⟩ := (h j (by simp)).exists_head layout (level + 1)
      simp only [chars, List.length_cons, List.length_append] at hbound
      obtain ⟨bound, rfl⟩ : ∃ b, bound = b + 1 := Nat.exists_eq_succ_of_ne_zero (by omega)
      have hfits : 2 * ((chars layout (level + 1) j).length +
          (itemChars layout (level + 1) rest).length) < bound := by omega
      have hitems := takeItems?_chars (fun _ hc => absurd hc List.not_mem_nil)
        (allBlank_lineBreak layout level) tail ih hfits
      rw [List.nil_append, hchars, List.cons_append] at hitems
      simp only [chars, List.cons_append, List.append_assoc, List.nil_append]
      refine takeValue?_array ?_ hc hitems
      rw [skipBlanks_append (allBlank_lineBreak _ _), hchars, List.cons_append,
        skipBlanks_cons hblank]
  | @object members h ih =>
    intro level bound tail _ hbound
    rcases members with _ | ⟨⟨key, j⟩, rest⟩
    · rw [chars]
      rfl
    · simp only [chars, List.length_cons, List.length_append] at hbound
      obtain ⟨bound, rfl⟩ : ∃ b, bound = b + 1 := Nat.exists_eq_succ_of_ne_zero (by omega)
      have hfits : 2 * ((chars layout (level + 1) j).length +
          (memberChars layout (level + 1) rest).length) < bound := by omega
      have hmembers := takeMembers?_chars (fun _ hc => absurd hc List.not_mem_nil)
        (allBlank_lineBreak layout level) tail ih hfits
      rw [List.nil_append, quote, List.cons_append] at hmembers
      simp only [chars, List.cons_append, List.append_assoc, List.nil_append]
      refine takeValue?_object (c := '"') ?_ (by decide) hmembers
      rw [skipBlanks_append (allBlank_lineBreak _ _), quote, List.cons_append,
        skipBlanks_cons (by decide)]

/-- A text that begins with one value is read up to the end of it. -/
theorem Recoverable.take?_append {j : Json} (h : Recoverable j) (layout : Layout)
    {tail : List Char} (htail : EndsNumber tail) :
    take? (chars layout 0 j ++ tail) = some (j, tail) := by
  rw [take?]
  refine h.isRead layout 0 _ tail htail ?_
  rw [List.length_append]
  omega

theorem Recoverable.parse?_text {j : Json} (h : Recoverable j) (layout : Layout) :
    parse? (j.text layout) = some j := by
  have hends : EndsNumber [] := nofun
  have htake := h.take?_append layout hends
  rw [List.append_nil] at htake
  rw [parse?, text, String.toList_ofList, htake]
  rfl

/-- A line that holds one value is that value. -/
theorem Recoverable.take?_line {j : Json} (h : Recoverable j) (layout : Layout) :
    take? (j.text layout ++ "\n").toList = some (j, ['\n']) := by
  have hline : (j.text layout ++ "\n").toList = chars layout 0 j ++ ['\n'] := by
    rw [String.toList_append, text, String.toList_ofList]
    rfl
  rw [hline]
  exact h.take?_append layout (endsNumber_cons (by decide) [])

theorem Recoverable.parse?_line {j : Json} (h : Recoverable j) (layout : Layout) :
    parse? (j.text layout ++ "\n") = some j := by
  rw [parse?, h.take?_line]
  rfl

end Values

/-! ### Texts of lists -/

section Lists

variable {cs rest : List Char} {items : List Json}

theorem decimal_ne_array (negative : Bool) (a : Decimal.Numeral) :
    decimal negative a ≠ array items := by
  intro h
  rw [decimal] at h
  split at h <;> cases h

theorem takeUnsigned?_ne_array (negative : Bool) :
    takeUnsigned? negative cs ≠ some (array items, rest) := by
  intro h
  rw [takeUnsigned?_eq] at h
  obtain ⟨⟨whole, left⟩, -, h⟩ := Option.bind_eq_some_iff.1 h
  dsimp only at h
  split at h
  · cases h
  · obtain ⟨_, -, h⟩ := Option.map_eq_some_iff.1 h
    have hvalue := (Prod.mk.inj h).1
    rw [numberOf] at hvalue
    split at hvalue
    · cases hvalue
    · exact decimal_ne_array _ _ hvalue

theorem takeNumber?_ne_array : takeNumber? cs ≠ some (array items, rest) := by
  rw [takeNumber?.eq_def]
  split <;> exact takeUnsigned?_ne_array _

theorem ofMembers_ne_array (members : List (Option String × Json)) :
    ofMembers members ≠ array items := by
  intro h
  rw [ofMembers] at h
  split at h <;> cases h

/-- **The text of a list** begins with a bracket after any blanks. -/
theorem exists_of_take?_array (h : take? cs = some (array items, rest)) :
    ∃ more, skipBlanks cs = '[' :: more := by
  rw [take?, takeValue?] at h
  split at h
  case h_5 more hmore => exact ⟨more, hmore⟩
  -- words, strings, objects and numbers are no lists
  case h_1 | h_2 | h_3 => cases h
  case h_4 =>
    obtain ⟨⟨value, left⟩, -, h⟩ := Option.bind_eq_some_iff.1 h
    have hvalue := (Prod.mk.inj (Option.some.inj h)).1
    cases value <;> cases hvalue
  case h_6 =>
    split at h
    · cases h
    · obtain ⟨⟨members, left⟩, -, h⟩ := Option.bind_eq_some_iff.1 h
      exact absurd (Prod.mk.inj (Option.some.inj h)).1 (ofMembers_ne_array _)
  case h_7 => exact absurd h takeNumber?_ne_array

end Lists

end CircuitExchange.Json
