import Mathlib
import CircuitExchange.Proofs.Token.Grammar
import CircuitExchange.Proofs.Token.Longest

/-!
The lexemes and stray characters of a text divide it. `IsPartition` says so of any list of them,
apart from how the text is split: the bytes that they cover are in order and leave only blanks
between them, a lexeme covers the longest word of any class at its place, and a stray character is
one at which there is no word.

* `isPartition_lexemes`: every text is divided so.
* `parseFault_eq_strayChar_iff`: the stray character that a token is refused for.
* `lexer_partitions_text`: both.
-/

namespace CircuitExchange

open Decimal

/-! ### Bytes -/

theorem foldl_utf8Size (n : Nat) (cs : List Char) :
    cs.foldl (fun n c => n + c.utf8Size) n = n + byteLength cs := by
  induction cs generalizing n with
  | nil => rfl
  | cons c cs ih => rw [byteLength, List.foldl_cons, List.foldl_cons, ih, ih (0 + c.utf8Size),
      Nat.zero_add, Nat.add_assoc]

theorem byteLength_append (cs ds : List Char) :
    byteLength (cs ++ ds) = byteLength cs + byteLength ds := by
  rw [byteLength, List.foldl_append, foldl_utf8Size, ← byteLength]

theorem byteLength_singleton (c : Char) : byteLength [c] = c.utf8Size := Nat.zero_add _

theorem byteLength_mono {cs ds : List Char} (h : cs <+: ds) :
    byteLength cs ≤ byteLength ds := by
  obtain ⟨rest, rfl⟩ := h
  rw [byteLength_append]
  exact Nat.le_add_right ..

theorem byteLength_pos {cs : List Char} (h : cs ≠ []) : 0 < byteLength cs := by
  obtain ⟨c, cs, rfl⟩ := List.exists_cons_of_ne_nil h
  rw [← List.singleton_append, byteLength_append, byteLength_singleton]
  exact Nat.add_pos_left c.utf8Size_pos _

/-! ### The specification -/

/-- The lexeme stands in the text, which starts at the byte `position`. It covers a word that its
unit is read from, and no word of any class at this place is longer. Digits are an integer exactly
if it has at most 64 bits, and otherwise a number. -/
structure Lexeme.IsMunch (l : Lexeme) (position : Nat) (cs before w after : List Char) : Prop where
  text : cs = before ++ (w ++ after)
  start : l.start = position + byteLength before
  stop : l.stop = l.start + byteLength w
  spelled : l.token.IsSpelled w
  longest : ∀ (kind : LexemeClass) (v : List Char), v <+: w ++ after → kind.Matches v →
    v.length ≤ w.length
  digits : LexemeClass.IsDigits w →
    l.token = if ofDigits w < UInt64.size then .integer (.ofNat (ofDigits w))
      else .number (LexemeClass.numberOf w)

/-- The blanks that may stand between lexemes. -/
def lexerBlanks : List Char := [' ', '\t', '\r', '\n']

theorem isSkipped_iff {c : Char} : isSkipped c ↔ c ∈ lexerBlanks := by
  simp [isSkipped, lexerBlanks, or_assoc]

/-- The character stands in the text, which starts at the byte `position`. It is no blank, and there
is no word of any class at its place. -/
structure StrayChar.IsStray (e : StrayChar) (position : Nat) (cs before after : List Char) :
    Prop where
  text : cs = before ++ e.char :: after
  position : e.position = position + byteLength before
  not_blank : e.char ∉ lexerBlanks
  no_word : ∀ (kind : LexemeClass) (v : List Char), v <+: e.char :: after → ¬ kind.Matches v

/-- What a lexeme or a stray character is to the text. -/
def IsPart (position : Nat) (cs : List Char) : Except StrayChar Lexeme → Prop
  | .ok l => ∃ before w after, l.IsMunch position cs before w after
  | .error e => ∃ before after, e.IsStray position cs before after

/-- The bytes of a lexeme, or of a stray character, up to the one after its last. -/
def span : Except StrayChar Lexeme → Nat × Nat
  | .ok l => (l.start, l.stop)
  | .error e => (e.position, e.position + e.char.utf8Size)

/-- Lexemes and stray characters divide the text, which starts at the byte `position`. They are in
order, none of them is empty or reaches into the next one, and all characters that none of them
covers are blank. -/
structure IsPartition (position : Nat) (cs : List Char) (items : List (Except StrayChar Lexeme)) :
    Prop where
  part : ∀ item ∈ items, IsPart position cs item
  nonempty : ∀ item ∈ items, (span item).1 < (span item).2
  ordered : items.Pairwise fun item later => (span item).2 ≤ (span later).1
  blank : ∀ before c after, cs = before ++ c :: after → c ∈ lexerBlanks ∨
    ∃ item ∈ items, (span item).1 ≤ position + byteLength before ∧
      position + byteLength (before ++ [c]) ≤ (span item).2

/-! ### The text is divided -/

section Part

variable {position : Nat} {cs : List Char} {item : Except StrayChar Lexeme}

/-- A part of a text is also one of the text with more characters in front. -/
theorem IsPart.append_left (w : List Char) (h : IsPart (position + byteLength w) cs item) :
    IsPart position (w ++ cs) item := by
  cases item with
  | ok l =>
    obtain ⟨before, v, after, h⟩ := h
    refine ⟨w ++ before, v, after, ⟨?_, ?_, h.stop, h.spelled, h.longest, h.digits⟩⟩
    · rw [h.text, List.append_assoc]
    · rw [h.start, byteLength_append, Nat.add_assoc]
  | error e =>
    obtain ⟨before, after, h⟩ := h
    refine ⟨w ++ before, after, ⟨?_, ?_, h.not_blank, h.no_word⟩⟩
    · rw [h.text, List.append_assoc]
    · rw [h.position, byteLength_append, Nat.add_assoc]

theorem IsPart.le_span (h : IsPart position cs item) : position ≤ (span item).1 := by
  cases item with
  | ok l =>
    obtain ⟨before, w, after, h⟩ := h
    rw [span, h.start]
    exact Nat.le_add_right ..
  | error e =>
    obtain ⟨before, after, h⟩ := h
    rw [span, h.position]
    exact Nat.le_add_right ..

end Part

namespace IsPartition

variable {position : Nat} {cs : List Char} {items : List (Except StrayChar Lexeme)}

theorem nil (position : Nat) : IsPartition position [] [] where
  part := nofun
  nonempty := nofun
  ordered := .nil
  blank := by simp

theorem skip {c : Char} (hc : c ∈ lexerBlanks)
    (h : IsPartition (position + byteLength [c]) cs items) :
    IsPartition position (c :: cs) items where
  part item hitem := (h.part item hitem).append_left [c]
  nonempty := h.nonempty
  ordered := h.ordered
  blank := by
    rintro (_ | ⟨b, before⟩) d after heq
    · obtain ⟨rfl, -⟩ := List.cons.inj heq
      exact .inl hc
    · obtain ⟨rfl, hcs⟩ := List.cons.inj heq
      rw [← List.singleton_append, List.append_assoc, byteLength_append, byteLength_append [c],
        ← Nat.add_assoc, ← Nat.add_assoc]
      exact h.blank before d after hcs

/-- A part that covers the start of the text comes before the parts of the rest. -/
theorem cons {w : List Char} {item : Except StrayChar Lexeme} (hw : w ≠ [])
    (hpart : IsPart position (w ++ cs) item)
    (hspan : span item = (position, position + byteLength w))
    (h : IsPartition (position + byteLength w) cs items) :
    IsPartition position (w ++ cs) (item :: items) where
  part := List.forall_mem_cons.2 ⟨hpart, fun item hitem => (h.part item hitem).append_left w⟩
  nonempty := by
    refine List.forall_mem_cons.2 ⟨?_, h.nonempty⟩
    rw [hspan]
    exact Nat.lt_add_of_pos_right (byteLength_pos hw)
  ordered := by
    refine List.pairwise_cons.2 ⟨fun later hlater => ?_, h.ordered⟩
    rw [hspan]
    exact (h.part later hlater).le_span
  blank := by
    intro before c after heq
    rw [← List.singleton_append, ← List.append_assoc] at heq
    rcases List.append_eq_append_iff.1 heq with ⟨more, hbefore, hcs⟩ | ⟨more, hw, -⟩
    · -- the character ends the covered word, or is one of the rest
      rcases List.eq_nil_or_concat more with rfl | ⟨before', d, rfl⟩
      · right
        refine ⟨item, List.mem_cons_self .., ?_⟩
        rw [hspan, hbefore, List.append_nil]
        exact ⟨Nat.le_add_right .., le_rfl⟩
      · rw [List.concat_eq_append] at hbefore hcs
        rw [← List.append_assoc] at hbefore
        obtain ⟨rfl, hd⟩ := List.append_inj' hbefore rfl
        obtain rfl := List.singleton_inj.1 hd
        rw [List.append_assoc, List.singleton_append] at hcs
        rw [List.append_assoc, byteLength_append, byteLength_append w, ← Nat.add_assoc,
          ← Nat.add_assoc]
        rcases h.blank before' c after hcs with hc | ⟨later, hlater, hle⟩
        · exact .inl hc
        · exact .inr ⟨later, List.mem_cons_of_mem _ hlater, hle⟩
    · right
      refine ⟨item, List.mem_cons_self .., ?_⟩
      rw [hspan]
      exact ⟨Nat.le_add_right .., Nat.add_le_add_left
        (byteLength_mono ⟨more, hw.symm⟩) position⟩

end IsPartition

/-- The lexeme that is taken covers the longest word. -/
theorem isMunch_of_longestLexeme? {cs : List Char} {kind : LexemeClass} {n : Nat}
    (h : longestLexeme? cs = some (kind, n)) (position : Nat) :
    Lexeme.IsMunch ⟨kind.token (cs.take n), position, position + byteLength (cs.take n), cs⟩
      position cs [] (cs.take n) (cs.drop n) where
  text := (List.take_append_drop n cs).symm
  start := rfl
  stop := rfl
  spelled := isSpelled_of_longestLexeme? h
  longest k v hv hmatches := by
    rw [List.take_append_drop] at hv
    rw [List.length_take_of_le (le_length_of_longestLexeme? h)]
    exact length_le_of_longestLexeme? h hv hmatches
  digits := (isSpelled_of_longestLexeme? h).of_isDigits

/-- **Every text is divided into its lexemes and stray characters.** -/
theorem isPartition_lexemes (position : Nat) (cs : List Char) :
    IsPartition position cs (lexemes position cs) := by
  induction position, cs using lexemes.induct with
  | case1 position =>
    rw [lexemes]
    exact .nil position
  | case2 position c rest hskip ih =>
    rw [lexemes, if_pos hskip]
    rw [← byteLength_singleton] at ih ⊢
    exact ih.skip (isSkipped_iff.1 hskip)
  | case3 position c rest hskip kind n hlongest text stop ih =>
    rw [lexemes, if_neg hskip]
    simp only [hlongest]
    have hne : text ≠ [] := (matches_of_longestLexeme? hlongest).1.ne_nil
    have hrest : (c :: rest).drop n = rest.drop (n - 1) := by
      cases n with
      | zero => exact absurd List.take_zero hne
      | succ n => rfl
    have htext : text ++ rest.drop (n - 1) = c :: rest := by
      rw [← hrest]
      exact List.take_append_drop n (c :: rest)
    have hpart : IsPart position (text ++ rest.drop (n - 1))
        (.ok ⟨kind.token text, position, stop, c :: rest⟩) := by
      rw [htext]
      exact ⟨[], text, _, isMunch_of_longestLexeme? hlongest position⟩
    have hcons := ih.cons hne hpart rfl
    rwa [htext] at hcons
  | case4 position c rest hskip hlongest ih =>
    rw [lexemes, if_neg hskip]
    simp only [hlongest]
    rw [← byteLength_singleton] at ih ⊢
    refine ih.cons (List.cons_ne_nil c []) ⟨[], rest, rfl, rfl, ?_, ?_⟩ ?_
    · exact fun hblank => hskip (isSkipped_iff.2 hblank)
    · exact fun kind v hv => not_matches_of_longestLexeme? hlongest hv
    · rw [byteLength_singleton]
      rfl

/-! ### The first stray character -/

theorem tokenize_eq_error_iff {position : Nat} {cs : List Char} {e : StrayChar} :
    tokenize position cs = .error e ↔ ∃ (ls : List Lexeme) (later : List (Except StrayChar Lexeme)),
      lexemes position cs = ls.map .ok ++ .error e :: later :=
  mapM_id_eq_error_iff

/-- A token is refused for a stray character exactly if its name is one of a gate and the character
is the first that starts no lexeme after the name, whatever else is wrong with the token. -/
theorem parseFault_eq_strayChar_iff {cs : List Char} {e : StrayChar} :
    parseFault cs = .error (.strayChar e) ↔
      ∃ before after, IsCut cs before after ∧
        (∃ g : GateName, WritesName before g.text) ∧
        tokenize (byteLength before) ('(' :: after) = .error e := by
  constructor
  · intro h
    by_cases hmem : '(' ∈ cs
    · obtain ⟨before, after, hcut⟩ := exists_isCut hmem
      rw [parseFault_of_isCut hcut] at h
      split at h
      · cases h
      · rename_i g hname
        refine ⟨before, after, hcut, ⟨g, GateName.parse_eq_ok_iff.1 hname⟩, ?_⟩
        split at h
        · rename_i stray hstray
          obtain rfl := Fault.strayChar.inj (Except.error.inj h)
          exact hstray
        · exact (BlamesArguments.parseArguments _ _ _ h).elim
    · rw [parseFault_of_notMem hmem] at h
      cases h
  · rintro ⟨before, after, hcut, ⟨g, hname⟩, hstray⟩
    rw [parseFault_of_isCut hcut, GateName.parse_eq_ok_iff.2 hname]
    simp only [hstray]

/-- The position of a stray character is the number of bytes in front of it. -/
theorem exists_of_mem_lexemes {position : Nat} {cs : List Char} {e : StrayChar}
    (h : .error e ∈ lexemes position cs) :
    ∃ before after, cs = before ++ e.char :: after ∧ e.position = position + byteLength before := by
  obtain ⟨before, after, hstray⟩ := (isPartition_lexemes position cs).part _ h
  exact ⟨before, after, hstray.text, hstray.position⟩

/-- **The lexer divides its text by longest match**, wherever the text starts. A token with the name
of a gate is refused for the first character after the name that starts no lexeme, and the position
that is reported is its byte in the whole token. -/
theorem lexer_partitions_text :
    (∀ position cs, IsPartition position cs (lexemes position cs)) ∧
      ∀ (t token : String) (e : StrayChar), Record.parse t = .error ⟨token, .strayChar e⟩ ↔
        token = t ∧ ∃ (before after : List Char) (ls : List Lexeme)
            (later : List (Except StrayChar Lexeme)), IsCut t.toList before after ∧
          (∃ g : GateName, WritesName before g.text) ∧
          lexemes (byteLength before) ('(' :: after) = ls.map .ok ++ .error e :: later ∧
          ∃ u v, t.toList = before ++ u ++ e.char :: v ∧ e.position = byteLength (before ++ u) := by
  refine ⟨isPartition_lexemes, fun t token e => ?_⟩
  rw [Record.parse, mapError_eq_error_iff]
  constructor
  · rintro ⟨fault, hfault, heq⟩
    obtain ⟨rfl, rfl⟩ := TokenError.mk.inj heq
    obtain ⟨before, after, hcut, hname, hstray⟩ := parseFault_eq_strayChar_iff.1 hfault
    obtain ⟨ls, later, hlexemes⟩ := tokenize_eq_error_iff.1 hstray
    have hmem : .error e ∈ lexemes (byteLength before) ('(' :: after) := by simp [hlexemes]
    obtain ⟨u, v, htext, hposition⟩ := exists_of_mem_lexemes hmem
    refine ⟨rfl, before, after, ls, later, hcut, hname, hlexemes, u, v, ?_, ?_⟩
    · rw [hcut.1, htext, List.append_assoc]
    · rw [hposition, byteLength_append]
  · rintro ⟨rfl, before, after, ls, later, hcut, hname, hlexemes, -⟩
    exact ⟨_, parseFault_eq_strayChar_iff.2 ⟨before, after, hcut, hname,
      tokenize_eq_error_iff.2 ⟨ls, later, hlexemes⟩⟩, rfl⟩

example : (lexemes 0 "1e+ .5E-2.\u00e91.e pix PI".toList).map span =
    [(0, 1), (1, 2), (2, 3), (4, 9), (9, 10), (10, 12), (12, 14), (14, 15), (16, 19),
      (20, 22)] := by
  decide +kernel

end CircuitExchange
