import Mathlib
import CircuitExchange.Proofs.Document.File
import CircuitExchange.Proofs.Document.Lines
import CircuitExchange.Proofs.Document.Refusal

/-!
A canonical circuit is read from lines with a token each or from a JSON list of tokens, and the
first character that is not blank tells the two apart. This is no restriction on lines: a text that
begins like a list has a first line that is no token. Blank lines, comments, blanks around tokens
and the way lines end leave no trace in the circuit, and only lines that have to be tokens count
for the place of an error.

* `Circuit.HasToken`: a line that is neither blank nor a comment.
* `Circuit.LaidOut`: the texts that tokens are laid out in, a line each.
* `Circuit.LaidOut.tokenLines`: the tokens are read from each of these texts.
* `Circuit.FirstBadLine`: the error of the first line that has to be a token and is none.
* `Circuit.ofLines_eq_error_iff`: lines are refused for it.
* `Document.isJsonList_of_parse?`, `Document.isJsonList_of_ofLines`: lists are taken for lists, and
  lines are not.
* `canonical_sources_agree`: both forms of a circuit, and the error of lines.
-/

namespace CircuitExchange

open Text

/-! ### Lines and what they hold -/

namespace Circuit

/-- A line of nothing but blanks. -/
def IsBlankLine (line : List Char) : Prop := ∀ c ∈ line, isBlank c

/-- A line with two slashes after any blanks. -/
def IsComment (line : List Char) : Prop :=
  ∃ indent text, line = indent ++ '/' :: '/' :: text ∧ ∀ c ∈ indent, isBlank c

/-- A line that has to be a token. -/
def HasToken (line : List Char) : Prop := ¬ IsBlankLine line ∧ ¬ IsComment line

section Lines

variable {line indent : List Char}

theorem trim_eq_nil_iff : trim line = [] ↔ IsBlankLine line := by
  constructor
  · intro h
    obtain ⟨us, vs, hline, hus, hvs⟩ := exists_trim line
    rw [h, List.nil_append] at hline
    rw [hline]
    exact List.forall_mem_append.2 ⟨hus, hvs⟩
  · exact trim_of_blank

theorem trim_comment (hindent : ∀ c ∈ indent, isBlank c) (text : List Char) :
    trim (indent ++ '/' :: '/' :: text) = '/' :: '/' :: trimEnd text := by
  rw [trim_append_cons (by decide), trimStart_of_blank hindent, List.nil_append]
  exact congrArg ('/' :: ·) (trimEnd_append_cons (by decide) [] text)

theorem slashes_prefix_trim_iff : ['/', '/'] <+: trim line ↔ IsComment line := by
  constructor
  · rintro ⟨text, htext⟩
    obtain ⟨us, vs, hline, hus, -⟩ := exists_trim line
    exact ⟨us, text ++ vs, by rw [hline, ← htext]; rfl, hus⟩
  · rintro ⟨indent, text, rfl, hindent⟩
    rw [trim_comment hindent]
    exact ⟨trimEnd text, rfl⟩

/-- **A line is read as a token** unless it is blank or a comment. -/
theorem isTokenLine_trim_iff : isTokenLine (trim line) ↔ HasToken line := by
  rw [isTokenLine, Bool.and_eq_true, Bool.not_eq_true', Bool.not_eq_true', ← Bool.not_eq_true,
    ← Bool.not_eq_true, List.isEmpty_iff, List.isPrefixOf_iff_prefix, trim_eq_nil_iff,
    slashes_prefix_trim_iff]
  rfl

instance : Decidable (HasToken line) := decidable_of_iff _ isTokenLine_trim_iff

end Lines

/-! ### Tokens laid out in a text -/

/-- An accepted token that a line has room for: no line feed in it and no blanks around it. -/
structure FitsLine (t : String) : Prop where
  parse : ∃ r, Record.parse t = .ok r
  notMem : '\n' ∉ t.toList
  trim : Text.trim t.toList = t.toList

/-- Blanks within a line. -/
def IsGap (ws : List Char) : Prop := ∀ c ∈ ws, isBlank c ∧ c ≠ '\n'

/-- What stands on a line, without the end of the line: blanks, a comment, or a token between
blanks. -/
inductive OnLine : List String → List Char → Prop
  | blank {ws : List Char} (hws : IsGap ws) : OnLine [] ws
  | comment {ws text : List Char} (hws : IsGap ws) (htext : '\n' ∉ text) :
      OnLine [] (ws ++ '/' :: '/' :: text)
  | token {us vs : List Char} (t : String) (hus : IsGap us) (hvs : IsGap vs) :
      OnLine [t] (us ++ (t.toList ++ vs))

/-- A text that tokens are laid out in, at most one on a line. Lines end with a line feed, which may
have a carriage return before it. The last line need not have an end. -/
inductive LaidOut : List String → List Char → Prop
  | last {ts : List String} {line : List Char} (h : OnLine ts line) : LaidOut ts line
  | lineFeed {ts more : List String} {line rest : List Char} (h : OnLine ts line)
      (hrest : LaidOut more rest) : LaidOut (ts ++ more) (line ++ '\n' :: rest)
  | carriageReturn {ts more : List String} {line rest : List Char} (h : OnLine ts line)
      (hrest : LaidOut more rest) : LaidOut (ts ++ more) (line ++ '\r' :: '\n' :: rest)

section LaidOut

variable {ts : List String} {ws line text : List Char}

theorem isGap_nil : IsGap [] := fun _ hc => absurd hc List.not_mem_nil

theorem IsGap.isBlank (h : IsGap ws) : ∀ c ∈ ws, isBlank c := fun c hc => (h c hc).1

theorem IsGap.notMem (h : IsGap ws) : '\n' ∉ ws := fun hmem => (h '\n' hmem).2 rfl

/-- What is read from a line is the token on it. -/
theorem OnLine.tokenChars (h : OnLine ts line) (hts : ∀ t ∈ ts, FitsLine t) :
    tokenChars line = ts.map String.toList := by
  cases h with
  | blank hws => rw [tokenChars_of_blank hws.isBlank, List.map_nil]
  | @comment ws text hws htext =>
    have hline : '\n' ∉ ws ++ '/' :: '/' :: text := by simp [hws.notMem, htext]
    rw [tokenChars_of_notMem hline, trim_comment hws.isBlank]
    rfl
  | token t hus hvs =>
    have ht := hts t (List.mem_singleton_self t)
    obtain ⟨r, hr⟩ := ht.parse
    have htoken := Record.isTokenLine_trim (Record.isWritten_of_parse hr)
    have hline : '\n' ∉ Text.trim t.toList := by
      rw [ht.trim]
      exact ht.notMem
    rw [tokenChars_blank_append hus.isBlank, tokenChars_append_of_blank hvs.isBlank,
      tokenChars_token htoken hline, ht.trim]
    rfl

theorem LaidOut.tokenChars (h : LaidOut ts text) (hts : ∀ t ∈ ts, FitsLine t) :
    tokenChars text = ts.map String.toList := by
  induction h with
  | last h => exact h.tokenChars hts
  | lineFeed h _ ih =>
    obtain ⟨hts, hmore⟩ := List.forall_mem_append.1 hts
    rw [tokenChars_append, h.tokenChars hts, ih hmore, List.map_append]
  | carriageReturn h _ ih =>
    obtain ⟨hts, hmore⟩ := List.forall_mem_append.1 hts
    rw [List.append_cons, tokenChars_append, tokenChars_concat_blank (by decide), h.tokenChars hts,
      ih hmore, List.map_append]

/-- **Tokens are read from every text they are laid out in.** -/
theorem LaidOut.tokenLines {source : String} (h : LaidOut ts source.toList)
    (hts : ∀ t ∈ ts, FitsLine t) : tokenLines source = ts := by
  rw [tokenLines_eq, h.tokenChars hts, List.map_map]
  simp [Function.comp_def]

/-- Tokens are laid out in the text that a circuit is written as. -/
theorem laidOut_text (c : Circuit) : LaidOut c.tokens c.text.toList := by
  rw [toList_text]
  induction c.tokens with
  | nil => exact .last (.blank isGap_nil)
  | cons t tokens ih =>
    have hline := OnLine.token t isGap_nil isGap_nil
    rw [List.nil_append, List.append_nil] at hline
    rw [List.flatMap_cons, List.append_assoc]
    exact .lineFeed hline ih

end LaidOut

/-! ### The first bad line -/

/-- The error of the first line that has to be a token and is none. Its index is the number of lines
before it that have to be tokens; blank lines and comments do not count. -/
inductive FirstBadLine (source : String) : CircuitError → Prop
  | intro {before after : List (List Char)} {line : List Char} {e : TokenError}
      (lines : splitLines source.toList = before ++ line :: after)
      (good : ∀ l ∈ before, HasToken l → ∃ r, Record.parse (String.ofList (trim l)) = .ok r)
      (token : HasToken line)
      (fault : Record.parse (String.ofList (trim line)) = .error e) :
      FirstBadLine source ⟨before.countP fun l => HasToken l, String.ofList (trim line), e⟩

/-- The tokens of some lines, not yet parsed. -/
def lineTokens (lines : List (List Char)) : List String :=
  ((lines.map trim).filter isTokenLine).map String.ofList

theorem tokenLines_eq_lineTokens (source : String) :
    tokenLines source = lineTokens (splitLines source.toList) := rfl

section FirstBadLine

variable {source : String} {e : CircuitError} {lines : List (List Char)} {line : List Char}
  {t : String}

theorem mem_lineTokens_iff :
    t ∈ lineTokens lines ↔ ∃ l ∈ lines, HasToken l ∧ String.ofList (trim l) = t := by
  simp only [lineTokens, List.mem_map, List.mem_filter, ← isTokenLine_trim_iff]
  constructor
  · rintro ⟨_, ⟨⟨l, hl, rfl⟩, htoken⟩, rfl⟩
    exact ⟨l, hl, htoken, rfl⟩
  · rintro ⟨l, hl, htoken, rfl⟩
    exact ⟨_, ⟨⟨l, hl, rfl⟩, htoken⟩, rfl⟩

theorem length_lineTokens : (lineTokens lines).length = lines.countP fun l => HasToken l := by
  rw [lineTokens, List.length_map, ← List.countP_eq_length_filter, List.countP_map]
  exact List.countP_congr fun l _ => by simp [isTokenLine_trim_iff]

theorem lineTokens_append (lines lines' : List (List Char)) :
    lineTokens (lines ++ lines') = lineTokens lines ++ lineTokens lines' := by
  simp only [lineTokens, List.map_append, List.filter_append]

theorem lineTokens_cons (h : HasToken line) (lines : List (List Char)) :
    lineTokens (line :: lines) = String.ofList (trim line) :: lineTokens lines := by
  rw [lineTokens, List.map_cons, List.filter_cons_of_pos (isTokenLine_trim_iff.2 h)]
  rfl

/-- A circuit is read if every line that has to be a token is one. -/
theorem ofLines_eq_ok_of_good (h : ∀ l ∈ splitLines source.toList, HasToken l →
    ∃ r, Record.parse (String.ofList (trim l)) = .ok r) :
    ofLines source = .ok ⟨tokenLines source⟩ := by
  refine ofLines_eq_ok_iff.2 ⟨rfl, validate_eq_ok_iff.2 fun t ht => ?_⟩
  obtain ⟨l, hl, htoken, rfl⟩ := mem_lineTokens_iff.1 ht
  exact h l hl htoken

theorem ofLines_eq_error_of_gates (h : gates ⟨tokenLines source⟩ = .error e) :
    ofLines source = .error e := by
  rw [ofLines, validate, h]
  rfl

/-- Lines with a bad one among them are refused for the first. -/
theorem FirstBadLine.ofLines_eq_error (h : FirstBadLine source e) : ofLines source = .error e := by
  cases h with
  | @intro before after line e hlines hgood htoken hfault =>
    have htokens : tokenLines source =
        lineTokens before ++ String.ofList (trim line) :: lineTokens after := by
      rw [tokenLines_eq_lineTokens, hlines, lineTokens_append, lineTokens_cons htoken]
    have hparsed : ∀ t ∈ lineTokens before, ∃ r, Record.parse t = .ok r := by
      intro t ht
      obtain ⟨l, hl, hl', rfl⟩ := mem_lineTokens_iff.1 ht
      exact hgood l hl hl'
    refine ofLines_eq_error_of_gates ?_
    rw [gates, htokens, parseFrom_eq_error hparsed hfault, Nat.zero_add, length_lineTokens]

/-- Lines that are refused have a first bad one. -/
theorem exists_firstBadLine (h : ofLines source = .error e) : ∃ e', FirstBadLine source e' := by
  have hbad : ¬ ∀ l ∈ splitLines source.toList, HasToken l →
      ∃ r, Record.parse (String.ofList (trim l)) = .ok r := by
    intro hgood
    cases h.symm.trans (ofLines_eq_ok_of_good hgood)
  obtain ⟨before, line, after, hlines, hgood, hline⟩ := exists_first_not hbad
  obtain ⟨htoken, hnone⟩ := Classical.not_imp.1 hline
  cases hfault : Record.parse (String.ofList (trim line)) with
  | ok r => exact absurd ⟨r, hfault⟩ hnone
  | error e' => exact ⟨_, .intro hlines hgood htoken hfault⟩

/-- **Lines are refused for the first bad one,** and for nothing else. -/
theorem ofLines_eq_error_iff : ofLines source = .error e ↔ FirstBadLine source e := by
  refine ⟨fun h => ?_, FirstBadLine.ofLines_eq_error⟩
  obtain ⟨e', he'⟩ := exists_firstBadLine h
  obtain rfl := Except.error.inj (h.symm.trans he'.ofLines_eq_error)
  exact he'

end FirstBadLine

end Circuit

/-! ### Which form a text has -/

namespace Document

variable {source : String} {c : Circuit}

theorem isJsonList_iff : isJsonList source ↔
    ∃ us rest, source.toList = us ++ '[' :: rest ∧ ∀ d ∈ us, isBlank d := by
  rw [isJsonList, decide_eq_true_iff, List.head?_eq_some_iff]
  constructor
  · rintro ⟨rest, hrest⟩
    refine ⟨source.toList.takeWhile isBlank, rest, ?_, fun d hd => List.mem_takeWhile_imp hd⟩
    rw [← hrest, trimStart, List.takeWhile_append_dropWhile]
  · rintro ⟨us, rest, hsource, hus⟩
    refine ⟨rest, ?_⟩
    rw [hsource, trimStart_append_cons (by decide), trimStart_of_blank hus, List.nil_append]

/-- **The text of a list is taken for one.** -/
theorem isJsonList_of_parse? (h : Json.parse? source = some c.toJson) : isJsonList source := by
  obtain ⟨⟨j, rest⟩, htake, h⟩ := Option.bind_eq_some_iff.1 h
  dsimp only at h
  split at h
  · obtain rfl := Option.some.inj h
    obtain ⟨more, hmore⟩ := Json.exists_of_take?_array htake
    refine isJsonList_iff.2 ⟨source.toList.takeWhile Json.isBlank, more, ?_, fun d hd => ?_⟩
    · rw [← hmore, Json.skipBlanks, List.takeWhile_append_dropWhile]
    · exact isBlank_of_isSkipped (List.mem_takeWhile_imp (p := Json.isBlank) hd)
  · cases h

/-- **Lines of tokens are not taken for a list.** -/
theorem isJsonList_of_ofLines (h : Circuit.ofLines source = .ok c) : isJsonList source = false := by
  obtain ⟨rfl, hvalid⟩ := Circuit.ofLines_eq_ok_iff.1 h
  rw [Bool.eq_false_iff]
  intro hlist
  obtain ⟨us, rest, hsource, hus⟩ := isJsonList_iff.1 hlist
  -- the bracket begins a line, which has to be a token and would begin with a letter then
  obtain ⟨line, lines, hlines⟩ := exists_splitLines_cons (by decide : '[' ≠ '\n') rest
  have htrim : trim ('[' :: line) = '[' :: trimEnd line := trim_append_cons (by decide) [] line
  have hmem : String.ofList (trim ('[' :: line)) ∈ Circuit.tokenLines source := by
    rw [Circuit.tokenLines_eq, hsource, Circuit.tokenChars_blank_append hus, Circuit.tokenChars,
      hlines, List.map_cons, List.filter_cons_of_pos]
    · exact List.mem_cons_self ..
    · rw [htrim]
      exact Circuit.isTokenLine_cons (by decide) _
  obtain ⟨r, hr⟩ := Circuit.validate_eq_ok_iff.1 hvalid _ hmem
  obtain ⟨d, more, hd, -, -, hbracket⟩ := (Record.parse_ofList_iff.1 hr).exists_trim_cons
  rw [trim_trim, htrim] at hd
  exact hbracket (List.cons.inj hd).1.symm

/-- Lines that are not taken for a list are read as lines. -/
theorem read_lines (h : isJsonList source = false) : read .canonical source =
    ((Circuit.ofLines source).map canonical).mapError .token := by
  rw [read, readCanonical, h, if_neg Bool.false_ne_true]
  cases Circuit.ofLines source <;> rfl

end Document

/-- **The two forms of canonical files.** Lines that are a circuit are read as that circuit and not
taken for a list. Tokens that fit on lines are read as the same circuit from every text that they
are laid out in, such as the one that is written, and from every JSON list of them, such as the two
that are written. Lines that are no circuit are refused for the first one that has to be a token and
is none; the index of the error is the number of lines before it that are neither blank nor a
comment. -/
theorem canonical_sources_agree :
    (∀ source c, Circuit.ofLines source = .ok c →
      Document.isJsonList source = false ∧
        Document.read .canonical source = .ok (.canonical c)) ∧
    (∀ tokens : List String, (∀ t ∈ tokens, Circuit.FitsLine t) →
      (∀ lines : String, Circuit.LaidOut tokens lines.toList →
        Document.read .canonical lines = .ok (.canonical ⟨tokens⟩)) ∧
      Circuit.LaidOut tokens (Circuit.text ⟨tokens⟩).toList ∧
      (∀ list, Json.parse? list = some (Circuit.toJson ⟨tokens⟩) →
        Document.read .canonical list = .ok (.canonical ⟨tokens⟩)) ∧
      ∀ layout, Json.parse? ((Circuit.toJson ⟨tokens⟩).text layout) =
        some (Circuit.toJson ⟨tokens⟩)) ∧
    ∀ source e,
      (Circuit.ofLines source = .error e ↔ Circuit.FirstBadLine source e) ∧
      (Document.isJsonList source = false →
        (Document.read .canonical source = .error (.token e) ↔ Circuit.FirstBadLine source e)) := by
  have hlines {source c} (h : Circuit.ofLines source = .ok c) :
      Document.isJsonList source = false ∧
        Document.read .canonical source = .ok (.canonical c) := by
    have hlist := Document.isJsonList_of_ofLines h
    refine ⟨hlist, ?_⟩
    rw [Document.read_lines hlist, h]
    rfl
  refine ⟨fun _ _ => hlines, fun tokens htokens => ?_, fun source e =>
    ⟨Circuit.ofLines_eq_error_iff, fun hlist => ?_⟩⟩
  · have hvalid : Circuit.validate ⟨tokens⟩ = .ok () :=
      Circuit.validate_eq_ok_iff.2 fun t ht => (htokens t ht).parse
    refine ⟨fun lines hlaid => ?_, Circuit.laidOut_text ⟨tokens⟩, fun list hlist => ?_,
      fun layout => ?_⟩
    · refine (hlines (Circuit.ofLines_eq_ok_iff.2 ⟨?_, hvalid⟩)).2
      rw [hlaid.tokenLines htokens]
    · refine (Document.read_list_iff (Document.isJsonList_of_parse? hlist)).2 ⟨?_, hvalid⟩
      rw [hlist]
      exact Circuit.ofJson?_toJson ⟨tokens⟩
    · exact (Circuit.recoverable_toJson ⟨tokens⟩).parse?_text layout
  · rw [Document.read_lines hlist, ← Circuit.ofLines_eq_error_iff]
    cases Circuit.ofLines source <;> simp [Except.map, Except.mapError]

/-- Comments, blanks of other scripts, both ends of lines and none after the last token; a list on
two lines; and a token after a comment that is written like it. -/
theorem canonical_sources_agree_comments :
    let tokens := ["H(0)", "cx(0,\t1)"]
    let lines := "// [bell\r\n\n\u3000H(0)\r\n\tcx(0,\t1) "
    let list := " [\"H(0)\",\n\"cx(0,\\u00091)\"]"
    let refused := "H(0)\n\n // CX(0 1)\r\nCX(0 1)\nX"
    (∀ t ∈ tokens, Circuit.FitsLine t) ∧ Circuit.LaidOut tokens lines.toList ∧
      Circuit.ofLines lines = .ok ⟨tokens⟩ ∧ Document.isJsonList lines = false ∧
      Document.read .canonical lines = .ok (.canonical ⟨tokens⟩) ∧
      Json.parse? list = some (Circuit.toJson ⟨tokens⟩) ∧
      Document.read .canonical list = .ok (.canonical ⟨tokens⟩) ∧
      Document.isJsonList refused = false ∧
      ∃ e, e.index = 1 ∧ e.gate = "CX(0 1)" ∧ Circuit.FirstBadLine refused e ∧
        Document.read .canonical refused = .error (.token e) := by
  intro tokens lines list refused
  have hfits : ∀ t ∈ tokens, Circuit.FitsLine t := by
    have hparse : Circuit.validate ⟨tokens⟩ = .ok () := by decide +kernel
    exact fun t ht => ⟨Circuit.validate_eq_ok_iff.1 hparse t ht,
      (by decide +kernel : ∀ t ∈ tokens, '\n' ∉ t.toList) t ht,
      (by decide +kernel : ∀ t ∈ tokens, trim t.toList = t.toList) t ht⟩
  have hlaid : Circuit.LaidOut tokens lines.toList := by
    have hgap {c : Char} (hc : isBlank c ∧ c ≠ '\n') : Circuit.IsGap [c] :=
      List.forall_mem_singleton.2 hc
    have hparts : lines.toList = ([] ++ '/' :: '/' :: " [bell".toList) ++ '\r' :: '\n' ::
        ([] ++ '\n' :: ((['\u3000'] ++ ("H(0)".toList ++ [])) ++ '\r' :: '\n' ::
          (['\t'] ++ ("cx(0,\t1)".toList ++ [' '])))) := by decide +kernel
    rw [hparts]
    exact .carriageReturn (.comment Circuit.isGap_nil (by decide +kernel))
      (.lineFeed (.blank Circuit.isGap_nil)
        (.carriageReturn (.token "H(0)" (hgap (by decide)) Circuit.isGap_nil)
          (.last (.token "cx(0,\t1)" (hgap (by decide)) (hgap (by decide))))))
  have hlist : Json.parse? list = some (Circuit.toJson ⟨tokens⟩) := by cbv
  have hlines : Circuit.ofLines lines = .ok ⟨tokens⟩ := by decide +kernel
  have herror : Circuit.ofLines refused = .error
      ⟨1, "CX(0 1)", "CX(0 1)", .unexpected (.symbol .rightParen) (.integer 1)⟩ := by
    decide +kernel
  have hrefused : Document.isJsonList refused = false := by decide +kernel
  obtain ⟨hread, hforms, herrors⟩ := canonical_sources_agree
  obtain ⟨hofLines, -, hofList, -⟩ := hforms tokens hfits
  have hbad := (herrors refused _).1.1 herror
  exact ⟨hfits, hlaid, hlines, (hread lines _ hlines).1, hofLines lines hlaid, hlist,
    hofList list hlist, hrefused, _, rfl, rfl, hbad, ((herrors refused _).2 hrefused).2 hbad⟩

end CircuitExchange
